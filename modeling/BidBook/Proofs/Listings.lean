import BidBook.Proofs.Shapes

/-! # Keys that list several sequences

A key may list several sequences with commas between them. Such an entry stands for several entries, one
for each part of the key, all with the same value: they declare the same tree, number by number, and a
document is refused with the one if and only if it is refused with the others. Only in the rules of a
`define` mapping a comma is a part of the pattern.

* `verdict` — what comes of work, wherever and for what a document is refused.
* `verdict_buildEntries` — the path to a mapping makes no difference to that.
* `verdict_listing` — nor does it make a difference whether an entry lists its sequences.
* `Spread` — one entry somewhere in a document is replaced by several.
* `build_of_spread`, `not_build_of_spread_rule` — what comes of that, and what comes of it in a rule.
-/

namespace BidBook.Document

/-! ## What comes of work -/

/-- The limit that is exceeded; none if something has the wrong shape. -/
def Fault.limit? : Fault → Option Excess
  | .malformed _ => none
  | .beyond e => some e

/-- What comes of work, wherever and for what a document is refused. -/
def verdict {α : Type} (x : Except Fault α) : Except (Option Excess) α := x.mapError Fault.limit?

section Verdict

variable {α β : Type} {x y : Except Fault α} {f g : α → Except Fault β}

theorem verdict_bind (same : verdict x = verdict y) (later : ∀ a, verdict (f a) = verdict (g a)) :
    verdict (x >>= f) = verdict (y >>= g) := by
  cases x with
  | ok a =>
    cases y with
    | ok b =>
      cases same
      exact later a
    | error fault => cases same
  | error fault =>
    cases y with
    | ok b => cases same
    | error fault' => exact congrArg Except.error (Except.error.inj same)

theorem verdict_bind_right (x : Except Fault α) (later : ∀ a, verdict (f a) = verdict (g a)) :
    verdict (x >>= f) = verdict (x >>= g) := verdict_bind rfl later

theorem eq_ok_iff_of_verdict (same : verdict x = verdict y) (a : α) : x = .ok a ↔ y = .ok a := by
  rw [← mapError_eq_ok (f := Fault.limit?), ← mapError_eq_ok (x := y) (f := Fault.limit?)]
  exact Eq.congr_left same

theorem verdict_eq_error_none_iff : verdict x = .error none ↔ ∃ m, x = .error (.malformed m) := by
  rcases x with (m | e) | a <;> simp [verdict, Except.mapError, Fault.limit?]

theorem verdict_eq_error_some_iff {e : Excess} : verdict x = .error (some e) ↔ x = .error (.beyond e) := by
  rcases x with (m | e) | a <;> simp [verdict, Except.mapError, Fault.limit?]

end Verdict

/-! ## The parts of a key -/

/-- The texts between the commas of a key. -/
def parts (key : String) : List String := (Text.splitAt ',' key.toList).map String.ofList

/-- One entry for each part of a key, all with the same value. -/
def separate (key : String) (value : Value) : List (Value × Value) :=
  (parts key).map fun part => (.text part, value)

theorem parts_ne_nil (key : String) : parts key ≠ [] := by
  simpa [parts] using Text.splitAt_ne_nil ',' key.toList

/-- Every part lists itself, unless it is blank. -/
theorem flatMap_listed_parts (key : String) : (parts key).flatMap listed = listed key := by
  have whole : ∀ part ∈ Text.splitAt ',' key.toList, listed (String.ofList part) =
      if part.all Text.isBlank then [] else [String.ofList part] := by
    intro part member
    rw [listed, String.toList_ofList, Text.splitAt_of_not_mem (Text.not_mem_of_mem_splitAt member)]
    cases blank : part.all Text.isBlank <;> simp [blank]
  rw [parts, listed, List.flatMap_map]
  generalize Text.splitAt ',' key.toList = pieces at whole
  induction pieces with
  | nil => rfl
  | cons part pieces ih =>
    rw [List.forall_mem_cons] at whole
    rw [List.flatMap_cons, whole.1, ih whole.2, List.filter_cons]
    cases part.all Text.isBlank <;> rfl

/-- A key is none of the reserved ones if none of its parts is. -/
theorem not_mem_reserved {key : String} (plain : ∀ part ∈ parts key, part ∉ reserved) : key ∉ reserved := by
  have whole : ∀ word ∈ reserved, word ∈ parts word := by decide
  exact fun member => plain key (whole key member) member

/-! ## The path to an entry -/

variable {implied : Bool} {d : Draft} {work work' : Draft → Except Fault Draft}

theorem verdict_within (same : ∀ d, verdict (work d) = verdict (work' d)) (tokens : List Token) (d : Draft) :
    verdict (d.within tokens work) = verdict (d.within tokens work') :=
  verdict_bind (same _) fun _ => rfl

theorem verdict_atEach (same : ∀ d, verdict (work d) = verdict (work' d)) (texts : List String) (d : Draft) :
    verdict (atEach implied work texts d) = verdict (atEach implied work' texts d) := by
  induction texts generalizing d with
  | nil => rfl
  | cons text rest ih =>
    exact verdict_bind_right _ fun tokens =>
      verdict_bind (verdict_within (fun inner => same inner.declare) tokens d) ih

theorem atEach_append (xs ys : List String) (d : Draft) :
    atEach implied work (xs ++ ys) d = atEach implied work xs d >>= atEach implied work ys := by
  induction xs generalizing d with
  | nil => rfl
  | cons text xs ih =>
    rw [List.cons_append, atEach, atEach, bind_assoc]
    refine bind_congr fun tokens => ?_
    rw [bind_assoc]
    exact bind_congr fun next => ih next

section

variable [Pattern.Judge]

theorem definitionsOf_of_skipped {rule : Value × Value} (skipped : rule? rule = none) (path : String)
    (rest : List (Value × Value)) : definitionsOf path (rule :: rest) = definitionsOf path rest := by
  unfold rule? at skipped
  split at skipped
  · rw [definitionsOf]
  · next noPattern =>
    rw [definitionsOf]
    exact noPattern
  · cases skipped

theorem definitionsOf_of_kept {pattern replacement : Value} {s : Shorthand}
    (kept : rule? (pattern, replacement) = some s) (path : String) (rest : List (Value × Value)) :
    definitionsOf path ((pattern, replacement) :: rest) = (do
      let written ← textOf pattern
      if !(pattern.isScalar && replacement.isScalar) then
        refuse path (.definitionNotScalar pattern)
      checkPattern path written
      let replaced ← textOf replacement
      return ⟨written, replaced⟩ :: (← definitionsOf path rest)) := by
  unfold rule? at kept
  split at kept
  · cases kept
  · cases kept
  · next noPattern noReplacement eq =>
    cases eq
    rw [definitionsOf]
    · exact noPattern
    · exact noReplacement

theorem verdict_checkPattern (path path' pattern : String) :
    verdict (checkPattern path pattern) = verdict (checkPattern path' pattern) := by
  unfold checkPattern
  cases Pattern.Judge.verdict pattern <;> rfl

theorem verdict_definitionsOf_cons {path path' : String} {rest rest' : List (Value × Value)}
    (later : verdict (definitionsOf path rest) = verdict (definitionsOf path' rest'))
    (rule : Value × Value) :
    verdict (definitionsOf path (rule :: rest)) = verdict (definitionsOf path' (rule :: rest')) := by
  cases kept : rule? rule with
  | none => rw [definitionsOf_of_skipped kept, definitionsOf_of_skipped kept, later]
  | some s =>
    obtain ⟨pattern, replacement⟩ := rule
    rw [definitionsOf_of_kept kept, definitionsOf_of_kept kept]
    refine verdict_bind_right _ fun written => ?_
    split
    · rfl
    · refine verdict_bind (verdict_checkPattern path path' written) fun _ => ?_
      exact verdict_bind_right _ fun replaced => verdict_bind later fun _ => rfl

theorem verdict_definitionsOf (path path' : String) (rules : List (Value × Value)) :
    verdict (definitionsOf path rules) = verdict (definitionsOf path' rules) := by
  induction rules with
  | nil => rfl
  | cons rule rest ih => exact verdict_definitionsOf_cons ih rule

mutual

/-- The path to a mapping makes no difference to what comes of its entries. -/
theorem verdict_buildEntries (entries : List (Value × Value)) (implied : Bool) (path path' : String)
    (d : Draft) :
    verdict (buildEntries implied path entries d) = verdict (buildEntries implied path' entries d) := by
  match entries with
  | [] => rfl
  | (key, value) :: rest =>
    rw [buildEntries, buildEntries]
    refine verdict_bind_right _ fun text => ?_
    dsimp only
    -- the key may be refused or the value: either way the path is all that differs
    cases role? key with
    | none => rfl
    | some role =>
      exact verdict_bind (verdict_buildValue value implied _ _ role d) fun next =>
        verdict_buildEntries rest implied path path' next
termination_by sizeOf entries

theorem verdict_buildValue (value : Value) (implied : Bool) (path path' : String) (role : Role) (d : Draft) :
    verdict (buildValue implied path role value d) = verdict (buildValue implied path' role value d) := by
  match value with
  | .map entries =>
    rw [buildValue.eq_def, buildValue.eq_def]
    cases role with
    | definitions => exact verdict_bind (verdict_definitionsOf path path' entries) fun _ => rfl
    | scope implied key => exact verdict_buildEntries entries implied path path' d
    | steps _ _ | description => rfl
    | sequences texts =>
      exact verdict_atEach (fun inner => verdict_buildEntries entries true path path' inner) texts d
  | .list items | .tuple items =>
    rw [buildValue.eq_def, buildValue.eq_def]
    cases role with
    | steps implied key => exact verdict_within (verdict_buildSteps items path path' 0) _ d
    | definitions | scope _ _ | description | sequences _ => rfl
  | .null | .date _ | .bytes _ =>
    rw [buildValue.eq_def, buildValue.eq_def]
    cases role <;> rfl
  | .bool _ | .int _ | .float _ | .text _ =>
    rw [buildValue_of_isScalar rfl, buildValue_of_isScalar rfl]
    cases role <;> rfl
termination_by sizeOf value

theorem verdict_buildSteps (items : List Value) (path path' : String) (index : Nat) (d : Draft) :
    verdict (buildSteps path index items d) = verdict (buildSteps path' index items d) := by
  match items with
  | [] => rfl
  | .map entries :: rest =>
    rw [buildSteps, buildSteps, buildStep.eq_def, buildStep.eq_def]
    exact verdict_bind (verdict_buildEntries entries true _ _ _) fun step =>
      verdict_buildSteps rest path path' (index + 1) _
  | .null :: _ | .list _ :: _ | .tuple _ :: _ | .bytes _ :: _ | .date _ :: _ =>
    rw [buildSteps, buildSteps, buildStep.eq_def, buildStep.eq_def]
    rfl
  | .bool _ :: rest | .int _ :: rest | .float _ :: rest | .text _ :: rest =>
    rw [buildSteps, buildSteps, buildStep_of_isScalar rfl, buildStep_of_isScalar rfl]
    exact verdict_bind_right _ fun step => verdict_buildSteps rest path path' (index + 1) _
termination_by sizeOf items

end

/-! ## One entry and several -/

theorem buildEntries_append (xs ys : List (Value × Value)) (path : String) (d : Draft) :
    buildEntries implied path (xs ++ ys) d =
      buildEntries implied path xs d >>= buildEntries implied path ys := by
  induction xs generalizing d with
  | nil => rfl
  | cons e xs ih =>
    obtain ⟨key, value⟩ := e
    rw [List.cons_append, buildEntries, buildEntries, bind_assoc]
    refine bind_congr fun text => ?_
    dsimp only
    cases role? key with
    | none => rfl
    | some role =>
      rw [bind_assoc]
      exact bind_congr fun next => ih next

theorem buildEntries_text {s : String} (plain : s ∉ reserved) (value : Value)
    (rest : List (Value × Value)) (path : String) (d : Draft) :
    buildEntries implied path ((.text s, value) :: rest) d =
      buildValue implied (path ++ "/" ++ s) (.sequences (listed s)) value d >>=
        buildEntries implied path rest := by
  have shown : textOf (.text s) = .ok s := rfl
  rw [buildEntries, shown, (SequenceKey.text plain).role?_eq]
  rfl

/-- A value of sequences is refused for its shape, or else it is the same work at the end of each. -/
theorem buildValue_sequences (implied : Bool) (value : Value) :
    (∀ path texts d, buildValue implied path (.sequences texts) value d = refuse path .entryWithoutShape) ∨
      ∀ path, ∃ work, ∀ texts d,
        buildValue implied path (.sequences texts) value d = atEach implied work texts d := by
  cases value with
  | list _ | tuple _ | bytes _ | date _ => exact .inl fun path texts d => by rw [buildValue.eq_def]; rfl
  | map entries => exact .inr fun path => ⟨_, fun texts d => by rw [buildValue.eq_def]⟩
  | null => exact .inr fun path => ⟨_, fun texts d => by rw [buildValue.eq_def]⟩
  | bool _ | int _ | float _ | text _ =>
    exact .inr fun path => ⟨_, fun texts d => by rw [buildValue_of_isScalar rfl]⟩

/-- An entry that lists several sequences does what an entry for each of them does. -/
theorem verdict_listing {key : String} (plain : ∀ part ∈ parts key, part ∉ reserved) (value : Value)
    (rest : List (Value × Value)) (path : String) (d : Draft) :
    verdict (buildEntries implied path ((.text key, value) :: rest) d) =
      verdict (buildEntries implied path (separate key value ++ rest) d) := by
  rw [buildEntries_text (not_mem_reserved plain), ← flatMap_listed_parts]
  rcases buildValue_sequences implied value with refused | worked
  · -- the first entry is refused as the whole is
    obtain ⟨part, others, eq⟩ := List.exists_cons_of_ne_nil (parts_ne_nil key)
    rw [separate, eq, List.map_cons, List.cons_append,
      buildEntries_text (plain part (eq ▸ List.mem_cons_self)), refused, refused]
    rfl
  · obtain ⟨work, same⟩ := worked (path ++ "/" ++ key)
    rw [same, separate]
    generalize parts key = pieces at plain
    induction pieces generalizing d with
    | nil => rfl
    | cons part pieces ih =>
      rw [List.forall_mem_cons] at plain
      rw [List.flatMap_cons, atEach_append, bind_assoc, List.map_cons, List.cons_append,
        buildEntries_text plain.1]
      refine verdict_bind ?_ fun next => ih next plain.2
      rw [← same]
      exact verdict_buildValue value implied _ _ _ d

/-! ## Anywhere in a document -/

/-- One entry somewhere in a value is replaced by an entry for each part of its key. The flag says whether the
value is the rules of definitions: their keys are patterns, and they are left alone. -/
inductive Spread : Bool → Value → Value → Prop where
  | entry {key : String} (plain : ∀ part ∈ parts key, part ∉ reserved) (value : Value)
      (before after : List (Value × Value)) :
      Spread false (.map (before ++ (.text key, value) :: after))
        (.map (before ++ separate key value ++ after))
  | value {rules : Bool} {key value value' : Value}
      (spread : Spread (!rules && key.isText "define") value value') (before after : List (Value × Value)) :
      Spread rules (.map (before ++ (key, value) :: after)) (.map (before ++ (key, value') :: after))
  | listItem {rules : Bool} {item item' : Value} (spread : Spread false item item')
      (before after : List Value) :
      Spread rules (.list (before ++ item :: after)) (.list (before ++ item' :: after))
  | tupleItem {rules : Bool} {item item' : Value} (spread : Spread false item item')
      (before after : List Value) :
      Spread rules (.tuple (before ++ item :: after)) (.tuple (before ++ item' :: after))

variable {value value' item item' : Value}

/-- A value that contains others. -/
def Compound (value : Value) : Prop := value.isScalar = false ∧ value ≠ .null

omit [Pattern.Judge] in
theorem Spread.compound {rules : Bool} (spread : Spread rules value value') :
    Compound value ∧ Compound value' := by
  cases spread <;> exact ⟨⟨rfl, nofun⟩, ⟨rfl, nofun⟩⟩

/-- A rule with a compound side is refused, or skipped for its other side, whatever is inside. -/
theorem verdict_definitionsOf_compound (compound : Compound value) (compound' : Compound value')
    (key : Value) (before after : List (Value × Value)) (path : String) :
    verdict (definitionsOf path (before ++ (key, value) :: after)) =
      verdict (definitionsOf path (before ++ (key, value') :: after)) := by
  induction before with
  | nil =>
    by_cases null : key = .null
    · rw [null, List.nil_append, List.nil_append, definitionsOf_of_skipped rfl, definitionsOf_of_skipped rfl]
    · have kept : ∀ {side : Value}, Compound side → ∃ s, rule? (key, side) = some s := by
        intro side inside
        unfold rule?
        split
        · next eq => cases eq; exact absurd rfl null
        · next eq => cases eq; exact absurd rfl inside.2
        · exact ⟨_, rfl⟩
      obtain ⟨s, rule⟩ := kept compound
      obtain ⟨s', rule'⟩ := kept compound'
      rw [List.nil_append, List.nil_append, definitionsOf_of_kept rule, definitionsOf_of_kept rule',
        compound.1, compound'.1, Bool.and_false]
      exact verdict_bind_right _ fun written => rfl
  | cons rule before ih =>
    rw [List.cons_append, List.cons_append]
    exact verdict_definitionsOf_cons ih rule

theorem verdict_buildSteps_item
    (same : ∀ path d, verdict (buildStep path item d) = verdict (buildStep path item' d))
    (before after : List Value) (path : String) (index : Nat) (d : Draft) :
    verdict (buildSteps path index (before ++ item :: after) d) =
      verdict (buildSteps path index (before ++ item' :: after) d) := by
  induction before generalizing index d with
  | nil =>
    rw [List.nil_append, List.nil_append, buildSteps, buildSteps]
    exact verdict_bind (same _ _) fun step => rfl
  | cons first before ih =>
    rw [List.cons_append, List.cons_append, buildSteps, buildSteps]
    exact verdict_bind_right _ fun step => ih _ _

theorem verdict_buildEntries_value {key : Value} (same : ∀ implied path role d, role? key = some role →
      verdict (buildValue implied path role value d) = verdict (buildValue implied path role value' d))
    (before after : List (Value × Value)) (implied : Bool) (path : String) (d : Draft) :
    verdict (buildEntries implied path (before ++ (key, value) :: after) d) =
      verdict (buildEntries implied path (before ++ (key, value') :: after) d) := by
  rw [buildEntries_append, buildEntries_append]
  refine verdict_bind_right _ fun next => ?_
  rw [buildEntries, buildEntries]
  refine verdict_bind_right _ fun text => ?_
  dsimp only
  cases known : role? key with
  | none => rfl
  | some role => exact verdict_bind (same _ _ _ _ known) fun next => rfl

/-- What has to come out the same of two values, for the flag of `Spread`. -/
def SameWork : Bool → Value → Value → Prop
  | true, value, value' => ∀ implied path d,
    verdict (buildValue implied path .definitions value d) =
      verdict (buildValue implied path .definitions value' d)
  | false, value, value' =>
    (∀ implied path role d, role ≠ .definitions →
      verdict (buildValue implied path role value d) = verdict (buildValue implied path role value' d)) ∧
    ∀ path d, verdict (buildStep path value d) = verdict (buildStep path value' d)

theorem sameWork_map {entries entries' : List (Value × Value)} (same : ∀ implied path d,
      verdict (buildEntries implied path entries d) = verdict (buildEntries implied path entries' d)) :
    SameWork false (.map entries) (.map entries') := by
  refine ⟨fun implied path role d noRules => ?_, fun path d => ?_⟩
  · rw [buildValue.eq_def, buildValue.eq_def]
    cases role with
    | definitions => exact absurd rfl noRules
    | scope implied key => exact same implied path d
    | steps _ _ | description => rfl
    | sequences texts => exact verdict_atEach (fun inner => same true path inner) texts d
  · rw [buildStep.eq_def, buildStep.eq_def]
    exact same true path d

theorem sameWork_items {items items' : List Value} (same : ∀ path d,
      verdict (buildSteps path 0 items d) = verdict (buildSteps path 0 items' d)) (rules : Bool) :
    SameWork rules (.list items) (.list items') ∧ SameWork rules (.tuple items) (.tuple items') := by
  cases rules with
  | true =>
    constructor <;>
    · intro implied path d
      rw [buildValue.eq_def, buildValue.eq_def]
  | false =>
    constructor <;>
    · refine ⟨fun implied path role d _ => ?_, fun path d => ?_⟩
      · rw [buildValue.eq_def, buildValue.eq_def]
        cases role with
        | steps implied key => exact verdict_within (same path) _ d
        | definitions | scope _ _ | description | sequences _ => rfl
      · rw [buildStep.eq_def, buildStep.eq_def]
        rfl

theorem Spread.sameWork {rules : Bool} (spread : Spread rules value value') : SameWork rules value value' := by
  induction spread with
  | entry plain value before after =>
    refine sameWork_map fun implied path d => ?_
    rw [List.append_assoc, buildEntries_append, buildEntries_append]
    exact verdict_bind_right _ fun next => verdict_listing plain value after path next
  | @value rules key value value' spread before after ih =>
    cases rules with
    | true =>
      intro implied path d
      rw [buildValue.eq_def, buildValue.eq_def]
      exact verdict_bind (verdict_definitionsOf_compound spread.compound.1 spread.compound.2 key before after path)
        fun ss => rfl
    | false =>
      refine sameWork_map (verdict_buildEntries_value (fun implied path role d known => ?_) before after)
      -- only the key of definitions has that role, and it is the one whose rules are left alone
      cases define : key.isText "define" with
      | true =>
        obtain rfl := Value.isText_iff.1 define
        cases known
        exact ih implied path d
      | false =>
        rw [define] at ih
        refine ih.1 implied path role d ?_
        rintro rfl
        obtain rfl : key = .text "define" := key_of_role? known
        cases define
  | listItem spread before after ih =>
    exact (sameWork_items (fun path d => verdict_buildSteps_item ih.2 before after path 0 d) _).1
  | tupleItem spread before after ih =>
    exact (sameWork_items (fun path d => verdict_buildSteps_item ih.2 before after path 0 d) _).2

theorem verdict_build {document document' : Value} (spread : Spread false document document')
    (shorthands : List Shorthand) :
    verdict (build shorthands document) = verdict (build shorthands document') := by
  have same := spread.sameWork.1 false "" (.scope false "") ⟨.root shorthands, 0⟩ nofun
  cases spread with
  | entry _ _ _ _ | value _ _ _ =>
    rw [buildValue.eq_def, buildValue.eq_def] at same
    exact same
  | listItem _ _ _ | tupleItem _ _ _ => rfl

/-- An entry that lists several sequences may be replaced by one entry for each of them, wherever in a
document it stands: both declare the same tree with the same number of declarations, or both are refused,
for a wrong shape or for the same limit. -/
theorem build_of_spread {document document' : Value} (spread : Spread false document document')
    (shorthands : List Shorthand) :
    (∀ draft, build shorthands document = .ok draft ↔ build shorthands document' = .ok draft) ∧
    ((∃ m, build shorthands document = .error (.malformed m)) ↔
      ∃ m, build shorthands document' = .error (.malformed m)) ∧
    ∀ e, build shorthands document = .error (.beyond e) ↔ build shorthands document' = .error (.beyond e) := by
  have same := verdict_build spread shorthands
  refine ⟨eq_ok_iff_of_verdict same, ?_, fun e => ?_⟩
  · rw [← verdict_eq_error_none_iff, same, verdict_eq_error_none_iff]
  · rw [← verdict_eq_error_some_iff, same, verdict_eq_error_some_iff]

end

/-- Relay steps with one entry for three sequences, of which one is blank and one is there already. -/
def listedRelays (entries : List (Value × Value)) : Value :=
  .map [(.text "1NT", .map [(.text "-steps", .list [.map ((.text "2C", .text "range") :: entries)])])]

theorem build_of_spread_listedRelays : ∃ draft,
    Spread false (listedRelays [(.text "2D, ,2C-2H", .text "natural")])
      (listedRelays [(.text "2D", .text "natural"), (.text " ", .text "natural"),
        (.text "2C-2H", .text "natural")]) ∧
    build [] (listedRelays [(.text "2D, ,2C-2H", .text "natural")]) = .ok draft ∧
    build [] (listedRelays [(.text "2D", .text "natural"), (.text " ", .text "natural"),
        (.text "2C-2H", .text "natural")]) = .ok draft ∧ draft.declared = 7 := by
  have spread : Spread false (listedRelays [(.text "2D, ,2C-2H", .text "natural")])
      (listedRelays [(.text "2D", .text "natural"), (.text " ", .text "natural"),
        (.text "2C-2H", .text "natural")]) :=
    .value (.value (.listItem (.entry (by decide) (.text "natural") [(.text "2C", .text "range")] []) [] []) [] [])
      [] []
  obtain ⟨draft, built, declared⟩ := exists_draft (listedRelays [(.text "2D, ,2C-2H", .text "natural")])
    (fun draft => draft.declared = 7) (by decide +kernel)
  exact ⟨draft, spread, built, ((build_of_spread spread []).1 draft).1 built, of_decide_eq_true declared⟩

/-- In a rule of definitions a comma is a part of the pattern. -/
theorem not_build_of_spread_rule : ¬ ∀ (key : String) (value : Value) (before after : List (Value × Value)),
    (∀ part ∈ parts key, part ∉ reserved) → ∀ draft,
      build [] (.map [(.text "define", .map (before ++ (.text key, value) :: after))]) = .ok draft ↔
        build [] (.map [(.text "define", .map (before ++ separate key value ++ after))]) = .ok draft := by
  intro law
  obtain ⟨draft, built, one⟩ := exists_draft
    (.map [(.text "define", .map [(.text "a,b", .text "x")])])
    (fun draft => draft.node.content.glossary.size = 1) (by decide +kernel)
  obtain ⟨draft', built', two⟩ := exists_draft
    (.map [(.text "define", .map (separate "a,b" (.text "x")))])
    (fun draft => draft.node.content.glossary.size = 2) (by decide +kernel)
  have same := (law "a,b" (.text "x") [] [] (by decide) draft).1 built
  rw [List.nil_append, List.append_nil, built'] at same
  cases same
  exact absurd ((of_decide_eq_true one).symm.trans (of_decide_eq_true two)) (by decide)

end BidBook.Document

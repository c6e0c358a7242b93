import BidBook.Proofs.Declarations

/-! # Findings in a document

There may be many things in a document for which it could be refused. It is refused for the first that is
found on the way through it, in its own order.

* `Finding` — an objection, with the path to what it is about.
* `findings` — all of them, in the order of the document.
* `Meets` — work fails with the first finding, and succeeds if there is none.
* `meets_build` — so does declaring a tree.
-/

namespace BidBook

/-! ## Numerals that are too long -/

variable {e : Excess}

theorem Excess.eq_numeral_of_ofNumeral? {digits : List Char} (exceeded : ofNumeral? digits = some e) :
    e = .numeral := by
  rw [ofNumeral?, Option.ite_none_right_eq_some] at exceeded
  exact (Option.some.inj exceeded.2).symm

/-- Reading a call exceeds no limit but that of numerals. -/
theorem Token.eq_numeral_of_excess? {raw : String} (exceeded : excess? raw = some e) : e = .numeral := by
  have single {cs : List Char} (exceeded : excessOf? cs = some e) : e = .numeral := by
    rw [excessOf?, Option.ite_none_left_eq_some] at exceeded
    exact Excess.eq_numeral_of_ofNumeral? exceeded.2
  rw [excess?] at exceeded
  split at exceeded
  · obtain ⟨cs, _, exceeded⟩ := List.exists_of_findSome?_eq_some exceeded
    exact single exceeded
  · exact single exceeded

namespace Value

mutual

/-- Nor does writing a value. -/
theorem eq_numeral_of_excess? (v : Value) (exceeded : v.excess? = some e) : e = .numeral := by
  cases v with
  | int i =>
    rw [excess?, Option.ite_none_right_eq_some] at exceeded
    exact (Option.some.inj exceeded.2).symm
  | list items | tuple items => exact eq_numeral_of_excessItems? items exceeded
  | map entries => exact eq_numeral_of_excessEntries? entries exceeded
  | null | bool _ | float _ | text _ | bytes _ | date _ => cases exceeded

theorem eq_numeral_of_excessItems? (items : List Value) (exceeded : excessItems? items = some e) :
    e = .numeral := by
  match items with
  | [] => cases exceeded
  | item :: rest =>
    rw [excessItems?, Option.or_eq_some_iff] at exceeded
    rcases exceeded with exceeded | ⟨_, exceeded⟩
    · exact eq_numeral_of_excess? item exceeded
    · exact eq_numeral_of_excessItems? rest exceeded

theorem eq_numeral_of_excessEntries? (entries : List (Value × Value))
    (exceeded : excessEntries? entries = some e) : e = .numeral := by
  match entries with
  | [] => cases exceeded
  | (key, value) :: rest =>
    rw [excessEntries?, Option.or_eq_some_iff, Option.or_eq_some_iff] at exceeded
    rcases exceeded with (exceeded | ⟨_, exceeded⟩) | ⟨_, exceeded⟩
    · exact eq_numeral_of_excess? key exceeded
    · exact eq_numeral_of_excess? value exceeded
    · exact eq_numeral_of_excessEntries? rest exceeded

end

end Value

namespace Document

/-! ## Findings -/

/-- One step of the way to a part of a document. -/
inductive Segment where
  | key (key : Value)
  | item (index : Nat)

/-- A path as it is written: keys behind slashes, and the numbers of relay steps in brackets. -/
def pathOf : List Segment → String
  | [] => ""
  | .key key :: rest => "/" ++ key.shown ++ pathOf rest
  | .item index :: rest => s!"[{index}]" ++ pathOf rest

theorem pathOf_append (path rest : List Segment) : pathOf (path ++ rest) = pathOf path ++ pathOf rest := by
  induction path with
  | nil => exact (String.empty_append).symm
  | cons segment path ih =>
    cases segment <;> simp only [List.cons_append, pathOf, ih, String.append_assoc]

theorem pathOf_key (path : List Segment) (key : Value) :
    pathOf (path ++ [.key key]) = pathOf path ++ "/" ++ key.shown := by
  rw [pathOf_append, pathOf, pathOf, String.append_empty, String.append_assoc]

theorem pathOf_item (path : List Segment) (index : Nat) :
    pathOf (path ++ [.item index]) = s!"{pathOf path}[{index}]" := by
  rw [pathOf_append, pathOf, pathOf, String.append_empty]
  simp only [String.append_assoc]
  rfl

variable [Pattern.Judge]

/-- What there is to be said against a part of a document. -/
inductive Objection where
  /-- It has not the right shape. -/
  | offence (what : Malformation)
  /-- A pattern is given up instead of judged. -/
  | unread (pattern : String) (e : Excess) (givenUp : Pattern.Judge.verdict pattern = .givenUp e)
  /-- A numeral is too long to be written or read. -/
  | long

/-- An objection, and the path to what it is about. -/
structure Finding where
  path : List Segment
  objection : Objection

/-- What a document is refused with. -/
def Finding.fault (f : Finding) : Fault :=
  match f.objection with
  | .offence what => .malformed ⟨pathOf f.path, what⟩
  | .unread _ e _ => .beyond e
  | .long => .beyond .numeral

def Role.offence : Role → Malformation
  | .definitions => .definitionsNotMapping
  | .scope _ key => .scopeNotMapping key
  | .steps _ key => .stepsNotSequence key
  | .description => .descriptionNotScalar
  | .sequences _ => .entryWithoutShape

/-- The limit that a numeral at a path exceeds, if it does. -/
def limitFindings (path : List Segment) (e? : Option Excess) : List Finding :=
  e?.toList.map fun _ => ⟨path, .long⟩

/-- Why a text is no pattern. -/
def patternFindings (path : List Segment) (pattern : String) : List Finding :=
  match verdict : Pattern.Judge.verdict pattern with
  | .pattern => []
  | .noPattern => [⟨path, .offence (.definitionNotPattern pattern)⟩]
  | .givenUp e => [⟨path, .unread pattern e verdict⟩]

def ruleFindings (path : List Segment) : Value × Value → List Finding
  | (.null, _) => []
  | (_, .null) => []
  | (pattern, replacement) =>
    limitFindings path pattern.excess? ++
      if pattern.isScalar && replacement.isScalar then
        patternFindings path pattern.shown ++ limitFindings path replacement.excess?
      else [⟨path, .offence (.definitionNotScalar pattern)⟩]

def sequenceFindings (path : List Segment) (text : String) : List Finding :=
  limitFindings path ((Sequence.split text).findSome? Token.excess?)

mutual

def entryFindings (path : List Segment) : List (Value × Value) → List Finding
  | [] => []
  | (key, value) :: rest =>
    (limitFindings (path ++ [.key key]) key.excess? ++
      match role? key with
      | none => [⟨path ++ [.key key], .offence (.keyNotSequence key)⟩]
      | some role => valueFindings (path ++ [.key key]) role value) ++ entryFindings path rest

def valueFindings (path : List Segment) (role : Role) : Value → List Finding
  | .map entries =>
    match role with
    | .definitions => entries.flatMap (ruleFindings path)
    | .scope _ _ => entryFindings path entries
    | .sequences texts => texts.flatMap fun text => sequenceFindings path text ++ entryFindings path entries
    | role => [⟨path, .offence role.offence⟩]
  | .list items =>
    match role with
    | .steps _ _ => itemFindings path 0 items
    | role => [⟨path, .offence role.offence⟩]
  | .tuple items =>
    match role with
    | .steps _ _ => itemFindings path 0 items
    | role => [⟨path, .offence role.offence⟩]
  | .bytes _ =>
    match role with
    | .steps _ _ => []
    | role => [⟨path, .offence role.offence⟩]
  | .null =>
    match role with
    | .definitions | .description => []
    | .sequences texts => texts.flatMap (sequenceFindings path)
    | role => [⟨path, .offence role.offence⟩]
  | value =>
    match role with
    | .description =>
      if value.isScalar then limitFindings path value.excess? else [⟨path, .offence role.offence⟩]
    | .sequences texts =>
      if value.isScalar then
        texts.flatMap fun text => sequenceFindings path text ++ limitFindings path value.excess?
      else [⟨path, .offence role.offence⟩]
    | role => [⟨path, .offence role.offence⟩]

def itemFindings (path : List Segment) : Nat → List Value → List Finding
  | _, [] => []
  | index, item :: rest => itemFinding (path ++ [.item index]) item ++ itemFindings path (index + 1) rest

def itemFinding (path : List Segment) : Value → List Finding
  | .map entries => entryFindings path entries
  | value =>
    if value.isScalar then limitFindings path value.excess? else [⟨path, .offence .stepWithoutShape⟩]

end

/-- All findings in a document, in its own order. -/
def findings : Value → List Finding
  | .map entries => entryFindings [] entries
  | value => [⟨[], .offence (.rootNotMapping value)⟩]

/-! ## Refusing for the first finding -/

/-- Work fails with the first finding, and succeeds if there is none. -/
def Meets {α : Type} (fs : List Finding) (x : Except Fault α) : Prop :=
  match fs with
  | [] => ∃ a, x = .ok a
  | f :: _ => x = .error f.fault

namespace Meets

variable {α β : Type} {fs gs : List Finding} {x : Except Fault α} {path : List Segment}

theorem ok (a : α) : Meets [] (.ok a : Except Fault α) := ⟨a, rfl⟩

theorem bind {g : α → Except Fault β} (first : Meets fs x) (later : ∀ a, x = .ok a → Meets gs (g a)) :
    Meets (fs ++ gs) (x >>= g) := by
  cases fs with
  | nil =>
    obtain ⟨a, rfl⟩ := first
    exact later a rfl
  | cons f fs =>
    rw [Meets] at first
    rw [first]
    exact rfl

theorem map (g : α → β) (meets : Meets fs x) : Meets fs (x.map g) := by
  cases fs with
  | nil =>
    obtain ⟨a, rfl⟩ := meets
    exact ⟨g a, rfl⟩
  | cons f fs =>
    rw [Meets] at meets
    rw [meets]
    exact rfl

end Meets

variable {d : Draft} {path : List Segment} {work : Draft → Except Fault Draft} {fs : List Finding}

theorem meets_textOf (path : List Segment) (v : Value) : Meets (limitFindings path v.excess?) (textOf v) := by
  rw [textOf, Value.render]
  cases exceeded : v.excess? with
  | none => exact .ok v.shown
  | some e =>
    obtain rfl := v.eq_numeral_of_excess? exceeded
    exact rfl

theorem meets_sequenceTokens (path : List Segment) (implied : Bool) (text : String) :
    Meets (sequenceFindings path text) (sequenceTokens implied text) := by
  have pass : Token.excess? "P" = none := by decide
  -- an implied pass is always read
  have same : ((if implied then ["P"] else []) ++ Sequence.split text).findSome? Token.excess? =
      (Sequence.split text).findSome? Token.excess? := by
    cases implied with
    | false => rfl
    | true => rw [if_pos rfl, List.singleton_append, List.findSome?_cons, pass]
  rw [sequenceFindings, sequenceTokens, readAll_eq, same]
  cases exceeded : (Sequence.split text).findSome? Token.excess? with
  | none => exact .ok _
  | some e =>
    obtain ⟨raw, _, exceeded⟩ := List.exists_of_findSome?_eq_some exceeded
    obtain rfl := Token.eq_numeral_of_excess? exceeded
    exact rfl

theorem meets_within {tokens : List Token} (meets : ∀ d, Meets fs (work d)) (d : Draft) :
    Meets fs (d.within tokens work) := by
  rw [← List.append_nil fs]
  exact (meets _).bind fun inner _ => .ok _

theorem meets_atEach {implied : Bool} (meets : ∀ d, Meets fs (work d)) (texts : List String) (d : Draft) :
    Meets (texts.flatMap fun text => sequenceFindings path text ++ fs) (atEach implied work texts d) := by
  induction texts generalizing d with
  | nil => exact .ok d
  | cons text rest ih =>
    rw [List.flatMap_cons, List.append_assoc, atEach]
    refine (meets_sequenceTokens path implied text).bind fun tokens _ => ?_
    exact (meets_within (fun inner => meets inner.declare) d).bind fun d _ => ih d

theorem meets_checkPattern (path : List Segment) (pattern : String) :
    Meets (patternFindings path pattern) (checkPattern (pathOf path) pattern) := by
  -- a finding holds the verdict it is about, so rewriting with the verdict would not type-check
  unfold patternFindings
  split
  · next verdict =>
    rw [checkPattern, verdict]
    exact .ok ()
  · next verdict =>
    rw [checkPattern, verdict]
    exact rfl
  · next e verdict =>
    have givenUp : checkPattern (pathOf path) pattern = .error (.beyond e) := by rw [checkPattern, verdict]
    exact givenUp

theorem meets_definitionsOf (path : List Segment) (entries : List (Value × Value)) :
    Meets (entries.flatMap (ruleFindings path)) (definitionsOf (pathOf path) entries) := by
  fun_induction definitionsOf (pathOf path) entries with
  | case1 => exact .ok []
  | case2 rest replacement ih => exact ih
  | case3 pattern rest notNull ih =>
    have skipped : ruleFindings path (pattern, .null) = [] := by cases pattern <;> rfl
    rw [List.flatMap_cons, skipped]
    exact ih
  | case4 rest pattern replacement noPattern noReplacement ih =>
    have rule : ruleFindings path (pattern, replacement) = limitFindings path pattern.excess? ++
        if pattern.isScalar && replacement.isScalar then
          patternFindings path pattern.shown ++ limitFindings path replacement.excess?
        else [⟨path, .offence (.definitionNotScalar pattern)⟩] := by
      unfold ruleFindings
      split
      · next eq => cases eq; exact absurd rfl noPattern
      · next eq => cases eq; exact absurd rfl noReplacement
      · next eq => cases eq; rfl
    rw [List.flatMap_cons, rule, List.append_assoc]
    refine (meets_textOf path pattern).bind fun written shown => ?_
    cases scalars : pattern.isScalar && replacement.isScalar with
    | false => exact rfl
    | true =>
      rw [textOf_eq_ok shown, if_pos rfl, List.append_assoc]
      refine (meets_checkPattern path _).bind fun _ _ => ?_
      refine (meets_textOf path replacement).bind fun replaced _ => ?_
      rw [← List.append_nil (List.flatMap _ rest)]
      exact ih.bind fun _ _ => .ok _

theorem meets_noSequence (path : List Segment) (role : Role) :
    Meets [⟨path, .offence role.offence⟩] (buildValue.noSequence (pathOf path) role) := by
  cases role <;> exact rfl

theorem valueFindings_of_isScalar {value : Value} (scalar : value.isScalar = true) (path : List Segment)
    (role : Role) : valueFindings path role value =
      match role with
      | .description => limitFindings path value.excess?
      | .sequences texts =>
        texts.flatMap fun text => sequenceFindings path text ++ limitFindings path value.excess?
      | role => [⟨path, .offence role.offence⟩] := by
  cases value with
  | null | bytes _ | date _ | list _ | tuple _ | map _ => cases scalar
  | bool _ | int _ | float _ | text _ => cases role <;> rfl

theorem meets_scalar {value : Value} (scalar : value.isScalar = true) (implied : Bool)
    (path : List Segment) (role : Role) (d : Draft) :
    Meets (valueFindings path role value) (buildValue implied (pathOf path) role value d) := by
  rw [buildValue_of_isScalar scalar, valueFindings_of_isScalar scalar]
  cases role with
  | definitions | scope _ _ | steps _ _ => exact rfl
  | description => exact (meets_textOf path value).map _
  | sequences texts => exact meets_atEach (fun inner => (meets_textOf path value).map _) texts d

theorem itemFinding_of_isScalar {item : Value} (scalar : item.isScalar = true) (path : List Segment) :
    itemFinding path item = limitFindings path item.excess? := by
  cases item with
  | null | bytes _ | date _ | list _ | tuple _ | map _ => cases scalar
  | bool _ | int _ | float _ | text _ => rfl

theorem meets_buildStep {item : Value} {path : List Segment} (ofMap : ∀ entries, item = .map entries →
      Meets (entryFindings path entries) (buildEntries true (pathOf path) entries d)) :
    Meets (itemFinding path item) (buildStep (pathOf path) item d) := by
  cases scalar : item.isScalar with
  | true =>
    rw [buildStep_of_isScalar scalar, itemFinding_of_isScalar scalar]
    exact (meets_textOf path item).map _
  | false =>
    cases item with
    | map entries =>
      rw [buildStep.eq_def]
      exact ofMap entries rfl
    | null | list _ | tuple _ | bytes _ | date _ =>
      rw [buildStep.eq_def]
      exact rfl
    | bool _ | int _ | float _ | text _ => cases scalar

mutual

theorem meets_buildEntries (entries : List (Value × Value)) (implied : Bool) (path : List Segment)
    (d : Draft) :
    Meets (entryFindings path entries) (buildEntries implied (pathOf path) entries d) := by
  match entries with
  | [] => exact .ok d
  | (key, value) :: rest =>
    rw [entryFindings, buildEntries, List.append_assoc]
    refine (meets_textOf (path ++ [.key key]) key).bind fun text shown => ?_
    rw [textOf_eq_ok shown, ← pathOf_key]
    dsimp only
    cases role? key with
    | none => exact rfl
    | some role =>
      exact (meets_buildValue value implied _ role d).bind fun next _ =>
        meets_buildEntries rest implied path next
termination_by sizeOf entries

theorem meets_buildValue (value : Value) (implied : Bool) (path : List Segment) (role : Role) (d : Draft) :
    Meets (valueFindings path role value) (buildValue implied (pathOf path) role value d) := by
  match value with
  | .map entries =>
    rw [buildValue.eq_def]
    cases role with
    | definitions =>
      rw [valueFindings, ← List.append_nil (List.flatMap _ entries)]
      exact (meets_definitionsOf path entries).bind fun _ _ => .ok _
    | scope implied key => exact meets_buildEntries entries implied path d
    | steps _ _ | description => exact rfl
    | sequences texts =>
      exact meets_atEach (fun inner => meets_buildEntries entries true path inner) texts d
  | .list items | .tuple items =>
    rw [buildValue.eq_def]
    cases role with
    | steps implied key => exact meets_within (meets_buildSteps items path 0) d
    | definitions | scope _ _ | description | sequences _ => exact meets_noSequence path _
  | .bytes bs =>
    rw [buildValue.eq_def]
    cases role with
    | steps implied key => exact meets_within (fun inner => .ok _) d
    | definitions | scope _ _ | description | sequences _ => exact rfl
  | .null =>
    rw [buildValue.eq_def]
    cases role with
    | definitions => exact .ok _
    | scope _ _ | steps _ _ => exact rfl
    | description => exact .ok d
    | sequences texts =>
      have visited : Meets (texts.flatMap fun text => sequenceFindings path text ++ [])
          (atEach implied .ok texts d) := meets_atEach Meets.ok texts d
      simp only [List.append_nil] at visited
      exact visited
  | .date _ =>
    rw [buildValue.eq_def]
    cases role <;> exact rfl
  | .bool _ | .int _ | .float _ | .text _ => exact meets_scalar rfl implied path role d
termination_by sizeOf value

theorem meets_buildSteps (items : List Value) (path : List Segment) (index : Nat) (d : Draft) :
    Meets (itemFindings path index items) (buildSteps (pathOf path) index items d) := by
  match items with
  | [] => exact .ok d
  | item :: rest =>
    rw [itemFindings, buildSteps, ← pathOf_item]
    refine Meets.bind (meets_buildStep fun entries _ => ?_) fun step _ =>
      meets_buildSteps rest path (index + 1) _
    exact meets_buildEntries entries true _ _
termination_by sizeOf items
decreasing_by
  · subst item
    simp
    omega
  · simp only [List.cons.sizeOf_spec]
    omega

end

/-- A document is refused for the first finding in it, and declares a tree if there is none. -/
theorem meets_build (shorthands : List Shorthand) (document : Value) :
    Meets (findings document) (build shorthands document) := by
  cases document with
  | map entries => exact meets_buildEntries entries false [] _
  | null | bool _ | int _ | float _ | text _ | bytes _ | date _ | list _ | tuple _ => exact rfl

end Document

end BidBook

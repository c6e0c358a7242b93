import BidBook.Proofs.Findings

/-! # Shapes of documents

A document declares a tree if every entry that is reached has the shape that its key asks for and no limit
is exceeded.

* `WellShaped` — the shape of a document, by the entries of its mappings.
* `entryShape_iff` — the shape of an entry, by the role of its key.
* `wellShaped_iff` — a document is well shaped unless something is found in it that is more than a limit.
* `build_outcome` — what comes of a document, by its shape and its first finding.
-/

namespace BidBook.Document

/-! ## Keys -/

/-- The keys with a meaning of their own. -/
def reserved : List String := ["define", "conventions", "-", "/", "steps", "-steps", "description"]

/-- A key for sequences: a text, a number that is no truth value, or texts in a sequence. -/
inductive SequenceKey : Value → List String → Prop where
  | text {s : String} (plain : s ∉ reserved) : SequenceKey (.text s) (listed s)
  | int (i : Int) : SequenceKey (.int i) [toString i]
  | float (f : Binary64) : SequenceKey (.float f) [f.written]
  | tuple (texts : List String) : SequenceKey (.tuple (texts.map .text)) texts
  | list (texts : List String) : SequenceKey (.list (texts.map .text)) texts

theorem mapM_text?_eq_some_iff {items : List Value} {texts : List String} :
    items.mapM Value.text? = some texts ↔ items = texts.map .text := by
  constructor
  · intro read
    induction items generalizing texts with
    | nil => cases read; rfl
    | cons item rest ih =>
      rw [List.mapM_cons] at read
      obtain ⟨s, isText, read⟩ := Option.bind_eq_some_iff.1 read
      obtain ⟨later, readLater, read⟩ := Option.bind_eq_some_iff.1 read
      cases read
      cases item with
      | text s =>
        cases isText
        rw [ih readLater, List.map_cons]
      | null | bool _ | int _ | float _ | bytes _ | date _ | list _ | tuple _ | map _ => cases isText
  · rintro rfl
    induction texts with
    | nil => rfl
    | cons s texts ih => rw [List.map_cons, List.mapM_cons, ih]; rfl

def RoleKey : Role → Value → Prop
  | .definitions, key => key = .text "define"
  | .scope _ k, key => key = .text k ∧ k ∈ ["conventions", "-", "/"]
  | .steps _ k, key => key = .text k ∧ k ∈ ["steps", "-steps"]
  | .description, key => key = .text "description"
  | .sequences texts, key => SequenceKey key texts

/-- A key has a role of its own only if it is one of the reserved texts. -/
theorem key_of_role? {key : Value} {role : Role} (known : role? key = some role) : RoleKey role key := by
  cases key with
  | text s =>
    simp only [role?, Option.some.injEq] at known
    split_ifs at known <;> subst known
    · next same => exact congrArg Value.text same
    · next same => exact ⟨rfl, by rcases same with rfl | rfl <;> decide⟩
    · next same => exact ⟨rfl, by rw [same]; decide⟩
    · next same => exact ⟨rfl, by rw [same]; decide⟩
    · next same => exact ⟨rfl, by rw [same]; decide⟩
    · next same => exact congrArg Value.text same
    · exact SequenceKey.text (by simp_all [reserved])
  | int i => cases known; exact SequenceKey.int i
  | float f => cases known; exact SequenceKey.float f
  | tuple items =>
    obtain ⟨texts, read, rfl⟩ := Option.map_eq_some_iff.1 known
    rw [mapM_text?_eq_some_iff.1 read]
    exact SequenceKey.tuple texts
  | list items =>
    obtain ⟨texts, read, rfl⟩ := Option.map_eq_some_iff.1 known
    rw [mapM_text?_eq_some_iff.1 read]
    exact SequenceKey.list texts
  | null | bool _ | bytes _ | date _ | map _ => cases known

theorem SequenceKey.role?_eq {key : Value} {texts : List String} (isKey : SequenceKey key texts) :
    role? key = some (.sequences texts) := by
  cases isKey with
  | @text s plain =>
    simp only [reserved, List.mem_cons, List.not_mem_nil, or_false, not_or] at plain
    simp [role?, plain]
  | int i => rfl
  | float f => rfl
  | tuple texts => rw [role?, mapM_text?_eq_some_iff.2 rfl]; rfl
  | list texts => rw [role?, mapM_text?_eq_some_iff.2 rfl]; rfl

/-! ## Shapes -/

section

variable [Pattern.Judge]

/-- A text is judged to be a pattern. -/
def Compiles (pattern : String) : Prop := Pattern.Judge.verdict pattern = .pattern

/-- One rule: it is skipped for a null side, or a scalar that is a pattern maps to a scalar. -/
inductive RuleShape : Value × Value → Prop where
  | noPattern (replacement : Value) : RuleShape (.null, replacement)
  | noReplacement (pattern : Value) : RuleShape (pattern, .null)
  | rule {pattern replacement : Value} (left : pattern.isScalar = true) (right : replacement.isScalar = true)
      (compiles : Compiles pattern.shown) : RuleShape (pattern, replacement)

mutual

/-- A mapping whose entries have the shapes that their keys ask for. -/
inductive WellShaped : Value → Prop where
  | map {entries : List (Value × Value)} (each : ∀ e ∈ entries, EntryShape e.1 e.2) :
      WellShaped (.map entries)

/-- The shape of an entry, by its key. -/
inductive EntryShape : Value → Value → Prop where
  | noDefinitions : EntryShape (.text "define") .null
  | definitions {rules : List (Value × Value)} (each : ∀ r ∈ rules, RuleShape r) :
      EntryShape (.text "define") (.map rules)
  | scope {key : String} {value : Value} (isScope : key ∈ ["conventions", "-", "/"])
      (entries : WellShaped value) : EntryShape (.text key) value
  | steps {key : String} {value : Value} {items : List Value} (isSteps : key ∈ ["steps", "-steps"])
      (sequence : value.items? = some items) (each : ∀ item ∈ items, StepShape item) :
      EntryShape (.text key) value
  | noDescription : EntryShape (.text "description") .null
  | description {value : Value} (scalar : value.isScalar = true) : EntryShape (.text "description") value
  | bare {key : Value} {texts : List String} (isKey : SequenceKey key texts) : EntryShape key .null
  | described {key value : Value} {texts : List String} (isKey : SequenceKey key texts)
      (scalar : value.isScalar = true) : EntryShape key value
  /-- Without a sequence to lead to it, a mapping is not looked into. -/
  | unreached {key : Value} (entries : List (Value × Value)) (isKey : SequenceKey key []) :
      EntryShape key (.map entries)
  | nested {key value : Value} {texts : List String} (isKey : SequenceKey key texts)
      (entries : WellShaped value) : EntryShape key value

inductive StepShape : Value → Prop where
  | scalar {value : Value} (scalar : value.isScalar = true) : StepShape value
  | nested {value : Value} (entries : WellShaped value) : StepShape value

end

/-! ## Roles and shapes -/

def ValueShape : Role → Value → Prop
  | .definitions, value => value = .null ∨ ∃ rules, value = .map rules ∧ ∀ r ∈ rules, RuleShape r
  | .scope _ _, value => WellShaped value
  | .steps _ _, value => ∃ items, value.items? = some items ∧ ∀ item ∈ items, StepShape item
  | .description, value => value = .null ∨ value.isScalar = true
  | .sequences texts, value => value = .null ∨ value.isScalar = true ∨
      ∃ entries, value = .map entries ∧ (texts ≠ [] → WellShaped value)

/-- What is neither null nor a scalar nor a mapping has a shape as a sequence of relay steps only. -/
theorem eq_steps_of_valueShape {role : Role} {value : Value} (shape : ValueShape role value)
    (noNull : value ≠ .null) (noScalar : value.isScalar = false) (noMap : ∀ entries, value ≠ .map entries) :
    ∃ implied key items, role = .steps implied key ∧ value.items? = some items := by
  cases role with
  | definitions =>
    rcases shape with null | ⟨rules, mapping, _⟩
    · exact absurd null noNull
    · exact absurd mapping (noMap rules)
  | scope _ _ =>
    obtain ⟨each⟩ := shape
    exact absurd rfl (noMap _)
  | steps implied key =>
    obtain ⟨items, sequence, _⟩ := shape
    exact ⟨implied, key, items, rfl, sequence⟩
  | description => exact (shape.elim noNull (Bool.eq_false_iff.1 noScalar)).elim
  | sequences texts =>
    rcases shape with null | scalar | ⟨entries, mapping, _⟩
    · exact absurd null noNull
    · exact absurd scalar (Bool.eq_false_iff.1 noScalar)
    · exact absurd mapping (noMap entries)

theorem entryShape_iff {key value : Value} :
    EntryShape key value ↔ ∃ role, role? key = some role ∧ ValueShape role value := by
  constructor
  · intro shape
    cases shape with
    | noDefinitions => exact ⟨.definitions, rfl, .inl rfl⟩
    | definitions each => exact ⟨.definitions, rfl, .inr ⟨_, rfl, each⟩⟩
    | scope isScope entries =>
      simp only [List.mem_cons, List.not_mem_nil, or_false] at isScope
      rcases isScope with rfl | rfl | rfl
      · exact ⟨.scope false "conventions", rfl, entries⟩
      · exact ⟨.scope false "-", rfl, entries⟩
      · exact ⟨.scope true "/", rfl, entries⟩
    | steps isSteps sequence each =>
      simp only [List.mem_cons, List.not_mem_nil, or_false] at isSteps
      rcases isSteps with rfl | rfl
      · exact ⟨.steps true "steps", rfl, _, sequence, each⟩
      · exact ⟨.steps false "-steps", rfl, _, sequence, each⟩
    | noDescription => exact ⟨.description, rfl, .inl rfl⟩
    | description scalar => exact ⟨.description, rfl, .inr scalar⟩
    | bare isKey => exact ⟨_, isKey.role?_eq, .inl rfl⟩
    | described isKey scalar => exact ⟨_, isKey.role?_eq, .inr (.inl scalar)⟩
    | unreached entries isKey =>
      exact ⟨_, isKey.role?_eq, .inr (.inr ⟨_, rfl, fun reached => absurd rfl reached⟩)⟩
    | nested isKey entries =>
      cases entries with
      | map each => exact ⟨_, isKey.role?_eq, .inr (.inr ⟨_, rfl, fun _ => .map each⟩)⟩
  · rintro ⟨role, known, shape⟩
    have isKey := key_of_role? known
    cases role with
    | definitions =>
      obtain rfl : key = .text "define" := isKey
      rcases shape with rfl | ⟨rules, rfl, each⟩
      · exact .noDefinitions
      · exact .definitions each
    | scope _ k =>
      obtain ⟨rfl, isScope⟩ := isKey
      exact .scope isScope shape
    | steps _ k =>
      obtain ⟨rfl, isSteps⟩ := isKey
      obtain ⟨items, sequence, each⟩ := shape
      exact .steps isSteps sequence each
    | description =>
      obtain rfl : key = .text "description" := isKey
      rcases shape with rfl | scalar
      · exact .noDescription
      · exact .description scalar
    | sequences texts =>
      rcases shape with rfl | scalar | ⟨entries, rfl, below⟩
      · exact .bare isKey
      · exact .described isKey scalar
      · cases texts with
        | nil => exact .unreached entries isKey
        | cons text texts => exact .nested isKey (below (List.cons_ne_nil _ _))

/-! ## Shapes and findings -/

/-- Nothing but numerals that are too long. -/
def OnlyLimits (fs : List Finding) : Prop := ∀ f ∈ fs, f.objection = .long

theorem onlyLimits_nil : OnlyLimits [] := fun _ member => nomatch member

theorem onlyLimits_append {fs gs : List Finding} :
    OnlyLimits (fs ++ gs) ↔ OnlyLimits fs ∧ OnlyLimits gs := List.forall_mem_append

theorem onlyLimits_flatMap {α : Type} {xs : List α} {g : α → List Finding} :
    OnlyLimits (xs.flatMap g) ↔ ∀ x ∈ xs, OnlyLimits (g x) := List.forall_mem_flatMap

theorem onlyLimits_limit (path : List Segment) (e? : Option Excess) : OnlyLimits (limitFindings path e?) := by
  rw [OnlyLimits, limitFindings, List.forall_mem_map]
  exact fun _ _ => rfl

theorem not_onlyLimits_offence (path : List Segment) (what : Malformation) :
    ¬ OnlyLimits [⟨path, .offence what⟩] := by
  simp [OnlyLimits]

theorem onlyLimits_pattern {path : List Segment} {pattern : String} :
    OnlyLimits (patternFindings path pattern) ↔ Compiles pattern := by
  unfold patternFindings Compiles
  split
  · next verdict => exact iff_of_true onlyLimits_nil verdict
  · next verdict => simp [OnlyLimits, verdict]
  · next verdict => simp [OnlyLimits, verdict]

theorem onlyLimits_rule {path : List Segment} {r : Value × Value} :
    OnlyLimits (ruleFindings path r) ↔ RuleShape r := by
  obtain ⟨pattern, replacement⟩ := r
  unfold ruleFindings
  split
  · next eq => cases eq; exact iff_of_true onlyLimits_nil (.noPattern _)
  · next eq => cases eq; exact iff_of_true onlyLimits_nil (.noReplacement _)
  · next noPattern noReplacement eq =>
    cases eq
    rw [onlyLimits_append]
    constructor
    · rintro ⟨_, rest⟩
      split at rest
      · next scalars =>
        rw [Bool.and_eq_true] at scalars
        rw [onlyLimits_append, onlyLimits_pattern] at rest
        exact .rule scalars.1 scalars.2 rest.1
      · exact absurd rest (not_onlyLimits_offence _ _)
    · intro shape
      cases shape with
      | noPattern => exact absurd rfl noPattern
      | noReplacement => exact absurd rfl noReplacement
      | rule left right compiles =>
        rw [left, right, if_pos (by rfl), onlyLimits_append, onlyLimits_pattern]
        exact ⟨onlyLimits_limit _ _, compiles, onlyLimits_limit _ _⟩

theorem wellShaped_map_iff {entries : List (Value × Value)} :
    WellShaped (.map entries) ↔ ∀ e ∈ entries, EntryShape e.1 e.2 := by
  constructor
  · intro shape
    cases shape with
    | map each => exact each
  · exact .map

theorem stepShape_iff {item : Value} : StepShape item ↔ item.isScalar = true ∨ WellShaped item := by
  constructor
  · intro shape
    cases shape with
    | scalar scalar => exact .inl scalar
    | nested entries => exact .inr entries
  · rintro (scalar | entries)
    · exact .scalar scalar
    · exact .nested entries

theorem onlyLimits_offence_iff {path : List Segment} {what : Malformation} {P : Prop} (wrong : ¬ P) :
    OnlyLimits [⟨path, .offence what⟩] ↔ P := iff_of_false (not_onlyLimits_offence path what) wrong

theorem onlyLimits_sequence (path : List Segment) (text : String) : OnlyLimits (sequenceFindings path text) :=
  onlyLimits_limit path _

/-- What is said below each of several sequences is well shaped if it is, or if there is no sequence. -/
theorem onlyLimits_sequences_iff {path : List Segment} {texts : List String} {fs : List Finding} :
    OnlyLimits (texts.flatMap fun text => sequenceFindings path text ++ fs) ↔
      (texts ≠ [] → OnlyLimits fs) := by
  rw [onlyLimits_flatMap]
  constructor
  · intro each reached
    obtain ⟨text, member⟩ := List.exists_mem_of_ne_nil texts reached
    exact (onlyLimits_append.1 (each text member)).2
  · intro below text member
    exact onlyLimits_append.2 ⟨onlyLimits_sequence path text, below (List.ne_nil_of_mem member)⟩

theorem onlyLimits_scalar {value : Value} (scalar : value.isScalar = true) (path : List Segment)
    (role : Role) : OnlyLimits (valueFindings path role value) ↔ ValueShape role value := by
  have noNull : value ≠ .null := by rintro rfl; cases scalar
  have noMap : ∀ entries, value ≠ .map entries := by rintro entries rfl; cases scalar
  have noItems : value.items? = none := by cases value <;> first | rfl | cases scalar
  rw [valueFindings_of_isScalar scalar]
  cases role with
  | definitions =>
    refine onlyLimits_offence_iff ?_
    rintro (null | ⟨rules, mapping, _⟩)
    · exact noNull null
    · exact noMap rules mapping
  | scope _ _ =>
    refine onlyLimits_offence_iff fun shape => ?_
    obtain ⟨entries⟩ := shape
    exact noMap _ rfl
  | steps _ _ =>
    refine onlyLimits_offence_iff ?_
    rintro ⟨items, sequence, _⟩
    rw [noItems] at sequence
    cases sequence
  | description => exact iff_of_true (onlyLimits_limit path _) (.inr scalar)
  | sequences texts =>
    exact iff_of_true (onlyLimits_sequences_iff.2 fun _ => onlyLimits_limit path _) (.inr (.inl scalar))

theorem onlyLimits_itemFinding_iff {path : List Segment} {item : Value}
    (ofMap : ∀ entries, item = .map entries →
      (OnlyLimits (entryFindings path entries) ↔ WellShaped (.map entries))) :
    OnlyLimits (itemFinding path item) ↔ StepShape item := by
  rw [stepShape_iff]
  cases scalar : item.isScalar with
  | true =>
    rw [itemFinding_of_isScalar scalar]
    exact iff_of_true (onlyLimits_limit path _) (.inl rfl)
  | false =>
    have noScalar : ¬ (false = true ∨ WellShaped item) ↔ ¬ WellShaped item := by simp
    cases item with
    | map entries => rw [itemFinding, ofMap entries rfl]; simp
    | null | list _ | tuple _ | bytes _ | date _ =>
      exact onlyLimits_offence_iff (noScalar.2 fun shape => nomatch shape)
    | bool _ | int _ | float _ | text _ => cases scalar

mutual

theorem onlyLimits_entries_iff (entries : List (Value × Value)) (path : List Segment) :
    OnlyLimits (entryFindings path entries) ↔ ∀ e ∈ entries, EntryShape e.1 e.2 := by
  match entries with
  | [] => exact iff_of_true onlyLimits_nil fun e member => nomatch member
  | (key, value) :: rest =>
    -- the shape of an entry is that of its value for the role of its key, and so are the findings
    rw [entryFindings, onlyLimits_append, onlyLimits_append, List.forall_mem_cons,
      onlyLimits_entries_iff rest path, entryShape_iff]
    refine and_congr_left fun _ => ?_
    cases role? key with
    | none => simp [not_onlyLimits_offence]
    | some role =>
      dsimp only
      rw [onlyLimits_value_iff value _ role]
      simp [onlyLimits_limit]
termination_by sizeOf entries

theorem onlyLimits_value_iff (value : Value) (path : List Segment) (role : Role) :
    OnlyLimits (valueFindings path role value) ↔ ValueShape role value := by
  match value with
  | .map entries =>
    cases role with
    | definitions =>
      rw [valueFindings, onlyLimits_flatMap]
      simp [ValueShape, onlyLimits_rule]
    | scope _ _ =>
      rw [valueFindings, onlyLimits_entries_iff entries path, ValueShape, wellShaped_map_iff]
    | steps _ _ => exact onlyLimits_offence_iff fun ⟨_, sequence, _⟩ => nomatch sequence
    | description =>
      refine onlyLimits_offence_iff fun shape => ?_
      rcases shape with shape | shape <;> cases shape
    | sequences texts =>
      rw [valueFindings, onlyLimits_sequences_iff, onlyLimits_entries_iff entries path, ← wellShaped_map_iff]
      simp [ValueShape, Value.isScalar]
  | .list items | .tuple items =>
    cases role with
    | steps _ _ =>
      refine (onlyLimits_items_iff items path 0).trans ?_
      simp [ValueShape, Value.items?]
    | definitions | scope _ _ | description | sequences _ =>
      refine onlyLimits_offence_iff fun shape => ?_
      obtain ⟨_, _, _, isSteps, _⟩ := eq_steps_of_valueShape shape nofun rfl nofun
      cases isSteps
  | .bytes bs =>
    cases role with
    | steps _ _ =>
      refine iff_of_true onlyLimits_nil ⟨_, rfl, ?_⟩
      rw [List.forall_mem_map]
      exact fun b _ => .scalar rfl
    | definitions | scope _ _ | description | sequences _ =>
      refine onlyLimits_offence_iff fun shape => ?_
      obtain ⟨_, _, _, isSteps, _⟩ := eq_steps_of_valueShape shape nofun rfl nofun
      cases isSteps
  | .null =>
    cases role with
    | definitions | description => exact iff_of_true onlyLimits_nil (.inl rfl)
    | scope _ _ => exact onlyLimits_offence_iff fun shape => nomatch shape
    | steps _ _ => exact onlyLimits_offence_iff fun ⟨_, sequence, _⟩ => nomatch sequence
    | sequences texts =>
      exact iff_of_true (onlyLimits_flatMap.2 fun text _ => onlyLimits_sequence path text) (.inl rfl)
  | .date d =>
    have noShape : ¬ ValueShape role (.date d) := by
      intro shape
      obtain ⟨_, _, _, _, sequence⟩ := eq_steps_of_valueShape shape nofun rfl nofun
      cases sequence
    cases role <;> exact onlyLimits_offence_iff noShape
  | .bool _ | .int _ | .float _ | .text _ => exact onlyLimits_scalar rfl path role
termination_by sizeOf value

theorem onlyLimits_items_iff (items : List Value) (path : List Segment) (index : Nat) :
    OnlyLimits (itemFindings path index items) ↔ ∀ item ∈ items, StepShape item := by
  match items with
  | [] => exact iff_of_true onlyLimits_nil fun item member => nomatch member
  | item :: rest =>
    rw [itemFindings, onlyLimits_append, List.forall_mem_cons, onlyLimits_items_iff rest path (index + 1)]
    refine and_congr_left fun _ => onlyLimits_itemFinding_iff fun entries _ => ?_
    rw [onlyLimits_entries_iff entries _, wellShaped_map_iff]
termination_by sizeOf items
decreasing_by
  · simp only [List.cons.sizeOf_spec]
    omega
  · subst item
    simp
    omega

end

/-- A document is well shaped unless something else than a limit is found in it. -/
theorem wellShaped_iff (document : Value) : WellShaped document ↔ OnlyLimits (findings document) := by
  cases document with
  | map entries => rw [wellShaped_map_iff, findings, onlyLimits_entries_iff]
  | null | bool _ | int _ | float _ | text _ | bytes _ | date _ | list _ | tuple _ =>
    exact (onlyLimits_offence_iff fun shape => nomatch shape).symm

/-! ## What comes of a document -/

/-- No number that is to be written or read is too long for that. -/
def Moderate (document : Value) : Prop := ∀ f ∈ findings document, f.objection ≠ .long

theorem findings_eq_nil_iff (document : Value) :
    findings document = [] ↔ WellShaped document ∧ Moderate document := by
  rw [wellShaped_iff, List.eq_nil_iff_forall_not_mem]
  constructor
  · intro nothing
    exact ⟨fun f member => absurd member (nothing f), fun f member => absurd member (nothing f)⟩
  · rintro ⟨limits, moderate⟩ f member
    exact moderate f member (limits f member)

/-- A document declares a tree if it is well shaped and moderate. If not, it is refused for the first finding
in its own order. A wrong shape is reported as such, with the path to it; but a pattern that cannot be read
for going beyond a limit is reported as that limit only, though the document is not well shaped. -/
theorem build_outcome (shorthands : List Shorthand) (document : Value) :
    ((∃ draft, build shorthands document = .ok draft) ↔ WellShaped document ∧ Moderate document) ∧
      match (findings document).head? with
      | none => WellShaped document ∧ Moderate document
      | some ⟨path, .offence what⟩ =>
        build shorthands document = .error (.malformed ⟨pathOf path, what⟩) ∧ ¬ WellShaped document
      | some ⟨_, .unread pattern e _⟩ =>
        build shorthands document = .error (.beyond e) ∧ ¬ Compiles pattern ∧ ¬ WellShaped document
      | some ⟨_, .long⟩ => build shorthands document = .error (.beyond .numeral) ∧ ¬ Moderate document := by
  have meets := meets_build shorthands document
  rw [← findings_eq_nil_iff, wellShaped_iff]
  unfold Moderate
  cases found : findings document with
  | nil =>
    rw [found] at meets
    exact ⟨iff_of_true meets rfl, rfl⟩
  | cons f rest =>
    rw [found] at meets
    have refused : build shorthands document = .error f.fault := meets
    refine ⟨iff_of_false (by simp [refused]) (List.cons_ne_nil _ _), ?_⟩
    obtain ⟨path, objection⟩ := f
    cases objection with
    | offence what => exact ⟨refused, by simp [OnlyLimits]⟩
    | unread pattern e givenUp => exact ⟨refused, by simp [Compiles, givenUp], by simp [OnlyLimits]⟩
    | long => exact ⟨refused, fun moderate => moderate _ List.mem_cons_self rfl⟩

end

/-- A pattern repeats a letter so often that the number cannot be counted with. -/
def hugeRepeat : Value :=
  .map [(.text "define", .map [(.text "a\x7b4294967295\x7d", .text "y")])]

/-- That pattern does not compile, so the document is not well shaped. Yet it is refused for no malformation. -/
theorem exists_refused_for_limit : ¬ WellShaped hugeRepeat ∧
    ∃ e, build [] hugeRepeat = .error (.beyond e) := by
  have refused : ∃ e, build [] hugeRepeat = .error (.beyond e) := by
    have computed : (match build [] hugeRepeat with
        | .error (.beyond _) => true
        | _ => false) = true := by decide +kernel
    split at computed
    · next e built => exact ⟨e, built⟩
    · cases computed
  refine ⟨fun shaped => ?_, refused⟩
  -- all that is found is the pattern
  have found : (findings hugeRepeat).all (fun f => match f.objection with
      | .long => true
      | _ => false) = false := by decide +kernel
  rw [wellShaped_iff] at shaped
  refine Bool.eq_false_iff.1 found (List.all_eq_true.2 fun f member => ?_)
  rw [shaped f member]

end BidBook.Document

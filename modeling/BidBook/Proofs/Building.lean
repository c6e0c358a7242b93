import BidBook.Document
import BidBook.Proofs.Spelled

/-! # Declaring a tree

A document declares its tree step by step: a description, another declaration, shorthands, a relay
step, all of it at some position. `Steady` relations are those that each single declaration keeps; a
whole document keeps them, too.

* `Steady` — what a relation between drafts has to be kept by.
* `Steady.of_buildEntries` — then every mapping keeps it.
* `Steady.of_build` — and every document.
-/

namespace BidBook.Document

theorem bind_eq_ok {ε α β : Type} {x : Except ε α} {f : α → Except ε β} {b : β} :
    (x >>= f) = .ok b ↔ ∃ a, x = .ok a ∧ f a = .ok b := by
  cases x <;> simp [bind, Except.bind]

theorem map_eq_ok {ε α β : Type} {x : Except ε α} {f : α → β} {b : β} :
    x.map f = .ok b ↔ ∃ a, x = .ok a ∧ f a = b := by
  cases x <;> simp [Except.map]

theorem mapError_eq_ok {ε ε' α : Type} {x : Except ε α} {f : ε → ε'} {a : α} :
    x.mapError f = .ok a ↔ x = .ok a := by
  cases x <;> simp [Except.mapError]

/-! ## Tokens of a sequence -/

theorem spelled_of_readAll {raws : List String} {ts : List Token} (single : ∀ raw ∈ raws, Sequence.Single raw)
    (h : Token.readAll raws = .ok ts) : ∀ t ∈ ts, t.Spelled := by
  induction raws generalizing ts with
  | nil =>
    cases h
    simp
  | cons raw rest ih =>
    rw [List.forall_mem_cons] at single
    rw [Token.readAll, bind_eq_ok] at h
    obtain ⟨first, read, h⟩ := h
    rw [bind_eq_ok] at h
    obtain ⟨later, readLater, h⟩ := h
    cases h
    intro t member
    rcases List.mem_append.1 member with here | there
    · cases first with
      | none => cases here
      | some u =>
        have same : t = u := List.mem_singleton.1 here
        exact same ▸ Token.spelled_of_read read single.1
    · exact ih single.2 readLater t there

theorem spelled_of_sequenceTokens {implied : Bool} {text : String} {ts : List Token}
    (h : sequenceTokens implied text = .ok ts) : ∀ t ∈ ts, t.Spelled := by
  refine spelled_of_readAll ?_ (mapError_eq_ok.1 h)
  intro raw member
  rcases List.mem_append.1 member with pass | part
  · cases implied with
    | false => cases pass
    | true =>
      rw [List.mem_singleton.1 pass]
      decide
  · exact Sequence.single_of_mem_split part

theorem spelled_of_mem_stepTokens {implied : Bool} : ∀ t ∈ stepTokens implied, t.Spelled := by
  intro t member
  cases implied with
  | false => cases member
  | true =>
    rw [List.mem_singleton.1 member]
    exact Token.spelled_ofCall .pass

/-! ## Steady relations -/

/-- A relation between an earlier and a later draft of one position that every declaration keeps. -/
structure Steady (R : Draft → Draft → Prop) : Prop where
  refl : ∀ d, R d d
  trans : ∀ {d d' d''}, R d d' → R d' d'' → R d d''
  describe : ∀ d text, R d (d.describe text)
  declare : ∀ d, R d d.declare
  define : ∀ d ss, R d (d.define ss)
  /-- A relay step is drafted on its own. -/
  addStep : ∀ d step, R ⟨.mk {} [] [], d.declared⟩ step →
    R d ({ d with declared := step.declared }.addStep step.node)
  /-- So is the position at the end of a path. -/
  within : ∀ d path inner, (∀ t ∈ path, t.Spelled) → R ⟨d.node.reach path, d.declared⟩ inner →
    R d ⟨d.node.put path inner.node, inner.declared⟩

namespace Steady

variable {R : Draft → Draft → Prop}

theorem of_within (steady : Steady R) {d d' : Draft} {path : List Token}
    {work : Draft → Except Fault Draft} (spelled : ∀ t ∈ path, t.Spelled)
    (worked : ∀ d d', work d = .ok d' → R d d') (h : d.within path work = .ok d') : R d d' := by
  rw [Draft.within, bind_eq_ok] at h
  obtain ⟨inner, ran, h⟩ := h
  cases h
  exact steady.within d path inner spelled (worked _ _ ran)

theorem of_atEach (steady : Steady R) {implied : Bool} {work : Draft → Except Fault Draft}
    (worked : ∀ d d', work d = .ok d' → R d d') {texts : List String} {d d' : Draft}
    (h : atEach implied work texts d = .ok d') : R d d' := by
  induction texts generalizing d with
  | nil =>
    cases h
    exact steady.refl _
  | cons text rest ih =>
    rw [atEach, bind_eq_ok] at h
    obtain ⟨path, read, h⟩ := h
    rw [bind_eq_ok] at h
    obtain ⟨next, declared, h⟩ := h
    have first := steady.of_within (spelled_of_sequenceTokens read)
      (fun inner inner' ran => steady.trans (steady.declare inner) (worked _ _ ran)) declared
    exact steady.trans first (ih h)

theorem of_byteSteps (steady : Steady R) (bs : List UInt8) (d : Draft) : R d (byteSteps bs d) := by
  induction bs generalizing d with
  | nil => exact steady.refl d
  | cons b rest ih =>
    exact steady.trans (steady.addStep d _ (steady.describe _ (toString b.toNat))) (ih _)

theorem of_describe (steady : Steady R) {path : String} {value : Value} {d d' : Draft}
    (h : Document.describe path value d = .ok d') : R d d' := by
  unfold Document.describe at h
  split at h
  · cases h
    exact steady.refl d
  · split at h
    · obtain ⟨text, _, rfl⟩ := map_eq_ok.1 h
      exact steady.describe d text
    · cases h

theorem noSequence_ne_ok {path : String} {role : Role} {d : Draft} :
    buildValue.noSequence path role ≠ .ok d := by
  cases role <;> exact nofun

variable [Pattern.Judge]

/-- A value that holds no other values. -/
theorem of_plain (steady : Steady R) {value : Value} (noMap : ∀ entries, value ≠ .map entries)
    (noList : ∀ items, value ≠ .list items) (noTuple : ∀ items, value ≠ .tuple items)
    {implied : Bool} {path : String} {role : Role} {d d' : Draft}
    (h : buildValue implied path role value d = .ok d') : R d d' := by
  rw [buildValue.eq_def] at h
  split at h
  · exact absurd rfl (noMap _)
  · exact absurd rfl (noList _)
  · exact absurd rfl (noTuple _)
  · -- what such a value says depends on what it is given for
    cases role with
    | definitions =>
      rw [bind_eq_ok] at h
      obtain ⟨ss, _, h⟩ := h
      cases h
      exact steady.define d ss
    | scope implied key => cases h
    | steps implied key =>
      dsimp only at h
      split at h
      · exact steady.of_within spelled_of_mem_stepTokens (fun d d' ran => by
          cases ran
          exact steady.of_byteSteps _ d) h
      · cases h
    | description => exact steady.of_describe h
    | sequences texts =>
      dsimp only at h
      split at h
      · exact steady.of_atEach (fun d d' ran => by
          cases ran
          exact steady.refl d) h
      · split at h
        · exact steady.of_atEach (fun d d' ran => by
            obtain ⟨text, _, rfl⟩ := map_eq_ok.1 ran
            exact steady.describe d text) h
        · cases h

theorem of_buildStep (steady : Steady R) {value : Value} {path : String} {d d' : Draft}
    (ofMap : ∀ entries, value = .map entries → buildEntries true path entries d = .ok d' → R d d')
    (h : buildStep path value d = .ok d') : R d d' := by
  rw [buildStep.eq_def] at h
  split at h
  · exact ofMap _ rfl h
  · split at h
    · obtain ⟨text, _, rfl⟩ := map_eq_ok.1 h
      exact steady.describe _ text
    · cases h

mutual

theorem of_buildEntries (steady : Steady R) (entries : List (Value × Value)) (implied : Bool)
    (path : String) (d d' : Draft) (h : buildEntries implied path entries d = .ok d') : R d d' := by
  match entries with
  | [] =>
    rw [buildEntries] at h
    cases h
    exact steady.refl d
  | (key, value) :: rest =>
    rw [buildEntries, bind_eq_ok] at h
    obtain ⟨text, _, h⟩ := h
    dsimp only at h
    split at h
    · cases h
    · next role _ =>
      rw [bind_eq_ok] at h
      obtain ⟨next, built, h⟩ := h
      exact steady.trans (of_buildValue steady value implied _ role d next built)
        (of_buildEntries steady rest implied path next d' h)
termination_by sizeOf entries

theorem of_buildValue (steady : Steady R) (value : Value) (implied : Bool) (path : String)
    (role : Role) (d d' : Draft) (h : buildValue implied path role value d = .ok d') : R d d' := by
  match value with
  | .map entries =>
    rw [buildValue.eq_def] at h
    cases role with
    | definitions =>
      obtain ⟨ss, _, h⟩ := bind_eq_ok.1 h
      cases h
      exact steady.define d ss
    | scope implied key => exact of_buildEntries steady entries implied path d d' h
    | steps implied key => cases h
    | description => cases h
    | sequences texts =>
      exact steady.of_atEach (fun d d' => of_buildEntries steady entries true path d d') h
  | .list items =>
    rw [buildValue.eq_def] at h
    cases role with
    | steps implied key =>
      exact steady.of_within spelled_of_mem_stepTokens (of_buildSteps steady items path 0) h
    | definitions | scope _ _ | description | sequences _ => exact absurd h noSequence_ne_ok
  | .tuple items =>
    rw [buildValue.eq_def] at h
    cases role with
    | steps implied key =>
      exact steady.of_within spelled_of_mem_stepTokens (of_buildSteps steady items path 0) h
    | definitions | scope _ _ | description | sequences _ => exact absurd h noSequence_ne_ok
  | .null | .bool _ | .int _ | .float _ | .text _ | .bytes _ | .date _ =>
    exact steady.of_plain (by simp) (by simp) (by simp) h
termination_by sizeOf value

theorem of_buildSteps (steady : Steady R) (items : List Value) (path : String) (index : Nat)
    (d d' : Draft) (h : buildSteps path index items d = .ok d') : R d d' := by
  match items with
  | [] =>
    rw [buildSteps] at h
    cases h
    exact steady.refl d
  | item :: rest =>
    rw [buildSteps, bind_eq_ok] at h
    obtain ⟨step, built, h⟩ := h
    -- every relay step is declared as a tree of its own
    have drafted : R ⟨.mk {} [] [], d.declared⟩ step :=
      steady.of_buildStep (fun entries _ => of_buildEntries steady entries true _ _ step) built
    exact steady.trans (steady.addStep d step drafted)
      (of_buildSteps steady rest path (index + 1) _ d' h)
termination_by sizeOf items
decreasing_by
  · subst item
    simp
    omega
  · simp only [List.cons.sizeOf_spec]
    omega

end

/-- What every declaration keeps holds between the empty tree and the one that a document declares. -/
theorem of_build (steady : Steady R) {shorthands : List Shorthand} {document : Value} {draft : Draft}
    (built : build shorthands document = .ok draft) : R ⟨.root shorthands, 0⟩ draft := by
  unfold build at built
  split at built
  · exact of_buildEntries steady _ _ _ _ _ built
  · cases built

end Steady

end BidBook.Document

import BidBook.Compiler

/-! # Accepted suits

What settings have to say about open suits to be accepted, and that whatever passes the checks of
settings says it.

* `ExpansionSettings.Accepted` — every kind of wildcard stands for different suits of its own.
* `Settings.accepted_of_load` — so it is for all settings that are loaded.
-/

namespace BidBook

/-- Every kind of wildcard stands for different suits of its own, and at least for one. -/
structure ExpansionSettings.Accepted (s : ExpansionSettings) : Prop where
  nonempty : ∀ w, s.suits w ≠ []
  drawn : ∀ w, ∀ suit ∈ s.suits w, suit ∈ ({} : ExpansionSettings).suits w
  distinct : ∀ w, (s.suits w).Nodup

namespace Settings

theorem texts_frozen (v : Value) : texts (frozen v) = texts v := by
  cases v <;> rfl

theorem items?_of_listed? {v : Value} {items : List Value} (h : listed? v = some items) :
    v.items? = some items := by
  unfold listed? at h
  split at h
  · exact h
  · exact h
  · cases h

/-- What is said about a kind of wildcard that passes its check. -/
theorem of_suitsFault? {allowed : List String} {v : Value} (h : suitsFault? allowed v = none) :
    texts v ≠ [] ∧ (∀ s ∈ texts v, s ∈ allowed) ∧ (texts v).Nodup := by
  unfold suitsFault? at h
  split at h
  · cases h
  · cases h
  · next items empty listed =>
    have texts_eq : texts v = items.filterMap Value.text? := by
      rw [texts, items?_of_listed? listed, Option.getD_some]
    split at h
    · cases h
    · next drawn =>
      split at h
      · cases h
      · next distinct =>
        -- each item is one of the allowed texts
        have known : ∀ i ∈ items, ∃ s ∈ allowed, i.text? = some s := by
          intro i member
          cases text : i.text? with
          | none => exact absurd (List.any_eq_true.2 ⟨i, member, by simp [text]⟩) drawn
          | some s =>
            refine ⟨s, ?_, rfl⟩
            by_cases inside : s ∈ allowed
            · exact inside
            · exact absurd (List.any_eq_true.2 ⟨i, member, by simp [text, inside]⟩) drawn
        refine ⟨?_, ?_, by simpa using distinct⟩
        · cases items with
          | nil => exact absurd rfl empty
          | cons i rest =>
            obtain ⟨s, _, text⟩ := known i List.mem_cons_self
            rw [texts_eq, List.filterMap_cons, text]
            simp
        · rw [texts_eq]
          intro s member
          obtain ⟨i, place, text⟩ := List.mem_filterMap.1 member
          obtain ⟨s', inside, text'⟩ := known i place
          rw [text, Option.some.injEq] at text'
          exact text' ▸ inside

/-- A field of a mapping that passes all checks: its own check finds nothing wrong with what is said. -/
theorem fault?_of_check {config : Value} (h : check config = []) {name field : String}
    {known : List (String × FieldKind)} {kind : FieldKind} («section» : (name, known) ∈ fieldKinds)
    (entry : (field, kind) ∈ known) {v : Value}
    (said : Value.lookup? field (sectionEntries config name) = some v) : kind.fault? v = none := by
  have silent := List.flatMap_eq_nil_iff.1 h _ «section»
  have quiet := List.filterMap_eq_nil_iff.1 silent _ entry
  simp only [said] at quiet
  cases fault : kind.fault? v with
  | none => rfl
  | some message => simp [fault] at quiet

theorem suits_of_check {config : Value} (h : check config = []) {name : String} {allowed : List String}
    {known : List (String × FieldKind)} («section» : ("expansion", known) ∈ fieldKinds)
    (entry : (name, .suits allowed) ∈ known) (nonempty : allowed ≠ []) (distinct : allowed.Nodup)
    {suits : List String}
    (said : suits = texts (((Value.lookup? name (sectionEntries config "expansion")).map frozen).getD
      (.tuple (allowed.map .text)))) :
    suits ≠ [] ∧ (∀ s ∈ suits, s ∈ allowed) ∧ suits.Nodup := by
  cases found : Value.lookup? name (sectionEntries config "expansion") with
  | some v =>
    rw [said, found, Option.map_some, Option.getD_some, texts_frozen]
    exact of_suitsFault? (fault?_of_check h «section» entry found)
  | none =>
    have default : texts (.tuple (allowed.map .text)) = allowed := by
      rw [texts, Value.items?, Option.getD_some, List.filterMap_map]
      exact List.filterMap_some
    rw [said, found, Option.map_none, Option.getD_none, default]
    exact ⟨nonempty, fun s member => member, distinct⟩

/-- Whatever passes the checks of settings is accepted. -/
theorem accepted_of_load {file overrides : Value} {settings : Settings}
    (loaded : load file overrides = .ok settings) : settings.expansion.Accepted := by
  unfold load at loaded
  dsimp only at loaded
  split at loaded
  · next checked =>
    cases loaded
    have each : ∀ w, (ofValue (layered file overrides)).expansion.suits w ≠ [] ∧
        (∀ s ∈ (ofValue (layered file overrides)).expansion.suits w,
          s ∈ ({} : ExpansionSettings).suits w) ∧
        ((ofValue (layered file overrides)).expansion.suits w).Nodup := by
      intro w
      cases w with
      | major =>
        exact suits_of_check checked List.mem_cons_self List.mem_cons_self (by decide) (by decide) rfl
      | minor =>
        exact suits_of_check checked List.mem_cons_self (List.mem_cons_of_mem _ List.mem_cons_self)
          (by decide) (by decide) rfl
      | any =>
        exact suits_of_check checked List.mem_cons_self
          (List.mem_cons_of_mem _ (List.mem_cons_of_mem _ List.mem_cons_self)) (by decide) (by decide) rfl
    exact ⟨fun w => (each w).1, fun w => (each w).2.1, fun w => (each w).2.2⟩
  · cases loaded

end Settings

end BidBook

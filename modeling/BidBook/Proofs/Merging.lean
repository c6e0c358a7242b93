import BidBook.Node.Merge
import BidBook.Expansion.Choice
import BidBook.Proofs.Lookup

/-! # Merging, one child at a time

A merge changes the target only where the source has something to say: a child that the source does not
know stays, one that it knows is merged into the child with the same key, or into a new one.

* `Content.Replaces`, `mergeContent_eq` — which of two descriptions stays.
* `find?_mergeChildren_of_mem`, `find?_mergeChildren_of_forall` — the children of a merge.
* `exists_at?_mergeInto` — what stands at the end of a path of a merge.
* `find?_placeCandidate` — the children after one more candidate.
* `height_mergeInto_le` — no merge is higher than the trees it is made of.
-/

namespace BidBook.Content

/-- The description takes the place of another: it is there, and it has a higher priority or nothing to
replace. -/
def Replaces (new old : Content) : Prop :=
  new.isDescribed = true ∧ (old.priority < new.priority ∨ old.isDescribed = false)

instance (new old : Content) : Decidable (new.Replaces old) :=
  inferInstanceAs (Decidable (_ ∧ (_ ∨ _)))

/-- Which of two contents stays. -/
def prevailing (new old : Content) : Content := if new.Replaces old then new.forget else old

theorem prevailing_of_replaces {a b : Content} (replaces : a.Replaces b) : prevailing a b = a.forget :=
  if_pos replaces

theorem prevailing_of_not_replaces {a b : Content} (stays : ¬ a.Replaces b) : prevailing a b = b :=
  if_neg stays

end BidBook.Content

namespace BidBook.Node

open Content

/-! ## Parts of a merge -/

/-- One of two contents stays, but for the glossary, which has the shorthands of both. -/
theorem mergeContent_eq (source target : Content) : mergeContent source target =
    { prevailing source target with glossary := target.glossary.addAll source.glossary.entries } := by
  have taken : (source.isDescribed &&
      (decide (target.priority < source.priority) || !target.isDescribed)) = true ↔
        source.Replaces target := by
    simp [Replaces]
  by_cases replaces : source.Replaces target
  · simp only [mergeContent, taken.2 replaces, if_true, prevailing_of_replaces replaces]
    rfl
  · simp only [mergeContent, mt taken.1 replaces, prevailing_of_not_replaces replaces]
    rfl

/-- A source brings shorthands that the target does not hold. -/
def brings (source target : Node) : Bool :=
  target.content.glossary.misses source.content.glossary.entries

theorem content_mergeInto (source target : Node) :
    (mergeInto source target).content =
      if source.brings target then (mergeContent source.content target.content).forget
      else mergeContent source.content target.content := by
  cases source with
  | mk sc sss scs =>
    unfold mergeInto brings forgetIf
    simp only [content_mk]
    by_cases stale : target.content.glossary.misses sc.glossary.entries = true <;> simp [stale]

theorem steps_mergeInto (source target : Node) :
    (mergeInto source target).steps =
      mergeSteps (decide (target.content.priority < source.content.priority)) source.steps
        target.steps := by
  cases source with
  | mk sc sss scs =>
    unfold mergeInto forgetIf
    by_cases stale : target.content.glossary.misses sc.glossary.entries = true <;> simp [stale] <;> rfl

/-- The relay steps of a merge are copies of the source's, or else those of the target. -/
theorem steps_mergeInto_cases (source target : Node) :
    ((mergeInto source target).steps = copySteps source.steps ∧ source.steps ≠ []) ∨
      ((mergeInto source target).steps = target.steps ∧ (target.steps = [] → source.steps = [])) := by
  rw [steps_mergeInto, mergeSteps]
  split
  · next wins =>
    have nonempty : source.steps ≠ [] := by
      rw [Bool.and_eq_true] at wins
      simpa using wins.1
    exact .inl ⟨rfl, nonempty⟩
  · next loses =>
    refine .inr ⟨rfl, fun empty => ?_⟩
    simpa [empty] using loses

theorem steps_mergeInto_eq_nil_iff {source target : Node} :
    (mergeInto source target).steps = [] ↔ source.steps = [] ∧ target.steps = [] := by
  rcases steps_mergeInto_cases source target with ⟨steps, nonempty⟩ | ⟨steps, silent⟩
  · rw [steps, copySteps_eq_nil_iff]
    exact iff_of_false nonempty fun both => nonempty both.1
  · rw [steps]
    exact ⟨fun empty => ⟨silent empty, empty⟩, fun both => both.2⟩

theorem children_mergeInto (source target : Node) :
    (mergeInto source target).children =
      mergeChildren source.children
        (if source.brings target then forgetChildren target.children else target.children) := by
  cases source with
  | mk sc sss scs =>
    unfold mergeInto brings forgetIf
    simp only [content_mk]
    by_cases stale : target.content.glossary.misses sc.glossary.entries = true <;> simp [stale]

/-! ## Children of a merge -/

theorem childOrNew_putChild_of_ne {t u : Token} (n : Node) (cs : List (Token × Node))
    (other : u.key ≠ t.key) : childOrNew t (putChild u n cs) = childOrNew t cs := by
  rw [childOrNew, childOrNew, find?_putChild, if_neg other]

theorem find?_mergeChildren_of_forall {k : Key} {scs : List (Token × Node)}
    (cs : List (Token × Node)) (absent : ∀ e ∈ scs, e.1.key ≠ k) :
    find? k (mergeChildren scs cs) = find? k cs := by
  induction scs generalizing cs with
  | nil => rfl
  | cons e rest ih =>
    obtain ⟨t, n⟩ := e
    rw [mergeChildren, ih _ fun e member => absent e (List.mem_cons_of_mem _ member), find?_putChild,
      if_neg (absent (t, n) List.mem_cons_self)]

/-- A child that the source knows is merged into the one with its key, or into a new one. -/
theorem find?_mergeChildren_of_mem {t : Token} {n : Node} {scs : List (Token × Node)}
    (cs : List (Token × Node)) (distinct : (scs.map fun e => e.1.key).Nodup)
    (member : (t, n) ∈ scs) :
    find? t.key (mergeChildren scs cs) = some (mergeInto n (childOrNew t cs)) := by
  induction scs generalizing cs with
  | nil => cases member
  | cons e rest ih =>
    obtain ⟨u, m⟩ := e
    simp only [List.map_cons, List.nodup_cons] at distinct
    rw [mergeChildren]
    rcases List.mem_cons.1 member with here | later
    · cases here
      rw [find?_mergeChildren_of_forall, find?_putChild, if_pos rfl]
      intro e member same
      exact distinct.1 (same ▸ List.mem_map_of_mem (f := fun e : Token × Node => e.1.key) member)
    · have other : u.key ≠ t.key := fun same =>
        distinct.1 (same ▸ List.mem_map_of_mem (f := fun e : Token × Node => e.1.key) later)
      rw [ih _ distinct.2 later, childOrNew_putChild_of_ne _ cs other]

/-- What holds of every child of a merge: it holds of the old ones, and merging into one, old or new,
brings it about. -/
theorem forall_mergeChildren {P : Token → Node → Prop} {scs cs : List (Token × Node)}
    (old : ∀ e ∈ cs, P e.1 e.2)
    (into : ∀ t n u m, (t, n) ∈ scs → u.key = t.key → P u m → P u (mergeInto n m))
    (new : ∀ t n, (t, n) ∈ scs → P t (mergeInto n (ofToken t))) :
    ∀ e ∈ mergeChildren scs cs, P e.1 e.2 := by
  induction scs generalizing cs with
  | nil => exact old
  | cons e rest ih =>
    obtain ⟨t, n⟩ := e
    rw [mergeChildren]
    refine ih ?_ (fun t n u m member => into t n u m (List.mem_cons_of_mem _ member))
      (fun t n member => new t n (List.mem_cons_of_mem _ member))
    rintro ⟨u, m⟩ member
    rcases mem_putChild member with ⟨rfl, rfl, missing⟩ | ⟨rfl, key, present, place, found⟩ | kept
    · simp only [childOrNew, missing, Option.getD_none]
      exact new u n List.mem_cons_self
    · simp only [childOrNew, found, Option.getD_some]
      exact into t n u present List.mem_cons_self key (old _ place)
    · exact old _ kept

/-! ## Paths of a merge -/

theorem forgetAll_forgetAll (n : Node) : n.forgetAll.forgetAll = n.forgetAll := by
  induction n using Node.induction with
  | position c ss cs _ children =>
    simp only [forgetAll, forgetChildren_eq_map, List.map_map, mk.injEq, true_and]
    refine ⟨rfl, List.map_congr_left fun e member => ?_⟩
    rw [Function.comp_apply, children e member]

/-- A position below one that may have got new shorthands. -/
def forgetWhen : Bool → Node → Node
  | true => forgetAll
  | false => id

theorem forgetWhen_forgetWhen (late early : Bool) (n : Node) :
    (n.forgetWhen early).forgetWhen late = n.forgetWhen (late || early) := by
  cases late <;> cases early <;> simp [forgetWhen, forgetAll_forgetAll]

theorem at?_forgetWhen (stale : Bool) (n : Node) (path : List Key) :
    (n.forgetWhen stale).at? path = (n.at? path).map (forgetWhen stale) := by
  cases stale with
  | false => exact Option.map_id_apply.symm
  | true => exact at?_forgetAll n path

theorem find?_forgetWhen (k : Key) (stale : Bool) (cs : List (Token × Node)) :
    find? k (if stale then forgetChildren cs else cs) = (find? k cs).map (forgetWhen stale) := by
  cases stale with
  | false => exact Option.map_id_apply.symm
  | true => rw [if_pos rfl, forgetChildren_eq_map, find?_map, forgetWhen]

/-- What stands at the end of a path of a merge: what the source has there is merged into what the
target has there, or into a new position. -/
theorem exists_at?_mergeInto {source : Node} (formed : source.WellFormed) (target : Node)
    (path : List Key) :
    ∃ stale u, (mergeInto source target).at? path =
      match source.at? path with
      | none => (target.at? path).map (forgetWhen stale)
      | some s => some (mergeInto s (((target.at? path).map (forgetWhen stale)).getD (ofToken u))) := by
  induction path generalizing source target with
  | nil => exact ⟨false, .ofCall .pass, by simp [forgetWhen]⟩
  | cons k path ih =>
    rw [at?_cons, at?_cons, at?_cons, children_mergeInto]
    cases known : find? k source.children with
    | none =>
      refine ⟨source.brings target, .ofCall .pass, ?_⟩
      rw [find?_mergeChildren_of_forall _ (find?_eq_none_iff.1 known), find?_forgetWhen]
      cases find? k target.children with
      | none => rfl
      | some d => exact at?_forgetWhen _ d path
    | some c =>
      obtain ⟨t, member, rfl⟩ := mem_of_find? known
      have formedChild : c.WellFormed := formed.of_find? known
      rw [find?_mergeChildren_of_mem _ formed.distinct member, Option.bind_some, Option.bind_some,
        childOrNew, find?_forgetWhen]
      cases find? t.key target.children with
      | none =>
        simp only [Option.map_none, Option.getD_none, Option.bind_none]
        -- a new position has nothing below it
        cases path with
        | nil => exact ⟨false, t, by simp⟩
        | cons k' path =>
          simpa only [at?_ofToken_cons, Option.map_none, Option.getD_none] using
            ih formedChild (ofToken t)
      | some d =>
        obtain ⟨stale, u, merged⟩ := ih formedChild (d.forgetWhen (source.brings target))
        refine ⟨stale || source.brings target, u, ?_⟩
        rw [Option.map_some, Option.getD_some, merged, Option.bind_some, at?_forgetWhen, Option.map_map]
        simp only [Function.comp_def, forgetWhen_forgetWhen]

/-! ## Well-formed merges -/

theorem nodup_mergeChildren (scs : List (Token × Node)) {cs : List (Token × Node)}
    (distinct : (cs.map fun e => e.1.key).Nodup) :
    ((mergeChildren scs cs).map fun e => e.1.key).Nodup := by
  induction scs generalizing cs with
  | nil => exact distinct
  | cons e rest ih => exact ih (nodup_putChild distinct)

theorem forall_mergeSteps {P : Node → Prop} {outranks : Bool} {source target : List Node}
    (new : ∀ s ∈ source, P s.copy) (old : ∀ s ∈ target, P s) :
    ∀ s ∈ mergeSteps outranks source target, P s := by
  unfold mergeSteps
  split
  · rw [copySteps_eq_map, List.forall_mem_map]
    exact new
  · exact old

/-! ## Height of a merge -/

theorem heightSteps_le_iff {ss : List Node} {h : Nat} :
    heightSteps ss ≤ h ↔ ∀ s ∈ ss, s.height ≤ h := by
  induction ss with
  | nil => simp [heightSteps]
  | cons s rest ih => rw [heightSteps, Nat.max_le, ih, List.forall_mem_cons]

theorem heightChildren_le_iff {cs : List (Token × Node)} {h : Nat} :
    heightChildren cs ≤ h ↔ ∀ e ∈ cs, e.2.height ≤ h := by
  induction cs with
  | nil => simp [heightChildren]
  | cons e rest ih => rw [heightChildren, Nat.max_le, ih, List.forall_mem_cons]

theorem height_le_succ_iff {n : Node} {h : Nat} :
    n.height ≤ h + 1 ↔ (∀ s ∈ n.steps, s.height ≤ h) ∧ ∀ e ∈ n.children, e.2.height ≤ h := by
  cases n with
  | mk c ss cs =>
    rw [height, ← heightSteps_le_iff, ← heightChildren_le_iff, steps_mk, children_mk]
    omega

theorem height_pos (n : Node) : 0 < n.height := by
  cases n with
  | mk c ss cs => rw [height]; omega

theorem height_forgetAll_le {n : Node} {h : Nat} (bound : n.height ≤ h) : n.forgetAll.height ≤ h := by
  induction n using Node.induction generalizing h with
  | position c ss cs _ children =>
    obtain ⟨h, rfl⟩ : ∃ h', h = h' + 1 := ⟨h - 1, by have := height_pos (mk c ss cs); omega⟩
    rw [height_le_succ_iff] at bound ⊢
    simp only [steps_forgetAll, children_forgetAll, forgetChildren_eq_map, List.forall_mem_map]
    exact ⟨bound.1, fun e member => children e member (bound.2 e member)⟩

theorem height_copy_le {n : Node} {h : Nat} (bound : n.height ≤ h) : n.copy.height ≤ h := by
  induction n using Node.induction generalizing h with
  | position c ss cs steps children =>
    obtain ⟨h, rfl⟩ : ∃ h', h = h' + 1 := ⟨h - 1, by have := height_pos (mk c ss cs); omega⟩
    rw [height_le_succ_iff] at bound ⊢
    simp only [steps_copy, copySteps_eq_map, children_copy, copyChildren_eq_map, List.forall_mem_map]
    exact ⟨fun s member => steps s member (bound.1 s member),
      fun e member => children e member (bound.2 e member)⟩

theorem height_mergeInto_le {source target : Node} {h : Nat} (hs : source.height ≤ h)
    (ht : target.height ≤ h) : (mergeInto source target).height ≤ h := by
  -- a merge takes its children from either side, or merges two
  induction source using Node.induction generalizing target h with
  | position sc sss scs _ children =>
    obtain ⟨h, rfl⟩ : ∃ h', h = h' + 1 := ⟨h - 1, by have := height_pos target; omega⟩
    have forgotten := height_le_succ_iff.1 (height_forgetAll_le ht)
    simp only [children_forgetAll] at forgotten
    rw [height_le_succ_iff] at hs ht ⊢
    rw [steps_mergeInto, children_mergeInto]
    constructor
    · exact forall_mergeSteps (fun s member => height_copy_le (hs.1 s member)) ht.1
    · apply forall_mergeChildren (P := fun _ n => n.height ≤ h)
      · split
        · exact forgotten.2
        · exact ht.2
      · exact fun t n u m member _ bound => children (t, n) member (hs.2 _ member) bound
      · intro t n member
        have bound : n.height ≤ h := hs.2 _ member
        have positive := height_pos n
        exact children (t, n) member bound (by simp [ofToken, height, heightSteps, heightChildren]; omega)

/-! ## Candidates -/

theorem find?_placeCandidate (k : Key) (cs : List (Token × Node)) (t : Token) (n : Node) :
    find? k (placeCandidate cs (t, n)) =
      if t.key = k then
        some (match find? k cs with
          | none => n
          | some present => mergeInto n present)
      else find? k cs := by
  unfold placeCandidate
  simp only
  by_cases hit : t.key = k
  · subst hit
    cases present : find? t.key cs with
    | none => simp [find?_append, present, find?]
    | some m => simp [find?_putChild]
  · cases present : find? t.key cs with
    | none => simp [find?_append, find?, hit]
    | some m => simp [find?_putChild, hit]

theorem nodup_placeCandidate {cs : List (Token × Node)} (e : Token × Node)
    (distinct : (cs.map fun e => e.1.key).Nodup) :
    ((placeCandidate cs e).map fun e => e.1.key).Nodup := by
  unfold placeCandidate
  cases present : find? e.1.key cs with
  | some m => exact nodup_putChild distinct
  | none =>
    rw [List.map_append, List.nodup_append]
    refine ⟨distinct, by simp, ?_⟩
    intro a member b single same
    rw [List.map_singleton, List.mem_singleton] at single
    obtain ⟨old, place, rfl⟩ := List.mem_map.1 member
    exact find?_eq_none_iff.1 present old place (same.trans single)

theorem nodup_foldl_placeCandidate (cands : List (Token × Node)) {cs : List (Token × Node)}
    (distinct : (cs.map fun e => e.1.key).Nodup) :
    ((cands.foldl placeCandidate cs).map fun e => e.1.key).Nodup := by
  induction cands generalizing cs with
  | nil => exact distinct
  | cons e rest ih => exact ih (nodup_placeCandidate e distinct)

/-- What holds of every child after candidates are placed: it holds of the old ones and of the
candidates, and merging keeps it. -/
theorem forall_foldl_placeCandidate {P : Token → Node → Prop} {cands cs : List (Token × Node)}
    (old : ∀ e ∈ cs, P e.1 e.2) (new : ∀ e ∈ cands, P e.1 e.2)
    (into : ∀ t n u m, (t, n) ∈ cands → u.key = t.key → P u m → P u (mergeInto n m)) :
    ∀ e ∈ cands.foldl placeCandidate cs, P e.1 e.2 := by
  induction cands generalizing cs with
  | nil => exact old
  | cons e rest ih =>
    obtain ⟨t, n⟩ := e
    refine ih ?_ (fun e member => new e (List.mem_cons_of_mem _ member))
      (fun t n u m member => into t n u m (List.mem_cons_of_mem _ member))
    unfold placeCandidate
    rintro ⟨u, m⟩ member
    cases present : find? t.key cs with
    | none =>
      simp only [present, List.mem_append, List.mem_singleton] at member
      rcases member with kept | added
      · exact old _ kept
      · exact added ▸ new _ List.mem_cons_self
    | some present' =>
      simp only [present] at member
      rcases mem_putChild member with ⟨_, _, missing⟩ | ⟨rfl, key, prior, place, found⟩ | kept
      · rw [present] at missing
        cases missing
      · rw [present, Option.some.injEq] at found
        exact into t n u present' List.mem_cons_self key (found ▸ old _ place)
      · exact old _ kept

end BidBook.Node

import Mathlib.Algebra.Ring.Nat
import BidBook.Node

/-! # Looking up positions

What `find?` and `at?` give after children were put, forgotten or copied, and what a well-formed tree is
worth: a child is found under the key of its token.

* `find?_putChild`, `find?_append` — one equation for each way to add a child.
* `find?_of_mem` — where keys differ, each child is found.
* `sum_putChild` — what is added up over the children changes by the child that is put.
* `at?_forgetAll`, `at?_copy` — positions stay where they are.
* `wellFormed_iff` — well-formedness, one level at a time.
-/

namespace BidBook.Node

/-- Induction on a tree: a property holds of a position if it holds of its relay steps and of the
positions that follow it. -/
theorem induction {P : Node → Prop}
    (position : ∀ c ss cs, (∀ s ∈ ss, P s) → (∀ e ∈ cs, P e.2) → P (mk c ss cs)) (n : Node) : P n :=
  match n with
  | mk c ss cs => position c ss cs (fun s _ => induction position s) (fun e _ => induction position e.2)
termination_by sizeOf n
decreasing_by
  · have := List.sizeOf_lt_of_mem ‹s ∈ ss›
    simp only [mk.sizeOf_spec]
    omega
  · have := List.sizeOf_lt_of_mem ‹e ∈ cs›
    have : sizeOf e.2 < sizeOf e := by cases e; simp only [Prod.mk.sizeOf_spec]; omega
    simp only [mk.sizeOf_spec]
    omega

/-! ## Children -/

theorem find?_putChild (k : Key) (t : Token) (n : Node) (cs : List (Token × Node)) :
    find? k (putChild t n cs) = if t.key = k then some n else find? k cs := by
  induction cs with
  | nil => simp [putChild, find?]
  | cons e rest ih =>
    obtain ⟨t', n'⟩ := e
    by_cases same : t'.key = t.key
    · by_cases hit : t.key = k
      · simp [putChild, find?, same, hit]
      · simp [putChild, find?, same, hit]
    · simp only [putChild, same, if_false, find?, ih]
      by_cases first : t'.key = k
      · have other : t.key ≠ k := fun e => same (first.trans e.symm)
        simp [first, other]
      · simp [first]

theorem find?_append (k : Key) (cs ds : List (Token × Node)) :
    find? k (cs ++ ds) = (find? k cs).or (find? k ds) := by
  induction cs with
  | nil => simp [find?]
  | cons e rest ih =>
    obtain ⟨t, n⟩ := e
    by_cases hit : t.key = k <;> simp [find?, hit, ih]

theorem find?_eq_none_iff {k : Key} {cs : List (Token × Node)} :
    find? k cs = none ↔ ∀ e ∈ cs, e.1.key ≠ k := by
  induction cs with
  | nil => simp [find?]
  | cons e rest ih =>
    obtain ⟨t, n⟩ := e
    by_cases hit : t.key = k <;> simp [find?, hit, ih]

theorem mem_of_find? {k : Key} {n : Node} {cs : List (Token × Node)} (found : find? k cs = some n) :
    ∃ t, (t, n) ∈ cs ∧ t.key = k := by
  induction cs with
  | nil => simp [find?] at found
  | cons e rest ih =>
    obtain ⟨t, m⟩ := e
    by_cases hit : t.key = k
    · simp only [find?, hit, if_true, Option.some.injEq] at found
      exact ⟨t, by simp [found], hit⟩
    · simp only [find?, hit, if_false] at found
      obtain ⟨t', member, key⟩ := ih found
      exact ⟨t', List.mem_cons_of_mem _ member, key⟩

theorem find?_of_mem {t : Token} {n : Node} {cs : List (Token × Node)}
    (distinct : (cs.map fun e => e.1.key).Nodup) (member : (t, n) ∈ cs) :
    find? t.key cs = some n := by
  induction cs with
  | nil => cases member
  | cons e rest ih =>
    obtain ⟨t', n'⟩ := e
    simp only [List.map_cons, List.nodup_cons] at distinct
    rcases List.mem_cons.1 member with here | later
    · cases here
      simp [find?]
    · have other : t'.key ≠ t.key := fun same =>
        distinct.1 (same ▸ List.mem_map_of_mem (f := fun e : Token × Node => e.1.key) later)
      simp [find?, other, ih distinct.2 later]

theorem keys_putChild (t : Token) (n : Node) (cs : List (Token × Node)) :
    (putChild t n cs).map (fun e => e.1.key) =
      if t.key ∈ cs.map (fun e => e.1.key) then cs.map fun e => e.1.key
      else cs.map (fun e => e.1.key) ++ [t.key] := by
  induction cs with
  | nil => simp [putChild]
  | cons e rest ih =>
    obtain ⟨t', n'⟩ := e
    by_cases same : t'.key = t.key
    · simp [putChild, same]
    · have other : t.key ≠ t'.key := fun e => same e.symm
      simp only [putChild, same, if_false, List.map_cons, ih, List.mem_cons, other, false_or]
      split <;> simp

theorem nodup_putChild {t : Token} {n : Node} {cs : List (Token × Node)}
    (distinct : (cs.map fun e => e.1.key).Nodup) :
    ((putChild t n cs).map fun e => e.1.key).Nodup := by
  rw [keys_putChild]
  split
  · exact distinct
  · next absent => exact List.nodup_append.2 ⟨distinct, by simp, by
      intro a member b single same
      rw [List.mem_singleton] at single
      exact absent (single ▸ same ▸ member)⟩

/-- A child of the outcome is the new one, in its own place or in that of the child with its key, or an
old one. -/
theorem mem_putChild {t u : Token} {n m : Node} {cs : List (Token × Node)}
    (member : (u, m) ∈ putChild t n cs) :
    (m = n ∧ u = t ∧ find? t.key cs = none) ∨
      (m = n ∧ u.key = t.key ∧ ∃ old, (u, old) ∈ cs ∧ find? t.key cs = some old) ∨
      (u, m) ∈ cs := by
  induction cs with
  | nil =>
    simp only [putChild, List.mem_singleton, Prod.mk.injEq] at member
    exact .inl ⟨member.2, member.1, rfl⟩
  | cons e rest ih =>
    obtain ⟨t', n'⟩ := e
    by_cases same : t'.key = t.key
    · simp only [putChild, same, if_true, List.mem_cons, Prod.mk.injEq] at member
      rcases member with ⟨rfl, rfl⟩ | later
      · exact .inr (.inl ⟨rfl, same, n', by simp, by simp [find?, same]⟩)
      · exact .inr (.inr (by simp [later]))
    · simp only [putChild, same, if_false, List.mem_cons] at member
      simp only [find?, same, if_false, List.mem_cons]
      rcases member with first | later
      · exact .inr (.inr (.inl first))
      · rcases ih later with new | ⟨eq, key, old, place, found⟩ | old
        · exact .inl new
        · exact .inr (.inl ⟨eq, key, old, .inr place, found⟩)
        · exact .inr (.inr (.inr old))

/-- The children are reached by the tokens that they were reached by, and by the new one at most. -/
theorem forall_token_putChild {K : Token → Prop} {t : Token} {cs : List (Token × Node)} (n : Node)
    (new : K t) (old : ∀ e ∈ cs, K e.1) : ∀ e ∈ putChild t n cs, K e.1 := by
  rintro ⟨u, m⟩ member
  rcases mem_putChild member with ⟨_, rfl, _⟩ | ⟨_, _, present, place, _⟩ | kept
  · exact new
  · exact old (u, present) place
  · exact old _ kept

theorem forall_node_putChild {P : Node → Prop} {t : Token} {n : Node} {cs : List (Token × Node)}
    (new : P n) (old : ∀ e ∈ cs, P e.2) : ∀ e ∈ putChild t n cs, P e.2 := by
  rintro ⟨u, m⟩ member
  rcases mem_putChild member with ⟨rfl, _, _⟩ | ⟨rfl, _, _⟩ | kept
  · exact new
  · exact new
  · exact old _ kept

/-- What holds of new positions and of all children holds of the child that is there or would be created. -/
theorem of_childOrNew {P : Node → Prop} {t : Token} {cs : List (Token × Node)} (new : P (ofToken t))
    (old : ∀ e ∈ cs, P e.2) : P (childOrNew t cs) := by
  unfold childOrNew
  cases found : find? t.key cs with
  | none => exact new
  | some c =>
    obtain ⟨_, member, _⟩ := mem_of_find? found
    exact old _ member

/-- What is added up over the children changes by the child that is put. -/
theorem sum_putChild {f : Node → Nat} (new : ∀ t, f (ofToken t) = 0) (t : Token) (n : Node)
    (cs : List (Token × Node)) : ((putChild t n cs).map fun e => f e.2).sum + f (childOrNew t cs) =
      (cs.map fun e => f e.2).sum + f n := by
  induction cs with
  | nil => simp [putChild, childOrNew, find?, new]
  | cons e cs ih =>
    obtain ⟨u, m⟩ := e
    by_cases same : u.key = t.key
    · have there : childOrNew t ((u, m) :: cs) = m := by simp [childOrNew, find?, same]
      rw [putChild, if_pos same, there]
      simp only [List.map_cons, List.sum_cons]
      omega
    · have later : childOrNew t ((u, m) :: cs) = childOrNew t cs := by simp [childOrNew, find?, same]
      rw [putChild, if_neg same, later]
      simp only [List.map_cons, List.sum_cons]
      omega

/-! ## Paths -/

@[simp] theorem at?_nil (n : Node) : n.at? [] = some n := by
  cases n; rfl

@[simp] theorem at?_cons (n : Node) (k : Key) (path : List Key) :
    n.at? (k :: path) = (find? k n.children).bind fun c => c.at? path := by
  cases n; rfl

theorem at?_append (n : Node) (p q : List Key) :
    n.at? (p ++ q) = (n.at? p).bind fun m => m.at? q := by
  induction p generalizing n with
  | nil => simp
  | cons k p ih =>
    rw [List.cons_append, at?_cons, at?_cons, Option.bind_assoc]
    exact Option.bind_congr fun c _ => ih c

@[simp] theorem at?_ofToken_cons (t : Token) (k : Key) (path : List Key) :
    (ofToken t).at? (k :: path) = none := by
  simp [ofToken, find?]

/-! ## Forgetting and copying -/

theorem content_forgetAll (n : Node) : n.forgetAll.content = n.content.forget := by
  cases n; simp [forgetAll]

theorem steps_forgetAll (n : Node) : n.forgetAll.steps = n.steps := by
  cases n; simp [forgetAll]

theorem children_forgetAll (n : Node) : n.forgetAll.children = forgetChildren n.children := by
  cases n; simp [forgetAll]

theorem forgetChildren_eq_map (cs : List (Token × Node)) :
    forgetChildren cs = cs.map fun e => (e.1, e.2.forgetAll) := by
  induction cs with
  | nil => rfl
  | cons e rest ih => simp [forgetChildren, ih]

theorem copyChildren_eq_map (cs : List (Token × Node)) :
    copyChildren cs = cs.map fun e => (e.1, e.2.copy) := by
  induction cs with
  | nil => rfl
  | cons e rest ih => simp [copyChildren, ih]

theorem copySteps_eq_map (ss : List Node) : copySteps ss = ss.map copy := by
  induction ss with
  | nil => rfl
  | cons s rest ih => simp [copySteps, ih]

theorem copySteps_eq_nil_iff {ss : List Node} : copySteps ss = [] ↔ ss = [] := by
  rw [copySteps_eq_map, List.map_eq_nil_iff]

theorem content_copy (n : Node) : n.copy.content = n.content.forget := by
  cases n; simp [copy]

theorem steps_copy (n : Node) : n.copy.steps = copySteps n.steps := by
  cases n; simp [copy]

theorem children_copy (n : Node) : n.copy.children = copyChildren n.children := by
  cases n; simp [copy]

theorem copy_copy (n : Node) : n.copy.copy = n.copy := by
  induction n using induction with
  | position c ss cs steps below =>
    have stepsSame : copySteps (copySteps ss) = copySteps ss := by
      rw [copySteps_eq_map, copySteps_eq_map, List.map_map]
      exact List.map_congr_left steps
    have childrenSame : copyChildren (copyChildren cs) = copyChildren cs := by
      rw [copyChildren_eq_map, copyChildren_eq_map, List.map_map]
      exact List.map_congr_left fun e member => by simp [below e member]
    rw [copy, copy, stepsSame, childrenSame]
    rfl

theorem copySteps_copySteps (ss : List Node) : copySteps (copySteps ss) = copySteps ss := by
  rw [copySteps_eq_map, copySteps_eq_map, List.map_map]
  exact List.map_congr_left fun s _ => copy_copy s

theorem find?_map (k : Key) (f : Node → Node) (cs : List (Token × Node)) :
    find? k (cs.map fun e => (e.1, f e.2)) = (find? k cs).map f := by
  induction cs with
  | nil => rfl
  | cons e rest ih =>
    obtain ⟨t, n⟩ := e
    by_cases hit : t.key = k <;> simp [find?, hit, ih]

theorem at?_forgetAll (n : Node) (path : List Key) :
    n.forgetAll.at? path = (n.at? path).map forgetAll := by
  induction path generalizing n with
  | nil => simp
  | cons k path ih =>
    rw [at?_cons, at?_cons, children_forgetAll, forgetChildren_eq_map, find?_map]
    cases find? k n.children with
    | none => rfl
    | some c => simp [ih c]

theorem at?_copy (n : Node) (path : List Key) :
    n.copy.at? path = (n.at? path).map copy := by
  induction path generalizing n with
  | nil => simp
  | cons k path ih =>
    rw [at?_cons, at?_cons, children_copy, copyChildren_eq_map, find?_map]
    cases find? k n.children with
    | none => rfl
    | some c => simp [ih c]

/-! ## Well-formed trees -/

theorem wellFormedSteps_iff {ss : List Node} : WellFormedSteps ss ↔ ∀ s ∈ ss, s.WellFormed := by
  induction ss with
  | nil => simp [WellFormedSteps]
  | cons s rest ih => simp [WellFormedSteps, ih]

theorem wellFormedChildren_iff {cs : List (Token × Node)} :
    WellFormedChildren cs ↔ ∀ e ∈ cs, e.2.WellFormed := by
  induction cs with
  | nil => simp [WellFormedChildren]
  | cons e rest ih => simp [WellFormedChildren, ih]

theorem wellFormed_iff {n : Node} :
    n.WellFormed ↔ (∀ s ∈ n.steps, s.WellFormed) ∧ (n.children.map fun e => e.1.key).Nodup ∧
      ∀ e ∈ n.children, e.2.WellFormed := by
  cases n
  simp [WellFormed, wellFormedSteps_iff, wellFormedChildren_iff]

theorem WellFormed.distinct {n : Node} (h : n.WellFormed) :
    (n.children.map fun e => e.1.key).Nodup := (wellFormed_iff.1 h).2.1

theorem WellFormed.of_find? {n c : Node} {k : Key} (h : n.WellFormed)
    (found : find? k n.children = some c) : c.WellFormed := by
  obtain ⟨t, member, _⟩ := mem_of_find? found
  exact (wellFormed_iff.1 h).2.2 _ member

theorem WellFormed.of_at? {n m : Node} {path : List Key} (h : n.WellFormed)
    (found : n.at? path = some m) : m.WellFormed := by
  induction path generalizing n with
  | nil =>
    rw [at?_nil, Option.some.injEq] at found
    exact found ▸ h
  | cons k path ih =>
    rw [at?_cons, Option.bind_eq_some_iff] at found
    obtain ⟨c, child, found⟩ := found
    exact ih (h.of_find? child) found

theorem wellFormed_ofToken (t : Token) : (ofToken t).WellFormed := by
  rw [wellFormed_iff]
  simp [ofToken]

theorem WellFormed.childOrNew {t : Token} {cs : List (Token × Node)}
    (h : ∀ e ∈ cs, e.2.WellFormed) : (childOrNew t cs).WellFormed :=
  of_childOrNew (wellFormed_ofToken t) h

end BidBook.Node

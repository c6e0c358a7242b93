import BidBook.Expansion
import BidBook.Proofs.Landings
import BidBook.Proofs.Ways

/-! # Positions with relay steps

Where relay steps hang in a tree: replacing choices and binding open suits move them along with the
positions that carry them, and bring up no others. Where there are none, nothing is attached.

* `carries` — whether a position has relay steps.
* `Node.carries_expandWildcards_iff` — where they are after choices are replaced and open suits bound.
* `Node.spliceFuel_eq_self` — a tree without relay steps stays as it is.
-/

namespace BidBook

open Node

/-- Relay steps of the position, whatever they are. -/
def carries : Observation Unit where
  see _ n := if n.steps = [] then none else some ()
  rank _ := 0
  see_mergeInto _ source target := by
    by_cases empty : (mergeInto source target).steps = []
    · have both := steps_mergeInto_eq_nil_iff.1 empty
      simp [Prevails, empty, both]
    · rw [if_neg empty]
      rw [steps_mergeInto_eq_nil_iff] at empty
      refine ⟨?_, fun _ _ => Int.le_refl _⟩
      by_cases steps : target.steps = []
      · have steps' : source.steps ≠ [] := fun h => empty ⟨h, steps⟩
        simp [steps']
      · simp [steps]
  see_mergeInto_ofToken _ source t := by
    have empty : (ofToken t).steps = [] := rfl
    simp [steps_mergeInto_eq_nil_iff, empty]
  see_forgetAll _ n := by rw [steps_forgetAll]
  see_copy _ n := by simp only [steps_copy, copySteps_eq_nil_iff]
  see_copyUnder _ n := by simp only [steps_copyUnder, copySteps_eq_nil_iff]

def Node.Carries (n : Node) (path : List Key) : Prop := ∃ m, n.at? path = some m ∧ m.steps ≠ []

namespace Node

instance (n : Node) (path : List Key) : Decidable (n.Carries path) :=
  decidable_of_iff ((n.at? path).any (fun m => !m.steps.isEmpty) = true) (by
    simp [Carries, Option.any_eq_true])

mutual

/-- The paths to all positions that carry relay steps. -/
def carriers : Node → List (List Key)
  | mk _ ss cs => (if ss.isEmpty then [] else [[]]) ++ carriersChildren cs

def carriersChildren : List (Token × Node) → List (List Key)
  | [] => []
  | (t, n) :: rest => n.carriers.map (t.key :: ·) ++ carriersChildren rest

end

theorem mem_carriersChildren {e : Token × Node} {cs : List (Token × Node)} {path : List Key}
    (member : e ∈ cs) (listed : path ∈ e.2.carriers) : e.1.key :: path ∈ carriersChildren cs := by
  induction cs with
  | nil => cases member
  | cons e' rest ih =>
    rw [carriersChildren, List.mem_append]
    rcases List.mem_cons.1 member with rfl | later
    · exact .inl (List.mem_map_of_mem listed)
    · exact .inr (ih later)

theorem Carries.mem_carriers {n : Node} {path : List Key} (carried : n.Carries path) :
    path ∈ n.carriers := by
  obtain ⟨m, found, nonempty⟩ := carried
  induction path generalizing n with
  | nil =>
    rw [at?_nil, Option.some.injEq] at found
    subst found
    cases n with
    | mk c ss cs =>
      rw [steps_mk] at nonempty
      rw [carriers, if_neg (mt List.isEmpty_iff.1 nonempty)]
      exact List.mem_append_left _ List.mem_cons_self
  | cons k path ih =>
    rw [at?_cons, Option.bind_eq_some_iff] at found
    obtain ⟨c, child, found⟩ := found
    obtain ⟨t, member, rfl⟩ := mem_of_find? child
    cases n with
    | mk _ ss cs =>
      rw [carriers]
      exact List.mem_append_right _ (mem_carriersChildren member (ih found))

end Node

theorem carries_see_eq_some_iff (mark : Option Token) {n : Node} :
    carries.see mark n = some () ↔ n.steps ≠ [] := by
  show (if n.steps = [] then none else some ()) = some () ↔ _
  split <;> simp [*]

theorem carries_at_eq_some_iff (mark : Option Token) {n : Node} {path : List Key} :
    carries.at mark n path = some () ↔ n.Carries path := by
  rw [Observation.at_eq_some_iff]
  exact exists_congr fun m => and_congr_right fun _ => carries_see_eq_some_iff mark

theorem Prevails.eq_some_iff {rank : Unit → Int} {offered : Unit → Prop} {o : Option Unit}
    (h : Prevails rank offered o) : o = some () ↔ offered () := by
  cases o with
  | none => exact iff_of_false (by simp) (h ())
  | some u => exact iff_of_true rfl h.1

theorem carries_see_flattenFuel (fuel : Nat) (n : Node) :
    carries.see none (flattenFuel fuel n).1 = carries.see none n := by
  show (if (flattenFuel fuel n).1.steps = [] then none else some ()) =
    if n.steps = [] then none else some ()
  cases fuel with
  | zero => rfl
  | succ fuel => simp [steps_flattenFuel_succ]

theorem carries_see_bind (b : Binding) (above : List Glossary) (token : Option Token) (n : Node) :
    carries.see none (n.bind b above token) = carries.see none n := by
  show (if (n.bind b above token).steps = [] then none else some ()) =
    if n.steps = [] then none else some ()
  simp [steps_bind]

namespace Node

variable {settings : ExpansionSettings} {n : Node} {p : List Key}

theorem carries_flatten_iff (tidy : Throughout (Tidy Token.Written) n) :
    n.flatten.1.Carries p ↔ ∃ q last, Reads none q p last ∧ n.Carries q := by
  rw [← carries_at_eq_some_iff none, (carries.at_flatten carries_see_flattenFuel tidy p).eq_some_iff]
  simp only [carries_at_eq_some_iff]

theorem carries_bind_iff (tidy : Throughout (Tidy Token.Written) n) (b : Binding) :
    (n.bind b [] none).Carries p ↔ ∃ q, q.map (Key.bound b) = p ∧ n.Carries q := by
  rw [← carries_at_eq_some_iff none,
    (carries.at_bind_of_keeps carries_see_bind tidy p).eq_some_iff]
  simp only [carries_at_eq_some_iff]

/-- After all copies are merged, they hang wherever some binding takes such a position. -/
theorem carries_expandWildcards_iff (accepted : settings.Accepted)
    (tidy : Throughout (Tidy Token.Written) n) :
    (n.expandWildcards settings [] none).1.Carries p ↔
      ∃ b ∈ Binding.enumerate settings (n.mentions none), ∃ q, q.map (Key.bound b) = p ∧ n.Carries q := by
  rw [← carries_at_eq_some_iff none,
    (carries.at_expandWildcards carries_see_bind accepted (fun x seen => by cases seen) tidy p).eq_some_iff]
  simp only [carries_at_eq_some_iff]

/-! ## Trees without relay steps -/

theorem expandWildcards_not_carries (accepted : settings.Accepted) (declared : Throughout Declared n)
    (silent : ∀ q, ¬ n.Carries q) (p : List Key) :
    ¬ (n.flatten.1.expandWildcards settings [] none).1.Carries p := by
  have tidy := tidy_flatten_of_declared declared
  rw [carries_expandWildcards_iff accepted tidy]
  rintro ⟨b, _, q, _, carried⟩
  obtain ⟨q', _, _, carried⟩ := (carries_flatten_iff declared.tidy_of_declared).1 carried
  exact silent q' carried

/-- A tree without relay steps stays as it is, and nothing is reported. -/
theorem spliceFuel_eq_self (alertable : Bool) (fuel : Nat) (path : List Place) (formed : n.WellFormed)
    (silent : ∀ q, ¬ n.Carries q) : spliceFuel alertable fuel path n = (n, 0, []) := by
  induction fuel generalizing path n with
  | zero => rfl
  | succ fuel ih =>
    cases n with
    | mk c ss cs =>
      have empty : ss = [] := Decidable.byContradiction fun h => silent [] ⟨_, at?_nil _, h⟩
      subst empty
      let spliced (e : Token × Node) := (e.1, spliceFuel alertable fuel (e.2.place (some e.1) :: path) e.2)
      -- nothing is attached here, and nothing below
      have below : cs.map spliced = cs.map fun e => (e.1, e.2, 0, []) := by
        refine List.map_congr_left fun e member => ?_
        have found := find?_of_mem formed.distinct member
        refine congrArg (e.1, ·) (ih _ (formed.of_find? found) fun q carried => ?_)
        obtain ⟨m, there, steps⟩ := carried
        exact silent (e.1.key :: q) ⟨m, by rw [at?_cons, found, Option.bind_some, there], steps⟩
      show (mk c [] ((cs.map spliced).map fun e => (e.1, e.2.1)), 0 + ((cs.map spliced).map (·.2.2.1)).sum,
        [] ++ (cs.map spliced).flatMap (·.2.2.2)) = _
      rw [below]
      simp [Function.comp_def]

/-- Expanding a whole tree: the copies are merged, and relay steps attached. -/
theorem expand_root (settings : ExpansionSettings) (n : Node) : (n.expand settings {}).1 =
    ((n.flatten.1.expandWildcards settings [] none).1.splice settings
      [(n.flatten.1.expandWildcards settings [] none).1.place none]).1 := rfl

theorem expand_eq_of_not_carries (accepted : settings.Accepted) (declared : Throughout Declared n)
    (silent : ∀ q, ¬ n.Carries q) :
    (n.expand settings {}).1 = (n.flatten.1.expandWildcards settings [] none).1 := by
  rw [expand_root, splice, spliceFuel_eq_self _ _ _ (throughout_expanded accepted declared).wellFormed
    (expandWildcards_not_carries accepted declared silent)]

end Node

end BidBook

import BidBook.Proofs.RelayBids
import Mathlib.Algebra.Order.BigOperators.Group.List
import Mathlib.Algebra.Order.Group.Nat

/-! # Attaching relay steps comes to an end

When relay steps are attached, the steps inside of them come to hang on children, some of which are new,
and the recursion goes on into these. It ends all the same, since no child is higher than what was above it.
Nor are there ever more relay steps than before: a merge either keeps those of the target or puts those of
the source in their place, and a step that is attached is gone itself.

* `Splices` — the recursion, without a bound on its levels.
* `splices_iff` — it ends, with one outcome.
* `stepCount_mergeInto_le` — a merge has no more relay steps than the trees it is made of.
* `stepCount_attachSteps_le` — what is attached is paid for by the relay steps that are gone.
* `splice_terminates` — the recursion ends, leaves no relay steps, and attaches no more than there were.
-/

namespace BidBook.Node

variable {settings : ExpansionSettings} {alertable : Bool} {fuel : Nat} {path : List Place} {n : Node}
  {out : Node × Nat × List Event}

/-! ## The recursion -/

def attachedLevel (settings : ExpansionSettings) (path : List Place) (n : Node) :
    List (Token × Node) × Nat :=
  attachSteps settings.relayAlertable (Place.lastBid? path) n.steps n.children

/-- The recursion on a tree ends with an outcome. It attaches the relay steps of the position and goes on
with each of the children that there are then. -/
inductive Splices (settings : ExpansionSettings) : List Place → Node → Node × Nat × List Event → Prop where
  | node {path : List Place} {n : Node} {outcome : Token × Node → Node × Nat × List Event}
      (below : ∀ e ∈ (attachedLevel settings path n).1,
        Splices settings (e.2.place (some e.1) :: path) e.2 (outcome e)) :
      Splices settings path n (Checked.gatherSpliced path n.content n.steps.length
        (attachedLevel settings path n).2 ((attachedLevel settings path n).1.map fun e => (e.1, outcome e)))

/-- The bound on the levels plays no part in the outcome. -/
theorem splice_eq_gather (settings : ExpansionSettings) (path : List Place) (n : Node) :
    n.splice settings path = Checked.gatherSpliced path n.content n.steps.length
      (attachedLevel settings path n).2
      ((attachedLevel settings path n).1.map fun e => (e.1, splicedChild settings path e)) := by
  have low : ∀ e ∈ (attachedLevel settings path n).1, e.2.height ≤ n.height :=
    height_attachSteps_le (Nat.le_succ n.height)
  have below : (attachedLevel settings path n).1.map (fun e =>
        (e.1, spliceFuel settings.relayAlertable n.height (e.2.place (some e.1) :: path) e.2)) =
      (attachedLevel settings path n).1.map fun e => (e.1, splicedChild settings path e) :=
    List.map_congr_left fun e member => by
      rw [splicedChild, splice, spliceFuel_congr (low e member) (Nat.le_refl _)]
  rw [splice, spliceFuel_congr (Nat.le_refl _) (Nat.le_succ _), spliceFuel_eq, ← below]
  rfl

theorem splices_splice (settings : ExpansionSettings) (path : List Place) (n : Node) :
    Splices settings path n (n.splice settings path) := by
  -- the height decreases with each level of the recursion, whatever is attached
  obtain ⟨h, bound⟩ : ∃ h, n.height ≤ h := ⟨_, Nat.le_refl _⟩
  induction h generalizing n path with
  | zero =>
    have := height_pos n
    omega
  | succ h ih =>
    rw [splice_eq_gather]
    exact .node fun e member => ih _ _ (height_attachSteps_le bound e member)

/-- The recursion ends on every tree, and with one outcome only. -/
theorem splices_iff : Splices settings path n out ↔ out = n.splice settings path := by
  constructor
  · intro run
    induction run with
    | @node path n outcome below same =>
      rw [splice_eq_gather]
      congr 1
      exact List.map_congr_left fun e member => by rw [same e member, splicedChild]
  · rintro rfl
    exact splices_splice settings path n

/-! ## The number of relay steps -/

theorem stepCountSteps_eq_sum (ss : List Node) :
    stepCountSteps ss = (ss.map fun s => 1 + s.stepCount).sum := by
  induction ss with
  | nil => rfl
  | cons s ss ih => rw [stepCountSteps, ih, List.map_cons, List.sum_cons]

theorem stepCountChildren_eq_sum (cs : List (Token × Node)) :
    stepCountChildren cs = (cs.map fun e => e.2.stepCount).sum := by
  induction cs with
  | nil => rfl
  | cons e cs ih => rw [stepCountChildren, ih, List.map_cons, List.sum_cons]

theorem stepCount_eq (n : Node) : n.stepCount = stepCountSteps n.steps + stepCountChildren n.children := by
  cases n
  rfl

theorem stepCount_mapContent (f : Content → Content) (n : Node) :
    (n.mapContent f).stepCount = n.stepCount := by
  cases n
  rfl

theorem stepCount_forgetAll (n : Node) : n.forgetAll.stepCount = n.stepCount := by
  induction n using Node.induction with
  | position c ss cs _ below =>
    have children : stepCountChildren (forgetChildren cs) = stepCountChildren cs := by
      rw [forgetChildren_eq_map, stepCountChildren_eq_sum, stepCountChildren_eq_sum, List.map_map]
      exact congrArg List.sum (List.map_congr_left below)
    rw [forgetAll, stepCount, stepCount, children]

theorem stepCountSteps_copySteps (ss : List Node) : stepCountSteps (copySteps ss) = stepCountSteps ss := by
  rw [copySteps_eq_map, stepCountSteps_eq_sum, stepCountSteps_eq_sum, List.map_map]
  congr 1
  exact List.map_congr_left fun s _ => congrArg (1 + ·) (stepCount_copy_eq s)

/-- A child that is put in the place of another counts in its stead. -/
theorem stepCountChildren_putChild (t : Token) (n : Node) (cs : List (Token × Node)) :
    stepCountChildren (putChild t n cs) + (childOrNew t cs).stepCount =
      stepCountChildren cs + n.stepCount := by
  rw [stepCountChildren_eq_sum, stepCountChildren_eq_sum]
  exact sum_putChild (fun _ => rfl) t n cs

/-! ## Merging -/

theorem stepCountChildren_mergeChildren_le {scs : List (Token × Node)}
    (below : ∀ e ∈ scs, ∀ m : Node, (mergeInto e.2 m).stepCount ≤ e.2.stepCount + m.stepCount)
    (cs : List (Token × Node)) :
    stepCountChildren (mergeChildren scs cs) ≤ stepCountChildren scs + stepCountChildren cs := by
  induction scs generalizing cs with
  | nil => simp [mergeChildren, stepCountChildren]
  | cons e scs ih =>
    obtain ⟨t, s⟩ := e
    rw [List.forall_mem_cons] at below
    have first : (mergeInto s (childOrNew t cs)).stepCount ≤ s.stepCount + (childOrNew t cs).stepCount :=
      below.1 _
    have put := stepCountChildren_putChild t (mergeInto s (childOrNew t cs)) cs
    have rest := ih below.2 (putChild t (mergeInto s (childOrNew t cs)) cs)
    rw [mergeChildren, stepCountChildren]
    omega

/-- A merge moves relay steps or drops them, and makes none. -/
theorem stepCount_mergeInto_le (source target : Node) :
    (mergeInto source target).stepCount ≤ source.stepCount + target.stepCount := by
  induction source using Node.induction generalizing target with
  | position c ss cs _ below =>
    have steps : stepCountSteps (mergeInto (mk c ss cs) target).steps ≤
        stepCountSteps ss + stepCountSteps target.steps := by
      rcases steps_mergeInto_cases (mk c ss cs) target with ⟨same, _⟩ | ⟨same, _⟩
      · rw [same, stepCountSteps_copySteps]
        exact Nat.le_add_right _ _
      · rw [same]
        exact Nat.le_add_left _ _
    have begun : stepCountChildren (if (mk c ss cs).brings target then forgetChildren target.children
        else target.children) = stepCountChildren target.children := by
      have forgotten := stepCount_forgetAll target
      rw [stepCount_eq, stepCount_eq target, steps_forgetAll, children_forgetAll] at forgotten
      split
      · omega
      · rfl
    have children : stepCountChildren (mergeInto (mk c ss cs) target).children ≤
        stepCountChildren cs + stepCountChildren target.children := by
      rw [children_mergeInto, ← begun]
      exact stepCountChildren_mergeChildren_le below _
    rw [stepCount_eq, stepCount_eq target, stepCount]
    omega

/-! ## Attaching -/

/-- Each step that is attached is one less, and what is inside of it moves into a child. -/
theorem stepCount_attachSteps_le (alertable : Bool) (last : Option Bid) (ss : List Node)
    (cs : List (Token × Node)) :
    stepCountChildren (attachSteps alertable last ss cs).1 + (attachSteps alertable last ss cs).2 ≤
      stepCountSteps ss + stepCountChildren cs := by
  induction ss generalizing last cs with
  | nil => simp [attachSteps, stepCountSteps]
  | cons s ss ih =>
    rw [attachSteps, stepCountSteps]
    cases Bid.above? last with
    | none => exact Nat.le_add_left _ _
    | some b =>
      have merged := stepCount_mergeInto_le s (childOrNew (.ofCall (.bid b)) cs)
      have put := stepCountChildren_putChild (.ofCall (.bid b)) (attached alertable s b cs) cs
      have rest := ih (some b) (putChild (.ofCall (.bid b)) (attached alertable s b cs) cs)
      rw [attached, stepCount_mapContent] at put
      dsimp only
      rw [attached] at rest
      omega

theorem snd_spliceFuel_le (alertable : Bool) (fuel : Nat) (path : List Place) (n : Node) :
    (spliceFuel alertable fuel path n).2.1 ≤ n.stepCount := by
  induction fuel generalizing path n with
  | zero => exact Nat.zero_le _
  | succ fuel ih =>
    have level := stepCount_attachSteps_le alertable (Place.lastBid? path) n.steps n.children
    have below : ((attachSteps alertable (Place.lastBid? path) n.steps n.children).1.map fun e =>
          (spliceFuel alertable fuel (e.2.place (some e.1) :: path) e.2).2.1).sum ≤
        stepCountChildren (attachSteps alertable (Place.lastBid? path) n.steps n.children).1 := by
      rw [stepCountChildren_eq_sum]
      exact List.sum_le_sum fun e _ => ih _ e.2
    have count : (spliceFuel alertable (fuel + 1) path n).2.1 =
        (attachSteps alertable (Place.lastBid? path) n.steps n.children).2 +
          ((attachSteps alertable (Place.lastBid? path) n.steps n.children).1.map fun e =>
            (spliceFuel alertable fuel (e.2.place (some e.1) :: path) e.2).2.1).sum := by
      rw [spliceFuel_eq]
      exact congrArg (_ + List.sum ·) List.map_map
    rw [count, stepCount_eq]
    omega

theorem throughout_bare_spliceFuel (alertable : Bool) (bound : n.height ≤ fuel) :
    Throughout (fun m => m.steps = []) (spliceFuel alertable fuel path n).1 := by
  induction fuel generalizing n path with
  | zero =>
    have := height_pos n
    omega
  | succ fuel ih =>
    rw [spliceFuel_succ]
    refine .mk rfl (by simp) ?_
    rw [children_mk, List.forall_mem_map]
    exact fun e member => ih (height_attachSteps_le bound e member)

/-- On every tree the recursion ends, with one outcome: no position has relay steps any more, and no more
have been attached than there were, at whatever depth inside of each other. -/
theorem splice_terminates (settings : ExpansionSettings) (path : List Place) (n : Node) :
    (∀ out, Splices settings path n out ↔ out = n.splice settings path) ∧
      Throughout (fun m => m.steps = []) (n.splice settings path).1 ∧
      (n.splice settings path).2.1 ≤ n.stepCount :=
  ⟨fun _ => splices_iff, throughout_bare_spliceFuel _ (Nat.le_refl _), snd_spliceFuel_le _ _ _ _⟩

/-- Two relay steps, the first with a step of its own and one inside of its child, which is declared at its
bid besides. The step of the declared bid stays and the one of the relay step is dropped. -/
example :
    let leaf := fun text => mk { description := some text } [] []
    let club := (Token.ofCall (.bid .lowest))
    let relay := mk {} [leaf "inner"] [(.ofCall .pass, mk {} [leaf "below"] [])]
    let n := mk {} [relay, leaf "second"] [(club, mk {} [leaf "declared"] [])]
    n.stepCount = 5 ∧ (n.splice {} [n.place none]).2.1 = 4 := by decide +kernel

end BidBook.Node

import BidBook.Compiler
import BidBook.Proofs.Pruned
import BidBook.Proofs.Templates

/-! # From a tidy tree to a compiled one

The stages behind the merging of copies attach relay steps and prune. A tree that is tidy before is tidy
afterwards, and no position has relay steps any more. No stage makes a tree higher, so what is compiled
within the limits can be compiled again.

* `Node.Settled` — a tidy position without relay steps.
* `throughout_splice`, `throughout_pruned` — what attaching and pruning leave.
* `throughout_compileTree`, `height_compileTree_le` — what a compilation leaves, and how high that is.
* `compileWithin_eq_ok_iff` — what stays within the limits.
-/

namespace BidBook

namespace Node

/-- A tidy position without relay steps. -/
structure Settled (K : Token → Prop) (n : Node) : Prop extends Tidy K n where
  bare : n.steps = []

variable {K L : Token → Prop} {n : Node} {cs : List (Token × Node)} {settings : ExpansionSettings}

theorem Throughout.tidy_of_settled (settled : Throughout (Settled K) n) : Throughout (Tidy K) n :=
  settled.imp fun _ => Settled.toTidy

/-! ## Attached relay steps -/

/-- Children with relay steps attached are the old ones, with some put in at bids. -/
theorem of_attachSteps {Q : List (Token × Node) → Prop} {alertable : Bool} {last : Option Bid}
    {ss : List Node} (put : ∀ b c cs, Q cs → Q (putChild (.ofCall (.bid b)) c cs)) (old : Q cs) :
    Q (attachSteps alertable last ss cs).1 := by
  induction ss generalizing last cs with
  | nil => exact old
  | cons s ss ih =>
    rw [attachSteps_cons]
    cases Bid.above? last with
    | none => exact old
    | some b => exact ih (put b _ cs old)

theorem throughout_spliceFuel (calls : ∀ b, K (.ofCall (.bid b))) {alertable : Bool} {fuel : Nat}
    {places : List Place} (bound : n.height ≤ fuel) (tidy : Throughout (Tidy K) n) :
    Throughout (Settled K) (spliceFuel alertable fuel places n).1 := by
  induction fuel generalizing n places with
  | zero =>
    have := height_pos n
    omega
  | succ fuel ih =>
    have distinct : ((attachSteps alertable (Place.lastBid? places) n.steps n.children).1.map
        fun e => e.1.key).Nodup :=
      of_attachSteps (Q := fun cs => (cs.map fun e => e.1.key).Nodup)
        (fun _ _ _ distinct => nodup_putChild distinct) tidy.here.distinct
    have tokens : ∀ e ∈ (attachSteps alertable (Place.lastBid? places) n.steps n.children).1, K e.1 :=
      of_attachSteps (Q := fun cs => ∀ e ∈ cs, K e.1)
        (fun b c _ old => forall_token_putChild c (calls b) old) tidy.here.tokens
    rw [spliceFuel_succ]
    refine .mk ⟨⟨?_, ?_, tidy.here.fresh⟩, rfl⟩ (by simp) ?_
    · rw [children_mk, List.map_map]
      exact distinct
    · rw [children_mk, List.forall_mem_map]
      exact tokens
    · rw [children_mk, List.forall_mem_map]
      intro e member
      exact ih (height_attachSteps_le bound e member) (throughout_attachSteps tidy e member)

/-- Attaching leaves no relay steps, and adds no tokens but those of bids. -/
theorem throughout_splice (calls : ∀ b, K (.ofCall (.bid b))) {places : List Place}
    (tidy : Throughout (Tidy K) n) : Throughout (Settled K) (n.splice settings places).1 :=
  throughout_spliceFuel calls (Nat.le_refl _) tidy

/-! ## Pruned trees -/

theorem throughout_pruned {pruning : PruningSettings} {places : List Place}
    (settled : Throughout (Settled K) n) : Throughout (Settled K) (n.pruned pruning places) := by
  have formed := settled.tidy_of_settled.wellFormed
  induction settled generalizing places with
  | @mk n here _ below _ ih =>
    refine .mk ⟨⟨distinct_pruned formed, ?_, ?_⟩, ?_⟩ ?_ ?_
    · intro e member
      have kept := (tokens_pruned_sublist pruning places n).subset (List.mem_map_of_mem member)
      obtain ⟨old, place, same⟩ := List.mem_map.1 kept
      exact same ▸ here.tokens old place
    · rw [content_pruned]
      exact here.fresh
    · rw [steps_pruned]
      exact here.bare
    · rw [steps_pruned, here.bare]
      simp
    · intro e' member
      obtain ⟨e, old, rfl, _⟩ := mem_children_pruned_iff.1 member
      exact ih e old ((wellFormed_iff.1 formed).2.2 e old)

/-! ## Heights -/

theorem height_flattenFuel_le {fuel h : Nat} (bound : n.height ≤ h) : (flattenFuel fuel n).1.height ≤ h := by
  induction fuel generalizing n h with
  | zero => exact bound
  | succ fuel ih =>
    obtain ⟨h, rfl⟩ : ∃ h', h = h' + 1 := ⟨h - 1, by have := height_pos n; omega⟩
    rw [height_le_succ_iff] at bound ⊢
    rw [steps_flattenFuel_succ, children_flattenFuel_succ, List.forall_mem_map, List.forall_mem_map]
    refine ⟨fun s member => ih (bound.1 s member), fun e member => ih ?_⟩
    exact height_le_of_mem_flattenLevel bound.2 e member

theorem height_bind_le {b : Binding} {above : List Glossary} {token : Option Token} {h : Nat}
    (bound : n.height ≤ h) : (n.bind b above token).height ≤ h := by
  induction n using Node.induction generalizing above token h with
  | position c ss cs steps children =>
    obtain ⟨h, rfl⟩ : ∃ h', h = h' + 1 := ⟨h - 1, by have := height_pos (mk c ss cs); omega⟩
    rw [height_le_succ_iff] at bound ⊢
    rw [steps_bind, children_bind, List.forall_mem_map]
    refine ⟨fun s member => steps s member (bound.1 s member), ?_⟩
    have copies : ∀ e ∈ boundChildren b (boundGlossary b above token (mk c ss cs) :: above) cs,
        e.2.height ≤ h := by
      rintro ⟨u, m⟩ member
      obtain ⟨t, d, child, _, rfl⟩ := mem_boundChildren.1 member
      exact children (t, d) child (bound.2 (t, d) child)
    exact forall_foldl_placeCandidate (P := fun _ n => n.height ≤ h) (by simp) copies
      (fun t n u m member _ present => height_mergeInto_le (copies (t, n) member) present)

theorem height_expandWildcards_le (accepted : settings.Accepted) {h : Nat} (bound : n.height ≤ h) :
    (n.expandWildcards settings [] none).1.height ≤ h := by
  apply of_expandWildcards (P := fun m => m.height ≤ h) accepted
  · exact fun _ _ source target => height_mergeInto_le source target
  · exact Nat.le_trans (height_pos n) bound
  · exact fun _ _ b _ => height_bind_le bound
  · exact fun _ => bound

theorem height_spliceFuel_le {alertable : Bool} {fuel h : Nat} {places : List Place} (bound : n.height ≤ h) :
    (spliceFuel alertable fuel places n).1.height ≤ h := by
  induction fuel generalizing n places h with
  | zero => exact bound
  | succ fuel ih =>
    obtain ⟨h, rfl⟩ : ∃ h', h = h' + 1 := ⟨h - 1, by have := height_pos n; omega⟩
    rw [spliceFuel_succ, height_le_succ_iff, steps_mk, children_mk, List.forall_mem_map]
    exact ⟨by simp, fun e member => ih (height_attachSteps_le bound e member)⟩

theorem height_pruned_le {pruning : PruningSettings} {places : List Place} {h : Nat} (bound : n.height ≤ h) :
    (n.pruned pruning places).height ≤ h := by
  induction n using Node.induction generalizing places h with
  | position c ss cs _ children =>
    obtain ⟨h, rfl⟩ : ∃ h', h = h' + 1 := ⟨h - 1, by have := height_pos (mk c ss cs); omega⟩
    rw [height_le_succ_iff] at bound ⊢
    rw [steps_pruned]
    refine ⟨bound.1, fun e' member => ?_⟩
    obtain ⟨e, old, rfl, _⟩ := mem_children_pruned_iff.1 member
    exact children e old (bound.2 e old)

end Node

namespace Compiler

open Node

variable {K : Token → Prop} {settings : Settings} {n : Node}

theorem tree_compileTree (settings : Settings) (n : Node) : (compileTree settings n).tree =
    (n.expand settings.expansion {}).1.pruned settings.pruning
      [(n.expand settings.expansion {}).1.place none] := rfl

theorem expandWithin_eq_ok_iff {p : Position} {settings : ExpansionSettings} {n' : Node}
    {events : List Event} : n.expandWithin settings p = (n', .ok events) ↔
      n.flatten.1.wildcardExcess? settings p.token = none ∧ n' = (n.expand settings p).1 ∧
        events = (n.expand settings p).2 := by
  rw [expandWithin]
  cases n.flatten.1.wildcardExcess? settings p.token with
  | some e => simp
  | none => simp [eq_comm]

/-- What a compilation yields within the limits. -/
theorem compileWithin_eq_ok_iff {out : Output} : compileWithin settings n = .ok out ↔
    n.height ≤ deepestTree ∧ n.flatten.1.wildcardExcess? settings.expansion none = none ∧
      out = compileTree settings n := by
  have token : ({} : Position).token = none := rfl
  rw [compileWithin, expandWithin, token]
  by_cases low : n.height ≤ deepestTree
  · rw [if_neg (Nat.not_lt.2 low)]
    cases n.flatten.1.wildcardExcess? settings.expansion none with
    | some e => simp
    | none => simp [low, eq_comm]
  · rw [if_pos (Nat.not_le.1 low)]
    simp [low]

theorem throughout_expand (calls : ∀ b, K (.ofCall (.bid b)))
    (tidy : Throughout (Tidy K) (n.flatten.1.expandWildcards settings.expansion [] none).1) :
    Throughout (Settled K) (n.expand settings.expansion {}).1 := by
  rw [expand_root]
  exact throughout_splice calls tidy

theorem throughout_compileTree (calls : ∀ b, K (.ofCall (.bid b)))
    (tidy : Throughout (Tidy K) (n.flatten.1.expandWildcards settings.expansion [] none).1) :
    Throughout (Settled K) (compileTree settings n).tree :=
  throughout_pruned (throughout_expand calls tidy)

theorem height_compileTree_le (accepted : settings.expansion.Accepted) :
    (compileTree settings n).tree.height ≤ n.height := by
  rw [tree_compileTree, expand_root]
  apply height_pruned_le
  apply height_spliceFuel_le
  apply height_expandWildcards_le accepted
  exact height_flattenFuel_le (Nat.le_refl _)

/-- Without any layer the settings are the default ones. -/
theorem load_nothing : Settings.load (.map []) (.map []) = .ok {} := by
  have computed : (Settings.load (.map []) (.map [])).toOption = some {} := by decide +kernel
  cases loaded : Settings.load (.map []) (.map []) with
  | error faults => rw [loaded] at computed; cases computed
  | ok settings => rw [loaded] at computed; exact congrArg Except.ok (Option.some.inj computed)

end Compiler

end BidBook

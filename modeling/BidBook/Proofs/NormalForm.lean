import BidBook.Proofs.Closed
import BidBook.Proofs.Compiled
import BidBook.Proofs.Expanded

/-! # Normal forms

One pass through the stages of a compilation leaves nothing to be done: no choices, no open suits, no
relay steps, and nothing that could be pruned. A stage may bring up material for an earlier one only as
far as that has already been through it: choices are replaced in relay steps as well, these are bound
together with their tree, and what they are attached to is closed.

* `Node.Simple` — nothing is left to be expanded at a position.
* `Node.expand_of_settled` — a settled tree of closed tokens is not changed by expansion.
* `Compiler.compileTree_normal` — a compilation leaves such a tree, and compiling it again leaves it as
  it is.
-/

namespace BidBook

open Node

namespace Node

variable {K : Token → Prop} {n : Node} {settings : ExpansionSettings}

/-- Nothing is left to be expanded at a position. -/
structure Simple (n : Node) : Prop where
  bare : n.steps = []
  choices : ∀ e ∈ n.children, e.1.isChoice = false
  kinds : ∀ e ∈ n.children, Token.kinds e.1.raw = []

instance : DecidablePred Simple := fun n =>
  decidable_of_iff (n.steps.isEmpty ∧
      ∀ e ∈ n.children, e.1.isChoice = false ∧ Token.kinds e.1.raw = []) <| by
    rw [List.isEmpty_iff]
    exact ⟨fun ⟨bare, each⟩ => ⟨bare, fun e member => (each e member).1, fun e member => (each e member).2⟩,
      fun h => ⟨h.bare, fun e member => ⟨h.choices e member, h.kinds e member⟩⟩⟩

theorem Settled.simple (settled : Settled Token.Closed n) : n.Simple :=
  ⟨settled.bare, fun e member => (settled.tokens e member).isChoice,
    fun e member => (settled.tokens e member).kinds⟩

/-! ## The stages where nothing is left to be done -/

theorem flattenLevel_eq_self {cs : List (Token × Node)} (distinct : (cs.map fun e => e.1.key).Nodup)
    (single : ∀ e ∈ cs, e.1.isChoice = false) : flattenLevel cs = cs := by
  have same : cs.flatMap (fun e => candidates e.1 e.2) = cs := by
    have each : cs.flatMap (fun e => candidates e.1 e.2) = cs.flatMap fun e => [e] :=
      List.flatMap_congr fun e member => by rw [candidates, single e member]; rfl
    rw [each, List.flatMap_singleton']
  have placed : cs.foldl placeCandidate [] = cs := foldl_placeCandidate_eq distinct
  rw [flattenLevel, same, placed]

theorem flattenFuel_eq_self (single : Throughout (Tidy fun t => t.isChoice = false) n) (fuel : Nat) :
    flattenFuel fuel n = (n, 0) := by
  induction single generalizing fuel with
  | @mk n here _ _ steps below =>
    cases fuel with
    | zero => rfl
    | succ fuel =>
      cases n with
      | mk c ss cs =>
        have noChoice : choiceCount cs = 0 := by
          rw [choiceCount, List.countP_eq_zero]
          exact fun e member => by simp [here.tokens e member]
        have stepsSame : ss.map (flattenFuel fuel) = ss.map fun s => (s, 0) :=
          List.map_congr_left fun s member => steps s member fuel
        have childrenSame : cs.map (fun e => (e.1, flattenFuel fuel e.2)) = cs.map fun e => (e.1, e.2, 0) :=
          List.map_congr_left fun e member => by rw [below e member fuel]
        have level : flattenLevel cs = cs := flattenLevel_eq_self here.distinct here.tokens
        show (mk c ((ss.map (flattenFuel fuel)).map (·.1))
            (((flattenLevel cs).map fun e => (e.1, flattenFuel fuel e.2)).map fun e => (e.1, e.2.1)),
          choiceCount cs + (((flattenLevel cs).map fun e => (e.1, flattenFuel fuel e.2)).map (·.2.2)).sum +
            ((ss.map (flattenFuel fuel)).map (·.2)).sum) = _
        rw [level, noChoice, stepsSame, childrenSame]
        simp [Function.comp_def]

theorem flatten_of_closed (closed : Throughout (Tidy Token.Closed) n) : n.flatten = (n, 0) :=
  flattenFuel_eq_self (closed.imp fun _ tidy => tidy.imp fun _ closed => closed.isChoice) _

theorem not_mentions_of_closed (closed : Throughout (Tidy Token.Closed) n) (w : Wildcard) :
    n.mentions none w = false := by
  rw [← Bool.not_eq_true, mentions_none]
  intro occurs
  exact Bool.false_ne_true (closed.occurs (fun _ closed => closed.within) w occurs)

theorem wildcardAlternatives_of_closed (closed : Throughout (Tidy Token.Closed) n) :
    n.wildcardAlternatives settings [] none = [] := by
  rw [wildcardAlternatives, if_neg]
  simp [not_mentions_of_closed closed]

theorem splice_of_settled (settled : Throughout (Settled K) n) (places : List Place) :
    n.splice settings places = (n, 0, []) := by
  refine spliceFuel_eq_self _ _ _ settled.tidy_of_settled.wellFormed fun q carried => ?_
  obtain ⟨m, found, steps⟩ := carried
  exact steps (settled.of_at? found).here.bare

end Node

namespace Compiler

def idle : List Event := [
  .stage "alternation" "" [("flattened", .int 0)],
  .stage "wildcards" "" [("alternatives", .int 0)],
  .stage "steps" "" [("spliced", .int 0)]]

variable {settings : Settings} {n : Node}

/-- A settled tree of closed tokens is not changed by expansion. -/
theorem expand_of_settled (settled : Throughout (Settled Token.Closed) n) (settings : ExpansionSettings) :
    n.expand settings {} = (n, idle) := by
  have closed := settled.tidy_of_settled
  have flat := flatten_of_closed closed
  have bound : n.expandWildcards settings [] none = (n, 0) := by
    rw [expandWildcards, wildcardAlternatives_of_closed closed]
  have spliced : n.splice settings [n.place none] = (n, 0, []) := splice_of_settled settled _
  have above : ({} : Position).glossaries = [] := rfl
  have root : ({} : Position).places n = [n.place none] := rfl
  simp only [expand, flat, above, bound, root, spliced]
  rfl

/-- What a compilation of a tree yields that has nothing to do. -/
def Output.unchanged (n : Node) : Output where
  tree := n
  events := idle
  counts := { declared := n.size, expanded := n.size, pruned := 0 }

theorem compileTree_of_settled (settled : Throughout (Settled Token.Closed) n)
    (tidied : n.prune settings.pruning [n.place none] = (n, 0, [])) :
    compileTree settings n = .unchanged n := by
  rw [compileTree, expand_of_settled settled]
  dsimp only
  rw [tidied]
  rfl

/-- A pruned tree has nothing left to be pruned, seen from its own root. -/
theorem prune_compileTree (settings : Settings) (n : Node) :
    (compileTree settings n).tree.prune settings.pruning [(compileTree settings n).tree.place none] =
      ((compileTree settings n).tree, 0, []) := by
  rw [tree_compileTree, place_pruned]
  exact prune_pruned _ _ _

/-- Within the limits there is nothing to do, either. -/
theorem compileWithin_of_settled (settled : Throughout (Settled Token.Closed) n)
    (tidied : n.prune settings.pruning [n.place none] = (n, 0, [])) (low : n.height ≤ deepestTree) :
    compileWithin settings n = .ok (.unchanged n) := by
  have closed := settled.tidy_of_settled
  have flat : n.flatten.1 = n := congrArg Prod.fst (flatten_of_closed closed)
  have within : n.wildcardExcess? settings.expansion none = none := by
    rw [wildcardExcess?, if_neg]
    simp [not_mentions_of_closed closed]
  rw [compileWithin_eq_ok_iff, flat]
  exact ⟨low, within, (compileTree_of_settled settled tidied).symm⟩

/-! ## Compiled trees -/

variable {file overrides document : Value} {shorthands : List Shorthand} {draft : Document.Draft}

/-- Choices and open suits are gone as soon as the copies are merged. -/
theorem closed_of_declared (accepted : settings.expansion.Accepted) (declared : Throughout Declared n) :
    Throughout (Tidy Token.Closed) (n.flatten.1.expandWildcards settings.expansion [] none).1 := by
  have single := (throughout_flatten_of_declared declared).imp fun _ tidy => tidy.imp fun _ h => h.2
  have within := (tidy_flatten_of_declared declared).within fun w here => mentions_none.2 here
  refine throughout_expandWildcards accepted ?_ ?_ (within.tidy_and single)
  · intro b member t h
    exact closed_bindToken accepted member h.1 h.2
  · intro plain t h
    refine Token.Within.closed ⟨h.1.1, fun w here => ?_⟩ h.2
    rw [← plain w]
    exact h.1.2 w here

theorem settled_compileTree (accepted : settings.expansion.Accepted) (declared : Throughout Declared n) :
    Throughout (Settled Token.Closed) (compileTree settings n).tree :=
  throughout_compileTree (fun b => Token.closed_ofCall (.bid b)) (closed_of_declared accepted declared)

/-- A compilation leaves no choices, no relay steps and no open suits anywhere. To compile what it yields
leaves that as it is: no choice is replaced, no copy merged, no relay step attached and nothing pruned,
and the numbers of positions are all the same. What stayed within the limits the first time does so the
second time. -/
theorem compileTree_normal [Pattern.Judge] (loaded : Settings.load file overrides = .ok settings)
    (built : Document.build shorthands document = .ok draft) :
    Throughout Simple (compileTree settings draft.node).tree ∧
      compileTree settings (compileTree settings draft.node).tree =
        .unchanged (compileTree settings draft.node).tree ∧
      (compileTree settings (compileTree settings draft.node).tree).counts.final =
        (compileTree settings draft.node).tree.size ∧
      ∀ out, compileWithin settings draft.node = .ok out →
        compileWithin settings out.tree = .ok (.unchanged out.tree) := by
  have accepted := Settings.accepted_of_load loaded
  have settled := settled_compileTree accepted (Document.throughout_declared built)
  have tidied := prune_compileTree settings draft.node
  have again := compileTree_of_settled settled tidied
  refine ⟨settled.imp fun _ settled => settled.simple, again, ?_, fun out compiled => ?_⟩
  · rw [again]
    simp [Output.unchanged, Counts.final]
  · obtain ⟨low, _, rfl⟩ := compileWithin_eq_ok_iff.1 compiled
    apply compileWithin_of_settled settled tidied
    exact Nat.le_trans (height_compileTree_le accepted) low

/-- A choice between an open suit and notrump, with a relay step that leaves as much open. -/
def openForms : Value :=
  .map [(.text "1M|1NT", .map [(.text "-steps", .list [.map [(.text "2m|2NT", .text "relay")]])])]

theorem compileTree_normal_openForms : ∃ draft, Settings.load (.map []) (.map []) = .ok {} ∧
    Document.build [] openForms = .ok draft ∧ ¬ Throughout Simple draft.node ∧
    Throughout Simple (compileTree {} draft.node).tree ∧
    compileTree {} (compileTree {} draft.node).tree = .unchanged (compileTree {} draft.node).tree ∧
    (compileTree {} draft.node).tree.size = 16 := by
  obtain ⟨draft, built, holds⟩ := exists_draft openForms
    (fun draft => decide (¬ Throughout Simple draft.node ∧ (compileTree {} draft.node).tree.size = 16))
    (by decide +kernel)
  obtain ⟨notSimple, size⟩ := of_decide_eq_true holds
  obtain ⟨simple, again, _⟩ := compileTree_normal load_nothing built
  exact ⟨draft, load_nothing, built, notSimple, simple, again, size⟩

end Compiler

end BidBook

import BidBook.Proofs.Expanded

/-! # Numbers of declarations

A declaration gives its position the next number, in place of the one that the position had. So a number
is never given twice, be it inside of relay steps, where positions are declared as in a tree of their own,
or for several sequences under one key. Positions that nothing declares, such as those on the way to others,
have no number: it is zero.

* `Node.contents` — what the positions of a tree say, those of its relay steps included.
* `Node.count_put` — what is put at the end of a path counts in the stead of what was there.
* `Accounts` — every number is an old one, or one of those that were given since, each of them once.
* `numbers_identify` — in a declared tree no two positions have the same number.
-/

namespace BidBook

namespace Node

/-! ## Contents -/

mutual

/-- What the positions of a tree say about themselves, those of its relay steps included. -/
def contents : Node → List Content
  | mk c ss cs => c :: (contentsOfSteps ss ++ contentsOfChildren cs)

def contentsOfSteps : List Node → List Content
  | [] => []
  | n :: rest => n.contents ++ contentsOfSteps rest

def contentsOfChildren : List (Token × Node) → List Content
  | [] => []
  | (_, n) :: rest => n.contents ++ contentsOfChildren rest

end

theorem contentsOfSteps_eq_flatMap (ss : List Node) : contentsOfSteps ss = ss.flatMap contents := by
  induction ss with
  | nil => rfl
  | cons s rest ih => rw [contentsOfSteps, ih, List.flatMap_cons]

theorem contentsOfChildren_eq_flatMap (cs : List (Token × Node)) :
    contentsOfChildren cs = cs.flatMap fun e => e.2.contents := by
  induction cs with
  | nil => rfl
  | cons e rest ih =>
    obtain ⟨t, n⟩ := e
    rw [contentsOfChildren, ih, List.flatMap_cons]

/-- No position is left out. -/
theorem throughout_content_iff {P : Content → Prop} {n : Node} :
    Throughout (fun m => P m.content) n ↔ ∀ c ∈ n.contents, P c := by
  constructor
  · intro all
    induction all with
    | @mk n here _ _ steps below =>
      obtain ⟨c, ss, cs⟩ := n
      simp only [contents, contentsOfSteps_eq_flatMap, contentsOfChildren_eq_flatMap, List.mem_cons,
        List.mem_append, List.mem_flatMap]
      rintro d (rfl | ⟨s, step, inside⟩ | ⟨e, child, inside⟩)
      · exact here
      · exact steps s step d inside
      · exact below e child d inside
  · intro all
    induction n using Node.induction with
    | position c ss cs steps below =>
      simp only [contents, contentsOfSteps_eq_flatMap, contentsOfChildren_eq_flatMap, List.mem_cons,
        List.mem_append, List.mem_flatMap] at all
      refine .mk (all c (.inl rfl)) (fun s step => ?_) fun e child => ?_
      · exact steps s step fun d inside => all d (.inr (.inl ⟨s, step, inside⟩))
      · exact below e child fun d inside => all d (.inr (.inr ⟨e, child, inside⟩))

/-! ## Counting positions -/

variable {p : Content → Bool}

/-- The number of positions that say something of a kind. -/
def count (p : Content → Bool) (n : Node) : Nat := n.contents.countP p

/-- Those of them that are below the position itself, or inside of its relay steps. -/
def countBelow (p : Content → Bool) (n : Node) : Nat :=
  (n.steps.map (count p)).sum + (n.children.map fun e => e.2.count p).sum

theorem count_eq (p : Content → Bool) (n : Node) :
    n.count p = (p n.content).toNat + n.countBelow p := by
  obtain ⟨c, ss, cs⟩ := n
  rw [count, contents, contentsOfSteps_eq_flatMap, contentsOfChildren_eq_flatMap, List.countP_cons,
    List.countP_append, List.countP_flatMap, List.countP_flatMap, Nat.add_comm, content_mk]
  cases p c <;> rfl

theorem count_ofToken (silent : ∀ t, p (.ofToken t) = false) (t : Token) : (ofToken t).count p = 0 := by
  rw [count_eq, ofToken, content_mk, silent]
  rfl

theorem count_put (silent : ∀ t, p (.ofToken t) = false) (n new : Node) (path : List Token) :
    (n.put path new).count p + (n.reach path).count p = n.count p + new.count p := by
  induction path generalizing n with
  | nil => exact Nat.add_comm _ _
  | cons t path ih =>
    have child := ih (childOrNew t n.children)
    have put := sum_putChild (count_ofToken silent) t ((childOrNew t n.children).put path new) n.children
    rw [Node.put, reach, count_eq, count_eq p n, countBelow, countBelow, content_mk, steps_mk, children_mk]
    omega

theorem count_leaf {c : Content} (silent : p c = false) : (mk c [] []).count p = 0 := by
  rw [count_eq, content_mk, silent]
  rfl

theorem count_addStep (p : Content → Bool) (n step : Node) :
    (mk n.content (n.steps ++ [step]) n.children).count p = n.count p + step.count p := by
  rw [count_eq, count_eq p n, countBelow, countBelow]
  simp only [content_mk, steps_mk, children_mk, List.map_append, List.sum_append, List.map_cons,
    List.map_nil, List.sum_cons, List.sum_nil]
  omega

end Node

namespace Document

open Node

/-! ## What every declaration keeps -/

/-- The position has this number. -/
def isNumbered (x : Int) (c : Content) : Bool := c.priority == x

/-- The position is described and has no number. -/
def isUnnumbered (c : Content) : Bool := c.description.isSome && c.priority == 0

/-- How often a number is given while the declarations are counted from `first` up to `last`. -/
def given (first last : Nat) (x : Int) : Nat := if first < x ∧ x ≤ last then 1 else 0

theorem given_trans {a b c : Nat} (first : a ≤ b) (second : b ≤ c) (x : Int) :
    given a b x + given b c x = given a c x := by
  unfold given
  split <;> split <;> split <;> omega

/-- Each number of the later draft was there in the earlier one or has been given since, once. And
whatever has been described since has a number. -/
structure Accounts (d d' : Draft) : Prop where
  declared_le : d.declared ≤ d'.declared
  numbers_le : ∀ x ≠ 0,
    d'.node.count (isNumbered x) ≤ d.node.count (isNumbered x) + given d.declared d'.declared x
  unnumbered_le : d'.node.count isUnnumbered ≤ d.node.count isUnnumbered

theorem isNumbered_of_priority_eq_zero {x : Int} (proper : x ≠ 0) {c : Content} (none : c.priority = 0) :
    isNumbered x c = false := by
  rw [isNumbered, none]
  exact beq_false_of_ne proper.symm

/-- The next number takes the place of the one that the position had, if it had any. -/
theorem accounts_of_next {d d' : Draft} (next : d'.declared = d.next)
    (priority : d'.node.content.priority = d.next) (steps : d'.node.steps = d.node.steps)
    (children : d'.node.children = d.node.children) : Accounts d d' := by
  have below : ∀ p, d'.node.countBelow p = d.node.countBelow p := fun p => by
    rw [countBelow, steps, children, countBelow]
  have one_more : (d.next : Int) = d.declared + 1 := Int.natCast_succ _
  refine ⟨next ▸ Nat.le_succ _, fun x _ => ?_, ?_⟩
  · have own : (isNumbered x d'.node.content).toNat = given d.declared d'.declared x := by
      rw [isNumbered, priority, given, next, one_more]
      by_cases here : d.declared + 1 = x
      · rw [if_pos (by omega), here, beq_self_eq_true]
        rfl
      · rw [if_neg (by omega), beq_false_of_ne here]
        rfl
    rw [count_eq, count_eq _ d.node, below, own]
    omega
  · have own : isUnnumbered d'.node.content = false := by
      have proper : (d.declared : Int) + 1 ≠ 0 := by omega
      simp [isUnnumbered, priority, one_more, proper]
    rw [count_eq, count_eq _ d.node, below, own]
    exact Nat.add_le_add_right (Nat.zero_le _) _

theorem Accounts.addStep {d step : Draft} (drafted : Accounts ⟨.mk {} [] [], d.declared⟩ step) :
    Accounts d ({ d with declared := step.declared }.addStep step.node) := by
  refine ⟨drafted.declared_le, fun x proper => ?_, ?_⟩
  · have numbers := drafted.numbers_le x proper
    rw [count_leaf (isNumbered_of_priority_eq_zero proper rfl), Nat.zero_add] at numbers
    rw [Draft.addStep, count_addStep]
    exact Nat.add_le_add_left numbers _
  · have unnumbered := drafted.unnumbered_le
    rw [count_leaf rfl] at unnumbered
    rw [Draft.addStep, count_addStep]
    exact Nat.add_le_add_left unnumbered _

theorem Accounts.within {d inner : Draft} {path : List Token}
    (drafted : Accounts ⟨d.node.reach path, d.declared⟩ inner) :
    Accounts d ⟨d.node.put path inner.node, inner.declared⟩ := by
  refine ⟨drafted.declared_le, fun x proper => ?_, ?_⟩
  · have put := count_put (fun t => isNumbered_of_priority_eq_zero (c := .ofToken t) proper rfl)
      d.node inner.node path
    have numbers := drafted.numbers_le x proper
    dsimp only at numbers ⊢
    omega
  · have put := count_put (p := isUnnumbered) (fun _ => rfl) d.node inner.node path
    have unnumbered := drafted.unnumbered_le
    dsimp only at unnumbered ⊢
    omega

theorem steady_accounts : Steady Accounts where
  refl _ := ⟨Nat.le_refl _, fun _ _ => Nat.le_add_right _ _, Nat.le_refl _⟩
  trans first second := by
    refine ⟨Nat.le_trans first.declared_le second.declared_le, fun x proper => ?_,
      Nat.le_trans second.unnumbered_le first.unnumbered_le⟩
    have numbers := first.numbers_le x proper
    have numbers' := second.numbers_le x proper
    have both := given_trans first.declared_le second.declared_le x
    omega
  describe := fun ⟨.mk _ _ _, _⟩ _ => accounts_of_next rfl rfl rfl rfl
  declare := fun ⟨.mk _ _ _, _⟩ => accounts_of_next rfl rfl rfl rfl
  define := fun ⟨.mk _ _ _, _⟩ _ =>
    ⟨Nat.le_refl _, fun _ _ => Nat.le_add_right _ _, Nat.le_refl _⟩
  addStep _ _ drafted := drafted.addStep
  within _ _ _ _ drafted := drafted.within

/-! ## Declared trees -/

variable {shorthands : List Shorthand} {document : Value} {draft : Draft}

/-- From the first declaration to the last each number is given once. -/
theorem count_isNumbered_le [Pattern.Judge] (built : build shorthands document = .ok draft) {x : Int}
    (proper : x ≠ 0) :
    draft.node.count (isNumbered x) ≤ given 0 draft.declared x := by
  have numbers := (steady_accounts.of_build built).numbers_le x proper
  rwa [Node.root, count_leaf (isNumbered_of_priority_eq_zero proper rfl), Nat.zero_add] at numbers

theorem count_isUnnumbered [Pattern.Judge] (built : build shorthands document = .ok draft) :
    draft.node.count isUnnumbered = 0 := by
  have unnumbered := (steady_accounts.of_build built).unnumbered_le
  rw [Node.root, count_leaf rfl] at unnumbered
  exact Nat.le_zero.1 unnumbered

theorem nodup_numbers [Pattern.Judge] (built : build shorthands document = .ok draft) :
    ((draft.node.contents.map Content.priority).filter (· ≠ 0)).Nodup := by
  rw [List.nodup_iff_count_le_one]
  intro x
  by_cases proper : x = 0
  · have absent : x ∉ (draft.node.contents.map Content.priority).filter (· ≠ 0) := by simp [proper]
    rw [List.count_eq_zero.2 absent]
    exact Nat.zero_le 1
  · have once := count_isNumbered_le built proper
    rw [List.count_filter (by simpa using proper), List.count, List.countP_map]
    have single : given 0 draft.declared x ≤ 1 := by
      unfold given
      split <;> omega
    exact Nat.le_trans once single

theorem number_within [Pattern.Judge] (built : build shorthands document = .ok draft) {c : Content}
    (said : c ∈ draft.node.contents) (proper : c.priority ≠ 0) :
    1 ≤ c.priority ∧ c.priority ≤ draft.declared := by
  have once := count_isNumbered_le built proper
  have there : 0 < draft.node.count (isNumbered c.priority) :=
    List.countP_pos_iff.2 ⟨c, said, beq_self_eq_true _⟩
  unfold given at once
  split at once <;> omega

theorem number_of_described [Pattern.Judge] (built : build shorthands document = .ok draft) {c : Content}
    (said : c ∈ draft.node.contents) (described : c.description ≠ none) : c.priority ≠ 0 := by
  have numbered := List.countP_eq_zero.1 (count_isUnnumbered built) c said
  rw [← Option.isSome_iff_ne_none] at described
  simpa [isUnnumbered, described] using numbered

/-- In a declared tree, relay steps included, no two positions have the same number. The numbers go from
one to that of the last declaration, and every position with a description has one. -/
theorem numbers_identify [Pattern.Judge] (built : build shorthands document = .ok draft) :
    ((draft.node.contents.map Content.priority).filter (· ≠ 0)).Nodup ∧
      Throughout (fun m => m.content.priority ≠ 0 →
        1 ≤ m.content.priority ∧ m.content.priority ≤ draft.declared) draft.node ∧
      Throughout (fun m => m.content.description ≠ none → m.content.priority ≠ 0) draft.node := by
  have bounds : ∀ c ∈ draft.node.contents, c.priority ≠ 0 →
      1 ≤ c.priority ∧ c.priority ≤ draft.declared := fun _ => number_within built
  have described : ∀ c ∈ draft.node.contents, c.description ≠ none → c.priority ≠ 0 :=
    fun _ => number_of_described built
  exact ⟨nodup_numbers built, throughout_content_iff.2 bounds, throughout_content_iff.2 described⟩

/-- Two sequences under one key, with a description and relay steps inside of each other, and one of the
sequences once more. -/
def declaredTwice : Value :=
  .map [
    (.text "1C,1D", .map [
      (.text "description", .text "natural"),
      (.text "-steps", .list [
        .text "first",
        .map [(.text "1H", .text "second"), (.text "-steps", .list [.text "inner"])]])]),
    (.text "1C", .text "strong")]

/-- The passes on the way and the second relay step, which only holds others, have no number. -/
theorem numbers_identify_declaredTwice : ∃ draft, build [] declaredTwice = .ok draft ∧
    draft.declared = 14 ∧
    draft.node.contents.map Content.priority = [0, 14, 3, 0, 6, 0, 5, 8, 9, 0, 12, 0, 11] ∧
    ((draft.node.contents.map Content.priority).filter (· ≠ 0)).Nodup ∧
    Throughout (fun m => m.content.priority ≠ 0 →
      1 ≤ m.content.priority ∧ m.content.priority ≤ draft.declared) draft.node ∧
    Throughout (fun m => m.content.description ≠ none → m.content.priority ≠ 0) draft.node := by
  obtain ⟨draft, built, holds⟩ := exists_draft declaredTwice
    (fun draft => decide (draft.declared = 14 ∧
      draft.node.contents.map Content.priority = [0, 14, 3, 0, 6, 0, 5, 8, 9, 0, 12, 0, 11]))
    (by decide +kernel)
  obtain ⟨declared, numbers⟩ := of_decide_eq_true holds
  exact ⟨draft, built, declared, numbers, numbers_identify built⟩

end Document

end BidBook

import BidBook.Proofs.Cells
import BidBook.Proofs.Tidy
import Mathlib.Algebra.GroupWithZero.Nat
import Mathlib.Data.List.Forall2

/-! # Cells that stand for a tree

A cell stands for a node if it says the same, names the parent and the token that it should, holds each child
under the key of its token, and the cells below it stand for the nodes below. What is done to cells and to
the nodes that they stand for keeps this up; and as every address is handed out once, no cell turns up in
two places.

* `Cell.Stands`, `Cell.stands_iff` — a cell stands for a node, under a parent and a token.
* `Cell.uses`, `Cell.Yields` — how often addresses occur, and what a computation leaves of them.
* `Cell.yields_onChild`, `Cell.yields_copy`, `Cell.yields_mergeInto` — children, copies and merges.
-/

namespace BidBook.Cell

open Node

/-! ## Standing for a node -/

mutual

/-- A cell lies in memory for a node, under a parent and reached by a token. -/
def Stands (parent : Option Nat) (token : Option Token) : Node → Cell → Prop
  | .mk content ss cs, c =>
    c.parent = parent ∧ c.token = token ∧ c.content = content ∧
      StandsSteps ss c.steps ∧ StandsChildren c.address cs c.children

/-- Relay steps are no one's children. -/
def StandsSteps : List Node → List Cell → Prop
  | [], [] => True
  | n :: ns, c :: cs => Stands none none n c ∧ StandsSteps ns cs
  | _, _ => False

/-- Children of a holder, each held under the key of its token. -/
def StandsChildren (holder : Nat) : List (Token × Node) → List (Option Key × Cell) → Prop
  | [], [] => True
  | (t, n) :: ns, (k, c) :: cs =>
    (k = some t.key ∧ Stands (some holder) (some t) n c) ∧ StandsChildren holder ns cs
  | _, _ => False

end

/-- A child is held under the key of its token by the cell that it names as its parent. -/
structure Child (holder : Nat) (e : Token × Node) (d : Option Key × Cell) : Prop where
  key : d.1 = some e.1.key
  stands : Stands (some holder) (some e.1) e.2 d.2

theorem standsSteps_iff {ns : List Node} {cs : List Cell} :
    StandsSteps ns cs ↔ List.Forall₂ (Stands none none) ns cs := by
  induction ns generalizing cs with
  | nil => cases cs <;> simp [StandsSteps]
  | cons n ns ih => cases cs <;> simp [StandsSteps, ih]

theorem standsChildren_iff {holder : Nat} {ns : List (Token × Node)} {cs : List (Option Key × Cell)} :
    StandsChildren holder ns cs ↔ List.Forall₂ (Child holder) ns cs := by
  have child (t : Token) (n : Node) (k : Option Key) (c : Cell) :
      k = some t.key ∧ Stands (some holder) (some t) n c ↔ Child holder (t, n) (k, c) :=
    ⟨fun h => ⟨h.1, h.2⟩, fun h => ⟨h.key, h.stands⟩⟩
  induction ns generalizing cs with
  | nil => cases cs <;> simp [StandsChildren]
  | cons e ns ih => cases cs <;> simp [StandsChildren, ih, child]

variable {parent : Option Nat} {token : Option Token} {n m : Node} {c d : Cell}

/-- What it takes for a cell to stand for a node, one level at a time. -/
theorem stands_iff : Stands parent token n c ↔
    c.parent = parent ∧ c.token = token ∧ c.content = n.content ∧
      List.Forall₂ (Stands none none) n.steps c.steps ∧
      List.Forall₂ (Child c.address) n.children c.children := by
  cases n
  simp only [Stands, standsSteps_iff, standsChildren_iff, content_mk, steps_mk, children_mk]

namespace Stands

theorem parent_eq (h : Stands parent token n c) : c.parent = parent := (stands_iff.1 h).1

theorem token_eq (h : Stands parent token n c) : c.token = token := (stands_iff.1 h).2.1

theorem content_eq (h : Stands parent token n c) : c.content = n.content := (stands_iff.1 h).2.2.1

theorem steps (h : Stands parent token n c) : List.Forall₂ (Stands none none) n.steps c.steps :=
  (stands_iff.1 h).2.2.2.1

theorem children (h : Stands parent token n c) : List.Forall₂ (Child c.address) n.children c.children :=
  (stands_iff.1 h).2.2.2.2

theorem place_eq (h : Stands parent token n c) : c.place = n.place token := by
  rw [Cell.place, h.token_eq, h.content_eq, Node.place]

end Stands

/-- Induction on a cell and the node that it stands for: a property holds of both if it holds of their relay
steps and of their children, in line. -/
theorem Stands.induction {P : Node → Cell → Prop}
    (position : ∀ parent token n c, Stands parent token n c →
      List.Forall₂ (fun s s' => Stands none none s s' ∧ P s s') n.steps c.steps →
      List.Forall₂ (fun e d => Child c.address e d ∧ P e.2 d.2) n.children c.children → P n c)
    (h : Stands parent token n c) : P n c := by
  induction n using Node.induction generalizing parent token c with
  | position content ns ms steps below =>
    refine position _ _ _ c h ?_ ?_
    · exact ((List.forall₂_and_left _ _).2 ⟨steps, h.steps⟩).imp fun _ _ both => ⟨both.2, both.1 both.2⟩
    · exact ((List.forall₂_and_left _ _).2 ⟨below, h.children⟩).imp fun _ _ both =>
        ⟨both.2, both.1 both.2.stands⟩

/-- What a cell stands for, one level at a time. -/
theorem shape_eq_mk (c : Cell) : c.shape =
    .mk c.content (c.steps.map shape)
      (c.children.filterMap fun e => e.2.token.map fun t => (t, e.2.shape)) := by
  obtain ⟨address, parent, token, content, ss, cs⟩ := c
  have steps : shapeSteps ss = ss.map shape := by
    induction ss with
    | nil => rfl
    | cons s ss ih => rw [shapeSteps, ih, List.map_cons]
  have children : shapeChildren cs = cs.filterMap fun e => e.2.token.map fun t => (t, e.2.shape) := by
    induction cs with
    | nil => rfl
    | cons e cs ih =>
      obtain ⟨k, c⟩ := e
      rw [shapeChildren, ih, List.filterMap_cons]
      cases c.token <;> rfl
  rw [shape, steps, children]

/-- The tree that a cell stands for can be read off it. -/
theorem Stands.shape_eq (h : Stands parent token n c) : c.shape = n := by
  refine Stands.induction (P := fun n c => c.shape = n) (fun parent token n c h steps children => ?_) h
  have stepsEq : c.steps.map shape = n.steps := by
    generalize n.steps = ns, c.steps = cs at steps
    induction steps with
    | nil => rfl
    | cons both _ ih => rw [List.map_cons, both.2, ih]
  have childrenEq : c.children.filterMap (fun e => e.2.token.map fun t => (t, e.2.shape)) = n.children := by
    generalize n.children = ns, c.children = cs at children
    induction children with
    | nil => rfl
    | @cons e d _ _ both _ ih =>
      rw [List.filterMap_cons, both.1.stands.token_eq, Option.map_some, both.2, ih]
  rw [shape_eq_mk, h.content_eq, stepsEq, childrenEq]
  cases n
  rfl

/-! ## Addresses -/

/-- Something that takes up addresses. -/
class Addressed (α : Type) where
  addresses : α → List Nat

instance : Addressed Nat := ⟨fun a => [a]⟩

instance : Addressed Cell := ⟨fun c => c.cells.map address⟩

instance {α : Type} [Addressed α] : Addressed (Option α) := ⟨fun x => x.toList.flatMap Addressed.addresses⟩

instance {α : Type} [Addressed α] : Addressed (List α) := ⟨fun xs => xs.flatMap Addressed.addresses⟩

instance {κ α : Type} [Addressed α] : Addressed (κ × α) := ⟨fun e => Addressed.addresses e.2⟩

section Addresses

variable {κ ρ σ τ α β : Type} [Addressed α] [Addressed β]

/-- How often an address occurs in something. -/
def uses (x : α) (a : Nat) : Nat := (Addressed.addresses x).count a

theorem uses_nat (b a : Nat) : uses b a = if b = a then 1 else 0 := by
  simp [uses, Addressed.addresses, List.count_singleton]

@[simp] theorem uses_none (a : Nat) : uses (none : Option α) a = 0 := rfl

@[simp] theorem uses_some (x : α) (a : Nat) : uses (some x) a = uses x a := by
  simp [uses, Addressed.addresses]

@[simp] theorem uses_nil (a : Nat) : uses ([] : List α) a = 0 := rfl

@[simp] theorem uses_cons (x : α) (xs : List α) (a : Nat) : uses (x :: xs) a = uses x a + uses xs a := by
  simp [uses, Addressed.addresses, List.count_append]

@[simp] theorem uses_append (xs ys : List α) (a : Nat) : uses (xs ++ ys) a = uses xs a + uses ys a := by
  simp [uses, Addressed.addresses, List.count_append]

@[simp] theorem uses_pair (k : κ) (x : α) (a : Nat) : uses (k, x) a = uses x a := rfl

theorem uses_list (xs : List α) (a : Nat) : uses xs a = (xs.map fun x => uses x a).sum := by
  induction xs with
  | nil => rfl
  | cons x xs ih => rw [uses_cons, ih, List.map_cons, List.sum_cons]

/-- Addresses in a cell are its own and those of its relay steps and children. -/
theorem uses_cell (c : Cell) (a : Nat) :
    uses c a = uses c.address a + uses c.steps a + uses c.children a := by
  obtain ⟨address, parent, token, content, ss, cs⟩ := c
  have steps : (cellsSteps ss).map Cell.address = ss.flatMap Addressed.addresses := by
    induction ss with
    | nil => rfl
    | cons s ss ih => rw [cellsSteps, List.map_append, ih, List.flatMap_cons]; rfl
  have children : (cellsChildren cs).map Cell.address = cs.flatMap Addressed.addresses := by
    induction cs with
    | nil => rfl
    | cons e cs ih => rw [cellsChildren, List.map_append, ih, List.flatMap_cons]; rfl
  have all : Addressed.addresses (⟨address, parent, token, content, ss, cs⟩ : Cell) =
      [address] ++ ss.flatMap Addressed.addresses ++ cs.flatMap Addressed.addresses := by
    rw [← steps, ← children]
    simp [Addressed.addresses, cells]
  rw [uses, all, List.count_append, List.count_append]
  rfl

theorem uses_store (k : Option Key) (c : Cell) (cs : List (Option Key × Cell)) (a : Nat) :
    uses (store k c cs) a + uses (held? k cs) a = uses cs a + uses c a := by
  induction cs with
  | nil => simp [store, held?]
  | cons e cs ih =>
    obtain ⟨k', c'⟩ := e
    by_cases same : k' = k
    · simp [store, held?, same]
      omega
    · simp [store, held?, same]
      omega

theorem uses_held?_le (k : Option Key) (cs : List (Option Key × Cell)) (a : Nat) :
    uses (held? k cs) a ≤ uses cs a := by
  induction cs with
  | nil => simp [held?]
  | cons e cs ih =>
    obtain ⟨k', c'⟩ := e
    by_cases same : k' = k
    · simp [held?, same]
    · simp [held?, same]
      omega

/-- Neither the token nor the content takes up addresses. -/
theorem uses_of_same (c : Cell) (token : Option Token) (content : Content) (a : Nat) :
    uses ({ c with token, content } : Cell) a = uses c a := by
  rw [uses_cell, uses_cell c]

/-! ## Computations with addresses -/

/-- How often an address has been given out when `next` is the next one. -/
def given (next a : Nat) : Nat := if a < next then 1 else 0

/-- A computation that has addresses to work with, each so many times, gives something with a property. In
what it gives every address occurs no more often, unless it was given out on the way. -/
def Yields (old : Nat → Nat) (m : StateM Nat α) (P : α → Prop) : Prop :=
  ∀ next, (∀ a, uses (m.run next).1 a + given next a ≤ old a + given (m.run next).2 a) ∧ P (m.run next).1

variable {old old' r : Nat → Nat} {m : StateM Nat α} {f : α → StateM Nat β} {P P' : α → Prop}
  {Q : β → Prop}

namespace Yields

theorem pure {x : α} (holds : P x) (le : ∀ a, uses x a ≤ old a) : Yields old (Pure.pure x) P := fun next =>
  ⟨fun a => Nat.add_le_add_right (le a) (given next a), holds⟩

theorem imp (h : Yields old m P) (le : ∀ a, old a ≤ old' a) (weaker : ∀ x, P x → P' x) : Yields old' m P' :=
  fun next => ⟨fun a => ((h next).1 a).trans (Nat.add_le_add_right (le a) _), weaker _ (h next).2⟩

/-- One computation after another. What the first has no part in is left for the second. -/
theorem bind (first : Yields old m P) (second : ∀ x, P x → Yields (fun a => r a + uses x a) (f x) Q)
    (le : ∀ a, r a + old a ≤ old' a) : Yields old' (m >>= f) Q := by
  intro next
  obtain ⟨fewer, holds⟩ := first next
  obtain ⟨fewer', holds'⟩ := second _ holds (m.run next).2
  refine ⟨fun a => ?_, holds'⟩
  have here := fewer a
  have there : _ ≤ r a + uses (m.run next).1 a + _ := fewer' a
  have enough := le a
  show uses ((f (m.run next).1).run (m.run next).2).1 a + given next a ≤
    old' a + given ((f (m.run next).1).run (m.run next).2).2 a
  omega

/-- One computation for each member of a list. -/
theorem mapM {R : σ → ρ → Prop} {S : τ → β → Prop} {g : σ → τ} {w : ρ → Nat → Nat} {f : ρ → StateM Nat β}
    {xs : List σ} {ys : List ρ} (all : List.Forall₂ R xs ys)
    (each : ∀ x y, R x y → Yields (w y) (f y) (S (g x))) :
    Yields (fun a => (ys.map fun y => w y a).sum) (ys.mapM f) (List.Forall₂ S (xs.map g)) := by
  induction all with
  | nil => exact pure .nil (by simp)
  | @cons x y xs ys first _ ih =>
    rw [List.mapM_cons]
    refine (each x y first).bind (r := fun a => (ys.map fun y => w y a).sum) (fun y' here => ?_) ?_
    · refine ih.bind (r := uses y') (fun ys' later => pure (.cons here later) ?_) ?_
      · intro a
        rw [uses_cons]
      · intro a
        omega
    · intro a
      rw [List.map_cons, List.sum_cons]
      omega

/-- The same for members whose addresses are not touched. -/
theorem mapM_new {R : σ → ρ → Prop} {S : τ → β → Prop} {g : σ → τ} {f : ρ → StateM Nat β}
    {xs : List σ} {ys : List ρ} (all : List.Forall₂ R xs ys)
    (each : ∀ x y, R x y → Yields (fun _ => 0) (f y) (S (g x))) :
    Yields (fun _ => 0) (ys.mapM f) (List.Forall₂ S (xs.map g)) :=
  (mapM all each).imp (by simp) fun _ => id

/-- The same for members whose own addresses are worked with. -/
theorem mapM_uses {R : σ → α → Prop} {S : τ → β → Prop} {g : σ → τ} {f : α → StateM Nat β}
    {xs : List σ} {ys : List α} (all : List.Forall₂ R xs ys)
    (each : ∀ x y, R x y → Yields (uses y) (f y) (S (g x))) :
    Yields (uses ys) (ys.mapM f) (List.Forall₂ S (xs.map g)) :=
  (mapM all each).imp (fun a => (uses_list ys a).ge) fun _ => id

/-- Members of a list are worked into something one after another. -/
theorem foldlM {R : σ → α → Prop} {S : τ → β → Prop} {g : τ → σ → τ} {f : β → α → StateM Nat β}
    {xs : List σ} {ys : List α} (all : List.Forall₂ R xs ys)
    (each : ∀ s t x y, S s t → R x y → Yields (fun a => uses t a + uses y a) (f t y) (S (g s x))) {s : τ} {t : β}
    (start : S s t) : Yields (fun a => uses t a + uses ys a) (ys.foldlM f t) (S (xs.foldl g s)) := by
  induction all generalizing s t with
  | nil => exact pure start (by simp)
  | @cons x y xs ys first _ ih =>
    rw [List.foldlM_cons]
    refine (each s t x y start first).bind (r := uses ys) (fun t' next => ?_) ?_
    · exact (ih next).imp (fun a => by omega) fun _ => id
    · intro a
      rw [uses_cons]
      omega

end Yields

end Addresses

theorem yields_new : Yields (fun _ => 0) new fun _ => True := by
  intro next
  refine ⟨fun a => ?_, trivial⟩
  show uses next a + given next a ≤ 0 + given (next + 1) a
  rw [uses_nat, given, given]
  split <;> split <;> split <;> omega

/-! ## Children -/

variable {holder : Nat} {t : Token} {ns : List (Token × Node)} {cs : List (Option Key × Cell)}

theorem yields_fresh (parent : Option Nat) (token : Option Token) :
    Yields (fun _ => 0) (fresh parent token)
      (Stands parent token (.mk ((token.map Content.ofToken).getD {}) [] [])) := by
  refine yields_new.bind (r := fun _ => 0) (fun address _ => .pure ?_ ?_) ?_
  · exact stands_iff.2 ⟨rfl, rfl, rfl, .nil, .nil⟩
  · intro a
    simp [uses_cell]
  · intro a
    omega

/-- Where there is no child, none is held, and one can be added. -/
theorem child_store_of_missing (all : List.Forall₂ (Child holder) ns cs) (missing : find? t.key ns = none) :
    held? (some t.key) cs = none ∧ ∀ n c, Stands (some holder) (some t) n c →
      List.Forall₂ (Child holder) (putChild t n ns) (store (some t.key) c cs) := by
  induction all with
  | nil => exact ⟨rfl, fun n c stands => .cons ⟨rfl, stands⟩ .nil⟩
  | @cons e d ns cs first later ih =>
    obtain ⟨u, m⟩ := e
    obtain ⟨k, b⟩ := d
    obtain rfl : k = some u.key := first.key
    by_cases same : u.key = t.key
    · simp [find?, same] at missing
    · simp only [find?, same, if_false] at missing
      obtain ⟨absent, stored⟩ := ih missing
      simp only [held?, store, putChild, Option.some.injEq, same, if_false]
      exact ⟨absent, fun n c stands => .cons first (stored n c stands)⟩

/-- Where there is a child, the one that stands for it is held, and can be replaced. -/
theorem child_store_of_held (all : List.Forall₂ (Child holder) ns cs) (found : find? t.key ns = some n) :
    ∃ u c, held? (some t.key) cs = some c ∧ Stands (some holder) (some u) n c ∧
      ∀ n' c', Stands (some holder) (some u) n' c' →
        List.Forall₂ (Child holder) (putChild t n' ns) (store (some t.key) c' cs) := by
  induction all with
  | nil => cases found
  | @cons e d ns cs first later ih =>
    obtain ⟨u, m⟩ := e
    obtain ⟨k, b⟩ := d
    obtain rfl : k = some u.key := first.key
    by_cases same : u.key = t.key
    · simp only [find?, same, if_true, Option.some.injEq] at found
      subst found
      refine ⟨u, b, by simp [held?, same], first.stands, fun n' c' stands => ?_⟩
      simp only [putChild, store, same, if_true]
      exact .cons ⟨congrArg some same.symm, stands⟩ later
    · simp only [find?, same, if_false] at found
      obtain ⟨v, c, held, stands, stored⟩ := ih found
      refine ⟨v, c, by simp [held?, same, held], stands, fun n' c' stands => ?_⟩
      simp only [putChild, store, Option.some.injEq, same, if_false]
      exact .cons first (stored n' c' stands)

/-- A child that is held is worked on and put back in its place. -/
theorem yields_store {k : Option Key} {m : StateM Nat Cell} {P : Cell → Prop}
    {Q : List (Option Key × Cell) → Prop} (held : held? k cs = some c) (worked : Yields (uses c) m P)
    (stored : ∀ c', P c' → Q (store k c' cs)) :
    Yields (uses cs) (do let c' ← m; return store k c' cs) Q := by
  have part (a : Nat) : uses c a ≤ uses cs a := by
    simpa only [held, uses_some] using uses_held?_le k cs a
  refine worked.bind (r := fun a => uses cs a - uses c a) (fun c' holds => .pure (stored c' holds) fun a => ?_)
    fun a => by have := part a; omega
  have replaced := uses_store k c' cs a
  rw [held, uses_some] at replaced
  omega

/-- What is done to the child that a token leads to is done to the child of the node. -/
theorem yields_onChild {f : Node → Node} {work : Cell → StateM Nat Cell}
    (all : List.Forall₂ (Child holder) ns cs)
    (worked : ∀ u n c, Stands (some holder) (some u) n c →
      Yields (uses c) (work c) (Stands (some holder) (some u) (f n))) :
    Yields (uses cs) (onChild holder (some t) work cs)
      (List.Forall₂ (Child holder) (putChild t (f (childOrNew t ns)) ns)) := by
  cases found : find? t.key ns with
  | none =>
    obtain ⟨absent, stored⟩ := child_store_of_missing all found
    rw [childOrNew, found, Option.getD_none]
    have made : Yields (fun _ => 0) (childFor holder (some t) cs) (Stands (some holder) (some t) (ofToken t)) := by
      rw [childFor, Option.map_some, absent]
      exact yields_fresh _ _
    refine made.bind (r := uses cs) (fun c stands => ?_) fun a => by omega
    refine (worked t _ c stands).bind (r := uses cs) (fun c' stands' => ?_) fun a => by omega
    refine .pure (stored _ _ stands') fun a => ?_
    have added := uses_store (some t.key) c' cs a
    rw [absent, uses_none] at added
    exact Nat.le_of_eq added
  | some n =>
    obtain ⟨u, c, held, stands, stored⟩ := child_store_of_held all found
    have known : childFor holder (some t) cs = pure c := by
      rw [childFor, Option.map_some, held]
    rw [childOrNew, found, Option.getD_some, onChild, known, pure_bind]
    exact yields_store held (worked u n c stands) (stored (f n))

/-! ## Copies -/

theorem copySteps_eq_mapM (ss : List Cell) : copySteps ss = ss.mapM (copy none) := by
  induction ss with
  | nil => rfl
  | cons c rest ih => rw [copySteps, ih, List.mapM_cons]

theorem copyChildren_eq_onEach (holder : Nat) (cs : List (Option Key × Cell)) :
    copyChildren holder cs = onEach (copy (some holder)) cs := by
  induction cs with
  | nil => rfl
  | cons e rest ih =>
    rw [copyChildren, ih, onEach, onEach, List.mapM_cons]
    rfl

/-- What is done to each child is done to the child of the node. -/
theorem yields_onEach {R : Token × Node → Option Key × Cell → Prop} {g : Token × Node → Node}
    {w : Cell → Nat → Nat} {work : Cell → StateM Nat Cell} (all : List.Forall₂ R ns cs)
    (each : ∀ e d, R e d → d.1 = some e.1.key ∧
      Yields (w d.2) (work d.2) (Stands (some holder) (some e.1) (g e))) :
    Yields (fun a => (cs.map fun d => w d.2 a).sum) (onEach work cs)
      (List.Forall₂ (Child holder) (ns.map fun e => (e.1, g e))) := by
  refine Yields.mapM all fun e d related => ?_
  obtain ⟨key, worked⟩ := each e d related
  refine worked.bind (r := fun _ => 0) (fun c stands => .pure ⟨key, stands⟩ fun a => ?_) fun a => by omega
  rw [uses_pair]
  omega

theorem yields_onEach_uses {R : Token × Node → Option Key × Cell → Prop} {g : Token × Node → Node}
    (work : Cell → StateM Nat Cell) (all : List.Forall₂ R ns cs)
    (each : ∀ e d, R e d → d.1 = some e.1.key ∧
      Yields (uses d.2) (work d.2) (Stands (some holder) (some e.1) (g e))) :
    Yields (uses cs) (onEach work cs) (List.Forall₂ (Child holder) (ns.map fun e => (e.1, g e))) :=
  (yields_onEach all each).imp (fun a => (uses_list cs a).ge) fun _ => id

/-- A copy is made of new cells only. -/
theorem yields_copy (stands : Stands parent token n c) (under : Option Nat) :
    Yields (fun _ => 0) (c.copy under) (Stands under c.token n.copy) := by
  refine Stands.induction (P := fun n c => ∀ under, Yields (fun _ => 0) (c.copy under) (Stands under c.token n.copy))
    (fun parent token n c stands steps children under => ?_) stands under
  obtain ⟨content, ns, ms⟩ := n
  obtain ⟨address, parent', token', content', ss, cs⟩ := c
  obtain rfl : content' = content := stands.content_eq
  have copiedSteps : Yields (fun _ => 0) (copySteps ss) (List.Forall₂ (Stands none none) (ns.map Node.copy)) := by
    rw [copySteps_eq_mapM]
    exact .mapM_new steps fun s s' both => both.1.token_eq ▸ both.2 none
  have copiedChildren (holder : Nat) : Yields (fun _ => 0) (copyChildren holder cs)
      (List.Forall₂ (Child holder) (ms.map fun e => (e.1, e.2.copy))) := by
    rw [copyChildren_eq_onEach]
    refine (yields_onEach (w := fun _ _ => 0) children fun e d both => ⟨both.1.key, ?_⟩).imp (by simp) fun _ => id
    exact both.1.stands.token_eq ▸ both.2 (some holder)
  rw [copy]
  refine yields_new.bind (r := fun _ => 0) (fun holder _ => ?_) fun a => by omega
  refine copiedSteps.bind (r := uses holder) (fun ss' stepsStand => ?_) fun a => by omega
  refine (copiedChildren holder).bind (r := fun a => uses holder a + uses ss' a)
    (fun cs' childrenStand => .pure ?_ fun a => ?_) fun a => by omega
  · rw [Node.copy, copySteps_eq_map, copyChildren_eq_map]
    exact stands_iff.2 ⟨rfl, rfl, rfl, stepsStand, childrenStand⟩
  · rw [uses_cell]

/-! ## Forgetting -/

theorem forgetChildren_eq_map (cs : List (Option Key × Cell)) :
    forgetAll.forgetChildren cs = cs.map fun e => (e.1, e.2.forgetAll) := by
  induction cs with
  | nil => rfl
  | cons e rest ih => rw [forgetAll.forgetChildren, ih, List.map_cons]

/-- What is forgotten stays where it was, in the same cells. -/
theorem Stands.forgetAll (stands : Stands parent token n c) :
    Stands parent token n.forgetAll c.forgetAll ∧ ∀ a, uses c.forgetAll a = uses c a := by
  refine Stands.induction (P := fun n c => ∀ parent token, Stands parent token n c →
    Stands parent token n.forgetAll c.forgetAll ∧ ∀ a, uses c.forgetAll a = uses c a)
    (fun _ _ n c _ _ children parent token stands => ?_) stands parent token stands
  obtain ⟨content, ns, ms⟩ := n
  obtain ⟨address, parent', token', content', ss, cs⟩ := c
  obtain rfl : content' = content := stands.content_eq
  change List.Forall₂ _ ms cs at children
  have forgotten : List.Forall₂ (Child address) (ms.map fun e => (e.1, e.2.forgetAll))
      (cs.map fun d => (d.1, d.2.forgetAll)) ∧
        ∀ a, uses (cs.map fun d => (d.1, d.2.forgetAll)) a = uses cs a := by
    clear * - children
    induction children with
    | nil => exact ⟨.nil, fun a => rfl⟩
    | @cons e d _ _ both _ ih =>
      obtain ⟨later, same⟩ := ih
      obtain ⟨here, sameHere⟩ := both.2 _ _ both.1.stands
      refine ⟨.cons ⟨both.1.key, here⟩ later, fun a => ?_⟩
      rw [List.map_cons, uses_cons, uses_cons, same, uses_pair, sameHere]
      rfl
  rw [Node.forgetAll, Node.forgetChildren_eq_map, Cell.forgetAll, forgetChildren_eq_map]
  refine ⟨stands_iff.2 ⟨stands.parent_eq, stands.token_eq, rfl, stands.steps, forgotten.1⟩, fun a => ?_⟩
  rw [uses_cell, uses_cell]
  exact congrArg _ (forgotten.2 a)

/-! ## Merging -/

theorem isEmpty_eq_of_forall₂ {α β : Type} {R : α → β → Prop} {xs : List α} {ys : List β}
    (all : List.Forall₂ R xs ys) : ys.isEmpty = xs.isEmpty := by
  cases all <;> rfl

theorem yields_mergeSteps {ns ms : List Node} {ss ds : List Cell} (outranks : Bool)
    (source : List.Forall₂ (Stands none none) ns ss) (target : List.Forall₂ (Stands none none) ms ds) :
    Yields (uses ds) (mergeSteps outranks ss ds)
      (List.Forall₂ (Stands none none) (Node.mergeSteps outranks ns ms)) := by
  rw [mergeSteps, Node.mergeSteps, isEmpty_eq_of_forall₂ source, isEmpty_eq_of_forall₂ target]
  split
  · rw [copySteps_eq_mapM, copySteps_eq_map]
    exact (Yields.mapM_new source fun s s' stands => stands.token_eq ▸ yields_copy stands none).imp
      (by simp) fun _ => id
  · exact .pure target fun a => le_rfl

theorem mergeInto_eq (c d : Cell) : c.mergeInto d = do
    let steps ← mergeSteps (decide (d.content.priority < c.content.priority)) c.steps d.steps
    let children ← mergeChildren d.address c.children
      (if d.content.glossary.misses c.content.glossary.entries then forgetAll.forgetChildren d.children
        else d.children)
    return { d with
      content := if d.content.glossary.misses c.content.glossary.entries then
          (mergeContent c.content d.content).forget else mergeContent c.content d.content
      steps, children } := by
  cases c
  rw [mergeInto]

/-- A merge leaves the cells of the target where they are, and adds new ones. -/
theorem yields_mergeInto {parent' : Option Nat} {token' : Option Token} (source : Stands parent' token' n c)
    (target : Stands parent token m d) :
    Yields (uses d) (c.mergeInto d) (Stands parent token (Node.mergeInto n m)) := by
  refine Stands.induction (P := fun n c => ∀ parent token m d, Stands parent token m d →
    Yields (uses d) (c.mergeInto d) (Stands parent token (Node.mergeInto n m)))
    (fun parent' token' n c source _ children parent token m d target => ?_) source parent token m d target
  have merged (ms : List (Token × Node)) (ds : List (Option Key × Cell))
      (all : List.Forall₂ (Child d.address) ms ds) : Yields (uses ds) (mergeChildren d.address c.children ds)
        (List.Forall₂ (Child d.address) (Node.mergeChildren n.children ms)) := by
    generalize n.children = ns, c.children = cs at children
    induction children generalizing ms ds with
    | nil => exact .pure all fun a => le_rfl
    | @cons e e' ns cs first later ih =>
      obtain ⟨t, n⟩ := e
      obtain ⟨k, c⟩ := e'
      rw [mergeChildren, Node.mergeChildren, first.1.stands.token_eq]
      refine (yields_onChild all fun u m d stands => first.2 _ _ m d stands).bind (r := fun _ => 0)
        (fun ds' stands => ?_) fun a => by omega
      exact (ih _ _ stands).imp (fun a => by omega) fun _ => id
  -- the children of the target as they are when the merge begins
  have begun : ∃ ds, ds = (if d.content.glossary.misses c.content.glossary.entries then
        forgetAll.forgetChildren d.children else d.children) ∧ (∀ a, uses ds a = uses d.children a) ∧
      List.Forall₂ (Child d.address)
        (if n.brings m then Node.forgetChildren m.children else m.children) ds := by
    refine ⟨_, rfl, ?_⟩
    rw [brings, ← source.content_eq, ← target.content_eq]
    split
    · obtain ⟨forgotten, few⟩ := target.forgetAll
      cases d
      refine ⟨fun a => ?_, Node.children_forgetAll m ▸ forgotten.children⟩
      have := few a
      rw [uses_cell, uses_cell] at this
      exact Nat.add_left_cancel this
    · exact ⟨fun a => rfl, target.children⟩
  obtain ⟨ds, same, few, begun⟩ := begun
  rw [mergeInto_eq, ← same]
  refine (yields_mergeSteps _ source.steps target.steps).bind (r := fun a => uses d.address a + uses d.children a)
    (fun ss stepsStand => ?_) fun a => by rw [uses_cell d]; omega
  refine (merged _ ds begun).bind (r := fun a => uses d.address a + uses ss a) (fun cs childrenStand => ?_)
    fun a => by rw [few]; omega
  refine .pure (stands_iff.2 ⟨target.parent_eq, target.token_eq, ?_, ?_, ?_⟩) fun a => ?_
  · rw [content_mergeInto, brings, source.content_eq, target.content_eq]
  · rw [steps_mergeInto, ← source.content_eq, ← target.content_eq]
    exact stepsStand
  · rw [children_mergeInto]
    exact childrenStand
  · rw [uses_cell]

/-- A candidate is added to the children, or else copied into the child that has its key. -/
theorem yields_placeCandidate (all : List.Forall₂ (Child holder) ns cs)
    (candidate : Stands (some holder) (some t) n c) :
    Yields (fun a => uses cs a + uses c a) (placeCandidate cs c)
      (List.Forall₂ (Child holder) (Node.placeCandidate ns (t, n))) := by
  have key : c.key? = some t.key := by rw [key?, candidate.token_eq, Option.map_some]
  rw [placeCandidate, key, Node.placeCandidate]
  cases found : find? t.key ns with
  | none =>
    rw [(child_store_of_missing all found).1]
    refine .pure (List.rel_append all (.cons ⟨rfl, candidate⟩ .nil)) fun a => ?_
    simp
  | some present =>
    obtain ⟨u, d, held, stands, stored⟩ := child_store_of_held all found
    rw [held]
    exact (yields_store held (yields_mergeInto candidate stands) (stored _)).imp (fun a => by omega) fun _ => id

end BidBook.Cell

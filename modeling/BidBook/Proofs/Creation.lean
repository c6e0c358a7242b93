import BidBook.Proofs.Mentions
import BidBook.Proofs.MergeLaws

/-! # Creating positions on demand

Asking for a path creates those of its positions that are missing, each of them behind all children of the
one before it. They are told apart by their keys, so a path may write the same calls in other ways: with
other marks and tags, as calls instead of texts, with blank texts in between. What was there stays as it
was, but for the new children.

* `Node.Bare` — nothing is known about a position but the token that leads to it, nor about any below it.
* `Node.Grown` — old positions are as they were, with bare ones behind their children.
* `said_create` — what stands at the end of any path once another one is created.
* `Tree.CreatesMissing`, `Tree.creates_missing` — what creating a path does to all look-ups.
-/

namespace BidBook

namespace Node

/-! ## Growing -/

/-- Nothing is known about a position but the token that leads to it, and nothing about those below. -/
inductive Bare : Token → Node → Prop where
  | mk {t : Token} {cs : List (Token × Node)} (below : ∀ e ∈ cs, Bare e.1 e.2) :
      Bare t (.mk (.ofToken t) [] cs)

mutual

/-- A position and the same position later on: its content and its relay steps are what they were. -/
inductive Grown : Node → Node → Prop where
  | mk {c : Content} {ss : List Node} {cs ds : List (Token × Node)} (children : GrownChildren cs ds) :
      Grown (.mk c ss cs) (.mk c ss ds)

/-- The old children come first, in their order and under their tokens, and then there are bare ones. -/
inductive GrownChildren : List (Token × Node) → List (Token × Node) → Prop where
  | new {ds : List (Token × Node)} (bare : ∀ e ∈ ds, Bare e.1 e.2) : GrownChildren [] ds
  | old {t : Token} {n m : Node} {cs ds : List (Token × Node)} (child : Grown n m)
      (rest : GrownChildren cs ds) : GrownChildren ((t, n) :: cs) ((t, m) :: ds)

end

theorem GrownChildren.refl {cs : List (Token × Node)} (children : ∀ e ∈ cs, Grown e.2 e.2) :
    GrownChildren cs cs := by
  induction cs with
  | nil => exact .new (by simp)
  | cons e cs ih =>
    obtain ⟨t, n⟩ := e
    rw [List.forall_mem_cons] at children
    exact .old children.1 (ih children.2)

theorem Grown.refl (n : Node) : Grown n n := by
  induction n using Node.induction with
  | position c ss cs _ below => exact .mk (.refl below)

/-- A child grows in its place, and a new one comes behind all others. -/
theorem GrownChildren.putChild {t : Token} {m : Node} {cs : List (Token × Node)}
    (found : ∀ n, find? t.key cs = some n → Grown n m) (missing : find? t.key cs = none → Bare t m) :
    GrownChildren cs (putChild t m cs) := by
  induction cs with
  | nil =>
    rw [Node.putChild]
    refine .new fun e member => ?_
    rw [List.mem_singleton.1 member]
    exact missing rfl
  | cons e cs ih =>
    obtain ⟨u, n⟩ := e
    by_cases same : u.key = t.key
    · rw [Node.putChild, if_pos same]
      exact .old (found n (by rw [find?, if_pos same])) (.refl fun e _ => .refl e.2)
    · rw [find?, if_neg same] at found missing
      rw [Node.putChild, if_neg same]
      exact .old (.refl n) (ih found missing)

/-! ## Creating a path -/

theorem create_cons (n : Node) (t : Token) (path : List Token) : n.create (t :: path) =
    mk n.content n.steps (putChild t ((childOrNew t n.children).create path) n.children) := rfl

theorem bare_create (t : Token) (path : List Token) : Bare t ((ofToken t).create path) := by
  induction path generalizing t with
  | nil => exact .mk (by simp)
  | cons u path ih =>
    have single : (ofToken t).create (u :: path) = mk (.ofToken t) [] [(u, (ofToken u).create path)] := rfl
    rw [single]
    refine .mk fun e member => ?_
    rw [List.mem_singleton.1 member]
    exact ih u

theorem grown_create (n : Node) (path : List Token) : Grown n (n.create path) := by
  induction path generalizing n with
  | nil => exact .refl n
  | cons t path ih =>
    obtain ⟨c, ss, cs⟩ := n
    rw [create_cons]
    refine .mk (.putChild (fun n found => ?_) fun missing => ?_)
    · rw [children_mk, childOrNew, found]
      exact ih n
    · rw [children_mk, childOrNew, missing]
      exact bare_create t path

theorem WellFormed.create {n : Node} (formed : n.WellFormed) (path : List Token) :
    (n.create path).WellFormed := by
  induction path generalizing n with
  | nil => exact formed
  | cons t path ih =>
    obtain ⟨steps, distinct, below⟩ := wellFormed_iff.1 formed
    rw [create_cons, wellFormed_iff]
    have child : ((Node.childOrNew t n.children).create path).WellFormed := ih (.childOrNew below)
    exact ⟨steps, nodup_putChild distinct, forall_node_putChild child below⟩

/-- What was asked for is where it was asked for. -/
theorem reach_create (n : Node) (path : List Token) : (n.create path).reach path = n.reach path := by
  have reached := reach_put_append n (n.reach path) path []
  rwa [List.append_nil] at reached

/-- What was said at the end of a path is said there still, and otherwise there is what the new path
mentions. -/
theorem said_create (n : Node) (path : List Token) (p : List Key) :
    (n.create path).said p = (n.said p).or ((mention? path p).map unsaid) := by
  rw [create, said_put rfl]
  split
  · next same => rw [same, said_reach]
  · rfl

theorem isSome_mention?_iff {path : List Token} {p : List Key} :
    (mention? path p).isSome ↔ p ≠ [] ∧ p <+: path.map Token.key := by
  induction path generalizing p with
  | nil => cases p <;> simp [mention?]
  | cons t path ih =>
    cases p with
    | nil => simp [mention?]
    | cons k p =>
      rw [mention?]
      by_cases same : t.key = k
      · subst same
        by_cases last : p = []
        · simp [last]
        · simp [last, ih]
      · have other : k ≠ t.key := fun e => same e.symm
        simp [same, other]

/-- The positions of the created path are there, and otherwise those that were there before. -/
theorem isSome_at?_create_iff {n : Node} {path : List Token} {p : List Key} :
    ((n.create path).at? p).isSome ↔ (n.at? p).isSome ∨ p <+: path.map Token.key := by
  have there : ∀ m : Node, (m.at? p).isSome = (m.said p).isSome := fun m => Option.isSome_map.symm
  rw [there, there, said_create, Option.isSome_or, Bool.or_eq_true, Option.isSome_map,
    isSome_mention?_iff]
  cases p with
  | nil => simp [said_nil]
  | cons k p => simp

theorem putChild_of_find? {t : Token} {m : Node} {cs : List (Token × Node)}
    (found : find? t.key cs = some m) : putChild t m cs = cs := by
  induction cs with
  | nil => cases found
  | cons e cs ih =>
    obtain ⟨u, n⟩ := e
    by_cases same : u.key = t.key
    · rw [find?, if_pos same, Option.some.injEq] at found
      rw [putChild, if_pos same, found]
    · rw [find?, if_neg same] at found
      rw [putChild, if_neg same, ih found]

/-- Where all of a path is there nothing is created. -/
theorem create_eq_self {n : Node} {path : List Token} (there : (n.at? (path.map Token.key)).isSome) :
    n.create path = n := by
  induction path generalizing n with
  | nil => rfl
  | cons t path ih =>
    rw [List.map_cons, at?_cons] at there
    cases found : find? t.key n.children with
    | none =>
      rw [found] at there
      cases there
    | some m =>
      rw [found, Option.bind_some] at there
      rw [create_cons, childOrNew, found, Option.getD_some, ih there, putChild_of_find? found]
      cases n
      rfl

theorem create_create (n : Node) (path : List Token) : (n.create path).create path = n.create path :=
  create_eq_self (isSome_at?_create_iff.2 (.inr (List.prefix_refl _)))

end Node

/-! ## Walking -/

open Node

namespace Tree

variable {p p' : Position} {n m : Node} {path : List Token}

/-- A walk ends at the node that going to the end of the path would. -/
theorem reach_of_selectFrom? (found : selectFrom? p n path = some (p', m)) : n.reach path = m := by
  induction path generalizing p n with
  | nil =>
    cases found
    rfl
  | cons t path ih =>
    rw [selectFrom?_cons, Option.bind_eq_some_iff] at found
    obtain ⟨e, child, found⟩ := found
    rw [reach, childOrNew, find?_eq_map_find?, child, Option.map_some, Option.getD_some]
    exact ih found

/-- A position that was there is found where it was. -/
theorem exists_selectFrom?_create (found : selectFrom? p n path = some (p', m)) (created : List Token) :
    ∃ m', selectFrom? p (n.create created) path = some (p', m') ∧ m.Grown m' := by
  induction path generalizing p n created with
  | nil =>
    cases found
    exact ⟨m.create created, rfl, grown_create m created⟩
  | cons u path ih =>
    cases created with
    | nil => exact ⟨m, found, .refl m⟩
    | cons t created =>
      rw [selectFrom?_cons, Option.bind_eq_some_iff] at found
      obtain ⟨e, child, found⟩ := found
      -- the child by which the walk goes on keeps its token
      have step : (putChild t ((childOrNew t n.children).create created) n.children).find?
          (fun e => e.1.key = u.key) = if t.key = u.key then
            some (e.1, (childOrNew t n.children).create created) else some e := by
        have looked := childAt?_putChild u.key t ((childOrNew t n.children).create created) n.children
        rw [childAt?, childAt?, child] at looked
        exact looked
      rw [create_cons, selectFrom?_cons, children_mk, step]
      by_cases same : t.key = u.key
      · have there : childOrNew t n.children = e.2 := by
          rw [childOrNew, find?_eq_map_find?, same, child]
          rfl
        rw [if_pos same, there, Option.bind_some]
        exact ih found created
      · rw [if_neg same, Option.bind_some]
        exact ⟨m, found, .refl m⟩

/-- What was asked for is found where it was asked for. -/
theorem exists_selectFrom?_create_self (p : Position) (n : Node) (path : List Token) :
    ∃ p', selectFrom? p (n.create path) path = some (p', n.reach path) := by
  have there : (selectFrom? p (n.create path) path).isSome := by
    rw [← Option.isSome_map, map_selectFrom?, isSome_at?_create_iff]
    exact .inr (List.prefix_refl _)
  obtain ⟨⟨p', m⟩, found⟩ := Option.isSome_iff_exists.1 there
  have reached := reach_of_selectFrom? found
  rw [reach_create] at reached
  exact ⟨p', reached ▸ found⟩

end Tree

/-! ## Looking up -/

/-- The keys of a path, as far as it can be read. -/
def Item.keys (path : List Item) : List Key := (readPath path).1.map Token.key

namespace Tree

variable {t : Tree} {path other : List Item}

theorem select?_eq_none_iff :
    t.select? (Item.readPath path).1 = none ↔ t.root.at? (Item.keys path) = none := by
  rw [Item.keys, ← map_selectFrom? ⟨t.token, []⟩, Option.map_eq_none_iff]
  rfl

theorem find_eq_ok_none_iff : t.find path = .ok none ↔ t.root.at? (Item.keys path) = none := by
  rw [← select?_eq_none_iff, find]
  generalize Item.readPath path = read
  obtain ⟨ts, e?⟩ := read
  dsimp only
  cases t.select? ts <;> cases e? <;> simp

theorem find_eq_ok_some_iff {found : Position × Node} : t.find path = .ok (some found) ↔
    (Item.readPath path).2 = none ∧ t.select? (Item.readPath path).1 = some found := by
  rw [find]
  generalize Item.readPath path = read
  obtain ⟨ts, e?⟩ := read
  dsimp only
  cases t.select? ts <;> cases e? <;> simp

theorem find_eq_error_iff {e : Excess} : t.find path = .error e ↔
    (Item.readPath path).2 = some e ∧ (t.select? (Item.readPath path).1).isSome := by
  rw [find]
  generalize Item.readPath path = read
  obtain ⟨ts, e?⟩ := read
  dsimp only
  cases t.select? ts <;> cases e? <;> simp

theorem at?_of_find {p : Position} {n : Node} (found : t.find path = .ok (some (p, n))) :
    t.root.at? (Item.keys path) = some n :=
  at?_of_selectFrom? (find_eq_ok_some_iff.1 found).2

theorem exists_find_iff : (∃ found, t.find path = .ok (some found)) ↔
    (Item.readPath path).2 = none ∧ (t.root.at? (Item.keys path)).isSome := by
  simp only [find_eq_ok_some_iff, exists_and_left]
  rw [← Option.isSome_iff_exists, Option.isSome_iff_ne_none, Option.isSome_iff_ne_none, Ne,
    select?_eq_none_iff]

theorem create_eq (t : Tree) (path : List Item) : t.create path =
    ({ t with root := t.root.create (Item.readPath path).1 }, (Item.readPath path).2) := rfl

/-! ## What is created -/

/-- What creating a path makes of a tree, and the limit that the path goes beyond, if any. -/
structure CreatesMissing (t : Tree) (path : List Item) (t' : Tree) (e? : Option Excess) : Prop where
  /-- What is asked for is found: what was there, or what is new. -/
  asked : e? = none → ∃ p, t'.find path = .ok (some (p, t.root.reach (Item.readPath path).1))
  /-- A path that cannot be created to its end cannot be looked up either. -/
  beyond : ∀ e, e? = some e → t'.find path = .error e
  /-- Where all of the path is there nothing is created. -/
  existing : ∀ found, t.find path = .ok (some found) → t' = t
  /-- Old positions are unchanged, apart from new children behind the old ones. -/
  grown : t'.token = t.token ∧ t.root.Grown t'.root
  /-- Siblings still have different keys. -/
  formed : t.root.WellFormed → t'.root.WellFormed
  /-- What was found under a path is found there still. -/
  kept : ∀ other p n, t.find other = .ok (some (p, n)) →
    ∃ n', t'.find other = .ok (some (p, n')) ∧ n.Grown n'
  /-- A path leads to a new position if its keys are missing and begin those of the created one, and only
  then. -/
  new_iff : ∀ other, (t.find other = .ok none ∧ ∃ found, t'.find other = .ok (some found)) ↔
    (Item.readPath other).2 = none ∧ Item.keys other <+: Item.keys path ∧
      t.root.at? (Item.keys other) = none
  /-- The new position has no description. It has the marks of the token in the created path. -/
  unsaid : ∀ other p n, t.find other = .ok none → t'.find other = .ok (some (p, n)) →
    ∃ u, mention? (Item.readPath path).1 (Item.keys other) = some u ∧
      n.content = .ofToken u ∧ n.content.description = none ∧ n.steps = []
  /-- To create the path once more changes nothing. -/
  again : t'.create path = (t', e?)

/-- Creating a path adds those of its positions that are missing, and nothing else changes: neither what
was there before nor what is found under other paths. -/
theorem creates_missing (t : Tree) (path : List Item) :
    CreatesMissing t path (t.create path).1 (t.create path).2 where
  asked readable := by
    obtain ⟨p, found⟩ := exists_selectFrom?_create_self ⟨t.token, []⟩ t.root (Item.readPath path).1
    exact ⟨p, find_eq_ok_some_iff.2 ⟨readable, found⟩⟩
  beyond e exceeded := by
    obtain ⟨p, found⟩ := exists_selectFrom?_create_self ⟨t.token, []⟩ t.root (Item.readPath path).1
    exact find_eq_error_iff.2 ⟨exceeded, Option.isSome_of_eq_some found⟩
  existing found there := by
    have old := at?_of_find there
    rw [create_eq, create_eq_self (Option.isSome_of_eq_some old)]
  grown := ⟨rfl, grown_create _ _⟩
  formed formed := formed.create _
  kept other p n there := by
    obtain ⟨readable, old⟩ := find_eq_ok_some_iff.1 there
    obtain ⟨m, found, grown⟩ := exists_selectFrom?_create old (Item.readPath path).1
    exact ⟨m, find_eq_ok_some_iff.2 ⟨readable, found⟩, grown⟩
  new_iff other := by
    rw [find_eq_ok_none_iff, exists_find_iff, create_eq, isSome_at?_create_iff]
    constructor
    · rintro ⟨missing, readable, old | new⟩
      · rw [missing] at old
        cases old
      · exact ⟨readable, new, missing⟩
    · rintro ⟨readable, new, missing⟩
      exact ⟨missing, readable, .inr new⟩
  unsaid other p n missing there := by
    have said := said_create t.root (Item.readPath path).1 (Item.keys other)
    have new : (t.root.create (Item.readPath path).1).at? (Item.keys other) = some n := at?_of_find there
    rw [Node.said, Node.said, new, find_eq_ok_none_iff.1 missing, Option.map_some, Option.map_none,
      Option.none_or, eq_comm, Option.map_eq_some_iff] at said
    obtain ⟨u, mentioned, same⟩ := said
    obtain ⟨content, steps⟩ := Prod.mk.inj same
    exact ⟨u, mentioned, content.symm, content ▸ rfl, steps.symm⟩
  again := by rw [create_eq, create_eq, create_create]

/-- The calls of a path may be written in other ways to look up what was created. -/
example :
    let created := (Tree.create ⟨none, .root []⟩ [.text "1C!", .text " ", .text "P", .text "2NT[weak]"]).1
    (created.find [.text " 1C[strong]", .call .pass, .text "2NT!!"]).toOption.map
        (Option.map fun found => (found.1.text, found.2.content.tag)) =
      some (some ("1C-P-2NT", some "weak")) := by decide +kernel

end Tree

end BidBook

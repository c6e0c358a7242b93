import Mathlib.Data.List.Basic
import BidBook.Pruning
import BidBook.Proofs.Legality
import BidBook.Proofs.Places

/-! # What pruning keeps

Whether a child is removed is decided on the spot, from its place in the tree and from what is left of
it after its own children have been pruned. Seen from the whole tree, a position stays exactly if it is
of use: its calls can be made, and it or something below it has something to say.

The two agree because calls that can be made can be made one after another: a good position has good
positions above it, so whatever keeps a position also keeps all that lead to it.

* `PruningSettings.Good`, `PruningSettings.Useful` — what makes a position worth keeping.
* `useful_iff` — a position is of use through itself or through a child.
* `reason?_pruned_eq_none_iff` — a position has no reason to be removed exactly if it is of use.
* `at?_pruned_of_useful`, `of_at?_pruned` — what is kept, and what it was before.
* `size_pruned`, `prune_pruned` — the count, and that nothing is left to be done.
* `pruned_keeps_useful` — all of these for a tree in a position.
-/

namespace BidBook

namespace PruningSettings

variable {settings : PruningSettings} {keys more : List Key} {n m : Node}

/-- All keys on the way are calls, and they form a legal auction where this is asked for. -/
def Good (settings : PruningSettings) (keys : List Key) : Prop :=
  ∃ calls, keys.mapM Key.call? = some calls ∧
    (settings.illegal = true → Auction.isLegal calls = true)

/-- The position can be reached, and it or one below it that can be reached has a description where this
is asked for. -/
def Useful (settings : PruningSettings) (keys : List Key) (n : Node) : Prop :=
  settings.Good keys ∧ (settings.empty = true →
    ∃ path m, n.at? path = some m ∧ settings.Good (keys ++ path) ∧ m.content.isDescribed = true)

theorem Good.of_append (good : settings.Good (keys ++ more)) : settings.Good keys := by
  obtain ⟨calls, read, legal⟩ := good
  rw [List.mapM_append] at read
  obtain ⟨earlier, readEarlier, read⟩ := Option.bind_eq_some_iff.1 read
  obtain ⟨later, _, same⟩ := Option.bind_eq_some_iff.1 read
  obtain rfl := Option.some.inj same
  refine ⟨earlier, readEarlier, fun asked => ?_⟩
  exact Auction.isLegal_of_prefix (List.prefix_append _ _) (legal asked)

/-- What keeps a position keeps those above it. -/
theorem Useful.of_at? {path : List Key} (useful : settings.Useful (keys ++ path) m)
    (found : n.at? path = some m) : settings.Useful keys n := by
  obtain ⟨good, speaks⟩ := useful
  refine ⟨good.of_append, fun asked => ?_⟩
  obtain ⟨further, d, below, reached, described⟩ := speaks asked
  refine ⟨path ++ further, d, ?_, ?_, described⟩
  · rw [Node.at?_append, found, Option.bind_some, below]
  · rwa [← List.append_assoc]

/-- A position is of use through its own description or through a child. -/
theorem useful_iff (formed : n.WellFormed) : settings.Useful keys n ↔
    settings.Good keys ∧ (settings.empty = true →
      n.content.isDescribed = true ∨ ∃ e ∈ n.children, settings.Useful (keys ++ [e.1.key]) e.2) := by
  constructor
  · rintro ⟨good, speaks⟩
    refine ⟨good, fun asked => ?_⟩
    obtain ⟨path, m, found, reached, described⟩ := speaks asked
    cases path with
    | nil =>
      rw [Node.at?_nil, Option.some.injEq] at found
      exact .inl (found ▸ described)
    | cons k path =>
      rw [Node.at?_cons, Option.bind_eq_some_iff] at found
      obtain ⟨c, child, found⟩ := found
      obtain ⟨t, member, rfl⟩ := Node.mem_of_find? child
      rw [List.append_cons] at reached
      exact .inr ⟨(t, c), member, reached.of_append, fun _ => ⟨path, m, found, reached, described⟩⟩
  · rintro ⟨good, speaks⟩
    refine ⟨good, fun asked => ?_⟩
    rcases speaks asked with described | ⟨e, member, useful⟩
    · exact ⟨[], n, Node.at?_nil n, by rwa [List.append_nil], described⟩
    · have child : n.at? [e.1.key] = some e.2 := by
        rw [Node.at?_cons, Node.find?_of_mem formed.distinct member]
        simp
      exact (useful.of_at? child).2 asked

end PruningSettings

/-! ## One position -/

variable {settings : PruningSettings} {places : List Place} {t : Token} {n m : Node}

theorem Removal.reason?_eq_none_iff : Removal.reason? settings places t n = none ↔
    settings.Good (Place.keys places) ∧
      (settings.empty = true → n.content.isDescribed = true ∨ n.children ≠ []) := by
  have notEmpty : n.isEmpty = false ↔ n.content.isDescribed = true ∨ n.children ≠ [] := by
    cases described : n.content.isDescribed <;> simp [Node.isEmpty, described]
  rw [← notEmpty, PruningSettings.Good, Removal.reason?, Place.auction?]
  cases (Place.keys places).mapM Key.call? with
  | none => simp
  | some calls =>
    simp only [Option.some.injEq, exists_eq_left']
    cases settings.illegal <;> cases Auction.isLegal calls <;> cases settings.empty <;>
      cases n.isEmpty <;> simp

namespace Node

/-- What is left of a tree. -/
def pruned (settings : PruningSettings) (places : List Place) (n : Node) : Node :=
  (n.prune settings places).1

def prunedChild (settings : PruningSettings) (places : List Place) (e : Token × Node) : Token × Node :=
  (e.1, e.2.pruned settings (e.2.place (some e.1) :: places))

/-- A child that stays, its own children having been pruned. -/
def stays (settings : PruningSettings) (places : List Place) (e : Token × Node) : Bool :=
  (Removal.reason? settings (e.2.place (some e.1) :: places) e.1 e.2).isNone

@[simp] theorem content_pruned (settings : PruningSettings) (places : List Place) (n : Node) :
    (n.pruned settings places).content = n.content := by
  cases n; rfl

@[simp] theorem steps_pruned (settings : PruningSettings) (places : List Place) (n : Node) :
    (n.pruned settings places).steps = n.steps := by
  cases n; rfl

@[simp] theorem place_pruned (settings : PruningSettings) (places : List Place) (token : Option Token)
    (n : Node) : (n.pruned settings places).place token = n.place token := by
  rw [place, place, content_pruned]

theorem stays_prunedChild_iff {e : Token × Node} :
    stays settings places (prunedChild settings places e) = true ↔
      Removal.reason? settings (e.2.place (some e.1) :: places) e.1
        (e.2.pruned settings (e.2.place (some e.1) :: places)) = none := by
  rw [stays, Option.isNone_iff_eq_none, prunedChild, place_pruned]

theorem pruneChildren_cons (settings : PruningSettings) (places : List Place) (e : Token × Node)
    (rest : List (Token × Node)) :
    (pruneChildren settings places (e :: rest)).1 =
      if stays settings places (prunedChild settings places e) then
        prunedChild settings places e :: (pruneChildren settings places rest).1
      else (pruneChildren settings places rest).1 := by
  obtain ⟨t, c⟩ := e
  simp only [pruneChildren, stays, prunedChild, place_pruned]
  rw [pruned]
  cases Removal.reason? settings (c.place (some t) :: places) t
    (c.prune settings (c.place (some t) :: places)).1 <;> rfl

theorem removed_pruneChildren_cons (settings : PruningSettings) (places : List Place) (e : Token × Node)
    (rest : List (Token × Node)) :
    (pruneChildren settings places (e :: rest)).2.1 =
      (e.2.prune settings (e.2.place (some e.1) :: places)).2.1 +
        (if stays settings places (prunedChild settings places e) then 0
          else (prunedChild settings places e).2.size) +
        (pruneChildren settings places rest).2.1 := by
  obtain ⟨t, c⟩ := e
  simp only [pruneChildren, stays, prunedChild, place_pruned]
  rw [pruned]
  cases Removal.reason? settings (c.place (some t) :: places) t
    (c.prune settings (c.place (some t) :: places)).1 <;> rfl

theorem children_pruned (settings : PruningSettings) (places : List Place) (n : Node) :
    (n.pruned settings places).children =
      (n.children.map (prunedChild settings places)).filter (stays settings places) := by
  obtain ⟨c, ss, cs⟩ := n
  show (pruneChildren settings places cs).1 = (cs.map _).filter _
  induction cs with
  | nil => rfl
  | cons e rest ih => rw [pruneChildren_cons, List.map_cons, List.filter_cons, ih]

theorem mem_children_pruned_iff {e' : Token × Node} : e' ∈ (n.pruned settings places).children ↔
    ∃ e ∈ n.children, prunedChild settings places e = e' ∧ stays settings places e' = true := by
  rw [children_pruned, List.mem_filter, List.mem_map]
  tauto

theorem tokens_pruned_sublist (settings : PruningSettings) (places : List Place) (n : Node) :
    ((n.pruned settings places).children.map Prod.fst).Sublist (n.children.map Prod.fst) := by
  have same : (n.children.map (prunedChild settings places)).map Prod.fst = n.children.map Prod.fst := by
    rw [List.map_map]
    rfl
  rw [children_pruned, ← same]
  exact List.filter_sublist.map _

theorem distinct_pruned (formed : n.WellFormed) :
    ((n.pruned settings places).children.map fun e => e.1.key).Nodup := by
  have sublist := (tokens_pruned_sublist settings places n).map Token.key
  rw [List.map_map, List.map_map] at sublist
  exact formed.distinct.sublist sublist

/-- A position has no reason to be removed, once its children have been pruned, exactly if it is of
use. -/
theorem reason?_pruned_eq_none_iff (formed : n.WellFormed) :
    Removal.reason? settings places t (n.pruned settings places) = none ↔
      settings.Useful (Place.keys places) n := by
  induction n using Node.induction generalizing places t with
  | position c ss cs _ ih =>
    have kept : ((mk c ss cs).pruned settings places).children ≠ [] ↔
        ∃ e ∈ cs, settings.Useful (Place.keys places ++ [e.1.key]) e.2 := by
      rw [Ne, List.eq_nil_iff_forall_not_mem, not_forall_not]
      constructor
      · rintro ⟨e', member⟩
        obtain ⟨e, old, rfl, stays⟩ := mem_children_pruned_iff.1 member
        rw [stays_prunedChild_iff, ih e old ((wellFormed_iff.1 formed).2.2 e old),
          Place.keys_place_cons] at stays
        exact ⟨e, old, stays⟩
      · rintro ⟨e, member, useful⟩
        refine ⟨_, mem_children_pruned_iff.2 ⟨e, member, rfl, ?_⟩⟩
        rwa [stays_prunedChild_iff, ih e member ((wellFormed_iff.1 formed).2.2 e member),
          Place.keys_place_cons]
    rw [Removal.reason?_eq_none_iff, PruningSettings.useful_iff formed, kept, content_pruned]
    rfl

/-! ## All positions -/

theorem find?_pruned_eq_some_iff {k : Key} {c' : Node} (formed : n.WellFormed) :
    find? k (n.pruned settings places).children = some c' ↔
      ∃ e ∈ n.children, e.1.key = k ∧ settings.Useful (Place.keys places ++ [k]) e.2 ∧
        (prunedChild settings places e).2 = c' := by
  constructor
  · intro found
    obtain ⟨t, member, rfl⟩ := mem_of_find? found
    obtain ⟨e, old, same, stays⟩ := mem_children_pruned_iff.1 member
    rw [← same, stays_prunedChild_iff, reason?_pruned_eq_none_iff ((wellFormed_iff.1 formed).2.2 e old),
      Place.keys_place_cons] at stays
    obtain ⟨rfl, rfl⟩ := Prod.mk.inj same
    exact ⟨e, old, rfl, stays, rfl⟩
  · rintro ⟨e, member, rfl, useful, rfl⟩
    have kept : prunedChild settings places e ∈ (n.pruned settings places).children := by
      refine mem_children_pruned_iff.2 ⟨e, member, rfl, ?_⟩
      rwa [stays_prunedChild_iff, reason?_pruned_eq_none_iff ((wellFormed_iff.1 formed).2.2 e member),
        Place.keys_place_cons]
    exact find?_of_mem (distinct_pruned formed) kept

/-- A position that is of use is kept, and with it the way to it. -/
theorem at?_pruned_of_useful {path : List Key} (formed : n.WellFormed) (found : n.at? path = some m)
    (useful : settings.Useful (Place.keys places ++ path) m) :
    ((n.pruned settings places).at? path).isSome := by
  induction path generalizing n places with
  | nil => simp
  | cons k path ih =>
    rw [at?_cons, Option.bind_eq_some_iff] at found
    obtain ⟨c, child, found⟩ := found
    obtain ⟨t, member, rfl⟩ := mem_of_find? child
    rw [List.append_cons] at useful
    have kept : find? t.key (n.pruned settings places).children =
        some (prunedChild settings places (t, c)).2 :=
      (find?_pruned_eq_some_iff formed).2 ⟨(t, c), member, rfl, useful.of_at? found, rfl⟩
    rw [at?_cons, kept, Option.bind_some]
    refine ih (formed.of_find? child) found ?_
    rwa [Place.keys_place_cons]

/-- A position that is kept was there before, with more below it, and unless it is the root it is of
use. -/
theorem of_at?_pruned {path : List Key} (formed : n.WellFormed)
    (found : (n.pruned settings places).at? path = some m) :
    ∃ old above, n.at? path = some old ∧ m = old.pruned settings above ∧
      (path ≠ [] → settings.Useful (Place.keys places ++ path) old) := by
  induction path generalizing n places with
  | nil =>
    rw [at?_nil, Option.some.injEq] at found
    exact ⟨n, places, at?_nil n, found.symm, fun below => absurd rfl below⟩
  | cons k path ih =>
    rw [at?_cons, Option.bind_eq_some_iff] at found
    obtain ⟨c', child, found⟩ := found
    obtain ⟨e, member, rfl, useful, rfl⟩ := (find?_pruned_eq_some_iff formed).1 child
    obtain ⟨old, above, there, same, below⟩ := ih ((wellFormed_iff.1 formed).2.2 e member) found
    refine ⟨old, above, ?_, same, fun _ => ?_⟩
    · rw [at?_cons, find?_of_mem formed.distinct member, Option.bind_some, there]
    · rw [Place.keys_place_cons, List.append_assoc] at below
      cases path with
      | nil =>
        rw [at?_nil, Option.some.injEq] at there
        exact there ▸ useful
      | cons k' path => exact below (by simp)

/-! ## The count -/

theorem sizeChildren_cons (e : Token × Node) (rest : List (Token × Node)) :
    sizeChildren (e :: rest) = e.2.size + sizeChildren rest := rfl

theorem sizeChildren_pruneChildren (places : List Place) {cs : List (Token × Node)}
    (counted : ∀ e ∈ cs, ∀ places,
      (e.2.pruned settings places).size + (e.2.prune settings places).2.1 = e.2.size) :
    sizeChildren (pruneChildren settings places cs).1 + (pruneChildren settings places cs).2.1 =
      sizeChildren cs := by
  induction cs with
  | nil => rfl
  | cons e rest ih =>
    rw [List.forall_mem_cons] at counted
    have here : (prunedChild settings places e).2.size +
        (e.2.prune settings (e.2.place (some e.1) :: places)).2.1 = e.2.size := counted.1 _
    have later := ih counted.2
    rw [pruneChildren_cons, removed_pruneChildren_cons, sizeChildren_cons]
    split
    · rw [sizeChildren_cons]
      omega
    · omega

/-- Every position is either kept or counted, and none is counted twice. -/
theorem size_pruned (settings : PruningSettings) (places : List Place) (n : Node) :
    (n.pruned settings places).size + (n.prune settings places).2.1 = n.size := by
  induction n using Node.induction generalizing places with
  | position c ss cs _ ih =>
    have below := sizeChildren_pruneChildren places ih
    show 1 + sizeChildren (pruneChildren settings places cs).1 + (pruneChildren settings places cs).2.1 =
      1 + sizeChildren cs
    omega

/-! ## Pruning again -/

theorem pruneChildren_eq_self {cs : List (Token × Node)}
    (done : ∀ e ∈ cs, stays settings places e = true ∧
      e.2.prune settings (e.2.place (some e.1) :: places) = (e.2, 0, [])) :
    pruneChildren settings places cs = (cs, 0, []) := by
  induction cs with
  | nil => rfl
  | cons e rest ih =>
    obtain ⟨t, c⟩ := e
    rw [List.forall_mem_cons] at done
    obtain ⟨⟨stays, here⟩, later⟩ := done
    rw [Node.stays, Option.isNone_iff_eq_none] at stays
    simp only [pruneChildren, here, ih later, stays, List.append_nil, Nat.add_zero]

/-- A pruned tree is left as it is. -/
theorem prune_pruned (settings : PruningSettings) (places : List Place) (n : Node) :
    (n.pruned settings places).prune settings places = (n.pruned settings places, 0, []) := by
  induction n using Node.induction generalizing places with
  | position c ss cs _ ih =>
    have done : pruneChildren settings places ((mk c ss cs).pruned settings places).children =
        (((mk c ss cs).pruned settings places).children, 0, []) := by
      refine pruneChildren_eq_self fun e' member => ?_
      obtain ⟨e, old, rfl, stays⟩ := mem_children_pruned_iff.1 member
      refine ⟨stays, ?_⟩
      rw [prunedChild, place_pruned]
      exact ih e old _
    have same : (mk c ss cs).pruned settings places =
        mk c ss ((mk c ss cs).pruned settings places).children := rfl
    rw [same, prune, done]

/-- Pruning keeps what is of use, and nothing else but the root. What is kept says what it said, with
its children in the order they had. The number given is that of the positions that are gone, and pruning
once more changes nothing. -/
theorem pruned_keeps_useful (settings : PruningSettings) (p : Position) (formed : n.WellFormed) :
    (∀ path, path ≠ [] → (((n.prune settings (p.places n)).1.at? path).isSome ↔
      ∃ m, n.at? path = some m ∧ settings.Useful (p.keys ++ path) m)) ∧
    (∀ path m, (n.prune settings (p.places n)).1.at? path = some m →
      ∃ old, n.at? path = some old ∧ m.content = old.content ∧ m.steps = old.steps ∧
        (m.children.map Prod.fst).Sublist (old.children.map Prod.fst)) ∧
    (n.prune settings (p.places n)).1.size + (n.prune settings (p.places n)).2.1 = n.size ∧
    (n.prune settings (p.places n)).1.prune settings (p.places (n.prune settings (p.places n)).1) =
      ((n.prune settings (p.places n)).1, 0, []) := by
  refine ⟨fun path below => ⟨fun kept => ?_, ?_⟩, fun path m found => ?_, ?_, ?_⟩
  · obtain ⟨m, found⟩ := Option.isSome_iff_exists.1 kept
    obtain ⟨old, _, there, _, useful⟩ := of_at?_pruned formed found
    exact ⟨old, there, useful below⟩
  · rintro ⟨m, found, useful⟩
    exact at?_pruned_of_useful formed found useful
  · obtain ⟨old, above, there, rfl, _⟩ := of_at?_pruned formed found
    exact ⟨old, there, content_pruned .., steps_pruned .., tokens_pruned_sublist settings above old⟩
  · exact size_pruned settings (p.places n) n
  · have same : p.places (n.pruned settings (p.places n)) = p.places n := by
      rw [Position.places, place_pruned]
      rfl
    show (n.pruned settings (p.places n)).prune settings (p.places (n.pruned settings (p.places n))) = _
    rw [same]
    exact prune_pruned settings (p.places n) n

/-- A system with a bid that is too low, a bid of an open suit, and a pass that says nothing. Another
pass is left without its only follow-up, a double of partner's bid, while a double that says nothing
stays for the redouble behind it. -/
def overgrown : Node :=
  mk {} [] [
    (.ofCall (.bid .lowest), mk { description := some "natural" } [] [
      (.ofCall (.bid .lowest), mk { description := some "too low" } [] []),
      (.ofCall .pass, mk {} [] [(.ofCall .double, mk { description := some "partner" } [] [])]),
      (.ofCall .double, mk {} [] [(.ofCall .redouble, mk { description := some "strong" } [] [])])]),
    (⟨"2M", .wildcard 2 .major, none, false, false⟩, mk { description := some "weak" } [] []),
    (.ofCall .pass, mk {} [] [])]

theorem wellFormed_overgrown : overgrown.WellFormed := by
  simp only [overgrown, WellFormed, WellFormedSteps, WellFormedChildren]
  decide +kernel

theorem pruned_keeps_useful_overgrown : overgrown.WellFormed ∧
    ((overgrown.prune {} (Position.places {} overgrown)).1.at?
      [.call (.bid .lowest), .call .double]).isSome ∧
    (¬ ∃ m, overgrown.at? [.call (.bid .lowest), .call .pass] = some m ∧
      PruningSettings.Useful {} [.call (.bid .lowest), .call .pass] m) ∧
    (overgrown.prune {} (Position.places {} overgrown)).2.1 = 5 := by
  obtain ⟨kept, _, counted, _⟩ := pruned_keeps_useful {} {} wellFormed_overgrown
  refine ⟨wellFormed_overgrown, ?_, ?_, ?_⟩
  · refine (kept _ (by simp)).2 ⟨_, rfl, ⟨_, rfl, fun _ => by decide +kernel⟩, fun _ => ?_⟩
    exact ⟨[.call .redouble], _, rfl, ⟨_, rfl, fun _ => by decide +kernel⟩, rfl⟩
  · intro useful
    exact absurd ((kept _ (by simp)).2 useful) (by decide +kernel)
  · have before : overgrown.size = 9 := rfl
    have after : (overgrown.prune {} (Position.places {} overgrown)).1.size = 4 := by decide +kernel
    omega

end Node

end BidBook

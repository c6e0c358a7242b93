import Mathlib.Data.List.Nodup
import BidBook.Proofs.Lookup
import BidBook.Tree

/-! # Places on a path

What a position of a tree knows of those above it: the glossaries of the nodes on its path, nearest
first.

* `Tree.selectFrom?_append` — a path may be walked in two parts.
* `Tree.keys_of_selectFrom?` — the keys of a position are those on the path.
* `Tree.places_of_selectFrom?` — the places of a position are those of the nodes on its path.
-/

namespace BidBook

open Node

theorem find?_eq_map_find? (k : Key) (cs : List (Token × Node)) :
    Node.find? k cs = (cs.find? fun e => e.1.key = k).map Prod.snd := by
  induction cs with
  | nil => rfl
  | cons e rest ih =>
    obtain ⟨t, n⟩ := e
    by_cases hit : t.key = k <;> simp [Node.find?, hit, ih]

/-- Where keys differ, each child is found under its own, together with its token. -/
theorem find?_key_of_mem {cs : List (Token × Node)} {e : Token × Node}
    (distinct : (cs.map fun e => e.1.key).Nodup) (child : e ∈ cs) :
    cs.find? (fun d => d.1.key = e.1.key) = some e := by
  cases found : cs.find? fun d => d.1.key = e.1.key with
  | none =>
    rw [List.find?_eq_none] at found
    exact absurd (decide_eq_true rfl) (found e child)
  | some d =>
    have same : d.1.key = e.1.key := by simpa using List.find?_some found
    rw [List.inj_on_of_nodup_map distinct (List.mem_of_find?_eq_some found) child same]

/-- What is put in place of a child goes by the token of that child. -/
theorem Node.mem_putChild_of_find? {t : Token} {n : Node} {cs : List (Token × Node)} {d e : Token × Node}
    (found : cs.find? (fun e => e.1.key = t.key) = some e) (member : d ∈ putChild t n cs) :
    d = (e.1, n) ∨ d ∈ cs := by
  induction cs with
  | nil => cases found
  | cons c cs ih =>
    obtain ⟨u, m⟩ := c
    by_cases hit : u.key = t.key
    · simp only [hit, decide_true, List.find?_cons_of_pos, Option.some.injEq] at found
      rw [putChild, if_pos hit, List.mem_cons] at member
      exact member.imp (fun same => found ▸ same) (List.mem_cons_of_mem _)
    · simp only [hit, decide_false, Bool.false_eq_true, not_false_eq_true, List.find?_cons_of_neg] at found
      rw [putChild, if_neg hit, List.mem_cons] at member
      rcases member with rfl | member
      · exact .inr List.mem_cons_self
      · exact (ih found member).imp_right (List.mem_cons_of_mem _)

theorem Place.keys_place_cons (t : Token) (n : Node) (places : List Place) :
    Place.keys (n.place (some t) :: places) = Place.keys places ++ [t.key] := by
  simp [Place.keys, Place.key?, Node.place]

namespace Tree

theorem selectFrom?_cons (p : Position) (n : Node) (t : Token) (path : List Token) :
    selectFrom? p n (t :: path) = (n.children.find? fun e => e.1.key = t.key).bind fun e =>
      selectFrom? ⟨some e.1, p.places n⟩ e.2 path := by
  rw [selectFrom?]
  cases n.children.find? fun e => e.1.key = t.key <;> rfl

theorem selectFrom?_append (p : Position) (n : Node) (front rest : List Token) :
    selectFrom? p n (front ++ rest) =
      (selectFrom? p n front).bind fun found => selectFrom? found.1 found.2 rest := by
  induction front generalizing p n with
  | nil => rfl
  | cons t front ih =>
    rw [List.cons_append, selectFrom?_cons, selectFrom?_cons, Option.bind_assoc]
    exact Option.bind_congr fun e _ => ih _ _

variable {p p' : Position} {n m : Node} {path : List Token}

theorem selectFrom?_congr {path' : List Token} (same : path.map Token.key = path'.map Token.key) :
    selectFrom? p n path = selectFrom? p n path' := by
  induction path generalizing p n path' with
  | nil =>
    rw [List.map_nil, eq_comm, List.map_eq_nil_iff] at same
    rw [same]
  | cons t path ih =>
    cases path' with
    | nil => cases same
    | cons t' path' =>
      rw [List.map_cons, List.map_cons, List.cons.injEq] at same
      rw [selectFrom?_cons, selectFrom?_cons, same.1]
      exact Option.bind_congr fun e _ => ih same.2

/-- A walk ends at the node at the end of its keys. -/
theorem map_selectFrom? (p : Position) (n : Node) (path : List Token) :
    (selectFrom? p n path).map Prod.snd = n.at? (path.map Token.key) := by
  induction path generalizing p n with
  | nil => simp [selectFrom?]
  | cons t path ih =>
    rw [selectFrom?_cons, Option.map_bind, List.map_cons, at?_cons, find?_eq_map_find?, Option.bind_map]
    exact Option.bind_congr fun e _ => ih _ _

theorem at?_of_selectFrom? (found : selectFrom? p n path = some (p', m)) :
    n.at? (path.map Token.key) = some m := by
  rw [← map_selectFrom? p, found, Option.map_some]

theorem keys_of_selectFrom? (found : selectFrom? p n path = some (p', m)) :
    p'.keys = p.keys ++ path.map Token.key := by
  induction path generalizing p n with
  | nil =>
    cases found
    simp
  | cons t path ih =>
    rw [selectFrom?_cons, Option.bind_eq_some_iff] at found
    obtain ⟨e, child, found⟩ := found
    have same : e.1.key = t.key := by simpa using List.find?_some child
    have begun : Position.keys ⟨some e.1, p.places n⟩ = p.keys ++ [t.key] :=
      same ▸ Place.keys_place_cons e.1 e.2 (p.places n)
    rw [ih found, begun, List.append_assoc, List.map_cons, List.singleton_append]

/-- Below the node from which the path was walked, the places are those of the nodes on it. -/
theorem places_of_selectFrom? (found : selectFrom? p n path = some (p', m)) :
    ∃ near, p'.places m = near ++ p.places n ∧ ∀ place ∈ near, ∃ k q c,
      k :: q <+: path.map Token.key ∧ n.at? (k :: q) = some c ∧ place.glossary = c.content.glossary := by
  induction path generalizing p n with
  | nil =>
    cases found
    exact ⟨[], rfl, by simp⟩
  | cons t path ih =>
    rw [selectFrom?_cons, Option.bind_eq_some_iff] at found
    obtain ⟨⟨u, d⟩, child, found⟩ := found
    have here : n.at? [t.key] = some d := by
      rw [at?_cons, find?_eq_map_find?, child]
      simp
    obtain ⟨near, places, on⟩ := ih found
    refine ⟨near ++ [d.place (some u)], ?_, ?_⟩
    · rw [places, List.append_assoc]
      rfl
    · intro place member
      rcases List.mem_append.1 member with member | member
      · obtain ⟨k, q, c, begins, there, glossary⟩ := on place member
        refine ⟨t.key, k :: q, c, List.cons_prefix_cons.2 ⟨rfl, begins⟩, ?_, glossary⟩
        rw [← List.singleton_append, at?_append, here, Option.bind_some, there]
      · rw [List.mem_singleton] at member
        exact ⟨t.key, [], d, by simp, here, by rw [member]; rfl⟩

theorem glossary_of_mem_places {t : Tree} (found : t.select? path = some (p', m)) :
    ∀ place ∈ p'.places m, ∃ q c, t.root.at? q = some c ∧ place.glossary = c.content.glossary := by
  obtain ⟨near, places, on⟩ := places_of_selectFrom? found
  intro place member
  rw [places] at member
  rcases List.mem_append.1 member with member | member
  · obtain ⟨k, q, c, _, there, glossary⟩ := on place member
    exact ⟨k :: q, c, there, glossary⟩
  · rw [Position.places, List.mem_singleton] at member
    exact ⟨[], t.root, at?_nil _, by rw [member]; rfl⟩

end Tree

end BidBook

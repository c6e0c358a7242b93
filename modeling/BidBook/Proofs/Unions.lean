import BidBook.Proofs.MergeLaws

/-! # A merge as a union

The paths of a merge are those of either tree, whichever of the two descriptions stays at a position. What
a position lists, the shorthands of its glossary and the keys of its children, is listed in the order of
the target, and behind it stands what only the source has. This holds at every depth, also below a position
that only the source knows and that the merge has to build anew.

* `listAt` — what the position at the end of a path lists.
* `Joins` — lists that a merge puts one behind the other.
* `joins_shorthands`, `joins_keys` — glossaries and children are such lists.
* `merged_union` — paths, glossaries and children of a merge.
-/

namespace BidBook.Node

variable {α : Type} [DecidableEq α] {f : Node → List α} {s t : Node}

/-- What the position at the end of a path lists; nothing if there is no such position. -/
def listAt (f : Node → List α) (n : Node) (path : List Key) : List α := ((n.at? path).map f).getD []

def shorthands (n : Node) : List Shorthand := n.content.glossary.entries

def keys (n : Node) : List Key := n.children.map fun e => e.1.key

/-- A merge lists what the target lists, and behind it what is new in the source. What is remembered makes
no difference, and a new position lists nothing. -/
structure Joins (f : Node → List α) : Prop where
  merge : ∀ {s : Node} (t : Node), s.WellFormed → f (mergeInto s t) = appendNew (f t) (f s)
  new : ∀ u, f (ofToken u) = []
  forget : ∀ n, f n.forgetAll = f n
  copy : ∀ n, f n.copy = f n

theorem joins_shorthands : Joins shorthands where
  merge {s} t _ := by
    have entries : (mergeContent s.content t.content).glossary.entries =
        appendNew t.shorthands s.shorthands := by
      rw [mergeContent_eq]
      exact Glossary.entries_addAll _ s.content.glossary.nodup
    rw [shorthands, content_mergeInto]
    split <;> exact entries
  new _ := rfl
  forget n := by rw [shorthands, content_forgetAll]; rfl
  copy n := by rw [shorthands, content_copy]; rfl

theorem keys_forgetAll (n : Node) : n.forgetAll.keys = n.keys := by
  rw [keys, children_forgetAll, forgetChildren_eq_map, List.map_map]
  rfl

theorem joins_keys : Joins keys where
  merge {s} t formed := by
    rw [keys, children_mergeInto, keys_mergeChildren formed.distinct]
    split
    · exact congrArg (appendNew · s.keys) (children_forgetAll t ▸ keys_forgetAll t)
    · rfl
  new _ := rfl
  forget := keys_forgetAll
  copy n := by
    rw [keys, children_copy, copyChildren_eq_map, List.map_map]
    rfl

/-! ## At the end of a path -/

theorem isSome_at?_merged (formed : s.WellFormed) (t : Node) (path : List Key) :
    ((merged s t).at? path).isSome ↔ (s.at? path).isSome ∨ (t.at? path).isSome := by
  obtain ⟨stale, u, found⟩ := exists_at?_mergeInto formed t.copy path
  rw [merged, found, at?_copy]
  cases s.at? path <;> simp

theorem Joins.forgetWhen (joins : Joins f) (stale : Bool) (n : Node) : f (n.forgetWhen stale) = f n := by
  cases stale with
  | false => rfl
  | true => exact joins.forget n

/-- A merge lists at every path what the target lists there, and behind it what is new in the source. -/
theorem Joins.listAt_merged (joins : Joins f) (formed : s.WellFormed) (t : Node) (path : List Key) :
    listAt f (merged s t) path = appendNew (listAt f t path) (listAt f s path) := by
  obtain ⟨stale, u, found⟩ := exists_at?_mergeInto formed t.copy path
  rw [listAt, merged, found, at?_copy, listAt, listAt]
  cases known : s.at? path with
  | none =>
    -- the source has no such position, so that of the target is as it was
    cases t.at? path <;> simp [appendNew, joins.forgetWhen, joins.copy]
  | some m =>
    have merge := fun n => joins.merge n (formed.of_at? known)
    cases t.at? path with
    | none => simp [merge, joins.new]
    | some n => simp [merge, joins.forgetWhen, joins.copy]

/-- The paths of a merge are those of either tree. The position at the end of one has the shorthands of the
target in their order, and behind them those that only the source has, each once, and its children stand in
the order of the target's, and behind them those that only the source has. -/
theorem merged_union (formed : s.WellFormed) (t : Node) (path : List Key) :
    (((merged s t).at? path).isSome ↔ (s.at? path).isSome ∨ (t.at? path).isSome) ∧
      ∀ m, (merged s t).at? path = some m →
        m.shorthands = appendNew (listAt shorthands t path) (listAt shorthands s path) ∧
          m.shorthands.Nodup ∧ m.keys = appendNew (listAt keys t path) (listAt keys s path) := by
  refine ⟨isSome_at?_merged formed t path, fun m found => ?_⟩
  have listed : ∀ {β : Type} [DecidableEq β] (g : Node → List β), listAt g (merged s t) path = g m :=
    fun g => by rw [listAt, found]; rfl
  refine ⟨?_, m.content.glossary.nodup, ?_⟩
  · rw [← listed shorthands, joins_shorthands.listAt_merged formed]
  · rw [← listed keys, joins_keys.listAt_merged formed]

/-- A system of two openings. The second one is also opened by `clubOpening`, but answered otherwise. -/
def passOrClub : Node :=
  mk { glossary := .ofList [⟨"GF", "forcing"⟩, ⟨"HCP", "points"⟩] } []
    [(.ofCall .pass, mk { description := some "weak" } [] []), (.ofCall (.bid .lowest),
      mk { description := some "strong", priority := 5 } [] [(.ofCall .double, mk {} [] [])])]

/-- Only the source passes over the club, and it describes the opening in vain. -/
theorem merged_union_passOrClub :
    let source := clubOpening ⟨"HCP", "points"⟩ { description := some "natural", priority := 2 }
      { description := some "0-7 HCP" } [{ description := some "shape" }]
    let club := Key.call (.bid .lowest)
    source.WellFormed ∧ ((merged source passOrClub).at? [club, .call .pass]).isSome ∧
      ∃ root opening, (merged source passOrClub).at? [] = some root ∧
        root.shorthands = [⟨"GF", "forcing"⟩, ⟨"HCP", "points"⟩] ∧ root.keys = [.call .pass, club] ∧
        (merged source passOrClub).at? [club] = some opening ∧
        opening.keys = [.call .double, .call .pass] := by
  intro source club
  have formed : source.WellFormed := wellFormed_clubOpening _ _ _ _
  have union := merged_union formed passOrClub
  obtain ⟨root, foundRoot⟩ := Option.isSome_iff_exists.1 ((union []).1.2 (.inl rfl))
  obtain ⟨opening, foundOpening⟩ := Option.isSome_iff_exists.1 ((union [club]).1.2 (.inr rfl))
  obtain ⟨shorthands, _, keys⟩ := (union []).2 root foundRoot
  obtain ⟨_, _, answers⟩ := (union [club]).2 opening foundOpening
  exact ⟨formed, (union _).1.2 (.inl rfl), root, opening, foundRoot, shorthands.trans (by decide),
    keys.trans (by decide), foundOpening, answers.trans (by decide)⟩

end BidBook.Node

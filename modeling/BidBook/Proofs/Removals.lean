import BidBook.Proofs.Pruned

/-! # What pruning reports

Pruning takes positions out of a tree one by one. Each of them is a leaf by the time it is taken out, for
whatever speaks against a position speaks against all that lead on from it. So every removal is that of a
single position, and the reports, one for each, stand in an order in which no position comes before those
below it.

* `Node.removals` — the paths of the positions that are removed, in this order.
* `Node.cut` — a tree without the position at the end of a path.
* `mem_removals_iff`, `pairwise_removals` — which positions are removed, and in which order.
* `foldl_cut_removals` — taking them out one after another is pruning.
* `prune_reports_once` — all of this for the reports of a tree in a position.
-/

namespace BidBook

/-- The report on the removal of the position at the end of a path, below a position with certain keys. -/
def Removal.report (keys : List Key) (r : List Key × Removal) : Event :=
  .pruned (pathText "-" (keys ++ r.1)) r.2.word []

namespace Node

variable {settings : PruningSettings} {places : List Place} {n m : Node} {k : Key} {path : List Key}

/-! ## Removals -/

def childReason? (settings : PruningSettings) (places : List Place) (e : Token × Node) : Option Removal :=
  Removal.reason? settings (e.2.place (some e.1) :: places) e.1
    (e.2.pruned settings (e.2.place (some e.1) :: places))

mutual

/-- The positions that pruning removes, and why, children before parents. -/
def removals (settings : PruningSettings) (places : List Place) : Node → List (List Key × Removal)
  | mk _ _ cs => removalsBelow settings places cs

def removalsBelow (settings : PruningSettings) (places : List Place) :
    List (Token × Node) → List (List Key × Removal)
  | [] => []
  | (t, n) :: rest =>
    (n.removals settings (n.place (some t) :: places)).map (fun r => (t.key :: r.1, r.2)) ++
      (childReason? settings places (t, n)).toList.map (fun why => ([t.key], why)) ++
      removalsBelow settings places rest

end

def childRemovals (settings : PruningSettings) (places : List Place) (e : Token × Node) :
    List (List Key × Removal) :=
  (e.2.removals settings (e.2.place (some e.1) :: places)).map (fun r => (e.1.key :: r.1, r.2)) ++
    (childReason? settings places e).toList.map fun why => ([e.1.key], why)

theorem removalsBelow_eq_flatMap (settings : PruningSettings) (places : List Place)
    (cs : List (Token × Node)) :
    removalsBelow settings places cs = cs.flatMap (childRemovals settings places) := by
  induction cs with
  | nil => rfl
  | cons e rest ih => rw [List.flatMap_cons, ← ih]; rfl

theorem removals_eq (settings : PruningSettings) (places : List Place) (n : Node) :
    n.removals settings places = n.children.flatMap (childRemovals settings places) := by
  cases n
  exact removalsBelow_eq_flatMap settings places _

theorem stays_prunedChild (settings : PruningSettings) (places : List Place) (e : Token × Node) :
    stays settings places (prunedChild settings places e) = (childReason? settings places e).isNone := by
  rw [stays, prunedChild, place_pruned, childReason?]

theorem childReason?_eq_none_iff {e : Token × Node} (formed : e.2.WellFormed) :
    childReason? settings places e = none ↔ settings.Useful (Place.keys places ++ [e.1.key]) e.2 := by
  rw [childReason?, reason?_pruned_eq_none_iff formed, Place.keys_place_cons]

/-! ## The reports -/

theorem events_pruneChildren_cons (settings : PruningSettings) (places : List Place) (e : Token × Node)
    (rest : List (Token × Node)) :
    (pruneChildren settings places (e :: rest)).2.2 =
      (e.2.prune settings (e.2.place (some e.1) :: places)).2.2 ++
        (childReason? settings places e).toList.map (fun why =>
          Removal.report (Place.keys places) ([e.1.key], why)) ++
        (pruneChildren settings places rest).2.2 := by
  obtain ⟨t, c⟩ := e
  simp only [pruneChildren, childReason?, Removal.report, ← Place.keys_place_cons t c places]
  rw [pruned]
  cases Removal.reason? settings (c.place (some t) :: places) t
    (c.prune settings (c.place (some t) :: places)).1 <;> simp

theorem report_cons (places : List Place) (e : Token × Node) (r : List Key × Removal) :
    Removal.report (Place.keys places) (e.1.key :: r.1, r.2) =
      Removal.report (Place.keys (e.2.place (some e.1) :: places)) r := by
  rw [Removal.report, Removal.report, Place.keys_place_cons, List.append_assoc, List.singleton_append]

/-- There is one report for each removal, and no other. -/
theorem events_prune (settings : PruningSettings) (places : List Place) (n : Node) :
    (n.prune settings places).2.2 =
      (n.removals settings places).map (Removal.report (Place.keys places)) := by
  induction n using Node.induction generalizing places with
  | position c ss cs _ ih =>
    show (pruneChildren settings places cs).2.2 = (removalsBelow settings places cs).map _
    rw [removalsBelow_eq_flatMap]
    induction cs with
    | nil => rfl
    | cons e rest later =>
      rw [List.forall_mem_cons] at ih
      rw [events_pruneChildren_cons, ih.1, later ih.2, List.flatMap_cons, List.map_append, childRemovals,
        List.map_append, List.map_map, List.map_map]
      simp only [Function.comp_def, report_cons]

/-! ## Which positions are removed -/

theorem ne_nil_of_mem_removals {r : List Key × Removal} (member : r ∈ n.removals settings places) :
    r.1 ≠ [] := by
  rw [removals_eq, List.mem_flatMap] at member
  obtain ⟨e, _, member⟩ := member
  simp only [childRemovals, List.mem_append, List.mem_map] at member
  rcases member with ⟨_, _, rfl⟩ | ⟨_, _, rfl⟩ <;> simp

theorem mem_paths_childRemovals_iff {e : Token × Node} :
    path ∈ (childRemovals settings places e).map Prod.fst ↔
      ∃ q, path = e.1.key :: q ∧
        (q ∈ (e.2.removals settings (e.2.place (some e.1) :: places)).map Prod.fst ∨
          q = [] ∧ childReason? settings places e ≠ none) := by
  simp only [childRemovals, List.map_append, List.map_map, List.mem_append, List.mem_map,
    Function.comp_apply]
  constructor
  · rintro (⟨r, member, rfl⟩ | ⟨why, reason, rfl⟩)
    · exact ⟨r.1, rfl, .inl ⟨r, member, rfl⟩⟩
    · rw [Option.mem_toList] at reason
      exact ⟨[], rfl, .inr ⟨rfl, by simp [reason]⟩⟩
  · rintro ⟨q, rfl, ⟨r, member, rfl⟩ | ⟨rfl, removed⟩⟩
    · exact .inl ⟨r, member, rfl⟩
    · obtain ⟨why, reason⟩ := Option.ne_none_iff_exists'.1 removed
      exact .inr ⟨why, by rw [reason]; simp, rfl⟩

/-- What is removed is what is of no use. -/
theorem mem_removals_iff (formed : n.WellFormed) :
    path ∈ (n.removals settings places).map Prod.fst ↔
      path ≠ [] ∧ ∃ m, n.at? path = some m ∧ ¬ settings.Useful (Place.keys places ++ path) m := by
  induction path generalizing n places with
  | nil =>
    simp only [ne_eq, not_true_eq_false, false_and, iff_false, List.mem_map, not_exists, not_and]
    exact fun r member => ne_nil_of_mem_removals member
  | cons k path ih =>
    rw [removals_eq, List.map_flatMap, List.mem_flatMap]
    simp only [mem_paths_childRemovals_iff]
    have below : ∀ e ∈ n.children, e.2.WellFormed := (wellFormed_iff.1 formed).2.2
    constructor
    · rintro ⟨e, child, q, same, removed⟩
      obtain ⟨rfl, rfl⟩ := List.cons.inj same
      have found : find? e.1.key n.children = some e.2 := find?_of_mem formed.distinct child
      refine ⟨List.cons_ne_nil _ _, ?_⟩
      rw [at?_cons, found, Option.bind_some, List.append_cons, ← Place.keys_place_cons e.1 e.2]
      rcases removed with removed | ⟨rfl, reason⟩
      · exact ((ih (below e child)).1 removed).2
      · rw [ne_eq, childReason?_eq_none_iff (below e child), ← Place.keys_place_cons e.1 e.2] at reason
        exact ⟨e.2, at?_nil _, by rwa [List.append_nil]⟩
    · rintro ⟨_, m, found, useless⟩
      rw [at?_cons, Option.bind_eq_some_iff] at found
      obtain ⟨c, child, found⟩ := found
      obtain ⟨t, member, rfl⟩ := mem_of_find? child
      refine ⟨(t, c), member, path, rfl, ?_⟩
      rw [List.append_cons, ← Place.keys_place_cons t c] at useless
      cases path with
      | nil =>
        rw [at?_nil, Option.some.injEq] at found
        subst found
        refine .inr ⟨rfl, ?_⟩
        rw [ne_eq, childReason?_eq_none_iff (below _ member)]
        rwa [List.append_nil, Place.keys_place_cons] at useless
      | cons k path =>
        exact .inl ((ih (below _ member)).2 ⟨List.cons_ne_nil _ _, m, found, useless⟩)

theorem mem_removals_iff_gone (formed : n.WellFormed) :
    path ∈ (n.removals settings places).map Prod.fst ↔
      (n.at? path).isSome ∧ (n.pruned settings places).at? path = none := by
  rw [mem_removals_iff formed]
  constructor
  · rintro ⟨below, m, found, useless⟩
    refine ⟨by simp [found], Option.eq_none_iff_forall_ne_some.2 fun m' kept => ?_⟩
    obtain ⟨old, _, there, _, useful⟩ := of_at?_pruned formed kept
    rw [found, Option.some.injEq] at there
    exact useless (there ▸ useful below)
  · rintro ⟨present, gone⟩
    obtain ⟨m, found⟩ := Option.isSome_iff_exists.1 present
    refine ⟨?_, m, found, fun useful => ?_⟩
    · rintro rfl
      simp at gone
    · have kept := at?_pruned_of_useful formed found useful
      simp [gone] at kept

/-! ## The order of the reports -/

/-- No position is removed before one below it, and none is removed twice. -/
theorem pairwise_removals (formed : n.WellFormed) :
    (n.removals settings places).Pairwise fun r r' => ¬ r.1 <+: r'.1 := by
  induction n using Node.induction generalizing places with
  | position c ss cs _ ih =>
    rw [wellFormed_iff] at formed
    obtain ⟨_, distinct, below⟩ := formed
    have headed : ∀ e, ∀ r ∈ childRemovals settings places e, ∃ q, r.1 = e.1.key :: q := by
      intro e r member
      obtain ⟨q, same, _⟩ := mem_paths_childRemovals_iff.1 (List.mem_map_of_mem member)
      exact ⟨q, same⟩
    rw [removals_eq, children_mk, List.pairwise_flatMap]
    constructor
    · intro e child
      rw [childRemovals, List.pairwise_append, List.pairwise_map, List.pairwise_map]
      refine ⟨?_, ?_, ?_⟩
      · exact (ih e child (below e child)).imp fun apart le => apart (List.cons_prefix_cons.1 le).2
      · cases childReason? settings places e <;> simp
      · -- the child itself comes behind all that is below it
        simp only [List.forall_mem_map]
        intro r member why _ le
        have nonempty := ne_nil_of_mem_removals member
        simp [List.cons_prefix_cons, nonempty] at le
    · refine (List.pairwise_map.1 distinct).imp fun {e e'} other r member r' member' le => ?_
      obtain ⟨q, same⟩ := headed e r member
      obtain ⟨q', same'⟩ := headed e' r' member'
      rw [same, same', List.cons_prefix_cons] at le
      exact other le.1

/-! ## Removing one position at a time -/

/-- A tree without the position at the end of a path, and without all that is below it. -/
def cut : Node → List Key → Node
  | n, [] => n
  | n, [k] => mk n.content n.steps (n.children.filter fun e => e.1.key ≠ k)
  | n, k :: path => mk n.content n.steps
      (n.children.map fun e => if e.1.key = k then (e.1, e.2.cut path) else e)

theorem cut_cons (n : Node) (k : Key) (below : path ≠ []) : n.cut (k :: path) =
    mk n.content n.steps (n.children.map fun e => if e.1.key = k then (e.1, e.2.cut path) else e) := by
  cases path with
  | nil => exact absurd rfl below
  | cons k' path => rfl

theorem find?_without (k k' : Key) (cs : List (Token × Node)) :
    find? k' (cs.filter fun e => e.1.key ≠ k) = if k' = k then none else find? k' cs := by
  induction cs with
  | nil => simp [find?]
  | cons e rest ih =>
    obtain ⟨t, n⟩ := e
    rw [List.filter_cons]
    by_cases here : t.key = k
    · rw [if_neg (by simp [here]), ih, find?, here]
      by_cases hit : k = k' <;> simp [hit, eq_comm]
    · rw [if_pos (by simp [here]), find?, find?, ih]
      by_cases hit : t.key = k'
      · simp [hit, hit ▸ here]
      · simp [hit]

theorem find?_changed (k k' : Key) (f : Node → Node) (cs : List (Token × Node)) :
    find? k' (cs.map fun e => if e.1.key = k then (e.1, f e.2) else e) =
      if k' = k then (find? k' cs).map f else find? k' cs := by
  induction cs with
  | nil => simp [find?]
  | cons e rest ih =>
    obtain ⟨t, n⟩ := e
    by_cases hit : t.key = k'
    · subst hit
      by_cases here : t.key = k <;> simp [here, find?]
    · by_cases here : t.key = k
      · subst here
        simp [hit, find?, ih]
      · simp [here, hit, find?, ih]

theorem isSome_at?_cut_iff {q : List Key} (below : q ≠ []) :
    ((n.cut q).at? path).isSome ↔ (n.at? path).isSome ∧ ¬ q <+: path := by
  induction q generalizing n path with
  | nil => exact absurd rfl below
  | cons k q ih =>
    cases path with
    | nil => simp
    | cons k' path =>
      rw [at?_cons, at?_cons, List.cons_prefix_cons]
      by_cases last : q = []
      · subst last
        rw [cut, children_mk, find?_without]
        by_cases same : k' = k <;> simp [same, Ne.symm]
      · rw [cut_cons n k last, children_mk, find?_changed k k' (·.cut q)]
        by_cases same : k' = k
        · subst same
          cases find? k' n.children with
          | none => simp
          | some c => simpa using ih last
        · simp [same, Ne.symm same]

theorem isSome_at?_foldl_cut_iff {qs : List (List Key)} (below : ∀ q ∈ qs, q ≠ []) :
    ((qs.foldl cut n).at? path).isSome ↔ (n.at? path).isSome ∧ ∀ q ∈ qs, ¬ q <+: path := by
  induction qs generalizing n with
  | nil => simp
  | cons q qs ih =>
    rw [List.forall_mem_cons] at below
    rw [List.foldl_cons, ih below.2, isSome_at?_cut_iff below.1, List.forall_mem_cons, and_assoc]

/-- Taking positions out below one child leaves the others alone. -/
theorem foldl_cut_map_cons {qs : List (List Key)} (below : ∀ q ∈ qs, q ≠ []) :
    (qs.map (k :: ·)).foldl cut n = mk n.content n.steps
      (n.children.map fun e => if e.1.key = k then (e.1, qs.foldl cut e.2) else e) := by
  induction qs generalizing n with
  | nil =>
    have same : n.children.map (fun e => if e.1.key = k then (e.1, e.2) else e) = n.children :=
      List.map_id'' (fun e => ite_self e) _
    rw [List.map_nil, List.foldl_nil]
    simp only [List.foldl_nil]
    rw [same]
    cases n
    rfl
  | cons q qs ih =>
    rw [List.forall_mem_cons] at below
    rw [List.map_cons, List.foldl_cons, ih below.2, cut_cons n k below.1, content_mk, steps_mk, children_mk,
      List.map_map]
    refine congrArg _ (List.map_congr_left fun e _ => ?_)
    by_cases hit : e.1.key = k <;> simp [hit]

theorem key_ne_of_nodup {kept rest : List (Token × Node)} {e : Token × Node}
    (distinct : ((kept ++ e :: rest).map fun e => e.1.key).Nodup) :
    (∀ d ∈ kept, d.1.key ≠ e.1.key) ∧ ∀ d ∈ rest, d.1.key ≠ e.1.key := by
  rw [← List.forall_mem_append]
  rw [List.map_append, List.map_cons, List.nodup_middle, List.nodup_cons, ← List.map_append] at distinct
  intro d member same
  exact distinct.1 (same ▸ List.mem_map_of_mem (f := fun e : Token × Node => e.1.key) member)

/-- Once the removals below a child are done, the child is pruned and the others are as they were. -/
theorem foldl_cut_childRemovals {c : Content} {ss : List Node} {kept rest : List (Token × Node)}
    {e : Token × Node} (distinct : ((kept ++ e :: rest).map fun e => e.1.key).Nodup)
    (below : ∀ places, ((e.2.removals settings places).map Prod.fst).foldl cut e.2 =
      e.2.pruned settings places) :
    ((childRemovals settings places e).map Prod.fst).foldl cut (mk c ss (kept ++ e :: rest)) =
      mk c ss (kept ++ (if stays settings places (prunedChild settings places e) then
        prunedChild settings places e :: rest else rest)) := by
  obtain ⟨before, behind⟩ := key_ne_of_nodup distinct
  have paths : (childRemovals settings places e).map Prod.fst =
      (((e.2.removals settings (e.2.place (some e.1) :: places)).map Prod.fst).map (e.1.key :: ·)) ++
        (childReason? settings places e).toList.map fun _ => [e.1.key] := by
    simp [childRemovals, Function.comp_def]
  have nonempty : ∀ q ∈ (e.2.removals settings (e.2.place (some e.1) :: places)).map Prod.fst, q ≠ [] :=
    List.forall_mem_map.2 fun r member => ne_nil_of_mem_removals member
  have changed : (kept ++ e :: rest).map (fun d => if d.1.key = e.1.key then
      (d.1, ((e.2.removals settings (e.2.place (some e.1) :: places)).map Prod.fst).foldl cut d.2) else d) =
      kept ++ prunedChild settings places e :: rest := by
    rw [List.map_append, List.map_cons, if_pos rfl, below, prunedChild]
    rw [List.map_congr_left fun d member => if_neg (before d member), List.map_id',
      List.map_congr_left fun d member => if_neg (behind d member), List.map_id']
  rw [paths, List.foldl_append, foldl_cut_map_cons nonempty, children_mk, changed, stays_prunedChild]
  cases childReason? settings places e with
  | none => rfl
  | some why =>
    have gone : (kept ++ prunedChild settings places e :: rest).filter (fun d => d.1.key ≠ e.1.key) =
        kept ++ rest := by
      rw [List.filter_append, List.filter_cons_of_neg (by simp [prunedChild]),
        List.filter_eq_self.2 (by simpa using before), List.filter_eq_self.2 (by simpa using behind)]
    simpa [cut] using gone

theorem foldl_cut_removals (formed : n.WellFormed) :
    ((n.removals settings places).map Prod.fst).foldl cut n = n.pruned settings places := by
  induction n using Node.induction generalizing places with
  | position c ss cs _ ih =>
    rw [wellFormed_iff, steps_mk, children_mk] at formed
    obtain ⟨-, distinct, below⟩ := formed
    -- the children that are kept stand before those that are still to be visited
    have run : ∀ kept, ((kept ++ cs).map fun e => e.1.key).Nodup →
        ((removalsBelow settings places cs).map Prod.fst).foldl cut (mk c ss (kept ++ cs)) =
          mk c ss (kept ++ (pruneChildren settings places cs).1) := by
      clear distinct
      induction cs with
      | nil => exact fun kept _ => rfl
      | cons e rest later =>
        intro kept distinct
        rw [List.forall_mem_cons] at ih below
        rw [removalsBelow_eq_flatMap, List.flatMap_cons, List.map_append, List.foldl_append,
          ← removalsBelow_eq_flatMap,
          foldl_cut_childRemovals distinct fun places => ih.1 below.1, pruneChildren_cons]
        split
        · have same := later ih.2 below.2 (kept ++ [prunedChild settings places e])
            (by simpa [prunedChild] using distinct)
          rwa [List.append_assoc, List.append_assoc] at same
        · refine later ih.2 below.2 kept (distinct.sublist (List.Sublist.map _ ?_))
          exact (List.sublist_cons_self e rest).append_left kept
    exact run [] distinct

theorem isSome_at?_append_key {e : Token × Node} (found : n.at? path = some m) (child : e ∈ m.children) :
    (n.at? (path ++ [e.1.key])).isSome := by
  have known : find? e.1.key m.children ≠ none := fun absent => find?_eq_none_iff.1 absent e child rfl
  rw [at?_append, found, Option.bind_some, at?_cons]
  simpa [Option.isSome_iff_ne_none] using known

/-- By the time a position is taken out, all that is below it has been taken out. -/
theorem childless_of_removals_eq (formed : n.WellFormed) {before after : List (List Key × Removal)}
    {r : List Key × Removal} (same : n.removals settings places = before ++ r :: after) :
    ∃ m, ((before.map Prod.fst).foldl cut n).at? r.1 = some m ∧ m.children = [] := by
  have order : (n.removals settings places).Pairwise fun r r' => ¬ r.1 <+: r'.1 := pairwise_removals formed
  have nonempty : ∀ q ∈ before.map Prod.fst, q ≠ [] := by
    rw [List.forall_mem_map]
    exact fun r' member => ne_nil_of_mem_removals (same ▸ List.mem_append_left _ member)
  rw [same, List.pairwise_append, List.pairwise_cons] at order
  obtain ⟨-, ⟨behind, -⟩, ahead⟩ := order
  have removed : r.1 ∈ (n.removals settings places).map Prod.fst := by simp [same]
  obtain ⟨-, old, found, useless⟩ := (mem_removals_iff formed).1 removed
  have present : (((before.map Prod.fst).foldl cut n).at? r.1).isSome := by
    rw [isSome_at?_foldl_cut_iff nonempty, found, List.forall_mem_map]
    exact ⟨rfl, fun r' member => ahead r' member r List.mem_cons_self⟩
  obtain ⟨m, there⟩ := Option.isSome_iff_exists.1 present
  refine ⟨m, there, List.eq_nil_iff_forall_not_mem.2 fun e child => ?_⟩
  -- a child that is left is of no use either, but its removal is neither before this one nor behind it
  have left := isSome_at?_append_key there child
  rw [isSome_at?_foldl_cut_iff nonempty, at?_append, found, Option.bind_some] at left
  obtain ⟨d, grandchild⟩ := Option.isSome_iff_exists.1 left.1
  have also : r.1 ++ [e.1.key] ∈ (n.removals settings places).map Prod.fst := by
    refine (mem_removals_iff formed).2 ⟨by simp, d, ?_, fun useful => useless (.of_at? ?_ grandchild)⟩
    · rw [at?_append, found, Option.bind_some, grandchild]
    · rwa [List.append_assoc]
  rw [same, List.map_append, List.map_cons, List.mem_append, List.mem_cons] at also
  rcases also with earlier | here | later
  · exact left.2 _ earlier List.prefix_rfl
  · simp at here
  · obtain ⟨r', member, path⟩ := List.mem_map.1 later
    exact behind r' member (path ▸ List.prefix_append r.1 _)

/-! ## The count -/

theorem children_pruned_of_not_useful (formed : n.WellFormed)
    (useless : ¬ settings.Useful (Place.keys places) n) : (n.pruned settings places).children = [] := by
  rw [List.eq_nil_iff_forall_not_mem]
  intro e' member
  obtain ⟨e, child, rfl, kept⟩ := mem_children_pruned_iff.1 member
  rw [stays_prunedChild, Option.isNone_iff_eq_none,
    childReason?_eq_none_iff ((wellFormed_iff.1 formed).2.2 e child)] at kept
  refine useless (kept.of_at? ?_)
  rw [at?_cons, find?_of_mem formed.distinct child]
  simp

theorem size_of_children_eq_nil (leaf : n.children = []) : n.size = 1 := by
  obtain ⟨c, ss, cs⟩ := n
  rw [children_mk] at leaf
  subst leaf
  rfl

/-- Each removal takes out a single position. -/
theorem length_removals (formed : n.WellFormed) :
    (n.prune settings places).2.1 = (n.removals settings places).length := by
  induction n using Node.induction generalizing places with
  | position c ss cs _ ih =>
    rw [wellFormed_iff, steps_mk, children_mk] at formed
    obtain ⟨-, -, below⟩ := formed
    show (pruneChildren settings places cs).2.1 = (removalsBelow settings places cs).length
    rw [removalsBelow_eq_flatMap]
    induction cs with
    | nil => rfl
    | cons e rest later =>
      rw [List.forall_mem_cons] at ih below
      have single : (if stays settings places (prunedChild settings places e) then 0
          else (prunedChild settings places e).2.size) = (childReason? settings places e).toList.length := by
        rw [stays_prunedChild]
        cases reason : childReason? settings places e with
        | none => rfl
        | some why =>
          have useless := (childReason?_eq_none_iff below.1).not.1 (by rw [reason]; simp)
          rw [← Place.keys_place_cons e.1 e.2] at useless
          exact size_of_children_eq_nil (children_pruned_of_not_useful below.1 useless)
      rw [removed_pruneChildren_cons, ih.1 below.1, later ih.2 below.2, single, List.flatMap_cons,
        List.length_append, childRemovals, List.length_append, List.length_map, List.length_map]

/-- Pruning reports every position that it removes, exactly once, and no other, and the number that it
gives is that of the reports. Positions are reported before those above them. Taken out one after another
in this order, they leave the pruned tree, and none has children by the time it is taken out. -/
theorem prune_reports_once (settings : PruningSettings) (p : Position) (formed : n.WellFormed) :
    ∃ removals : List (List Key × Removal),
      (n.prune settings (p.places n)).2.2 = removals.map (Removal.report p.keys) ∧
      (n.prune settings (p.places n)).2.1 = removals.length ∧
      (∀ path, path ∈ removals.map Prod.fst ↔
        (n.at? path).isSome ∧ (n.prune settings (p.places n)).1.at? path = none) ∧
      (removals.map Prod.fst).Nodup ∧
      (removals.Pairwise fun r r' => ¬ r.1 <+: r'.1) ∧
      (removals.map Prod.fst).foldl cut n = (n.prune settings (p.places n)).1 ∧
      ∀ before r after, removals = before ++ r :: after →
        ∃ m, ((before.map Prod.fst).foldl cut n).at? r.1 = some m ∧ m.children = [] := by
  have order : (n.removals settings (p.places n)).Pairwise fun r r' => ¬ r.1 <+: r'.1 :=
    pairwise_removals formed
  refine ⟨n.removals settings (p.places n), events_prune .., length_removals formed,
    fun path => mem_removals_iff_gone formed, ?_, order, foldl_cut_removals formed, ?_⟩
  · exact List.pairwise_map.2 (order.imp fun apart same => apart (by rw [same]))
  · exact fun before r after => childless_of_removals_eq formed

theorem prune_reports_once_overgrown : overgrown.WellFormed ∧ ∃ removals : List (List Key × Removal),
    (overgrown.prune {} (Position.places {} overgrown)).2.2 = removals.map (Removal.report []) ∧
    removals.length = 5 ∧ (removals.Pairwise fun r r' => ¬ r.1 <+: r'.1) ∧
    [.call (.bid .lowest), .call .pass] ∈ removals.map Prod.fst ∧
    [.call (.bid .lowest), .call .pass, .call .double] ∈ removals.map Prod.fst ∧
    [.call (.bid .lowest), .call .double] ∉ removals.map Prod.fst := by
  obtain ⟨removals, events, count, gone, _, order, _⟩ := prune_reports_once {} {} wellFormed_overgrown
  refine ⟨wellFormed_overgrown, removals, events, ?_, order, ?_, ?_, ?_⟩
  · rw [← count]
    decide +kernel
  · exact (gone _).2 ⟨rfl, Option.isNone_iff_eq_none.1 (by decide +kernel)⟩
  · exact (gone _).2 ⟨rfl, Option.isNone_iff_eq_none.1 (by decide +kernel)⟩
  · intro removed
    have kept : ((overgrown.prune {} (Position.places {} overgrown)).1.at?
        [.call (.bid .lowest), .call .double]).isSome := by decide +kernel
    simp [((gone _).1 removed).2] at kept

end Node

end BidBook

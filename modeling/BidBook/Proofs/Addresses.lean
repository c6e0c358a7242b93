import BidBook.Proofs.Closed
import BidBook.Proofs.Compiled
import BidBook.Proofs.Expanded
import BidBook.Proofs.Places

/-! # Written paths

The keys on the way to a position, written and joined by dashes, lead back to it. This holds as soon as
every token of the tree can be read from a sequence again, and so it holds from the document to what is
compiled: choices give way to their branches, binding writes letters of suits, relay steps are reached by
bids, and pruning adds nothing.

* `Node.entries` — all positions of a tree with what leads to them.
* `Tree.find_pathText` — looking up a written path is walking it.
* `Node.spelled_bindToken` — what binding writes can be read from a sequence.
* `Tree.Addressable`, `addressable_of_build` — every position is found under its own text, and no two
  have the same.
-/

namespace BidBook

/-! ## Tokens written as their keys -/

namespace Token

variable {t : Token} {path : List Token}

/-- The token as its key writes it. -/
def unmarked (t : Token) : Token :=
  match t.call? with
  | some c => ofCall c
  | none => t

theorem raw_unmarked (t : Token) : t.unmarked.raw = t.key.written := by
  rw [unmarked, key]
  cases t.call? <;> rfl

theorem key_unmarked (t : Token) : t.unmarked.key = t.key := by
  cases call : t.call? with
  | some c =>
    rw [unmarked, call, key, key, call]
    rfl
  | none => rw [unmarked, call]

theorem Spelled.unmarked (spelled : t.Spelled) : t.unmarked.Spelled := by
  rw [Token.unmarked]
  split
  · exact spelled_ofCall _
  · exact spelled

end Token

namespace Item

theorem readPath_raws {path : List Token} (spelled : ∀ t ∈ path, t.Spelled) :
    readPath (path.map fun t => text t.raw) = (path, none) := by
  induction path with
  | nil => rfl
  | cons t path ih =>
    rw [List.forall_mem_cons] at spelled
    rw [List.map_cons, readPath, read, spelled.1.read_raw]
    simp [ih spelled.2]

/-- The keys of a path are written as the path would be without marks and tags. -/
theorem readPath_ofSequence {path : List Token} (spelled : ∀ t ∈ path, t.Spelled) :
    readPath (ofSequence (pathText "-" (path.map Token.key))) = (path.map Token.unmarked, none) := by
  have plain : ∀ t ∈ path.map Token.unmarked, t.Spelled := by
    rw [List.forall_mem_map]
    exact fun t member => (spelled t member).unmarked
  have written : (path.map Token.key).map Key.written = (path.map Token.unmarked).map Token.raw := by
    rw [List.map_map, List.map_map]
    exact List.map_congr_left fun t _ => (Token.raw_unmarked t).symm
  have split : Sequence.split (Sequence.join "-" ((path.map Token.unmarked).map Token.raw)) =
      (path.map Token.unmarked).map Token.raw := by
    apply Sequence.split_join
    · rw [List.forall_mem_map]
      exact fun t member => (plain t member).single
    · rw [List.forall_mem_map]
      exact fun t member => (plain t member).nonempty
  rw [ofSequence, pathText, written, split, List.map_map]
  exact readPath_raws plain

end Item

/-! ## Listed positions -/

namespace Node

mutual

/-- A position and all below it, parents before children. -/
def entries (p : Position) : Node → List (Position × Node)
  | mk c ss cs => (p, mk c ss cs) :: entriesBelow (p.places (mk c ss cs)) cs

def entriesBelow (above : List Place) : List (Token × Node) → List (Position × Node)
  | [] => []
  | (t, n) :: rest => entries ⟨some t, above⟩ n ++ entriesBelow above rest

end

variable {K : Token → Prop} {n m : Node} {p q : Position}

theorem entriesBelow_eq_flatMap (above : List Place) (cs : List (Token × Node)) :
    entriesBelow above cs = cs.flatMap fun e => e.2.entries ⟨some e.1, above⟩ := by
  induction cs with
  | nil => rfl
  | cons e rest ih =>
    obtain ⟨t, n⟩ := e
    rw [entriesBelow, ih, List.flatMap_cons]

theorem entries_eq (p : Position) (n : Node) : n.entries p =
    (p, n) :: n.children.flatMap fun e => e.2.entries ⟨some e.1, p.places n⟩ := by
  cases n
  rw [entries, entriesBelow_eq_flatMap, children_mk]

/-- A listed position is the one at the end of the tokens that lead to it. -/
theorem exists_path_of_mem_entries (tidy : Throughout (Tidy K) n) (member : (q, m) ∈ n.entries p) :
    ∃ path, Tree.selectFrom? p n path = some (q, m) ∧ ∀ t ∈ path, K t := by
  induction tidy generalizing p with
  | @mk n here _ _ _ below =>
    rw [entries_eq, List.mem_cons, List.mem_flatMap] at member
    rcases member with same | ⟨⟨t, c⟩, child, member⟩
    · cases same
      exact ⟨[], rfl, by simp⟩
    · obtain ⟨path, found, tokens⟩ := below (t, c) child member
      refine ⟨t :: path, ?_, List.forall_mem_cons.2 ⟨here.tokens (t, c) child, tokens⟩⟩
      rw [Tree.selectFrom?_cons, find?_key_of_mem here.distinct child, Option.bind_some, found]

theorem places_suffix_of_mem_entries (tidy : Throughout (Tidy K) n) (member : (q, m) ∈ n.entries p) :
    p.places n <:+ q.places m := by
  obtain ⟨path, found, _⟩ := exists_path_of_mem_entries tidy member
  obtain ⟨near, places, _⟩ := Tree.places_of_selectFrom? found
  exact ⟨near, places.symm⟩

/-- No position is listed twice. -/
theorem nodup_entries (tidy : Throughout (Tidy K) n) : (n.entries p).Nodup := by
  induction tidy generalizing p with
  | @mk n here _ children _ below =>
    have suffix : ∀ e ∈ n.children, ∀ q m, (q, m) ∈ e.2.entries ⟨some e.1, p.places n⟩ →
        e.2.place (some e.1) :: p.places n <:+ q.places m := fun e child q m member =>
      places_suffix_of_mem_entries (children e child) member
    rw [entries_eq, List.nodup_cons, List.nodup_flatMap]
    refine ⟨?_, fun e child => below e child, ?_⟩
    · -- below there are more places
      rw [List.mem_flatMap]
      rintro ⟨e, child, member⟩
      have longer := (suffix e child p n member).length_le
      rw [List.length_cons] at longer
      omega
    · -- the places of two children are those of one position, each behind its own
      have apart : n.children.Pairwise fun e e' => e.1.key ≠ e'.1.key := List.pairwise_map.1 here.distinct
      refine apart.imp_of_mem fun {e e'} child child' other => ?_
      rintro ⟨q, m⟩ member member'
      have same := List.IsSuffix.eq_of_length
        (List.suffix_of_suffix_length_le (suffix e child q m member) (suffix e' child' q m member')
          (by simp)) (by simp)
      rw [List.cons.injEq, place, place, Place.mk.injEq, Option.some.injEq] at same
      exact other (congrArg Token.key same.1.1)

end Node

/-! ## What can be written into a tree -/

namespace Node

variable {settings : ExpansionSettings} {occurs : Wildcard → Bool} {b : Binding}
  {t : Token} {n : Node}

/-- Binding writes letters of suits, and those mean nothing in a sequence. -/
theorem spelled_bindToken (accepted : settings.Accepted) (member : b ∈ Binding.enumerate settings occurs)
    (spelled : t.Spelled) (within : tokenExcess? b t = none) : (bindToken b t).Spelled := by
  rcases bindToken_eq spelled.written b with ⟨_, same⟩ | ⟨w, wildcard, read⟩
  · rwa [same]
  · apply Token.spelled_of_parse? read
    · intro a inside
      have letters : ∀ a ∈ Placeholder.suitLetters, a ∉ Sequence.breaks := by
        simp [Placeholder.suitLetters, Sequence.breaks]
      rcases Token.mem_bind (lettered_of_mem_enumerate accepted member) inside with old | new
      · exact spelled.single a old
      · exact letters a new
    · simpa only [tokenExcess?, wildcard, Option.isSome_some, if_true] using within

theorem bindExcessSteps?_eq_none_iff {ss : List Node} :
    bindExcessSteps? b ss = none ↔ ∀ s ∈ ss, s.bindExcess? b = none := by
  induction ss with
  | nil => simp [bindExcessSteps?]
  | cons s rest ih => simp [bindExcessSteps?, ih]

theorem bindExcessChildren?_eq_none_iff {cs : List (Token × Node)} : bindExcessChildren? b cs = none ↔
    ∀ e ∈ cs, tokenExcess? b e.1 = none ∧ e.2.bindExcess? b = none := by
  induction cs with
  | nil => simp [bindExcessChildren?]
  | cons e rest ih => simp [bindExcessChildren?, ih]

theorem bindExcess?_eq_none_iff : n.bindExcess? b = none ↔ (∀ s ∈ n.steps, s.bindExcess? b = none) ∧
    ∀ e ∈ n.children, tokenExcess? b e.1 = none ∧ e.2.bindExcess? b = none := by
  cases n
  simp [bindExcess?, bindExcessSteps?_eq_none_iff, bindExcessChildren?_eq_none_iff]

/-- A tree that may be bound holds no token that may not. -/
theorem throughout_of_bindExcess? {K : Token → Prop} (tidy : Throughout (Tidy K) n)
    (within : n.bindExcess? b = none) :
    Throughout (Tidy fun t => K t ∧ tokenExcess? b t = none) n := by
  induction tidy with
  | @mk n here _ _ steps below =>
    rw [bindExcess?_eq_none_iff] at within
    refine .mk ⟨here.distinct, fun e child => ?_, here.fresh⟩ (fun s member => ?_) fun e child => ?_
    · exact ⟨here.tokens e child, (within.2 e child).1⟩
    · exact steps s member (within.1 s member)
    · exact below e child (within.2 e child).2

theorem spelled_expandWildcards (accepted : settings.Accepted) (tidy : Throughout (Tidy Token.Spelled) n)
    (within : n.wildcardExcess? settings none = none) :
    Throughout (Tidy Token.Spelled) (n.expandWildcards settings [] none).1 := by
  apply of_expandWildcards accepted
  · exact fun _ _ source target => source.mergeInto target
  · exact throughout_tidy_leaf tidy.here.fresh
  · intro w mentioned b member
    have occurs : Wildcard.all.any (n.mentions none) = true :=
      List.any_eq_true.2 ⟨w, Wildcard.mem_all w, mentioned⟩
    rw [wildcardExcess?, if_pos occurs, List.findSome?_eq_none_iff] at within
    have allowed : n.bindExcess? b = none := by simpa using within b member
    apply throughout_bind _ (throughout_of_bindExcess? tidy allowed)
    exact fun t h => spelled_bindToken accepted member h.1 h.2
  · exact fun _ => tidy

end Node

/-! ## Trees whose positions have addresses -/

namespace Tree

open Node

def entries (t : Tree) : List (Position × Node) := t.root.entries ⟨t.token, []⟩

/-- Every position is found under its written path, and no two have the same. -/
structure Addressable (t : Tree) : Prop where
  find : ∀ e ∈ t.entries, t.find (Item.ofSequence e.1.text) = .ok (some e)
  distinct : (t.entries.map fun e => e.1.text).Nodup

variable {n : Node} {path : List Token}

/-- To look up the keys of a path, written, is to walk the path. -/
theorem find_pathText (t : Tree) (spelled : ∀ u ∈ path, u.Spelled) :
    t.find (Item.ofSequence (pathText "-" (path.map Token.key))) = .ok (t.select? path) := by
  have keys : (path.map Token.unmarked).map Token.key = path.map Token.key := by
    rw [List.map_map]
    exact List.map_congr_left fun u _ => Token.key_unmarked u
  have walked : t.select? (path.map Token.unmarked) = t.select? path := selectFrom?_congr keys
  rw [find, Item.readPath_ofSequence spelled]
  dsimp only
  rw [walked]
  cases t.select? path <;> rfl

theorem addressable_of_spelled (tidy : Throughout (Tidy Token.Spelled) n) : Addressable ⟨none, n⟩ := by
  have found : ∀ e ∈ entries ⟨none, n⟩, find ⟨none, n⟩ (Item.ofSequence e.1.text) = .ok (some e) := by
    rintro ⟨q, m⟩ member
    obtain ⟨path, walked, spelled⟩ := exists_path_of_mem_entries tidy member
    have keys : q.keys = path.map Token.key := keys_of_selectFrom? walked
    rw [Position.text, keys, find_pathText _ spelled, select?, walked]
  refine ⟨found, (nodup_entries tidy).map_on fun e member e' member' same => ?_⟩
  -- two positions under the same text are what is found there
  have both := found e member
  rw [same, found e' member'] at both
  simpa using both.symm

end Tree

namespace Compiler

open Node

variable {file overrides document : Value} {settings : Settings} {shorthands : List Shorthand}
  {draft : Document.Draft} {n : Node}

theorem spelled_bound (accepted : settings.expansion.Accepted) (tidy : Throughout (Tidy Token.Spelled) n)
    (within : n.flatten.1.wildcardExcess? settings.expansion none = none) :
    Throughout (Tidy Token.Spelled) (n.flatten.1.expandWildcards settings.expansion [] none).1 := by
  apply spelled_expandWildcards accepted _ within
  exact (throughout_flatten (fun t spelled u branch => spelled.of_mem_alternatives branch) tidy).imp
    fun _ tidy => tidy.imp fun _ h => h.1

theorem addressable_expanded {n' : Node} {events : List Event} (accepted : settings.expansion.Accepted)
    (tidy : Throughout (Tidy Token.Spelled) n)
    (expanded : n.expandWithin settings.expansion {} = (n', .ok events)) :
    Tree.Addressable ⟨none, n'⟩ := by
  obtain ⟨within, rfl, _⟩ := expandWithin_eq_ok_iff.1 expanded
  apply Tree.addressable_of_spelled
  apply Throughout.tidy_of_settled
  exact throughout_expand (fun b => Token.spelled_ofCall (.bid b)) (spelled_bound accepted tidy within)

theorem addressable_compiled {out : Output} (accepted : settings.expansion.Accepted)
    (tidy : Throughout (Tidy Token.Spelled) n) (compiled : compileWithin settings n = .ok out) :
    Tree.Addressable ⟨none, out.tree⟩ := by
  obtain ⟨_, within, rfl⟩ := compileWithin_eq_ok_iff.1 compiled
  apply Tree.addressable_of_spelled
  apply Throughout.tidy_of_settled
  exact throughout_compileTree (fun b => Token.spelled_ofCall (.bid b)) (spelled_bound accepted tidy within)

/-- The written path of a position leads to it, and to no other: in the tree that a document declares, in
the expanded one and in the compiled one. -/
theorem addressable_of_build [Pattern.Judge] (loaded : Settings.load file overrides = .ok settings)
    (built : Document.build shorthands document = .ok draft) :
    Tree.Addressable ⟨none, draft.node⟩ ∧
      (∀ n events, draft.node.expandWithin settings.expansion {} = (n, .ok events) →
        Tree.Addressable ⟨none, n⟩) ∧
      ∀ out, compileWithin settings draft.node = .ok out → Tree.Addressable ⟨none, out.tree⟩ := by
  have accepted := Settings.accepted_of_load loaded
  have tidy : Throughout (Tidy Token.Spelled) draft.node :=
    (Document.throughout_declared built).imp fun _ declared => declared.toTidy
  refine ⟨Tree.addressable_of_spelled tidy, ?_, ?_⟩
  · intro n events expanded
    exact addressable_expanded accepted tidy expanded
  · intro out compiled
    exact addressable_compiled accepted tidy compiled

/-- Keys with blanks, a mark and a tag, a choice, and a text of no known form, and a relay step. -/
def oddKeys : Value :=
  .map [(.text " 1M | 1NT! [a b]",
    .map [(.text "relay ask/2m", .text "odd"), (.text "-steps", .list [.text "step"])])]

theorem addressable_of_build_oddKeys : ∃ draft n events out,
    Settings.load (.map []) (.map []) = .ok {} ∧ Document.build [] oddKeys = .ok draft ∧
    draft.node.expandWithin ({} : Settings).expansion {} = (n, .ok events) ∧
    compileWithin {} draft.node = .ok out ∧
    Tree.Addressable ⟨none, draft.node⟩ ∧ Tree.Addressable ⟨none, n⟩ ∧ Tree.Addressable ⟨none, out.tree⟩ ∧
    (Tree.entries ⟨none, draft.node⟩).map (fun e => e.1.text) =
      ["", "1M|1NT![ab]", "1M|1NT![ab]-P", "1M|1NT![ab]-P-relayask", "1M|1NT![ab]-P-relayask-P",
        "1M|1NT![ab]-P-relayask-P-2m"] ∧
    (Tree.entries ⟨none, out.tree⟩).map (fun e => e.1.text) =
      ["", "1H", "1H-1S", "1NT", "1NT-2C", "1S", "1S-1NT"] := by
  obtain ⟨draft, built, holds⟩ := exists_draft oddKeys
    (fun draft => decide (draft.node.height ≤ deepestTree ∧
      draft.node.flatten.1.wildcardExcess? ({} : Settings).expansion none = none ∧
      (Tree.entries ⟨none, draft.node⟩).map (fun e => e.1.text) =
        ["", "1M|1NT![ab]", "1M|1NT![ab]-P", "1M|1NT![ab]-P-relayask", "1M|1NT![ab]-P-relayask-P",
          "1M|1NT![ab]-P-relayask-P-2m"] ∧
      (Tree.entries ⟨none, (compileTree {} draft.node).tree⟩).map (fun e => e.1.text) =
        ["", "1H", "1H-1S", "1NT", "1NT-2C", "1S", "1S-1NT"])) (by decide +kernel)
  obtain ⟨low, within, declared, compiled⟩ := of_decide_eq_true holds
  have expansion : draft.node.expandWithin ({} : Settings).expansion {} =
      ((draft.node.expand ({} : Settings).expansion {}).1,
        .ok (draft.node.expand ({} : Settings).expansion {}).2) :=
    expandWithin_eq_ok_iff.2 ⟨within, rfl, rfl⟩
  have compilation : compileWithin {} draft.node = .ok (compileTree {} draft.node) :=
    compileWithin_eq_ok_iff.2 ⟨low, within, rfl⟩
  obtain ⟨first, second, third⟩ := addressable_of_build load_nothing built
  exact ⟨draft, _, _, _, load_nothing, built, expansion, compilation, first, second _ _ expansion,
    third _ compilation, declared, compiled⟩

end Compiler

end BidBook

import BidBook.Proofs.NormalForm

/-! # One mark at a time

A call is alerted with one exclamation mark and announced with two, and no written call has both
marks. Copies, branches, bindings and merges hand marks on as a whole, so neither has any position up
to the merging of copies. Attaching relay steps alone sets a mark on its own: where a step meets a call
that is announced, the position ends up with both.

* `Marks.Exclusive` — not both marks.
* `Throughout.exclusive_mergeInto`, `exclusive_expandWildcards` — what copies and merges keep.
* `Node.Relayed` — a path at which some relay step may be attached.
* `relayed_of_at?_spliceFuel` — both marks are found nowhere else.
* `exclusive_unless_relayed` — the same, from a document to its compilation.
-/

namespace BidBook

/-- Not both marks. -/
def Marks.Exclusive (m : Marks) : Prop := ¬ (m.alertable = true ∧ m.announceable = true)

instance (m : Marks) : Decidable m.Exclusive :=
  inferInstanceAs (Decidable (¬ (m.alertable = true ∧ m.announceable = true)))

theorem Marks.exclusive_empty : Marks.Exclusive {} := by decide

/-! ## Written calls -/

namespace Token

theorem exclusive_parseSingle (cs : List Char) : (parseSingle cs).marks.Exclusive := by
  have exclusive (announceable any : Bool) :
      ¬ ((!announceable && any) = true ∧ announceable = true) := by
    cases announceable <;> simp
  unfold parseSingle
  dsimp only
  split
  · exact exclusive _ _
  · split
    · exact exclusive _ _
    · exact Marks.exclusive_empty

theorem exclusive_of_parse? {raw : String} {t : Token} (read : parse? raw = some t) :
    t.marks.Exclusive := by
  rw [parse?, parseChars?] at read
  split at read
  · cases read
  · split at read
    · cases read
      exact Marks.exclusive_empty
    · cases read
      exact exclusive_parseSingle _

theorem exclusive_of_mem_alternatives {t u : Token} (member : u ∈ t.alternatives) : u.marks.Exclusive := by
  unfold alternatives at member
  split at member
  · obtain ⟨branch, _, rfl⟩ := List.mem_map.1 member
    exact exclusive_parseSingle _
  · cases member

end Token

theorem exclusive_bindToken (b : Binding) {t : Token} (exclusive : t.marks.Exclusive) :
    (Node.bindToken b t).marks.Exclusive := by
  unfold Node.bindToken
  split
  · cases read : Token.parse? (Token.bind b.suit? t.raw) with
    | none => exact exclusive
    | some u => exact Token.exclusive_of_parse? read
  · exact exclusive

/-! ## Copies and merges -/

theorem Content.marks_mergeContent (source target : Content) :
    (Node.mergeContent source target).marks = source.marks ∨
      (Node.mergeContent source target).marks = target.marks := by
  rw [Node.mergeContent_eq]
  by_cases replaces : source.Replaces target
  · rw [prevailing_of_replaces replaces]
    exact .inl rfl
  · rw [prevailing_of_not_replaces replaces]
    exact .inr rfl

namespace Node

/-- Neither a position nor a token that leads on from it has both marks. -/
structure Exclusive (n : Node) : Prop where
  own : n.content.marks.Exclusive
  tokens : ∀ e ∈ n.children, e.1.marks.Exclusive

/-- The same for all that follows a position, relay steps included. -/
structure ExclusiveBelow (n : Node) : Prop where
  tokens : ∀ e ∈ n.children, e.1.marks.Exclusive
  steps : ∀ s ∈ n.steps, Throughout Exclusive s
  children : ∀ e ∈ n.children, Throughout Exclusive e.2

variable {n m source target new : Node} {t : Token} {cs : List (Token × Node)}

theorem throughout_exclusive_leaf {c : Content} (own : c.marks.Exclusive) :
    Throughout Exclusive (mk c [] []) :=
  .mk ⟨own, by simp⟩ (by simp) (by simp)

theorem exclusive_childOrNew (token : t.marks.Exclusive)
    (children : ∀ e ∈ cs, Throughout Exclusive e.2) : Throughout Exclusive (childOrNew t cs) :=
  of_childOrNew (throughout_exclusive_leaf token) children

theorem content_mapContent (f : Content → Content) (n : Node) : (n.mapContent f).content = f n.content := by
  cases n
  rfl

theorem marks_mergeInto (source target : Node) :
    (mergeInto source target).content.marks = source.content.marks ∨
      (mergeInto source target).content.marks = target.content.marks := by
  rw [content_mergeInto]
  split
  · exact Content.marks_mergeContent _ _
  · exact Content.marks_mergeContent _ _

namespace ExclusiveBelow

theorem throughout (below : ExclusiveBelow n) (own : n.content.marks.Exclusive) :
    Throughout Exclusive n :=
  .mk ⟨own, below.tokens⟩ below.steps below.children

theorem mapContent (below : ExclusiveBelow n) (f : Content → Content) : ExclusiveBelow (n.mapContent f) := by
  cases n
  exact ⟨below.tokens, below.steps, below.children⟩

end ExclusiveBelow

namespace Throughout

theorem exclusiveBelow (exclusive : Throughout Exclusive n) : ExclusiveBelow n :=
  ⟨exclusive.here.tokens, exclusive.steps, exclusive.children⟩

theorem exclusive_forgetAll (exclusive : Throughout Exclusive n) : Throughout Exclusive n.forgetAll := by
  induction exclusive with
  | @mk n here steps _ _ below =>
    refine .mk ⟨?_, ?_⟩ ?_ ?_
    · rw [content_forgetAll]
      exact here.own
    · simpa only [children_forgetAll, forgetChildren_eq_map, List.forall_mem_map] using here.tokens
    · rwa [steps_forgetAll]
    · simpa only [children_forgetAll, forgetChildren_eq_map, List.forall_mem_map] using below

theorem exclusive_copy (exclusive : Throughout Exclusive n) : Throughout Exclusive n.copy := by
  induction exclusive with
  | @mk n here _ _ steps below =>
    refine .mk ⟨?_, ?_⟩ ?_ ?_
    · rw [content_copy]
      exact here.own
    · simpa only [children_copy, copyChildren_eq_map, List.forall_mem_map] using here.tokens
    · simpa only [steps_copy, copySteps_eq_map, List.forall_mem_map] using steps
    · simpa only [children_copy, copyChildren_eq_map, List.forall_mem_map] using below

/-- A branch brings its own marks. -/
theorem exclusive_copyUnder (exclusive : Throughout Exclusive n) (token : t.marks.Exclusive) :
    Throughout Exclusive (n.copyUnder t) := by
  refine (exclusive.exclusive_copy.exclusiveBelow.mapContent _).throughout ?_
  cases n.copy
  exact token

theorem exclusive_mergeInto (hs : Throughout Exclusive source) (ht : Throughout Exclusive target) :
    Throughout Exclusive (Node.mergeInto source target) := by
  -- as for tidy trees, the induction is on the source, whose children are merged in
  induction hs generalizing target with
  | @mk source here steps below _ merged =>
    have begun : ∃ cs, (Node.mergeInto source target).children = mergeChildren source.children cs ∧
        (∀ e ∈ cs, e.1.marks.Exclusive) ∧ ∀ e ∈ cs, Throughout Exclusive e.2 := by
      have forgotten := ht.exclusive_forgetAll
      rw [children_mergeInto]
      refine ⟨_, rfl, ?_⟩
      split
      · rw [← children_forgetAll]
        exact ⟨forgotten.here.tokens, forgotten.children⟩
      · exact ⟨ht.here.tokens, ht.children⟩
    obtain ⟨cs, children, tokens, exclusive⟩ := begun
    refine .mk ⟨?_, ?_⟩ ?_ ?_
    · rcases marks_mergeInto source target with marks | marks
      · exact marks ▸ here.own
      · exact marks ▸ ht.here.own
    · rw [children]
      exact forall_mergeChildren (P := fun t _ => t.marks.Exclusive) tokens
        (fun _ _ _ _ _ _ token => token) (fun t n member => here.tokens (t, n) member)
    · rw [steps_mergeInto]
      exact forall_mergeSteps (fun s member => (steps s member).exclusive_copy) ht.steps
    · rw [children]
      exact forall_mergeChildren (P := fun _ n => Throughout Exclusive n) exclusive
        (fun t n _ _ member _ present => merged (t, n) member present)
        (fun t n member => merged (t, n) member (throughout_exclusive_leaf (here.tokens (t, n) member)))

end Throughout

/-- Candidates placed one after another. -/
theorem exclusive_foldl_placeCandidate {c : Content} {ss : List Node} {cands : List (Token × Node)}
    (own : c.marks.Exclusive) (steps : ∀ s ∈ ss, Throughout Exclusive s)
    (tokens : ∀ e ∈ cands, e.1.marks.Exclusive) (trees : ∀ e ∈ cands, Throughout Exclusive e.2) :
    Throughout Exclusive (mk c ss (cands.foldl placeCandidate [])) := by
  refine .mk ⟨own, ?_⟩ steps ?_
  · exact forall_foldl_placeCandidate (P := fun t _ => t.marks.Exclusive) (by simp) tokens
      (fun _ _ _ _ _ _ token => token)
  · exact forall_foldl_placeCandidate (P := fun _ n => Throughout Exclusive n) (by simp) trees
      (fun t n _ _ member _ present => (trees (t, n) member).exclusive_mergeInto present)

/-! ## Choices and open suits -/

theorem exclusive_flattenFuel (fuel : Nat) (exclusive : Throughout Exclusive n) :
    Throughout Exclusive (flattenFuel fuel n).1 := by
  induction fuel generalizing n with
  | zero => exact exclusive
  | succ fuel ih =>
    have level : ∀ e ∈ flattenLevel n.children, e.1.marks.Exclusive ∧ Throughout Exclusive e.2 := by
      refine forall_flattenLevel (P := fun t n => t.marks.Exclusive ∧ Throughout Exclusive n) ?_ ?_ ?_
      · intro t c member _ u branch
        have token := Token.exclusive_of_mem_alternatives branch
        exact ⟨token, (exclusive.children (t, c) member).exclusive_copyUnder token⟩
      · exact fun t c member _ => ⟨exclusive.here.tokens (t, c) member, exclusive.children (t, c) member⟩
      · exact fun t c u d source target => ⟨target.1, source.2.exclusive_mergeInto target.2⟩
    refine .mk ⟨?_, ?_⟩ ?_ ?_
    · rw [content_flattenFuel]
      exact exclusive.here.own
    · rw [children_flattenFuel_succ, List.forall_mem_map]
      exact fun e member => (level e member).1
    · rw [steps_flattenFuel_succ, List.forall_mem_map]
      exact fun s member => ih (exclusive.steps s member)
    · rw [children_flattenFuel_succ, List.forall_mem_map]
      exact fun e member => ih (level e member).2

theorem exclusive_bind {b : Binding} {above : List Glossary} {token : Option Token}
    (exclusive : Throughout Exclusive n) : Throughout Exclusive (n.bind b above token) := by
  induction exclusive generalizing above token with
  | @mk n here _ _ steps below =>
    rw [bind_eq_mk]
    refine exclusive_foldl_placeCandidate here.own ?_ ?_ ?_
    · rw [List.forall_mem_map]
      exact fun s member => steps s member
    · rintro ⟨u, m⟩ member
      obtain ⟨t, c, child, rfl, _⟩ := mem_boundChildren.1 member
      exact exclusive_bindToken b (here.tokens (t, c) child)
    · rintro ⟨u, m⟩ member
      obtain ⟨t, c, child, _, rfl⟩ := mem_boundChildren.1 member
      exact below (t, c) child

theorem exclusive_expandWildcards {settings : ExpansionSettings} (accepted : settings.Accepted)
    (exclusive : Throughout Exclusive n) : Throughout Exclusive (n.expandWildcards settings [] none).1 := by
  apply of_expandWildcards accepted
  · exact fun _ _ source target => source.exclusive_mergeInto target
  · exact throughout_exclusive_leaf exclusive.here.own
  · exact fun _ _ b _ => exclusive_bind exclusive
  · exact fun _ => exclusive

/-! ## Relay steps -/

theorem content_spliceFuel (alertable : Bool) (fuel : Nat) (places : List Place) (n : Node) :
    (spliceFuel alertable fuel places n).1.content = n.content := by
  cases fuel with
  | zero => rfl
  | succ fuel => rw [spliceFuel_succ, content_mk]

/-- The last contract after a path, given the one before it. -/
def lastBidAfter (last : Option Bid) (path : List Key) : Option Bid :=
  path.foldl (fun last k => k.bid?.or last) last

/-- Some relay step may be attached at a path: it is one of those of a node that lands right before it. -/
def Relayed (last : Option Bid) (n : Node) (path : List Key) : Prop :=
  ∃ before ss i s b, path = before ++ [.call (.bid b)] ∧ Lands last n before ss ∧ ss[i]? = some s ∧
    relayBid? (lastBidAfter last before) i = some b

variable {K : Token → Prop} {last : Option Bid} {alertable : Bool} {k : Key} {path : List Key} {d : Node}

theorem Relayed.of_attachSteps (tidy : Throughout (Tidy K) n)
    (found : find? k (attachSteps alertable last n.steps n.children).1 = some d)
    (relayed : Relayed (k.bid?.or last) d path) : Relayed last n (k :: path) := by
  obtain ⟨before, ss, i, s, b, rfl, lands, step, bid⟩ := relayed
  exact ⟨k :: before, ss, i, s, b, rfl, lands.of_attachSteps tidy found, step, bid⟩

/-- A child has both marks only if a relay step has just been merged into it. -/
theorem exclusive_or_relayed_of_attachSteps (below : ExclusiveBelow n)
    (found : find? k (attachSteps alertable last n.steps n.children).1 = some d) :
    ExclusiveBelow d ∧
      (d.content.marks.Exclusive ∨ alertable = true ∧ Relayed last n [k]) := by
  by_cases relay : ∃ i s b, n.steps[i]? = some s ∧ relayBid? last i = some b ∧ k = .call (.bid b)
  · obtain ⟨i, s, b, step, bid, rfl⟩ := relay
    rw [find?_attachSteps_of_relay step bid, Option.some.injEq] at found
    subst found
    have merged : Throughout Exclusive (mergeInto s (childOrNew (.ofCall (.bid b)) n.children)) :=
      (below.steps s (List.mem_of_getElem? step)).exclusive_mergeInto
        (exclusive_childOrNew Marks.exclusive_empty below.children)
    refine ⟨merged.exclusiveBelow.mapContent _, ?_⟩
    cases alertable with
    | true => exact .inr ⟨rfl, [], n.steps, i, s, b, rfl, .here last n, step, bid⟩
    | false =>
      refine .inl ?_
      rw [attached, content_mapContent]
      simpa [Content.marks] using merged.here.own
  · rw [find?_attachSteps_of_forall fun i s b step bid same => relay ⟨i, s, b, step, bid, same⟩] at found
    obtain ⟨t, member, _⟩ := mem_of_find? found
    have child := below.children (t, d) member
    exact ⟨child.exclusiveBelow, .inl child.here.own⟩

/-- After relay steps are attached, a position below the root has both marks only where a relay step was
attached with an alert. -/
theorem relayed_of_at?_spliceFuel {fuel : Nat} {places : List Place} (tidy : Throughout (Tidy K) n)
    (below : ExclusiveBelow n)
    (found : (spliceFuel alertable fuel places n).1.at? (k :: path) = some m)
    (both : ¬ m.content.marks.Exclusive) :
    alertable = true ∧ Relayed (Place.lastBid? places) n (k :: path) := by
  induction fuel generalizing n places k path with
  | zero =>
    -- without fuel nothing is attached
    have same : (spliceFuel alertable 0 places n).1 = n := rfl
    rw [same, at?_cons, Option.bind_eq_some_iff] at found
    obtain ⟨c, child, found⟩ := found
    obtain ⟨t, member, _⟩ := mem_of_find? child
    exact absurd ((below.children (t, c) member).of_at? found).here.own both
  | succ fuel ih =>
    rw [at?_spliceFuel_cons, Option.bind_eq_some_iff] at found
    obtain ⟨e, found, there⟩ := found
    obtain ⟨member, rfl, child⟩ := find?_of_find?_eq_some found
    obtain ⟨belowChild, own⟩ := exclusive_or_relayed_of_attachSteps below child
    cases path with
    | nil =>
      rw [at?_nil, Option.some.injEq] at there
      subst there
      rw [content_spliceFuel] at both
      exact own.resolve_left both
    | cons k' path =>
      obtain ⟨alerted, relayed⟩ := ih (throughout_attachSteps tidy e member) belowChild there
      rw [lastBid?_place] at relayed
      exact ⟨alerted, relayed.of_attachSteps tidy child⟩

end Node

/-! ## From a document to its compilation -/

namespace Document

open Node

theorem exclusive_put {n new : Node} {path : List Token} (exclusive : Throughout Exclusive n)
    (tokens : ∀ t ∈ path, t.marks.Exclusive) (placed : Throughout Exclusive new) :
    Throughout Exclusive (n.put path new) := by
  refine exclusive.put_of_added (fun t member => throughout_exclusive_leaf (tokens t member))
    (fun t member m here c => ⟨here.own, ?_⟩) placed
  exact forall_token_putChild (K := fun t => t.marks.Exclusive) c (tokens t member) here.tokens

theorem exclusive_reach {n : Node} {path : List Token} (exclusive : Throughout Exclusive n)
    (tokens : ∀ t ∈ path, t.marks.Exclusive) : Throughout Exclusive (n.reach path) :=
  exclusive.reach_of_new fun t member => throughout_exclusive_leaf (tokens t member)

theorem steady_exclusive :
    Steady fun d d' => Throughout Exclusive d.node → Throughout Exclusive d'.node where
  refl _ exclusive := exclusive
  trans first second exclusive := second (first exclusive)
  describe := fun ⟨.mk _ _ _, _⟩ _ exclusive =>
    .mk ⟨exclusive.here.own, exclusive.here.tokens⟩ exclusive.steps exclusive.children
  declare := fun ⟨.mk _ _ _, _⟩ exclusive =>
    .mk ⟨exclusive.here.own, exclusive.here.tokens⟩ exclusive.steps exclusive.children
  define := fun ⟨.mk _ _ _, _⟩ _ exclusive =>
    .mk ⟨exclusive.here.own, exclusive.here.tokens⟩ exclusive.steps exclusive.children
  addStep d step drafted exclusive := by
    refine .mk ⟨exclusive.here.own, exclusive.here.tokens⟩ ?_ exclusive.children
    intro s member
    rcases List.mem_append.1 member with old | new
    · exact exclusive.steps s old
    · rw [List.mem_singleton.1 new]
      exact drafted (throughout_exclusive_leaf Marks.exclusive_empty)
  within d path inner spelled drafted exclusive := by
    have tokens : ∀ t ∈ path, t.marks.Exclusive := fun t member =>
      Token.exclusive_of_parse? (spelled t member).written
    exact exclusive_put exclusive tokens (drafted (exclusive_reach exclusive tokens))

theorem exclusive_build [Pattern.Judge] {shorthands : List Shorthand} {document : Value} {draft : Draft}
    (built : build shorthands document = .ok draft) : Throughout Exclusive draft.node :=
  steady_exclusive.of_build built (throughout_exclusive_leaf Marks.exclusive_empty)

end Document

namespace Compiler

open Node

variable {file overrides document : Value} {shorthands : List Shorthand} {draft : Document.Draft}
  {settings : Settings}

/-- No position of a declared tree has both marks, nor does one after choices are replaced or open suits
are bound. In the expanded and in the compiled tree a position has both only if relay steps are to be
alerted and one of them may be attached there. -/
theorem exclusive_unless_relayed [Pattern.Judge] (loaded : Settings.load file overrides = .ok settings)
    (built : Document.build shorthands document = .ok draft) :
    Throughout Exclusive draft.node ∧ Throughout Exclusive draft.node.flatten.1 ∧
      Throughout Exclusive (draft.node.flatten.1.expandWildcards settings.expansion [] none).1 ∧
      ∀ path m, (draft.node.expand settings.expansion {}).1.at? path = some m ∨
          (compileTree settings draft.node).tree.at? path = some m →
        m.content.alertable = true → m.content.announceable = true →
          settings.expansion.relayAlertable = true ∧
            Relayed none (draft.node.flatten.1.expandWildcards settings.expansion [] none).1 path := by
  have accepted := Settings.accepted_of_load loaded
  have declared := Document.throughout_declared built
  have single : Throughout Exclusive draft.node := Document.exclusive_build built
  have flat : Throughout Exclusive draft.node.flatten.1 := exclusive_flattenFuel _ single
  have bound := exclusive_expandWildcards accepted flat
  have tidy := closed_of_declared accepted declared
  refine ⟨single, flat, bound, fun path m found alertable announceable => ?_⟩
  -- pruning changes nothing at the positions that it leaves
  obtain ⟨m', found, same⟩ : ∃ m', (draft.node.expand settings.expansion {}).1.at? path = some m' ∧
      m.content = m'.content := by
    rcases found with found | found
    · exact ⟨m, found, rfl⟩
    · have formed : (draft.node.expand settings.expansion {}).1.WellFormed :=
        (throughout_expand (fun b => Token.closed_ofCall (.bid b)) tidy).tidy_of_settled.wellFormed
      rw [tree_compileTree] at found
      obtain ⟨old, above, there, rfl, _⟩ := of_at?_pruned formed found
      exact ⟨old, there, content_pruned _ _ _⟩
  have both : ¬ m'.content.marks.Exclusive := fun exclusive =>
    exclusive (same ▸ ⟨alertable, announceable⟩)
  rw [expand_root] at found
  cases path with
  | nil =>
    rw [at?_nil, Option.some.injEq, splice] at found
    rw [← found, content_spliceFuel] at both
    exact absurd bound.here.own both
  | cons k path => exact relayed_of_at?_spliceFuel tidy bound.exclusiveBelow found both

/-- The answer to one club is a relay, and elsewhere it is announced. -/
def announcedRelay : Value :=
  .map [(.text "1C", .map [(.text "-steps", .list [.text "relay"])]), (.text "1C-1D!!", .text "own")]

def clubAnswer : List Key := (Sequence.tokens "1C-1D").map Token.key

/-- In the compiled tree the answer has both marks. -/
theorem exists_both_marks : ∃ draft m, Settings.load (.map []) (.map []) = .ok {} ∧
    Document.build [] announcedRelay = .ok draft ∧
    (compileTree {} draft.node).tree.at? clubAnswer = some m ∧
    m.content.alertable = true ∧ m.content.announceable = true := by
  obtain ⟨draft, built, holds⟩ := exists_draft announcedRelay
    (fun draft => ((compileTree {} draft.node).tree.at? clubAnswer).any
      fun m : Node => m.content.alertable && m.content.announceable) (by decide +kernel)
  obtain ⟨m, found, both⟩ := (Option.any_eq_true _ _).1 holds
  rw [Bool.and_eq_true] at both
  exact ⟨draft, m, load_nothing, built, found, both⟩

theorem exclusive_unless_relayed_answers : ∃ draft m, Settings.load (.map []) (.map []) = .ok {} ∧
    Document.build [] announcedRelay = .ok draft ∧ Throughout Exclusive draft.node ∧
    (draft.node.expand {} {}).1.at? clubAnswer = some m ∧
    m.content.alertable = true ∧ m.content.announceable = true ∧
    Relayed none (draft.node.flatten.1.expandWildcards {} [] none).1 clubAnswer := by
  obtain ⟨draft, built, holds⟩ := exists_draft announcedRelay
    (fun draft => ((draft.node.expand {} {}).1.at? clubAnswer).any
      fun m : Node => m.content.alertable && m.content.announceable) (by decide +kernel)
  obtain ⟨m, found, both⟩ := (Option.any_eq_true _ _).1 holds
  rw [Bool.and_eq_true] at both
  obtain ⟨declared, _, _, elsewhere⟩ := exclusive_unless_relayed load_nothing built
  obtain ⟨_, relayed⟩ := elsewhere clubAnswer m (.inl found) both.1 both.2
  exact ⟨draft, m, load_nothing, built, declared, found, both.1, both.2, relayed⟩

end Compiler

end BidBook

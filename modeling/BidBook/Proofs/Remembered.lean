import BidBook.Proofs.Branches
import BidBook.Proofs.Declared
import BidBook.Proofs.Landings
import BidBook.Proofs.Pruned

/-! # Remembered descriptions

Once a position has been asked for its description in full, it remembers the answer. The answer depends
on the glossaries of all positions above, so a merge that brings new shorthands has to make the positions
below forget, and a merge that brings none must not touch what the answer depends on. A tree is up to date
if every position in it gives the answer that would be worked out anew, and no operation on a tree that is
up to date, at whatever position of it, leaves another.

* `Node.UpToDate` — every position gives the answer that would be worked out anew.
* `UpToDate.mergeInto` — merging keeps this, with new shorthands and without.
* `Operation`, `Tree.after` — what may be done to a tree.
* `UpToDate.afterAll` — after any operations a tree that was up to date is so.
-/

namespace BidBook

/-- Two contents of a position have all in common that its description in full depends on. -/
structure Content.ReadsLike (a b : Content) : Prop where
  description : a.description = b.description
  glossary : a.glossary = b.glossary
  resolved : a.resolved = b.resolved

/-- Adding shorthands that are all there changes nothing. -/
theorem Glossary.addAll_of_not_misses {g : Glossary} {ss : List Shorthand} (known : g.misses ss = false) :
    g.addAll ss = g := by
  induction ss with
  | nil => rfl
  | cons s ss ih =>
    rw [misses, List.any_cons, Bool.or_eq_false_iff] at known
    have there : s ∈ g.entries := by simpa [mem_iff] using known.1
    rw [addAll, List.foldl_cons, add_of_mem there]
    exact ih known.2

theorem Content.ReadsLike.of_eq {a b : Content} (same : a = b) : a.ReadsLike b :=
  ⟨congrArg _ same, congrArg _ same, congrArg _ same⟩

namespace Node

variable {p q : Position} {n m target : Node} {places : List Place}

theorem places_congr (same : m.content.glossary = n.content.glossary) (p : Position) :
    p.places m = p.places n := by
  rw [Position.places, place, same, Position.places, place]

/-- A source without new shorthands either replaces a description, and then nothing is remembered, or it
leaves everything as it was. -/
theorem mergeContent_cases {source target : Content}
    (known : target.glossary.misses source.glossary.entries = false) :
    (mergeContent source target).glossary = target.glossary ∧
      ((mergeContent source target).resolved = none ∨ mergeContent source target = target) := by
  have same : target.glossary.addAll source.glossary.entries = target.glossary :=
    Glossary.addAll_of_not_misses known
  rw [mergeContent_eq, same]
  by_cases replaces : source.Replaces target
  · rw [Content.prevailing_of_replaces replaces]
    exact ⟨rfl, .inl rfl⟩
  · rw [Content.prevailing_of_not_replaces replaces]
    exact ⟨rfl, .inr rfl⟩

variable [Pattern.CharNames]

/-- Every position of a tree, and of its relay steps, gives the description that would be worked out
anew. Relay steps have nothing above them as yet. -/
inductive UpToDate : Position → Node → Prop where
  | mk {p : Position} {n : Node}
      (here : (n.readResolved (p.places n)).2 = n.resolveFresh (p.places n))
      (steps : ∀ s ∈ n.steps, UpToDate {} s)
      (children : ∀ e ∈ n.children, UpToDate ⟨some e.1, p.places n⟩ e.2) : UpToDate p n

/-- Reading gives what would be worked out as long as that is what is remembered, if anything is. -/
theorem readResolved_eq_iff : (n.readResolved places).2 = n.resolveFresh places ↔
    ∀ text, n.content.resolved = some text → n.resolveFresh places = .ok (some text) := by
  unfold readResolved
  cases n.content.resolved with
  | none => cases n.resolveFresh places <;> simp
  | some text => simp [eq_comm]

theorem resolveFresh_congr (alike : m.content.ReadsLike n.content) (places : List Place) :
    m.resolveFresh places = n.resolveFresh places := by
  rw [resolveFresh, alike.description, resolveFresh]

namespace UpToDate

theorem here (up : n.UpToDate p) : (n.readResolved (p.places n)).2 = n.resolveFresh (p.places n) := by
  cases up with
  | mk here _ _ => exact here

theorem steps (up : n.UpToDate p) : ∀ s ∈ n.steps, s.UpToDate {} := by
  cases up with
  | mk _ steps _ => exact steps

theorem children (up : n.UpToDate p) : ∀ e ∈ n.children, e.2.UpToDate ⟨some e.1, p.places n⟩ := by
  cases up with
  | mk _ _ children => exact children

/-- A position that remembers nothing is up to date if all below it are. -/
theorem of_fresh (fresh : n.content.resolved = none) (steps : ∀ s ∈ n.steps, s.UpToDate {})
    (children : ∀ e ∈ n.children, e.2.UpToDate ⟨some e.1, p.places n⟩) : n.UpToDate p :=
  .mk (readResolved_eq_iff.2 fun text known => by rw [fresh] at known; cases known) steps children

/-- A position that reads like another one is up to date if all below it are. -/
theorem of_readsLike (up : n.UpToDate p) (alike : m.content.ReadsLike n.content)
    (steps : ∀ s ∈ m.steps, s.UpToDate {})
    (children : ∀ e ∈ m.children, e.2.UpToDate ⟨some e.1, p.places n⟩) : m.UpToDate p := by
  refine .mk ?_ steps ?_
  · rw [places_congr alike.glossary, readResolved_eq_iff, alike.resolved, resolveFresh_congr alike]
    exact readResolved_eq_iff.1 up.here
  · rwa [places_congr alike.glossary]

theorem mapContent (up : n.UpToDate p) {f : Content → Content} (alike : (f n.content).ReadsLike n.content) :
    (n.mapContent f).UpToDate p := by
  cases n with
  | mk c ss cs => exact up.of_readsLike alike up.steps up.children

/-! ## Nothing remembered -/

/-- A tree in which nothing is remembered is up to date wherever it hangs. -/
theorem of_throughout (fresh : Throughout (fun m => m.content.resolved = none) n) (p : Position) :
    n.UpToDate p := by
  induction fresh generalizing p with
  | mk here _ _ steps below =>
    exact of_fresh here (fun s member => steps s member _) fun e member => below e member _

theorem ofToken (t : Token) (p : Position) : (ofToken t).UpToDate p :=
  of_fresh rfl (by simp [Node.ofToken]) (by simp [Node.ofToken])

theorem copy (n : Node) (p : Position) : n.copy.UpToDate p := by
  induction n using Node.induction generalizing p with
  | position c ss cs steps below =>
    refine of_fresh rfl ?_ ?_
    · rw [steps_copy, copySteps_eq_map, List.forall_mem_map]
      exact fun s member => steps s member _
    · rw [children_copy, copyChildren_eq_map, List.forall_mem_map]
      exact fun e member => below e member _

theorem copyUnder (t : Token) (n : Node) (p : Position) : (n.copyUnder t).UpToDate p :=
  (copy n p).mapContent ⟨rfl, rfl, rfl⟩

/-- What has been forgotten may hang somewhere else. -/
theorem forgetAll (up : n.UpToDate p) (q : Position) : n.forgetAll.UpToDate q := by
  induction up generalizing q with
  | @mk p n _ steps _ _ below =>
    refine of_fresh ?_ ?_ ?_
    · rw [content_forgetAll]
      rfl
    · rwa [steps_forgetAll]
    · rw [children_forgetAll, forgetChildren_eq_map, List.forall_mem_map]
      exact fun e member => below e member _

/-! ## Reading and merging -/

theorem readResolved (up : n.UpToDate p) : (n.readResolved (p.places n)).1.UpToDate p := by
  unfold Node.readResolved
  cases n.content.resolved with
  | some text => exact up
  | none =>
    cases fresh : n.resolveFresh (p.places n) with
    | error fault => exact up
    | ok text =>
      cases n with
      | mk c ss cs =>
        refine .mk (readResolved_eq_iff.2 ?_) up.steps up.children
        rintro _ rfl
        exact fresh

/-- Where a merge brings new shorthands everything below forgets, and elsewhere it leaves alone what the
answers below depend on. -/
theorem mergeInto (up : target.UpToDate p) (source : Node) : (mergeInto source target).UpToDate p := by
  induction source using Node.induction generalizing target p with
  | position c ss cs _ merged =>
    have below : ∀ places ds, (∀ e ∈ ds, e.2.UpToDate ⟨some e.1, places⟩) →
        ∀ e ∈ mergeChildren cs ds, e.2.UpToDate ⟨some e.1, places⟩ := fun places ds old =>
      forall_mergeChildren (P := fun t n => n.UpToDate ⟨some t, places⟩) old
        (fun t n u m member _ up => merged (t, n) member up)
        (fun t n member => merged (t, n) member (ofToken t _))
    have steps : ∀ s ∈ (Node.mergeInto (.mk c ss cs) target).steps, s.UpToDate {} := by
      rw [steps_mergeInto]
      exact forall_mergeSteps (fun s _ => copy s _) up.steps
    cases stale : (Node.mk c ss cs).brings target with
    | true =>
      -- what is below may have got a new description, so it was made to forget
      refine of_fresh ?_ steps ?_
      · rw [content_mergeInto, if_pos stale]
        rfl
      · rw [children_mergeInto, if_pos stale, forgetChildren_eq_map]
        refine below _ _ (List.forall_mem_map.2 fun e member => ?_)
        exact (up.children e member).forgetAll _
    | false =>
      have content : (Node.mergeInto (.mk c ss cs) target).content = mergeContent c target.content := by
        rw [content_mergeInto, stale, if_neg Bool.false_ne_true]
        rfl
      have children : ∀ e ∈ (Node.mergeInto (.mk c ss cs) target).children,
          e.2.UpToDate ⟨some e.1, p.places target⟩ := by
        rw [children_mergeInto, stale, if_neg Bool.false_ne_true]
        exact below _ _ up.children
      obtain ⟨glossary, fresh | same⟩ := mergeContent_cases stale
      · rw [← places_congr (content.symm ▸ glossary)] at children
        exact of_fresh (content ▸ fresh) steps children
      · exact up.of_readsLike (.of_eq (content.trans same)) steps children

/-! ## Expanding and pruning -/

theorem flattenFuel (up : n.UpToDate p) (fuel : Nat) : (flattenFuel fuel n).1.UpToDate p := by
  induction fuel generalizing n p with
  | zero => exact up
  | succ fuel ih =>
    refine up.of_readsLike (.of_eq (content_flattenFuel _ n)) ?_ ?_
    · rw [steps_flattenFuel_succ, List.forall_mem_map]
      exact fun s member => ih (up.steps s member)
    · rw [children_flattenFuel_succ, List.forall_mem_map]
      have level : ∀ e ∈ flattenLevel n.children, e.2.UpToDate ⟨some e.1, p.places n⟩ :=
        forall_flattenLevel (P := fun t m => m.UpToDate ⟨some t, p.places n⟩)
          (fun _ m _ _ u _ => copyUnder u m _) (fun t m member _ => up.children (t, m) member)
          (fun _ m _ _ _ up => up.mergeInto m)
      exact fun e member => ih (level e member)

theorem expandWildcards (up : n.UpToDate p) (settings : ExpansionSettings) (above : List Glossary)
    (token : Option Token) : (n.expandWildcards settings above token).1.UpToDate p := by
  have start : (Node.mk n.content [] []).UpToDate p :=
    up.of_readsLike (.of_eq rfl) (by simp) (by simp)
  unfold Node.expandWildcards
  split
  · exact up
  · exact List.foldlRecOn _ _ start fun _ up a _ => up.mergeInto a.2

theorem spliceFuel (up : n.UpToDate p) (alertable : Bool) (fuel : Nat) (places : List Place) :
    (spliceFuel alertable fuel places n).1.UpToDate p := by
  induction fuel generalizing n p places with
  | zero => exact up
  | succ fuel ih =>
    rw [spliceFuel_succ]
    refine up.of_readsLike (.of_eq rfl) (by simp) ?_
    rw [children_mk, List.forall_mem_map]
    have attached : ∀ e ∈ (attachSteps alertable (Place.lastBid? places) n.steps n.children).1,
        e.2.UpToDate ⟨some e.1, p.places n⟩ :=
      forall_attachSteps (P := fun t m => m.UpToDate ⟨some t, p.places n⟩) up.children
        (fun _ _ t => ofToken t _) (fun s _ _ _ up => (up.mergeInto s).mapContent ⟨rfl, rfl, rfl⟩)
    exact fun e member => ih (attached e member) _

theorem pruned (up : n.UpToDate p) (settings : PruningSettings) (places : List Place) :
    (n.pruned settings places).UpToDate p := by
  induction up generalizing places with
  | @mk p n here steps children _ below =>
    refine (UpToDate.mk here steps children).of_readsLike (.of_eq (content_pruned settings places n)) ?_ ?_
    · rwa [steps_pruned]
    · intro e' member
      obtain ⟨e, old, rfl, _⟩ := mem_children_pruned_iff.1 member
      exact below e old _

/-! ## Further up -/

/-- Only what is below a position depends on it. -/
theorem put {path : List Token} (up : n.UpToDate p) (found : Tree.selectFrom? p n path = some (q, m))
    {new : Node} (upNew : new.UpToDate q) : (n.put path new).UpToDate p := by
  induction path generalizing n p with
  | nil =>
    cases found
    exact upNew
  | cons t path ih =>
    rw [Tree.selectFrom?_cons, Option.bind_eq_some_iff] at found
    obtain ⟨e, child, found⟩ := found
    have there : childOrNew t n.children = e.2 := by
      rw [childOrNew, find?_eq_map_find?, child]
      rfl
    refine up.of_readsLike (.of_eq rfl) up.steps fun d member => ?_
    rcases mem_putChild_of_find? child member with rfl | old
    · rw [there]
      exact ih (up.children e (List.mem_of_find?_eq_some child)) found
    · exact up.children d old

theorem of_selectFrom? {path : List Token} (up : n.UpToDate p)
    (found : Tree.selectFrom? p n path = some (q, m)) : m.UpToDate q := by
  induction path generalizing n p with
  | nil =>
    cases found
    exact up
  | cons t path ih =>
    rw [Tree.selectFrom?_cons, Option.bind_eq_some_iff] at found
    obtain ⟨e, child, found⟩ := found
    exact ih (up.children e (List.mem_of_find?_eq_some child)) found

end UpToDate

end Node

/-! ## Operations -/

/-- What may be done to a node of a tree. -/
inductive Operation where
  /-- Asks for the description in full. -/
  | read
  /-- Merges a tree of its own. -/
  | merge (source : Node)
  /-- Replaces choices by their branches. -/
  | flatten
  /-- Binds open suits; where that would exceed a limit nothing is done. -/
  | bindSuits (settings : ExpansionSettings)
  /-- Attaches relay steps. -/
  | attach (settings : ExpansionSettings)
  | prune (settings : PruningSettings)

/-- The node after an operation, in its position. -/
def Operation.run [Pattern.CharNames] (p : Position) (n : Node) : Operation → Node
  | read => (n.readResolved (p.places n)).1
  | merge source => source.mergeInto n
  | flatten => n.flatten.1
  | bindSuits settings =>
    if (n.wildcardExcess? settings p.token).isSome then n
    else (n.expandWildcards settings p.glossaries p.token).1
  | attach settings => (n.splice settings (p.places n)).1
  | prune settings => (n.prune settings (p.places n)).1

namespace Tree

variable [Pattern.CharNames]

/-- The tree after an operation on the node at the end of a path. Where there is none nothing is done. -/
def after (t : Tree) (path : List Token) (op : Operation) : Tree :=
  match t.select? path with
  | some (p, n) => t.replace path (op.run p n)
  | none => t

def afterAll (t : Tree) (ops : List (List Token × Operation)) : Tree :=
  ops.foldl (fun t op => t.after op.1 op.2) t

/-- Every description that a tree gives is the one that would be worked out anew. -/
def UpToDate (t : Tree) : Prop := t.root.UpToDate ⟨t.token, []⟩

variable {t : Tree}

theorem upToDate_copy (token : Option Token) (n : Node) : UpToDate ⟨token, n.copy⟩ := .copy n _

/-- A document is read into a tree that remembers nothing. -/
theorem upToDate_build [Pattern.Judge] {shorthands : List Shorthand} {document : Value}
    {draft : Document.Draft} (built : Document.build shorthands document = .ok draft) :
    UpToDate ⟨none, draft.node⟩ :=
  .of_throughout ((Document.throughout_declared built).imp fun _ declared => declared.fresh) _

end Tree

theorem Node.UpToDate.run [Pattern.CharNames] {p : Position} {n : Node} (up : n.UpToDate p) (op : Operation) :
    (op.run p n).UpToDate p := by
  cases op with
  | read => exact up.readResolved
  | merge source => exact up.mergeInto source
  | flatten => exact up.flattenFuel _
  | bindSuits settings =>
    rw [Operation.run]
    split
    · exact up
    · exact up.expandWildcards settings _ _
  | attach settings => exact up.spliceFuel _ _ _
  | prune settings => exact up.pruned settings _

namespace Tree

section

variable [Pattern.CharNames] {t : Tree}

theorem UpToDate.after (up : t.UpToDate) (path : List Token) (op : Operation) : (t.after path op).UpToDate := by
  rw [Tree.after]
  cases found : t.select? path with
  | none => exact up
  | some place => exact up.put found ((up.of_selectFrom? found).run op)

theorem UpToDate.afterAll (up : t.UpToDate) (ops : List (List Token × Operation)) :
    (t.afterAll ops).UpToDate :=
  List.foldlRecOn ops _ up fun _ up op _ => up.after op.1 op.2

/-- Whatever is done to a tree that is up to date, each description in it is given as it would be worked
out anew. -/
theorem readResolved_afterAll (up : t.UpToDate) (ops : List (List Token × Operation)) :
    (t.afterAll ops).UpToDate ∧ ∀ path p n, (t.afterAll ops).select? path = some (p, n) →
      (n.readResolved (p.places n)).2 = n.resolveFresh (p.places n) := by
  have after : (t.afterAll ops).UpToDate := up.afterAll ops
  exact ⟨after, fun path p n found => (Node.UpToDate.of_selectFrom? after found).here⟩

end

def clubAnswer : List Token := [.ofCall (.bid .lowest), .ofCall .pass]

def answeredClub : Node :=
  .mk {} [] [(.ofCall (.bid .lowest),
    .mk { description := some "strong" } [] [(.ofCall .pass, .mk { description := some "0-7 HCP" } [] [])])]

/-- The answer is read before a shorthand for it comes in, one position above. -/
def lateShorthand : List (List Token × Operation) :=
  [(clubAnswer, .read), (clubAnswer.take 1, .merge (.root [⟨"HCP", "points"⟩])), ([], .attach {}),
    ([], .prune {})]

/-- Afterwards it reads with the shorthand written out. -/
theorem readResolved_afterAll_answeredClub : ∃ p n,
    (Tree.afterAll ⟨none, answeredClub.copy⟩ lateShorthand).select? clubAnswer = some (p, n) ∧
    (n.readResolved (p.places n)).2 = n.resolveFresh (p.places n) ∧
    (n.readResolved (p.places n)).2.toOption = some (some "0-7 points") := by
  have there : ((Tree.afterAll ⟨none, answeredClub.copy⟩ lateShorthand).select? clubAnswer).any
      (fun found : Position × Node =>
        decide ((found.2.readResolved (found.1.places found.2)).2.toOption = some (some "0-7 points"))) := by
    decide +kernel
  obtain ⟨⟨p, n⟩, found, reads⟩ := (Option.any_eq_true _ _).1 there
  exact ⟨p, n, found, (readResolved_afterAll (upToDate_copy none answeredClub) _).2 _ p n found,
    of_decide_eq_true reads⟩

end Tree

end BidBook

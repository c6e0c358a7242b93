import BidBook.Proofs.Ladder
import BidBook.Proofs.Places
import BidBook.Proofs.Tidy

/-! # Where relay steps land

Attaching relay steps makes a path out of every way down a tree that may go from a position to one
of its relay steps, by the bid that is the step's. The relay steps of two nodes that land at one
place are a matter of priorities; as long as there is no such contest, every way down is a path.

* `relayBid?` — the bid of a relay step.
* `Lands` — a node with certain relay steps of its own lands at a path.
* `exists_lands_of_isSome` — every path of the tree with relay steps attached is one where a node lands.
* `isSome_of_lands` — the other way round, where nothing is contested.
-/

namespace BidBook

/-! ## Bids of relay steps -/

/-- The bid of a relay step, counted from the first, at a position whose last contract is known. -/
def relayBid? : Option Bid → Nat → Option Bid
  | last, 0 => Bid.above? last
  | last, i + 1 => (Bid.above? last).bind fun b => relayBid? (some b) i

theorem rank_lt_of_relayBid? {b c : Bid} {i : Nat} (relay : relayBid? (some b) i = some c) :
    b.rank < c.rank := by
  induction i generalizing b with
  | zero =>
    have := Bid.rank_of_next? relay
    omega
  | succ i ih =>
    rw [relayBid?, Option.bind_eq_some_iff] at relay
    obtain ⟨d, above, relay⟩ := relay
    have := Bid.rank_of_next? above
    have := ih relay
    omega

def Key.bid? (k : Key) : Option Bid := k.call?.bind Call.bid?

theorem lastBid?_place (t : Token) (n : Node) (path : List Place) :
    Place.lastBid? (n.place (some t) :: path) = t.key.bid?.or (Place.lastBid? path) := by
  have known : t.key.bid? = t.call?.bind Call.bid? := by
    unfold Token.key Key.bid?
    cases t.call? <;> rfl
  unfold Place.lastBid? Node.place
  rw [known]
  cases call : t.call? with
  | none => simp [call]
  | some c => cases bid : c.bid? <;> simp [call, bid]

namespace Node

/-! ## Landing -/

/-- A node with relay steps of its own lands at a path below a position whose last contract is known: it
stands there, or it is reached by way of relay steps. -/
inductive Lands : Option Bid → Node → List Key → List Node → Prop where
  | here (last : Option Bid) (n : Node) : Lands last n [] n.steps
  | child {last : Option Bid} {n c : Node} {k : Key} {path : List Key} {ss : List Node}
      (found : find? k n.children = some c) (later : Lands (k.bid?.or last) c path ss) :
      Lands last n (k :: path) ss
  | relay {last : Option Bid} {n s : Node} {i : Nat} {b : Bid} {path : List Key} {ss : List Node}
      (step : n.steps[i]? = some s) (bid : relayBid? last i = some b) (later : Lands (some b) s path ss) :
      Lands last n (.call (.bid b) :: path) ss

/-- No two nodes with different relay steps of their own are at one place of a path. -/
def Uncontested (path : List Key) (P : List Key → List Node → Prop) : Prop :=
  ∀ p ss ss', p <+: path → P p ss → P p ss' → ss = [] ∨ ss' = [] ∨ ss = ss'

variable {last : Option Bid} {n m source target : Node} {path : List Key} {ss : List Node} {k : Key}

theorem Uncontested.tail {P : List Key → List Node → Prop} (uncontested : Uncontested (k :: path) P) :
    Uncontested path fun p => P (k :: p) := fun p ss ss' le =>
  uncontested (k :: p) ss ss' (List.cons_prefix_cons.2 ⟨rfl, le⟩)

/-- Fewer nodes with relay steps of their own do not compete, either. -/
theorem Uncontested.mono {P Q : List Key → List Node → Prop} (uncontested : Uncontested path P)
    (lift : ∀ p ss, p <+: path → Q p ss → ss = [] ∨ P p ss) : Uncontested path Q := by
  intro p ss ss' le left right
  rcases lift p ss le left with empty | left
  · exact .inl empty
  · rcases lift p ss' le right with empty | right
    · exact .inr (.inl empty)
    · exact uncontested p ss ss' le left right

theorem Lands.of_nil (lands : Lands last n [] ss) : ss = n.steps := by
  cases lands
  rfl

theorem Lands.congr (lands : Lands last n path ss) (steps : m.steps = n.steps)
    (children : m.children = n.children) : Lands last m path ss := by
  cases lands with
  | here => exact steps ▸ .here last m
  | child found later => exact .child (children ▸ found) later
  | relay step bid later => exact .relay (steps ▸ step) bid later

theorem steps_mapContent (f : Content → Content) (n : Node) : (n.mapContent f).steps = n.steps := by
  cases n
  rfl

theorem children_mapContent (f : Content → Content) (n : Node) :
    (n.mapContent f).children = n.children := by
  cases n
  rfl

theorem steps_copyUnder (t : Token) (n : Node) : (n.copyUnder t).steps = copySteps n.steps := by
  rw [copyUnder, steps_mapContent, steps_copy]

theorem Lands.of_ofToken {t : Token} (lands : Lands last (ofToken t) path ss) : path = [] ∧ ss = [] := by
  cases lands with
  | here => exact ⟨rfl, rfl⟩
  | child found later => cases found
  | relay step bid later => cases step

theorem lands_forgetAll : Lands last n.forgetAll path ss ↔ Lands last n path ss := by
  induction path generalizing n last with
  | nil =>
    constructor
    · intro lands
      rw [lands.of_nil, steps_forgetAll]
      exact .here last n
    · intro lands
      rw [lands.of_nil, ← steps_forgetAll]
      exact .here last n.forgetAll
  | cons k path ih =>
    have below : find? k n.forgetAll.children = (find? k n.children).map forgetAll := by
      rw [children_forgetAll, forgetChildren_eq_map, find?_map]
    constructor
    · intro lands
      cases lands with
      | child found later =>
        rw [below, Option.map_eq_some_iff] at found
        obtain ⟨c, found, rfl⟩ := found
        exact .child found (ih.1 later)
      | relay step bid later => exact .relay (steps_forgetAll n ▸ step) bid later
    · intro lands
      cases lands with
      | child found later => exact .child (by rw [below, found]; rfl) (ih.2 later)
      | relay step bid later => exact .relay (steps_forgetAll n ▸ step) bid later

/-! ## Merging -/

theorem copy_eq {K : Token → Prop} (tidy : Throughout (Tidy K) n) : n.copy = n := by
  induction tidy with
  | @mk n here _ _ steps below =>
    cases n with
    | mk c ss cs =>
      have content : c.forget = c := Content.forget_of_fresh here.fresh
      have children : cs.map (fun e => (e.1, e.2.copy)) = cs :=
        (List.map_congr_left fun e member => by rw [below e member]).trans (List.map_id' cs)
      rw [copy, content, copySteps_eq_map, copyChildren_eq_map, children]
      exact congrArg (mk c · cs) ((List.map_congr_left steps).trans (List.map_id' ss))

variable {K : Token → Prop}

theorem copySteps_eq (tidy : Throughout (Tidy K) n) : copySteps n.steps = n.steps := by
  rw [copySteps_eq_map]
  exact (List.map_congr_left fun s member => copy_eq (tidy.steps s member)).trans (List.map_id' _)

theorem steps_mergeInto_eq_or (target : Node) (tidy : Throughout (Tidy K) source) :
    (mergeInto source target).steps = target.steps ∨ (mergeInto source target).steps = source.steps := by
  rcases steps_mergeInto_cases source target with ⟨steps, _⟩ | ⟨steps, _⟩
  · exact .inr (steps.trans (copySteps_eq tidy))
  · exact .inl steps

/-- Where they do not compete, none are lost. -/
theorem steps_mergeInto_of_uncontested (tidy : Throughout (Tidy K) source)
    (uncontested : target.steps = [] ∨ source.steps = [] ∨ target.steps = source.steps) :
    (target.steps = [] ∨ (mergeInto source target).steps = target.steps) ∧
      (source.steps = [] ∨ (mergeInto source target).steps = source.steps) := by
  rw [steps_mergeInto, mergeSteps, copySteps_eq tidy]
  rcases uncontested with empty | empty | same
  · rw [empty]
    cases source.steps <;> simp
  · simp [empty]
  · simp [same]

/-- The children of a merge, as far as relay steps are concerned: those that the source knows are
merged into the target's, or into new ones. -/
theorem exists_children_mergeInto (target : Node) (formed : source.WellFormed) : ∃ f : Node → Node,
    (∀ last n path ss, Lands last (f n) path ss ↔ Lands last n path ss) ∧ ∀ k,
      (find? k source.children = none →
        find? k (mergeInto source target).children = (find? k target.children).map f) ∧
      ∀ s, find? k source.children = some s → ∃ t,
        find? k (mergeInto source target).children =
          some (mergeInto s (((find? k target.children).map f).getD (ofToken t))) := by
  by_cases stale : source.brings target = true
  · refine ⟨forgetAll, fun _ _ _ _ => lands_forgetAll, fun k => ?_⟩
    have looked : find? k (forgetChildren target.children) = (find? k target.children).map forgetAll := by
      rw [forgetChildren_eq_map, find?_map]
    rw [children_mergeInto, if_pos stale]
    constructor
    · intro absent
      rw [find?_mergeChildren_of_forall _ (find?_eq_none_iff.1 absent), looked]
    · intro s known
      obtain ⟨t, member, rfl⟩ := mem_of_find? known
      exact ⟨t, by rw [find?_mergeChildren_of_mem _ formed.distinct member, childOrNew, looked]⟩
  · refine ⟨id, fun _ _ _ _ => Iff.rfl, fun k => ?_⟩
    rw [children_mergeInto, if_neg stale]
    constructor
    · intro absent
      rw [find?_mergeChildren_of_forall _ (find?_eq_none_iff.1 absent), Option.map_id, id]
    · intro s known
      obtain ⟨t, member, rfl⟩ := mem_of_find? known
      exact ⟨t, by rw [find?_mergeChildren_of_mem _ formed.distinct member, childOrNew, Option.map_id, id]⟩

theorem Lands.of_childOrNew {t : Token} {cs : List (Token × Node)}
    (lands : Lands last (childOrNew t cs) path ss) :
    (∃ c, find? t.key cs = some c ∧ Lands last c path ss) ∨ (path = [] ∧ ss = []) := by
  unfold childOrNew at lands
  cases found : find? t.key cs with
  | none =>
    rw [found] at lands
    exact .inr lands.of_ofToken
  | some c =>
    rw [found] at lands
    exact .inl ⟨c, rfl, lands⟩

theorem Lands.of_getD {f : Node → Node}
    (same : ∀ last n path ss, Lands last (f n) path ss ↔ Lands last n path ss) {t : Token}
    (lands : Lands (k.bid?.or last) (((find? k target.children).map f).getD (ofToken t)) path ss) :
    Lands last target (k :: path) ss ∨ (path = [] ∧ ss = []) := by
  cases found : find? k target.children with
  | none =>
    rw [found] at lands
    exact .inr lands.of_ofToken
  | some c =>
    rw [found] at lands
    exact .inl (.child found ((same _ _ _ _).1 lands))

/-- Nothing lands in a merge that does not land in one of its parts. -/
theorem lands_of_mergeInto (tidy : Throughout (Tidy K) source)
    (lands : Lands last (mergeInto source target) path ss) :
    Lands last target path ss ∨ Lands last source path ss := by
  -- on every step down, the child is one of the target, or one that both are merged into
  induction path generalizing source target last with
  | nil =>
    rw [lands.of_nil]
    rcases steps_mergeInto_eq_or target tidy with same | same
    · exact .inl (same ▸ .here last target)
    · exact .inr (same ▸ .here last source)
  | cons k path ih =>
    cases lands with
    | @child _ _ d _ _ _ found later =>
      obtain ⟨f, same, children⟩ := exists_children_mergeInto target tidy.wellFormed
      obtain ⟨absent, present⟩ := children k
      cases known : find? k source.children with
      | none =>
        rw [absent known, Option.map_eq_some_iff] at found
        obtain ⟨c, found, rfl⟩ := found
        exact .inl (.child found ((same _ _ _ _).1 later))
      | some s =>
        obtain ⟨t, merged⟩ := present s known
        rw [merged, Option.some.injEq] at found
        subst found
        rcases ih (tidy.of_find? known) later with there | there
        · rcases there.of_getD same with there | ⟨rfl, rfl⟩
          · exact .inl there
          · -- nothing is carried by a new position, so nothing is carried by the source's child
            have empty : (mergeInto s _).steps = [] := later.of_nil.symm
            have none := (steps_mergeInto_eq_nil_iff.1 empty).1
            exact .inr (.child known (none ▸ .here _ s))
        · exact .inr (.child known there)
    | relay step bid later =>
      rcases steps_mergeInto_eq_or target tidy with same | same
      · exact .inl (.relay (same ▸ step) bid later)
      · exact .inr (.relay (same ▸ step) bid later)

/-- Whatever lands in one of the parts of a merge lands in the merge, and keeps its relay steps if
they are not contested. -/
theorem exists_lands_mergeInto (tidy : Throughout (Tidy K) source)
    (uncontested : Uncontested path fun p ss => Lands last target p ss ∨ Lands last source p ss)
    (lands : Lands last target path ss ∨ Lands last source path ss) :
    ∃ ss', Lands last (mergeInto source target) path ss' ∧ (ss = [] ∨ ss' = ss) := by
  -- the same way down, where what competes is what both parts bring to one place
  induction path generalizing source target last with
  | nil =>
    obtain ⟨ofTarget, ofSource⟩ := steps_mergeInto_of_uncontested tidy
      (uncontested [] _ _ List.nil_prefix (.inl (.here last target)) (.inr (.here last source)))
    refine ⟨_, .here _ _, ?_⟩
    rcases lands with lands | lands
    · rw [lands.of_nil]
      exact ofTarget
    · rw [lands.of_nil]
      exact ofSource
  | cons k path ih =>
    obtain ⟨f, same, children⟩ := exists_children_mergeInto target tidy.wellFormed
    obtain ⟨absent, present⟩ := children k
    -- below a child that the source knows, both are merged
    have merged : ∀ s, find? k source.children = some s → (∀ t : Token,
        Lands (k.bid?.or last) (((find? k target.children).map f).getD (ofToken t)) path ss ∨
          Lands (k.bid?.or last) s path ss) →
        ∃ ss', Lands last (mergeInto source target) (k :: path) ss' ∧ (ss = [] ∨ ss' = ss) := by
      intro s known parts
      obtain ⟨t, found⟩ := present s known
      have below : Uncontested path fun p zs =>
          Lands (k.bid?.or last) (((find? k target.children).map f).getD (ofToken t)) p zs ∨
            Lands (k.bid?.or last) s p zs := by
        refine uncontested.tail.mono fun p zs _ there => ?_
        rcases there with there | there
        · rcases there.of_getD same with there | ⟨_, empty⟩
          · exact .inr (.inl there)
          · exact .inl empty
        · exact .inr (.inr (.child known there))
      obtain ⟨ss', there, kept⟩ := ih (tidy.of_find? known) below (parts t)
      exact ⟨ss', .child found there, kept⟩
    -- relay steps that do not compete are those of the merge
    have both := steps_mergeInto_of_uncontested tidy
      (uncontested [] _ _ List.nil_prefix (.inl (.here last target)) (.inr (.here last source)))
    rcases lands with lands | lands
    · cases lands with
      | @child _ _ c _ _ _ found later =>
        cases known : find? k source.children with
        | none =>
          have there : find? k (mergeInto source target).children = some (f c) := by
            rw [absent known, found, Option.map_some]
          exact ⟨ss, .child there ((same _ _ _ _).2 later), .inr rfl⟩
        | some s =>
          refine merged s known fun t => .inl ?_
          rw [found]
          exact (same _ _ _ _).2 later
      | relay step bid later =>
        have steps : (mergeInto source target).steps = target.steps :=
          both.1.resolve_left fun empty => by rw [empty] at step; cases step
        exact ⟨ss, .relay (steps ▸ step) bid later, .inr rfl⟩
    · cases lands with
      | child found later => exact merged _ found fun t => .inr later
      | relay step bid later =>
        have steps : (mergeInto source target).steps = source.steps :=
          both.2.resolve_left fun empty => by rw [empty] at step; cases step
        exact ⟨ss, .relay (steps ▸ step) bid later, .inr rfl⟩

/-! ## Attaching -/

/-- A relay step, merged into the child at its bid, or into a new one. -/
def attached (alertable : Bool) (s : Node) (b : Bid) (cs : List (Token × Node)) : Node :=
  (mergeInto s (childOrNew (.ofCall (.bid b)) cs)).mapContent fun c =>
    { c with alertable := c.alertable || alertable }

variable {alertable : Bool} {cs : List (Token × Node)}

theorem attached_putChild_of_ne {s n : Node} {b c : Bid} (other : c ≠ b) :
    attached alertable s b (putChild (.ofCall (.bid c)) n cs) = attached alertable s b cs := by
  rw [attached, attached, childOrNew_putChild_of_ne]
  intro same
  cases same
  exact other rfl

theorem attachSteps_cons (alertable : Bool) (last : Option Bid) (s : Node) (ss : List Node)
    (cs : List (Token × Node)) : (attachSteps alertable last (s :: ss) cs).1 =
      match Bid.above? last with
      | none => cs
      | some b =>
        (attachSteps alertable (some b) ss
          (putChild (.ofCall (.bid b)) (attached alertable s b cs) cs)).1 := by
  rw [attachSteps]
  cases Bid.above? last <;> rfl

theorem find?_attachSteps_of_forall
    (other : ∀ i s b, ss[i]? = some s → relayBid? last i = some b → k ≠ .call (.bid b)) :
    find? k (attachSteps alertable last ss cs).1 = find? k cs := by
  induction ss generalizing last cs with
  | nil => rfl
  | cons s ss ih =>
    rw [attachSteps_cons]
    cases above : Bid.above? last with
    | none => rfl
    | some b =>
      dsimp only
      rw [ih, find?_putChild, if_neg]
      · exact (other 0 s b rfl above).symm
      · intro i s' b' step bid
        exact other (i + 1) s' b' (by simpa using step) (by rw [relayBid?, above, Option.bind_some, bid])

/-- At the bid of a relay step is the step, merged with the child that was there. -/
theorem find?_attachSteps_of_relay {s : Node} {b : Bid} {i : Nat} (step : ss[i]? = some s)
    (bid : relayBid? last i = some b) :
    find? (.call (.bid b)) (attachSteps alertable last ss cs).1 = some (attached alertable s b cs) := by
  induction ss generalizing last cs i with
  | nil => cases step
  | cons s' ss ih =>
    rw [attachSteps_cons]
    cases i with
    | zero =>
      obtain rfl : s' = s := by simpa using step
      rw [relayBid?] at bid
      rw [bid]
      dsimp only
      have key : (Token.ofCall (.bid b)).key = .call (.bid b) := rfl
      rw [find?_attachSteps_of_forall, find?_putChild, if_pos key]
      intro j _ c _ later same
      have := rank_lt_of_relayBid? later
      cases same
      omega
    | succ i =>
      rw [relayBid?, Option.bind_eq_some_iff] at bid
      obtain ⟨d, above, bid⟩ := bid
      rw [above]
      dsimp only
      rw [ih (by simpa using step) bid, attached_putChild_of_ne]
      -- later steps have higher bids
      rintro rfl
      have := rank_lt_of_relayBid? bid
      omega

/-- What holds of every child after relay steps are attached: it holds of the old ones and of new
ones, and merging a step into one keeps it. -/
theorem forall_attachSteps {P : Token → Node → Prop} (old : ∀ e ∈ cs, P e.1 e.2)
    (new : ∀ s ∈ ss, ∀ t, P t (ofToken t))
    (into : ∀ s ∈ ss, ∀ t m, P t m → P t ((mergeInto s m).mapContent fun c =>
      { c with alertable := c.alertable || alertable })) :
    ∀ e ∈ (attachSteps alertable last ss cs).1, P e.1 e.2 := by
  -- the steps are attached one by one, each to the children that the ones before it left
  induction ss generalizing last cs with
  | nil => exact old
  | cons s ss ih =>
    rw [List.forall_mem_cons] at new into
    rw [attachSteps_cons]
    cases Bid.above? last with
    | none => exact old
    | some b =>
      refine ih ?_ new.2 into.2
      rintro ⟨u, m⟩ member
      rcases mem_putChild member with ⟨rfl, rfl, missing⟩ | ⟨rfl, _, present, place, found⟩ | kept
      · refine into.1 _ _ ?_
        rw [childOrNew, missing, Option.getD_none]
        exact new.1 _
      · refine into.1 _ _ ?_
        rw [childOrNew, found, Option.getD_some]
        exact old (u, present) place
      · exact old _ kept

theorem throughout_attachSteps (tidy : Throughout (Tidy K) n) :
    ∀ e ∈ (attachSteps alertable last n.steps n.children).1, Throughout (Tidy K) e.2 :=
  forall_attachSteps (P := fun _ m => Throughout (Tidy K) m) tidy.children
    (fun _ _ => throughout_tidy_ofToken)
    fun s member _ _ present => ((tidy.steps s member).mergeInto present).mapContent
      (Throughout.fresh_mergeInto present.here.fresh)

theorem height_attachSteps_le {h : Nat} (bound : n.height ≤ h + 1) :
    ∀ e ∈ (attachSteps alertable last n.steps n.children).1, e.2.height ≤ h := by
  rw [height_le_succ_iff] at bound
  refine forall_attachSteps (P := fun _ m => m.height ≤ h) bound.2 (fun s member t => ?_)
    fun s member _ m le => ?_
  · have := height_pos s
    have := bound.1 s member
    have leaf : (ofToken t).height = 1 := rfl
    omega
  · have merged := height_mergeInto_le (bound.1 s member) le
    cases outcome : mergeInto s m
    rw [outcome] at merged
    exact merged

/-- Nothing lands below a child after relay steps are attached that did not land there before. -/
theorem Lands.of_attachSteps (tidy : Throughout (Tidy K) n) {d : Node}
    (found : find? k (attachSteps alertable last n.steps n.children).1 = some d)
    (lands : Lands (k.bid?.or last) d path ss) : Lands last n (k :: path) ss := by
  -- a child at the bid of a relay step is a merge, any other is an old one
  by_cases relay : ∃ i s b, n.steps[i]? = some s ∧ relayBid? last i = some b ∧ k = .call (.bid b)
  · obtain ⟨i, s, b, step, bid, rfl⟩ := relay
    rw [find?_attachSteps_of_relay step bid, Option.some.injEq] at found
    subst found
    have merged : Lands (some b) (mergeInto s (childOrNew (.ofCall (.bid b)) n.children)) path ss :=
      lands.congr (steps_mapContent _ _).symm (children_mapContent _ _).symm
    rcases lands_of_mergeInto (tidy.steps s (List.mem_of_getElem? step)) merged with there | there
    · rcases there.of_childOrNew with ⟨c, found, there⟩ | ⟨rfl, rfl⟩
      · exact .child found there
      · have none := (steps_mergeInto_eq_nil_iff.1 merged.of_nil.symm).1
        exact .relay step bid (none ▸ .here _ s)
    · exact .relay step bid there
  · rw [find?_attachSteps_of_forall fun i s b step bid same => relay ⟨i, s, b, step, bid, same⟩] at found
    exact .child found lands

/-- Whatever lands in a tree lands below its children after relay steps are attached, as long as
nothing is contested. -/
theorem exists_lands_attachSteps (tidy : Throughout (Tidy K) n)
    (uncontested : Uncontested (k :: path) (Lands last n)) (lands : Lands last n (k :: path) ss) : ∃ d,
      find? k (attachSteps alertable last n.steps n.children).1 = some d ∧
        ∃ ss', Lands (k.bid?.or last) d path ss' ∧ (ss = [] ∨ ss' = ss) := by
  -- at the bid of a relay step, the step and the child that was there are merged
  have merged : ∀ i s b, n.steps[i]? = some s → relayBid? last i = some b → k = .call (.bid b) →
      (Lands (some b) (childOrNew (.ofCall (.bid b)) n.children) path ss ∨ Lands (some b) s path ss) →
      ∃ ss', Lands (some b) (attached alertable s b n.children) path ss' ∧ (ss = [] ∨ ss' = ss) := by
    rintro i s b step bid rfl parts
    have below : Uncontested path fun p zs =>
        Lands (some b) (childOrNew (.ofCall (.bid b)) n.children) p zs ∨ Lands (some b) s p zs := by
      refine uncontested.tail.mono fun p zs _ there => ?_
      rcases there with there | there
      · rcases there.of_childOrNew with ⟨c, found, there⟩ | ⟨_, empty⟩
        · exact .inr (.child found there)
        · exact .inl empty
      · exact .inr (.relay step bid there)
    obtain ⟨ss', there, kept⟩ :=
      exists_lands_mergeInto (tidy.steps s (List.mem_of_getElem? step)) below parts
    exact ⟨ss', there.congr (steps_mapContent _ _) (children_mapContent _ _), kept⟩
  cases lands with
  | @child _ _ c _ _ _ found later =>
    by_cases relay : ∃ i s b, n.steps[i]? = some s ∧ relayBid? last i = some b ∧ k = .call (.bid b)
    · obtain ⟨i, s, b, step, bid, rfl⟩ := relay
      have present : childOrNew (.ofCall (.bid b)) n.children = c := by
        rw [childOrNew, show (Token.ofCall (.bid b)).key = .call (.bid b) from rfl, found, Option.getD_some]
      exact ⟨_, find?_attachSteps_of_relay step bid, merged i s b step bid rfl (.inl (present ▸ later))⟩
    · refine ⟨c, ?_, ss, later, .inr rfl⟩
      rw [find?_attachSteps_of_forall fun i s b step bid same => relay ⟨i, s, b, step, bid, same⟩, found]
  | relay step bid later =>
    exact ⟨_, find?_attachSteps_of_relay step bid, merged _ _ _ step bid rfl (.inr later)⟩

/-! ## Splicing -/

theorem spliceFuel_succ (alertable : Bool) (fuel : Nat) (path : List Place) (n : Node) :
    (spliceFuel alertable (fuel + 1) path n).1 = mk n.content []
      ((attachSteps alertable (Place.lastBid? path) n.steps n.children).1.map fun e =>
        (e.1, (spliceFuel alertable fuel (e.2.place (some e.1) :: path) e.2).1)) := by
  cases n
  exact congrArg (mk _ []) List.map_map

theorem at?_spliceFuel_cons (alertable : Bool) (fuel : Nat) (places : List Place) (n : Node) (k : Key)
    (path : List Key) : (spliceFuel alertable (fuel + 1) places n).1.at? (k :: path) =
      ((attachSteps alertable (Place.lastBid? places) n.steps n.children).1.find? fun e => e.1.key = k).bind
        fun e => (spliceFuel alertable fuel (e.2.place (some e.1) :: places) e.2).1.at? path := by
  rw [spliceFuel_succ, at?_cons, children_mk, find?_eq_map_find?, List.find?_map, Option.map_map,
    Option.bind_map]
  rfl

theorem lands_of_at? (last : Option Bid) (found : n.at? path = some m) : Lands last n path m.steps := by
  induction path generalizing n last with
  | nil =>
    rw [at?_nil, Option.some.injEq] at found
    exact found ▸ .here last n
  | cons k path ih =>
    rw [at?_cons, Option.bind_eq_some_iff] at found
    obtain ⟨c, child, found⟩ := found
    exact .child child (ih _ found)

theorem find?_of_find?_eq_some {cs : List (Token × Node)} {e : Token × Node}
    (found : cs.find? (fun e => e.1.key = k) = some e) :
    e ∈ cs ∧ e.1.key = k ∧ find? k cs = some e.2 := by
  refine ⟨List.mem_of_find?_eq_some found, by simpa using List.find?_some found, ?_⟩
  rw [find?_eq_map_find?, found]
  rfl

/-- Every path of a tree with its relay steps attached is one where a node lands. -/
theorem exists_lands_of_isSome {fuel : Nat} {places : List Place} (tidy : Throughout (Tidy K) n)
    (present : ((spliceFuel alertable fuel places n).1.at? path).isSome) :
    ∃ ss, Lands (Place.lastBid? places) n path ss := by
  induction path generalizing n fuel places with
  | nil => exact ⟨_, .here _ n⟩
  | cons k path ih =>
    -- without fuel nothing is attached
    cases fuel with
    | zero =>
      obtain ⟨m, found⟩ := Option.isSome_iff_exists.1 present
      exact ⟨_, lands_of_at? _ found⟩
    | succ fuel =>
      obtain ⟨m, there⟩ := Option.isSome_iff_exists.1 present
      rw [at?_spliceFuel_cons, Option.bind_eq_some_iff] at there
      obtain ⟨e, found, there⟩ := there
      obtain ⟨member, rfl, child⟩ := find?_of_find?_eq_some found
      obtain ⟨ss, lands⟩ := ih (throughout_attachSteps tidy e member)
        (Option.isSome_iff_exists.2 ⟨m, there⟩)
      rw [lastBid?_place] at lands
      exact ⟨ss, lands.of_attachSteps tidy child⟩

/-- Wherever a node lands there is a path, as long as nothing is contested. -/
theorem isSome_of_lands {fuel : Nat} {places : List Place} (bound : n.height ≤ fuel)
    (tidy : Throughout (Tidy K) n) (uncontested : Uncontested path (Lands (Place.lastBid? places) n))
    (lands : Lands (Place.lastBid? places) n path ss) :
    ((spliceFuel alertable fuel places n).1.at? path).isSome := by
  induction path generalizing n fuel places ss with
  | nil => simp
  | cons k path ih =>
    obtain ⟨fuel, rfl⟩ : ∃ fuel', fuel = fuel' + 1 := ⟨fuel - 1, by have := height_pos n; omega⟩
    obtain ⟨d, child, ss', later, _⟩ := exists_lands_attachSteps tidy uncontested lands
    rw [find?_eq_map_find?, Option.map_eq_some_iff] at child
    obtain ⟨e, found, rfl⟩ := child
    obtain ⟨member, rfl, child⟩ := find?_of_find?_eq_some found
    rw [at?_spliceFuel_cons, found, Option.bind_some]
    rw [← lastBid?_place e.1 e.2] at later
    refine ih (height_attachSteps_le bound e member) (throughout_attachSteps tidy e member) ?_ later
    -- what lands below a child lands in the tree
    refine uncontested.tail.mono fun p xs _ there => ?_
    rw [lastBid?_place] at there
    exact .inr (there.of_attachSteps tidy child)

end Node

end BidBook

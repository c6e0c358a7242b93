import BidBook.Proofs.Checked
import BidBook.Proofs.Continuations
import BidBook.Proofs.MergeLaws

/-! # Relay steps at successive bids

The relay steps of a position are taken up in order, each at the next bid above the one before it, so they
meet the bids above the last contract one by one. In a legal auction the last contract is the highest, and
all these bids may be made. Steps that are left when the bids are used up are dropped.

* `relayBid?_eq` — the bids of relay steps are those above the last contract.
* `Node.StepsAt` — what attaching relay steps at certain bids makes of the children of a position.
* `Node.splice_eq` — splicing attaches the steps of the position, and then goes on with its children.
* `Node.splice_at_successive_bids` — where the steps of a position in a legal auction go.
-/

namespace BidBook

theorem relayBid?_eq (last : Option Bid) (i : Nat) : relayBid? last i = (Bid.allAbove last)[i]? := by
  induction i generalizing last with
  | zero =>
    rw [relayBid?, Bid.allAbove_eq]
    cases Bid.above? last <;> rfl
  | succ i ih =>
    rw [relayBid?, Bid.allAbove_eq]
    cases Bid.above? last with
    | none => rfl
    | some b => exact ih (some b)

/-! ## The auction of a position -/

namespace Place

variable {places : List Place} {calls : List Call}

theorem lastBid?_eq (places : List Place) : lastBid? places = ((keys places).filterMap Key.bid?).getLast? := by
  induction places with
  | nil => rfl
  | cons p places ih =>
    obtain ⟨token, glossary⟩ := p
    cases token with
    | none => exact ih
    | some t =>
      have place : (⟨some t, glossary⟩ : Place) = (Node.mk { glossary } [] []).place (some t) := rfl
      rw [place, lastBid?_place, Place.keys_place_cons, List.filterMap_append, List.getLast?_append, ih]
      cases bid : t.key.bid? <;> simp [bid]

theorem filterMap_bid?_of_mapM {keys : List Key} (read : keys.mapM Key.call? = some calls) :
    keys.filterMap Key.bid? = calls.filterMap Call.bid? := by
  induction keys generalizing calls with
  | nil =>
    cases read
    rfl
  | cons k keys ih =>
    rw [List.mapM_cons] at read
    obtain ⟨c, call, later⟩ := Option.bind_eq_some_iff.1 read
    obtain ⟨rest, readRest, same⟩ := Option.bind_eq_some_iff.1 later
    cases same
    have first : k.bid? = c.bid? := by rw [Key.bid?, call, Option.bind_some]
    rw [List.filterMap_cons, List.filterMap_cons, first, ih readRest]

theorem lastBid?_of_auction? (read : auction? places = some calls) :
    lastBid? places = Auction.lastBid? calls := by
  rw [lastBid?_eq, filterMap_bid?_of_mapM read, Auction.lastBid?]

theorem auction?_place (read : auction? places = some calls) {t : Token} {c : Call} (key : t.key = .call c)
    (n : Node) : auction? (n.place (some t) :: places) = some (calls ++ [c]) := by
  rw [auction?] at read
  rw [auction?, keys_place_cons, List.mapM_append, read, key]
  rfl

end Place

namespace Node

variable {alertable : Bool} {last : Option Bid} {ss : List Node} {cs : List (Token × Node)}

/-! ## Attaching -/

/-- Relay steps have been attached to children at certain bids: each is merged into the child at its bid,
or into a new one, and all other children are as they were. New children stand behind the old ones. -/
structure StepsAt (alertable : Bool) (bids : List Bid) (ss : List Node) (old new : List (Token × Node)) :
    Prop where
  merged : ∀ (i : Nat) (s : Node) (b : Bid), ss[i]? = some s → bids[i]? = some b →
    find? (.call (.bid b)) new = some (attached alertable s b old)
  others : ∀ k, (∀ b ∈ bids.take ss.length, k ≠ .call (.bid b)) → find? k new = find? k old
  keys : new.map (fun e => e.1.key) = appendNew (old.map fun e => e.1.key)
    ((bids.take ss.length).map fun b => .call (.bid b))

theorem snd_attachSteps (alertable : Bool) (last : Option Bid) (ss : List Node) (cs : List (Token × Node)) :
    (attachSteps alertable last ss cs).2 = min ss.length (Bid.allAbove last).length := by
  induction ss generalizing last cs with
  | nil => simp [attachSteps]
  | cons s ss ih =>
    rw [attachSteps, Bid.allAbove_eq]
    cases Bid.above? last with
    | none => rfl
    | some b => simp [ih, Nat.succ_min_succ]

theorem keys_attachSteps (alertable : Bool) (last : Option Bid) (ss : List Node)
    (cs : List (Token × Node)) : (attachSteps alertable last ss cs).1.map (fun e => e.1.key) =
      appendNew (cs.map fun e => e.1.key)
        (((Bid.allAbove last).take ss.length).map fun b => .call (.bid b)) := by
  induction ss generalizing last cs with
  | nil => simp [attachSteps, appendNew]
  | cons s ss ih =>
    rw [attachSteps_cons, Bid.allAbove_eq]
    cases Bid.above? last with
    | none => simp [appendNew]
    | some b =>
      have first : Key.call (.bid b) ∉ ((Bid.allAbove (some b)).take ss.length).map fun b => .call (.bid b) := by
        intro member
        obtain ⟨c, above, same⟩ := List.mem_map.1 member
        cases same
        exact Nat.lt_irrefl _ (Bid.mem_allAbove_iff.1 (List.mem_of_mem_take above))
      dsimp only
      rw [ih, keys_putChild, List.length_cons, List.take_succ_cons, List.map_cons, appendNew_cons _ first,
        appendNew_singleton]
      rfl

theorem stepsAt_attachSteps (alertable : Bool) (last : Option Bid) (ss : List Node)
    (cs : List (Token × Node)) :
    StepsAt alertable (Bid.allAbove last) ss cs (attachSteps alertable last ss cs).1 where
  merged i s b step bid := find?_attachSteps_of_relay step (by rw [relayBid?_eq, bid])
  others k apart := by
    refine find?_attachSteps_of_forall fun i s b step bid => apart b ?_
    rw [relayBid?_eq] at bid
    have := (List.getElem?_eq_some_iff.1 step).1
    exact List.mem_of_getElem? (i := i) (by rw [List.getElem?_take, if_pos this, bid])
  keys := keys_attachSteps alertable last ss cs

/-! ## Splicing -/

theorem spliceFuel_eq (alertable : Bool) (fuel : Nat) (places : List Place) (n : Node) :
    spliceFuel alertable (fuel + 1) places n = Checked.gatherSpliced places n.content n.steps.length
      (attachSteps alertable (Place.lastBid? places) n.steps n.children).2
      ((attachSteps alertable (Place.lastBid? places) n.steps n.children).1.map fun e =>
        (e.1, spliceFuel alertable fuel (e.2.place (some e.1) :: places) e.2)) := by
  cases n
  rfl

/-- More fuel than the height of a tree makes no difference. -/
theorem spliceFuel_congr {n : Node} {fuel fuel' : Nat} {places : List Place} (bound : n.height ≤ fuel)
    (bound' : n.height ≤ fuel') : spliceFuel alertable fuel places n = spliceFuel alertable fuel' places n := by
  induction fuel generalizing n fuel' places with
  | zero =>
    have := height_pos n
    omega
  | succ fuel ih =>
    obtain ⟨fuel', rfl⟩ : ∃ f, fuel' = f + 1 := ⟨fuel' - 1, by have := height_pos n; omega⟩
    have below : (attachSteps alertable (Place.lastBid? places) n.steps n.children).1.map (fun e =>
          (e.1, spliceFuel alertable fuel (e.2.place (some e.1) :: places) e.2)) =
        (attachSteps alertable (Place.lastBid? places) n.steps n.children).1.map fun e =>
          (e.1, spliceFuel alertable fuel' (e.2.place (some e.1) :: places) e.2) :=
      List.map_congr_left fun e member => by
        rw [ih (height_attachSteps_le bound e member) (height_attachSteps_le bound' e member)]
    rw [spliceFuel_eq, spliceFuel_eq, below]

def splicedChild (settings : ExpansionSettings) (places : List Place) (e : Token × Node) :
    Node × Nat × List Event :=
  e.2.splice settings (e.2.place (some e.1) :: places)

theorem splice_eq (settings : ExpansionSettings) (places : List Place) (n : Node) {bids : List Bid}
    {level : List (Token × Node)} (above : Bid.allAbove (Place.lastBid? places) = bids)
    (attach : (attachSteps settings.relayAlertable (Place.lastBid? places) n.steps n.children).1 = level) :
    n.splice settings places =
      (mk n.content [] (level.map fun e => (e.1, (splicedChild settings places e).1)),
        min n.steps.length bids.length + (level.map fun e => (splicedChild settings places e).2.1).sum,
        (if n.steps.length ≤ bids.length then []
          else [.stepsDropped (pathText "-" (Place.keys places)) (n.steps.length - bids.length)]) ++
          level.flatMap fun e => (splicedChild settings places e).2.2) := by
  have low : ∀ e ∈ level, e.2.height ≤ n.height := attach ▸ height_attachSteps_le (Nat.le_succ n.height)
  have below : level.map (fun e =>
        (e.1, spliceFuel settings.relayAlertable n.height (e.2.place (some e.1) :: places) e.2)) =
      level.map fun e => (e.1, splicedChild settings places e) :=
    List.map_congr_left fun e member => by
      rw [splicedChild, splice, spliceFuel_congr (low e member) (Nat.le_refl _)]
  have dropped : n.steps.length - min n.steps.length bids.length = n.steps.length - bids.length := by omega
  rw [splice, spliceFuel_congr (Nat.le_refl _) (Nat.le_succ _), spliceFuel_eq, snd_attachSteps, attach, above,
    below]
  simp only [Checked.gatherSpliced, dropped, Nat.sub_eq_zero_iff_le, List.map_map, List.flatMap_map]
  rfl

variable {calls : List Call}

/-- The relay steps of a position in a legal auction are merged in order into its children at the bids
above the last contract, and each of these bids may be made. Steps for which there is no bid are dropped
with one warning, which tells how many they are. -/
theorem splice_at_successive_bids (settings : ExpansionSettings) (p : Position) (n : Node)
    (read : Place.auction? (p.places n) = some calls) (legal : Auction.isLegal calls = true) :
    ∃ (bids : List Bid) (children : List (Token × Node)),
      bids.Pairwise (· < ·) ∧
      (∀ b, b ∈ bids ↔ ∀ a, Auction.lastBid? calls = some a → a < b) ∧
      StepsAt settings.relayAlertable bids n.steps n.children children ∧
      (∀ e ∈ children, ∀ b ∈ bids, e.1.key = .call (.bid b) →
        Place.auction? (e.2.place (some e.1) :: p.places n) = some (calls ++ [.bid b]) ∧
          Auction.isLegal (calls ++ [.bid b]) = true) ∧
      (n.splice settings (p.places n)).1 = mk n.content []
        (children.map fun e => (e.1, (splicedChild settings (p.places n) e).1)) ∧
      (n.splice settings (p.places n)).2.1 = min n.steps.length bids.length +
        (children.map fun e => (splicedChild settings (p.places n) e).2.1).sum ∧
      (n.splice settings (p.places n)).2.2 =
        (if n.steps.length ≤ bids.length then []
          else [.stepsDropped p.text (n.steps.length - bids.length)]) ++
        children.flatMap fun e => (splicedChild settings (p.places n) e).2.2 := by
  have bids := Place.lastBid?_of_auction? read
  refine ⟨Bid.allAbove (Auction.lastBid? calls), _, Bid.pairwise_allAbove _, fun b => ?_,
    stepsAt_attachSteps settings.relayAlertable _ n.steps n.children, fun e _ b above key => ?_, ?_⟩
  · rw [Bid.mem_allAbove_iff, Bid.rankOf_lt_iff]
  · refine ⟨Place.auction?_place read key e.2, ?_⟩
    exact Auction.isLegal_append_bid_iff.2 ⟨legal, Bid.mem_allAbove_iff.1 above⟩
  · rw [splice_eq settings (p.places n) n (congrArg _ bids) (by rw [bids])]
    exact ⟨rfl, rfl, rfl⟩

/-- Seven diamonds, doubled: four relay steps for only three bids, one of which is declared besides. -/
def doubledSlam : Node :=
  mk {} (["first", "second", "third", "fourth"].map fun text => mk { description := some text } [] [])
    ((Token.parse? "7S").toList.map fun t => (t, mk { description := some "natural" } [] []))

def overSlam : Position := ⟨Token.parse? "X", [⟨Token.parse? "7D", .empty⟩, ⟨none, .empty⟩]⟩

theorem splice_at_successive_bids_doubledSlam : ∃ calls,
    Place.auction? (overSlam.places doubledSlam) = some calls ∧ Auction.isLegal calls = true ∧
    ∃ (bids : List Bid) (children : List (Token × Node)), bids.length = 3 ∧
      StepsAt true bids doubledSlam.steps doubledSlam.children children ∧
      (doubledSlam.splice {} (overSlam.places doubledSlam)).2.1 =
        3 + (children.map fun e => (splicedChild {} (overSlam.places doubledSlam) e).2.1).sum ∧
      (doubledSlam.splice {} (overSlam.places doubledSlam)).2.2 = .stepsDropped overSlam.text 1 ::
        children.flatMap fun e => (splicedChild {} (overSlam.places doubledSlam) e).2.2 := by
  have holds : ((Place.auction? (overSlam.places doubledSlam)).any fun calls =>
      Auction.isLegal calls && (Bid.allAbove (Auction.lastBid? calls)).length == 3) = true := by decide +kernel
  cases read : Place.auction? (overSlam.places doubledSlam) with
  | none => rw [read] at holds; cases holds
  | some calls =>
    rw [read, Option.any_some, Bool.and_eq_true, beq_iff_eq] at holds
    obtain ⟨bids, children, ascending, above, placed, _, _, count, events⟩ :=
      splice_at_successive_bids {} overSlam doubledSlam read holds.1
    have same : bids = Bid.allAbove (Auction.lastBid? calls) :=
      ascending.eq_of_mem_iff (Bid.pairwise_allAbove _) fun b => by
        rw [above, Bid.mem_allAbove_iff, Bid.rankOf_lt_iff]
    have three : bids.length = 3 := same ▸ holds.2
    rw [three] at count events
    exact ⟨calls, rfl, holds.1, bids, children, three, placed, count, events⟩

end Node

end BidBook

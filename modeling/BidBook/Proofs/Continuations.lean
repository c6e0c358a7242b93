import BidBook.Proofs.Ladder
import BidBook.Proofs.Legality

/-! # What may come next

A list of the calls that may follow a history, a test of one call, and a run of the history with the call
behind it all decide the same question. They agree since a run stops at the first call it refuses, and
since the bid that a run remembers is the last one of the history.

* `allows_iff` — a call may follow exactly if it prolongs a legal auction.
* `isLegal_append_bid_iff` — a bid may follow exactly if it is above the last one.
* `nextCalls_agree` — the list of the calls that may follow, and its order.
-/

namespace BidBook

theorem Call.nodup_all : Call.all.Nodup := by
  have bids : (Bid.all.map Call.bid).Nodup :=
    Bid.pairwise_all.nodup.map fun _ _ same => Call.bid.inj same
  simp [Call.all, bids]

namespace Auction

variable {history : List Call} {c : Call} {b : Bid}

def lastBid? (calls : List Call) : Option Bid := (calls.filterMap Call.bid?).getLast?

theorem allows_iff : allows history c = true ↔ isLegal (history ++ [c]) = true := by
  rw [isLegal, run?_append_singleton, allows]
  cases run? history with
  | none => simp
  | some s => rw [Option.bind_some, State.after?_isSome]

theorem State.accepts_bid_iff (s : State) : s.accepts (.bid b) = true ↔ Bid.rankOf s.highest < b.rank := by
  have := b.rank_pos
  cases highest : s.highest with
  | none => simpa [State.accepts, highest]
  | some a => simp [State.accepts, highest, Bid.lt_iff]

theorem isLegal_append_bid_iff : isLegal (history ++ [.bid b]) = true ↔
    isLegal history = true ∧ Bid.rankOf (lastBid? history) < b.rank := by
  rw [isLegal_append_singleton, State.accepts_bid_iff]
  rfl

theorem nextCalls_eq (history : List Call) : nextCalls history = Call.all.filter (allows history) := by
  unfold nextCalls allows
  cases run? history <;> simp

/-- The calls that may follow a history are those that a test of each allows, and those that prolong it to
a legal auction. None is listed twice. Pass, double and redouble come first, and then the bids above the
last one in ascending order; nothing follows an illegal history. -/
theorem nextCalls_agree (history : List Call) :
    (∀ c, (c ∈ nextCalls history ↔ allows history c = true) ∧
      (allows history c = true ↔ isLegal (history ++ [c]) = true)) ∧
    (nextCalls history).Nodup ∧
    ∃ bids : List Bid,
      nextCalls history = [.pass, .double, .redouble].filter (allows history) ++ bids.map .bid ∧
      bids.Pairwise (· < ·) ∧
      ∀ b, b ∈ bids ↔ isLegal history = true ∧ ∀ a, lastBid? history = some a → a < b := by
  refine ⟨fun c => ⟨?_, allows_iff⟩, ?_, Bid.all.filter fun b => allows history (.bid b), ?_, ?_, ?_⟩
  · rw [nextCalls_eq, List.mem_filter]
    simp [Call.mem_all]
  · rw [nextCalls_eq]
    exact Call.nodup_all.filter _
  · rw [nextCalls_eq, Call.all, List.filter_append, List.filter_map]
    rfl
  · exact Bid.pairwise_all.filter _
  · intro b
    rw [List.mem_filter, allows_iff, isLegal_append_bid_iff, Bid.rankOf_lt_iff]
    simp [Bid.mem_all]

end Auction

end BidBook

import Mathlib.Order.Bounds.Basic
import BidBook.Proofs.Continuations

/-! # How long an auction can be

No call ends an auction, and yet all auctions end: three passes in a row are followed by a call of
another kind, a bid is doubled and redoubled at most once before the next bid, and bids go up. `State.room`
counts the calls that are left, and every call takes at least one of them.

* `State.room` — how many calls may follow at most.
* `State.room_advance_lt` — a call that is accepted leaves less room.
* `round` — the longest way from one bid to the next.
* `isGreatest_length` — the longest auction has 353 calls.
-/

namespace BidBook.Auction

variable {calls : List Call} {c : Call} {b : Bid}

namespace State

variable {s : State}

/-- Calls that may follow the last call other than a pass before the next bid. Two passes, a double, two
passes, a redouble and three passes may follow a bid. -/
def respite : Option Call → Nat
  | none => 3
  | some .double => 6
  | some .redouble => 3
  | some _ => 9

/-- Calls that may follow: ten for each bid above the highest one, and those before the next bid. -/
def room (s : State) : Nat := 10 * (35 - Bid.rankOf s.highest) + (respite s.last - s.passes)

theorem three_le_respite (last : Option Call) : 3 ≤ respite last := by
  fun_cases respite <;> simp

theorem passes_advance_le (accepted : s.accepts c = true) : (s.advance c).passes ≤ 3 := by
  cases c with
  | pass =>
    simp only [accepts, decide_eq_true_eq] at accepted
    exact accepted
  | double | redouble | bid b => simp [advance]

theorem room_advance_lt (coherent : s.Coherent) (few : s.passes ≤ 3) (accepted : s.accepts c = true) :
    (s.advance c).room < s.room := by
  have least := three_le_respite s.last
  cases c with
  | pass =>
    simp only [accepts, decide_eq_true_eq] at accepted
    simp only [room, advance]
    omega
  | double =>
    rw [accepts_double_iff coherent few] at accepted
    obtain ⟨⟨b, last⟩, even⟩ := accepted
    simp only [room, advance, last, respite]
    omega
  | redouble =>
    rw [accepts_redouble_iff few] at accepted
    obtain ⟨last, even⟩ := accepted
    simp only [room, advance, last, respite]
    omega
  | bid b =>
    rw [accepts_bid_iff] at accepted
    have := b.rank_le
    simp only [room, advance, respite, Bid.rankOf_some]
    omega

end State

theorem passes_summary_le_of_isLegal (legal : isLegal calls = true) : (summary calls).passes ≤ 3 := by
  cases calls using List.reverseRecOn with
  | nil => simp [summary]
  | append_singleton calls c =>
    rw [isLegal_append_singleton] at legal
    rw [← advance_summary]
    exact State.passes_advance_le legal.2

/-- What has been called and what may still be called are never more than at the beginning. -/
theorem length_add_room_le (legal : isLegal calls = true) :
    calls.length + (summary calls).room ≤ 353 := by
  induction calls using List.reverseRecOn with
  | nil => decide
  | append_singleton calls c ih =>
    rw [isLegal_append_singleton] at legal
    have less := State.room_advance_lt (coherent_summary calls) (passes_summary_le_of_isLegal legal.1) legal.2
    have before := ih legal.1
    rw [← advance_summary, List.length_append, List.length_singleton]
    omega

/-! ## The longest auction -/

def round (b : Bid) : List Call :=
  [.bid b, .pass, .pass, .double, .pass, .pass, .redouble, .pass, .pass, .pass]

theorem run?_round {s : State} (above : Bid.rankOf s.highest < b.rank) :
    s.run? (round b) = some ⟨3, some .redouble, some b⟩ := by
  have accepted : s.after? (.bid b) = some ⟨0, some (.bid b), some b⟩ := by
    rw [State.after?, if_pos ((State.accepts_bid_iff s).2 above), State.advance]
  rw [round, State.run?_cons, accepted]
  rfl

theorem isSome_run?_rounds {s : State} {bids : List Bid} (ascending : bids.Pairwise (· < ·))
    (above : ∀ b ∈ bids, Bid.rankOf s.highest < b.rank) : (s.run? (bids.flatMap round)).isSome := by
  induction bids generalizing s with
  | nil => rfl
  | cons b bids ih =>
    rw [List.pairwise_cons] at ascending
    rw [List.forall_mem_cons] at above
    rw [List.flatMap_cons, State.run?_append, run?_round above.1, Option.bind_some]
    exact ih ascending.2 ascending.1

/-- Three passes, and then every bid with all that may follow it. -/
def longest : List Call := [.pass, .pass, .pass] ++ Bid.all.flatMap round

theorem isLegal_longest : isLegal longest = true := by
  have passes : State.run? {} [.pass, .pass, .pass] = some ⟨3, none, none⟩ := rfl
  rw [isLegal, run?, longest, State.run?_append, passes, Option.bind_some]
  exact isSome_run?_rounds Bid.pairwise_all fun b _ => b.rank_pos

theorem length_longest : longest.length = 353 := by
  have rounds : (Bid.all.flatMap round).length = 10 * Bid.all.length := by
    simp [List.length_flatMap, round, Nat.mul_comm]
  rw [longest, List.length_append, rounds, Bid.length_all]
  rfl

/-- A legal auction has 353 calls at most, three passes and ten calls for each bid, and some legal auction
has as many. -/
theorem isGreatest_length : IsGreatest {n | ∃ calls, isLegal calls = true ∧ calls.length = n} 353 := by
  refine ⟨⟨longest, isLegal_longest, length_longest⟩, ?_⟩
  rintro n ⟨calls, legal, rfl⟩
  have := length_add_room_le legal
  omega

end BidBook.Auction

import Mathlib.Data.List.Sort
import BidBook.Expansion.Relay

/-! # The ladder of bids

Going up from a contract bid by bid runs through the bids above it, in order and without a gap: the
next bid always stands exactly one place higher, and no two bids share a place.

* `Bid.rankOf` — the place of a contract that may be missing.
* `Bid.allAbove` — the bids above it, in ascending order.
* `Bid.allAbove_eq` — the next bid is the first of them, and those above the next bid are the others.
-/

namespace BidBook.Bid

variable {last : Option Bid} {b c : Bid}

instance : Std.Irrefl fun a b : Bid => a < b := ⟨fun b => Nat.lt_irrefl b.rank⟩

instance : Std.Antisymm fun a b : Bid => a < b := ⟨fun _ _ ab ba => absurd ba (Nat.lt_asymm ab)⟩

theorem rank_of_next? (next : b.next? = some c) : c.rank = b.rank + 1 := by
  obtain ⟨level, strain, low, high⟩ := b
  -- after notrump the level goes up
  cases strain with
  | notrump =>
    simp only [next?] at next
    split at next
    · cases next
      simp only [rank, Strain.rank]
      omega
    · cases next
  | clubs | diamonds | hearts | spades =>
    cases next
    simp [rank, Strain.rank, Strain.next]

theorem rank_of_next?_eq_none (top : b.next? = none) : b.rank = 35 := by
  obtain ⟨level, strain, low, high⟩ := b
  cases strain with
  | notrump =>
    simp only [next?] at top
    split at top
    · cases top
    · simp only [rank, Strain.rank]
      omega
  | clubs | diamonds | hearts | spades => cases top

/-- Place of a contract on the ladder; where there is none yet, below all bids. -/
def rankOf (last : Option Bid) : Nat := (last.map rank).getD 0

@[simp] theorem rankOf_some (b : Bid) : rankOf (some b) = b.rank := rfl

theorem rankOf_lt_iff : rankOf last < b.rank ↔ ∀ a, last = some a → a < b := by
  have := b.rank_pos
  cases last with
  | none => simpa
  | some a => simp [lt_iff]

theorem rank_of_above? (next : above? last = some b) : b.rank = rankOf last + 1 := by
  cases last with
  | none =>
    cases next
    rfl
  | some a => exact rank_of_next? next

theorem rankOf_of_above?_eq_none (top : above? last = none) : rankOf last = 35 := by
  cases last with
  | none => cases top
  | some a => exact rank_of_next?_eq_none top

/-! ## All bids -/

theorem map_rank_all : all.map rank = List.range' 1 35 := by decide

theorem length_all : all.length = 35 := by
  rw [← List.length_map rank, map_rank_all, List.length_range']

theorem pairwise_all : all.Pairwise (· < ·) := by
  have ranks : (all.map rank).Pairwise (· < ·) := map_rank_all ▸ List.pairwise_lt_range'
  rwa [List.pairwise_map] at ranks

/-- The bids above a contract, in ascending order. -/
def allAbove (last : Option Bid) : List Bid := all.filter fun b => rankOf last < b.rank

theorem mem_allAbove_iff : b ∈ allAbove last ↔ rankOf last < b.rank := by
  simp [allAbove, mem_all]

theorem pairwise_allAbove (last : Option Bid) : (allAbove last).Pairwise (· < ·) :=
  pairwise_all.filter _

theorem allAbove_eq (last : Option Bid) :
    allAbove last = match above? last with
      | none => []
      | some b => b :: allAbove (some b) := by
  cases next : above? last with
  | none =>
    rw [List.eq_nil_iff_forall_not_mem]
    intro c above
    have := mem_allAbove_iff.1 above
    have := rankOf_of_above?_eq_none next
    have := c.rank_le
    omega
  | some b =>
    have place := rank_of_above? next
    have ascending : (b :: allAbove (some b)).Pairwise (· < ·) :=
      (pairwise_allAbove (some b)).cons fun c => mem_allAbove_iff.1
    refine (pairwise_allAbove last).eq_of_mem_iff ascending fun c => ?_
    have same : c = b ↔ c.rank = b.rank := ⟨congrArg rank, rank_inj⟩
    rw [List.mem_cons, mem_allAbove_iff, mem_allAbove_iff, same, rankOf_some]
    omega

end BidBook.Bid

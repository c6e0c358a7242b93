/-! # Calls

The vocabulary of the auction: strains, contract bids and calls.

* `Strain` — the five strains, clubs lowest and notrump highest.
* `Bid` — a contract bid; its level lies between one and seven by construction.
* `Call` — pass, double, redouble or a contract bid.
* `Bid.rank` — the place of a bid in the ascending ladder of the thirty-five bids; the order on bids
  is the order of their ranks. Pass, double and redouble have no place in it.
-/

namespace BidBook

/-! ## Strains -/

inductive Strain where
  | clubs
  | diamonds
  | hearts
  | spades
  | notrump
  deriving DecidableEq, Repr

namespace Strain

def all : List Strain := [clubs, diamonds, hearts, spades, notrump]

/-- Position in bidding order, counted from one. -/
def rank : Strain → Nat
  | clubs => 1
  | diamonds => 2
  | hearts => 3
  | spades => 4
  | notrump => 5

def short : Strain → String
  | clubs => "C"
  | diamonds => "D"
  | hearts => "H"
  | spades => "S"
  | notrump => "NT"

/-- Display form: the suit's symbol. Notrump has none and keeps its abbreviation. -/
def symbol : Strain → String
  | clubs => "♣"
  | diamonds => "♦"
  | hearts => "♥"
  | spades => "♠"
  | notrump => "NT"

/-- Following strain in bidding order; clubs come again after notrump. -/
def next : Strain → Strain
  | clubs => diamonds
  | diamonds => hearts
  | hearts => spades
  | spades => notrump
  | notrump => clubs

theorem mem_all (s : Strain) : s ∈ all := by cases s <;> decide

theorem rank_pos (s : Strain) : 1 ≤ s.rank := by cases s <;> decide

theorem rank_le (s : Strain) : s.rank ≤ 5 := by cases s <;> decide

theorem rank_inj {s t : Strain} (h : s.rank = t.rank) : s = t := by
  cases s <;> cases t <;> first | rfl | cases h

def shortOf (s : Option Strain) : String := (s.map short).getD ""

def symbolOf (s : Option Strain) : String := (s.map symbol).getD ""

/-- Position of a strain that may be absent; an absent one stands below clubs. -/
def rankOf (s : Option Strain) : Nat := (s.map rank).getD 0

end Strain

/-! ## Contract bids -/

structure Bid where
  level : Nat
  strain : Strain
  one_le_level : 1 ≤ level
  level_le_seven : level ≤ 7
  deriving DecidableEq

namespace Bid

/-- Written form, such as `1C` and `7NT`. -/
def text (b : Bid) : String := toString b.level ++ b.strain.short

def symbolText (b : Bid) : String := toString b.level ++ b.strain.symbol

/-- Place on the ladder of all bids, from 1 for `1C` to 35 for `7NT`. -/
def rank (b : Bid) : Nat := 5 * (b.level - 1) + b.strain.rank

instance : LT Bid := ⟨fun a b => a.rank < b.rank⟩

instance : LE Bid := ⟨fun a b => a.rank ≤ b.rank⟩

instance (a b : Bid) : Decidable (a < b) := inferInstanceAs (Decidable (a.rank < b.rank))

instance (a b : Bid) : Decidable (a ≤ b) := inferInstanceAs (Decidable (a.rank ≤ b.rank))

theorem lt_iff {a b : Bid} : a < b ↔ a.rank < b.rank := Iff.rfl

theorem rank_pos (b : Bid) : 1 ≤ b.rank := by
  have := b.strain.rank_pos
  unfold rank
  omega

theorem rank_le (b : Bid) : b.rank ≤ 35 := by
  have := b.strain.rank_le
  have := b.level_le_seven
  unfold rank
  omega

/-- A bid is determined by its place on the ladder. -/
theorem rank_inj {a b : Bid} (h : a.rank = b.rank) : a = b := by
  obtain ⟨la, sa, ha, _⟩ := a
  obtain ⟨lb, sb, hb, _⟩ := b
  have h1 := sa.rank_pos
  have h2 := sa.rank_le
  have h3 := sb.rank_pos
  have h4 := sb.rank_le
  simp only [rank] at h
  have hl : la = lb := by omega
  have hs : sa = sb := Strain.rank_inj (by omega)
  subst hl
  subst hs
  rfl

def lowest : Bid := ⟨1, .clubs, by decide, by decide⟩

def next? (b : Bid) : Option Bid :=
  match b.strain with
  | .notrump =>
    if h : b.level + 1 ≤ 7 then some ⟨b.level + 1, .clubs, Nat.le_add_left 1 b.level, h⟩ else none
  | s => some ⟨b.level, s.next, b.one_le_level, b.level_le_seven⟩

def all : List Bid :=
  (List.finRange 7).flatMap fun l =>
    Strain.all.map fun s => ⟨l.val + 1, s, Nat.le_add_left 1 l.val, l.isLt⟩

theorem mem_all (b : Bid) : b ∈ all := by
  obtain ⟨level, strain, low, high⟩ := b
  refine List.mem_flatMap.2 ⟨⟨level - 1, by omega⟩, List.mem_finRange _, ?_⟩
  refine List.mem_map.2 ⟨strain, strain.mem_all, ?_⟩
  simp only [Bid.mk.injEq, and_true]
  omega

end Bid

/-! ## Calls -/

/-- What a player may say at a turn, legal or not. -/
inductive Call where
  | pass
  | double
  | redouble
  | bid (b : Bid)
  deriving DecidableEq

/-- Why there is no such call. -/
inductive InvalidCall where
  /-- A level was given without a strain, and it is not the code of pass, double or redouble. -/
  | needsStrain (level : Int)
  /-- The level of a contract bid is below one or above seven. -/
  | levelOutOfRange (level : Int) (strain : Strain)
  /-- Only contract bids stand on the ladder. -/
  | noNextStep (call : Call)

/-- Two calls without a common order. -/
structure Incomparable where
  left : Call
  right : Call

namespace Call

/-- Written form: `P`, `X`, `XX`, or the bid's. -/
def text : Call → String
  | pass => "P"
  | double => "X"
  | redouble => "XX"
  | bid b => b.text

/-- Display form: as the written form, with suit symbols. -/
def symbolText : Call → String
  | bid b => b.symbolText
  | c => c.text

def strain? : Call → Option Strain
  | bid b => some b.strain
  | _ => none

/-- Abbreviation of the strain, empty for pass, double and redouble. -/
def strainText (c : Call) : String := Strain.shortOf c.strain?

def bid? : Call → Option Bid
  | bid b => some b
  | _ => none

def isContract (c : Call) : Bool := c.bid?.isSome

/-- Level of a bid; pass, double and redouble are coded as zero, minus one and minus two. -/
def levelCode : Call → Int
  | pass => 0
  | double => -1
  | redouble => -2
  | bid b => b.level

/-- The call with a given level code and strain. -/
def ofLevel? (level : Int) : Option Strain → Except InvalidCall Call
  | none =>
    if level = 0 then .ok pass
    else if level = -1 then .ok double
    else if level = -2 then .ok redouble
    else .error (.needsStrain level)
  | some s =>
    if h : 1 ≤ level.toNat ∧ level.toNat ≤ 7 then .ok (bid ⟨level.toNat, s, h.1, h.2⟩)
    else .error (.levelOutOfRange level s)

/-- The next dearer bid after a contract bid, none after `7NT`. -/
def nextStep : Call → Except InvalidCall (Option Bid)
  | bid b => .ok b.next?
  | c => .error (.noNextStep c)

/-- Compares two contract bids by `test`; other calls have no order. -/
def compareBids (test : Bid → Bid → Bool) : Call → Call → Except Incomparable Bool
  | bid a, bid b => .ok (test a b)
  | a, b => .error ⟨a, b⟩

/-- Bucket of a call in a table: bids have one each, and double and redouble share one. -/
def bucket : Call → UInt64
  | pass => 0
  | double => 1
  | redouble => 1
  | bid b => 1 + b.rank.toUInt64

instance : Hashable Call := ⟨bucket⟩

/-- Every call: pass, double and redouble, then the contract bids in ascending order. -/
def all : List Call := [pass, double, redouble] ++ Bid.all.map bid

theorem mem_all (c : Call) : c ∈ all := by
  cases c with
  | bid b => exact List.mem_append_right _ (List.mem_map_of_mem b.mem_all)
  | pass => decide
  | double => decide
  | redouble => decide

end Call

namespace InvalidCall

def message : InvalidCall → String
  | needsStrain level => s!"Level {level} needs a strain"
  | levelOutOfRange level _ => s!"Contract level must be between 1 and 7, got {level}"
  | noNextStep call => s!"{call.text} has no next step"

def level : InvalidCall → Int
  | needsStrain level => level
  | levelOutOfRange level _ => level
  | noNextStep call => call.levelCode

/-- The strain given with the level at fault. -/
def strain? : InvalidCall → Option Strain
  | levelOutOfRange _ strain => some strain
  | _ => none

end InvalidCall

def Incomparable.message (e : Incomparable) : String :=
  s!"Ordering is only defined between contract calls, got {e.left.text} and {e.right.text}"

end BidBook

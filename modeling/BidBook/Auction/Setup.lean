import BidBook.Auction

/-! # Auctions set up by hand

A state of an auction may be set up by hand, without the calls that lead to it. Then it may be one that no
auction reaches: with a contract but no last call, with a call that is no bid as the contract, or with a
negative number of passes. Some questions about such a state have no answer.

* `Setup.judge` — may this call come next, if that can be said.
* `Setup.judge_ofState` — for the states of auctions it always can, and the answer is that of `accepts`.
-/

namespace BidBook.Auction

/-- What the legality of the next call depends on, set up by hand. -/
structure Setup where
  /-- Passes since the last other call. -/
  passes : Int
  /-- The last call other than a pass. -/
  last : Option Call
  /-- The highest contract so far. -/
  highest : Option Call
  deriving DecidableEq

namespace Setup

/-- Why it cannot be said whether a call may come next. -/
inductive Obstacle where
  /-- There is a contract to double, but no last call. -/
  | noLastCall
  /-- The contract to outbid is no bid. -/
  | noContract
  deriving DecidableEq, Repr

def ofState (s : State) : Setup := ⟨s.passes, s.last, s.highest.map .bid⟩

def targetsPartner (s : Setup) : Bool := s.passes == 1 || s.passes == 3

def judge (s : Setup) : Call → Except Obstacle Bool
  | .pass => .ok (s.passes < 3)
  | .double =>
    if s.highest.isNone || s.targetsPartner then .ok false
    else match s.last with
      | none => .error .noLastCall
      | some c => .ok !(c == .double || c == .redouble)
  | .redouble => .ok (s.last == some .double && !s.targetsPartner)
  | .bid b =>
    match s.highest with
    | none => .ok true
    | some (.bid h) => .ok (decide (h < b))
    | some _ => .error .noContract

def advance (s : Setup) : Call → Setup
  | .pass => { s with passes := s.passes + 1 }
  | .bid b => ⟨0, some (.bid b), some (.bid b)⟩
  | c => ⟨0, some c, s.highest⟩

def after? (s : Setup) (call : Call) : Except Obstacle (Option Setup) :=
  (s.judge call).map fun accepted => if accepted then some (s.advance call) else none

theorem targetsPartner_ofState (s : State) : (ofState s).targetsPartner = s.targetsPartner := by
  have same (n : Nat) : ((s.passes : Int) == n) = (s.passes == n) := by
    rw [Bool.eq_iff_iff, beq_iff_eq, beq_iff_eq]
    exact Int.ofNat_inj
  exact congr (congrArg or (same 1)) (same 3)

/-- Where a contract comes with a last call, as in every auction, the answer is that of the auction. -/
theorem judge_ofState {s : State} (h : s.highest.isSome = true → s.last.isSome = true) (c : Call) :
    (ofState s).judge c = .ok (s.accepts c) := by
  cases c with
  | pass =>
    have few : (ofState s).passes < 3 ↔ s.passes < 3 := Int.ofNat_lt
    simp only [judge, State.accepts]
    exact congrArg Except.ok (decide_eq_decide.2 few)
  | double =>
    unfold judge
    rw [targetsPartner_ofState]
    rcases s with ⟨p, _ | l, _ | b⟩ <;> simp_all [ofState, State.accepts]
    split <;> simp_all
  | redouble =>
    unfold judge
    rw [targetsPartner_ofState]
    rfl
  | bid b => cases hb : s.highest <;> simp [judge, ofState, State.accepts, hb]

end Setup

end BidBook.Auction

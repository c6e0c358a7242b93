import BidBook.Call
import BidBook.Text.Parts

/-! # Auctions

Legality of a sequence of calls. A state remembers what later calls may depend on, and each call
either is refused or leads to the next state. A sequence is legal when no call in it is refused;
no final state is required, so every beginning of a legal auction is legal.

* `Auction.State.accepts` — may this call come next.
* `Auction.State.after?` — the state after an accepted call.
* `Auction.run?` — the state after a whole sequence.
-/

namespace BidBook

namespace Auction

/-- What the legality of the next call depends on. -/
structure State where
  /-- Passes since the last other call. -/
  passes : Nat := 0
  /-- The last call other than a pass. -/
  last : Option Call := none
  /-- The highest contract bid so far. -/
  highest : Option Bid := none
  deriving DecidableEq

namespace State

/-- The last call other than a pass was made by the partner of the player whose turn it is:
two or four players ago. -/
def targetsPartner (s : State) : Bool := s.passes == 1 || s.passes == 3

/-- May `call` be made in state `s`?

* A fourth pass in a row is refused.
* A double needs an opponent's contract bid that is not yet doubled.
* A redouble needs an opponent's double.
* A bid has to be above the highest one.
-/
def accepts (s : State) : Call → Bool
  | .pass => s.passes < 3
  | .double =>
    s.highest.isSome && !s.targetsPartner
      && !(s.last == some .double || s.last == some .redouble)
  | .redouble => s.last == some .double && !s.targetsPartner
  | .bid b =>
    match s.highest with
    | none => true
    | some h => decide (h < b)

/-- The state after `call`, without asking whether it is accepted. -/
def advance (s : State) : Call → State
  | .pass => { s with passes := s.passes + 1 }
  | .bid b => ⟨0, some (.bid b), some b⟩
  | c => ⟨0, some c, s.highest⟩

def after? (s : State) (call : Call) : Option State :=
  if s.accepts call then some (s.advance call) else none

/-- Runs the calls of a sequence one after another; none if one of them is refused. -/
def run? : State → List Call → Option State
  | s, [] => some s
  | s, c :: rest => (s.after? c).bind fun s' => s'.run? rest

@[simp] theorem run?_nil (s : State) : s.run? [] = some s := rfl

theorem run?_cons (s : State) (c : Call) (rest : List Call) :
    s.run? (c :: rest) = (s.after? c).bind fun s' => s'.run? rest := rfl

theorem run?_append (s : State) (xs ys : List Call) :
    s.run? (xs ++ ys) = (s.run? xs).bind fun s' => s'.run? ys := by
  induction xs generalizing s with
  | nil => rfl
  | cons c rest ih =>
    simp only [List.cons_append, run?_cons, Option.bind_assoc, ih]

theorem after?_isSome (s : State) (c : Call) : (s.after? c).isSome = s.accepts c := by
  unfold after?
  split <;> simp_all

end State

def run? (calls : List Call) : Option State := State.run? {} calls

/-- A complete or partial auction in which no call is refused. -/
def isLegal (calls : List Call) : Bool := (run? calls).isSome

/-- May `call` follow a history? Nothing may follow an illegal one. -/
def allows (history : List Call) (call : Call) : Bool :=
  match run? history with
  | none => false
  | some s => s.accepts call

/-- The calls that may follow a history: pass, double and redouble first, then the bids in
ascending order. -/
def nextCalls (history : List Call) : List Call :=
  match run? history with
  | none => []
  | some s => Call.all.filter s.accepts

def text (separator : String) (calls : List Call) : String :=
  String.ofList (Text.joinWith separator.toList (calls.map (·.text.toList)))

end Auction

end BidBook

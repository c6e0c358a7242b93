import BidBook.Value

/-! # Events

What expansion and pruning report while they run, in the order in which it happens.

* `Event` — one report.
* `Event.title`, `Event.subsystem`, `Event.level`, `Event.kind?` — the words that go with it.
-/

namespace BidBook

/-- Counts and other details that come with an event. -/
abbrev Details := List (String × Value)

/-- A report. `sequence` tells the position it is about. -/
inductive Event where
  /-- A stage of the expansion is complete. -/
  | stage (stage sequence : String) (details : Details)
  /-- The last relay steps of a position would be bids above the highest one. -/
  | stepsDropped (sequence : String) (dropped : Nat)
  /-- A position and all below it have been removed. -/
  | pruned (sequence reason : String) (details : Details)

namespace Event

def title : Event → String
  | stage _ _ _ => "Expansion stage complete"
  | stepsDropped _ _ => "Relay steps run past 7NT"
  | pruned _ _ _ => "Pruned subtree"

def subsystem : Event → String
  | stage _ _ _ => "expansion"
  | stepsDropped _ _ => "expansion"
  | pruned _ _ _ => "auction"

def level : Event → String
  | stepsDropped _ _ => "warning"
  | _ => "debug"

/-- What kind of event it is; a warning is of none. -/
def kind? : Event → Option String
  | stage _ _ _ => some "expansion_stage"
  | stepsDropped _ _ => none
  | pruned _ _ _ => some "prune_decision"

end Event

end BidBook

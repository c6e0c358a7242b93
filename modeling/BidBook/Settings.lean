import BidBook.Token

/-! # Settings

What may be chosen about a compilation, with the values that hold where nothing is chosen. -/

namespace BidBook

/-- How open suits and relay steps are written out. -/
structure ExpansionSettings where
  /-- Suits that `M` stands for. -/
  majorSuits : List String := ["H", "S"]
  /-- Suits that `m` stands for. -/
  minorSuits : List String := ["C", "D"]
  /-- Suits that `X` stands for. -/
  anySuits : List String := ["C", "D", "H", "S"]
  /-- Bids made by relay steps are alerted. -/
  relayAlertable : Bool := true
  deriving DecidableEq

def ExpansionSettings.suits (s : ExpansionSettings) : Wildcard → List String
  | .major => s.majorSuits
  | .minor => s.minorSuits
  | .any => s.anySuits

structure PruningSettings where
  /-- Those whose auction is illegal. -/
  illegal : Bool := true
  /-- Those without a description that lead nowhere. -/
  empty : Bool := true
  deriving DecidableEq

structure DisplaySettings where
  /-- Suits are shown by their symbols. -/
  suitSymbols : Bool := false
  /-- What stands between the calls of a sequence. -/
  separator : String := "-"
  deriving DecidableEq

structure Settings where
  expansion : ExpansionSettings := {}
  pruning : PruningSettings := {}
  display : DisplaySettings := {}
  deriving DecidableEq

end BidBook

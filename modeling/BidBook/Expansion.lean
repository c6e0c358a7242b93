import BidBook.Expansion.Binding
import BidBook.Expansion.Choice
import BidBook.Expansion.Relay

/-! # Expansion

A tree as it is written becomes a tree of calls in three stages: choices are replaced by their branches,
open suits are bound, and relay steps are attached.

* `Node.expand` — all three stages, with a report on each.
* `Node.expandWithin` — the same, as far as it stays within the limits.
-/

namespace BidBook

/-- Where a tree hangs: the token that leads to its root, and the places above it, nearest first. -/
structure Position where
  token : Option Token := none
  above : List Place := []

namespace Position

/-- The places of a node in this position and of those above it. -/
def places (p : Position) (n : Node) : List Place := n.place p.token :: p.above

def keys (p : Position) : List Key := Place.keys (⟨p.token, .empty⟩ :: p.above)

def text (p : Position) : String := pathText "-" p.keys

def glossaries (p : Position) : List Glossary := p.above.map (·.glossary)

end Position

namespace Node

def expand (settings : ExpansionSettings) (p : Position) (n : Node) : Node × List Event :=
  let (n, flattened) := n.flatten
  let (n, alternatives) := n.expandWildcards settings p.glossaries p.token
  let (n, spliced, warnings) := n.splice settings (p.places n)
  let report (stage counted : String) (count : Nat) : Event :=
    .stage stage p.text [(counted, .int count)]
  (n, report "alternation" "flattened" flattened
    :: report "wildcards" "alternatives" alternatives
    :: warnings ++ [report "steps" "spliced" spliced])

/-- Expands a tree in a position. If binding would exceed a limit, only choices are replaced. -/
def expandWithin (settings : ExpansionSettings) (p : Position) (n : Node) :
    Node × Except Excess (List Event) :=
  match n.flatten.1.wildcardExcess? settings p.token with
  | some e => (n.flatten.1, .error e)
  | none =>
    let (n, events) := n.expand settings p
    (n, .ok events)

end Node

end BidBook

import BidBook.Event
import BidBook.Node.Merge
import BidBook.Node.Resolve
import BidBook.Settings

/-! # Relay steps

The relay steps of a position are its continuations at successive bids: the first at the next bid above
the last contract of its auction, the second at the one above that, and so on. Steps for which no bid is
left are dropped.

* `Node.attachSteps` — the steps of one position, attached.
* `Node.splice` — the whole tree, with all relay steps attached.
-/

namespace BidBook

/-- The cheapest bid above the last contract, if there is one. -/
def Bid.above? : Option Bid → Option Bid
  | none => some .lowest
  | some b => b.next?

namespace Node

/-- Attaches relay steps to the children of a position whose last contract is `last`. Gives the children
and the number of steps attached. -/
def attachSteps (alertable : Bool) :
    Option Bid → List Node → List (Token × Node) → List (Token × Node) × Nat
  | _, [], cs => (cs, 0)
  | last, step :: rest, cs =>
    match Bid.above? last with
    | none => (cs, 0)
    | some b =>
      let t := Token.ofCall (.bid b)
      let child := (mergeInto step (childOrNew t cs)).mapContent fun c =>
        { c with alertable := c.alertable || alertable }
      let (cs, attached) := attachSteps alertable (some b) rest (putChild t child cs)
      (cs, attached + 1)

/-- Attaches relay steps level by level. `path` holds the places above the tree, nearest first, and its
own one before them. The fuel bounds the number of levels. -/
def spliceFuel (alertable : Bool) : Nat → List Place → Node → Node × Nat × List Event
  | 0, _, n => (n, 0, [])
  | fuel + 1, path, mk c ss cs =>
    let (cs', attached) := attachSteps alertable (Place.lastBid? path) ss cs
    let dropped := ss.length - attached
    let warnings :=
      if dropped = 0 then [] else [Event.stepsDropped (pathText "-" (Place.keys path)) dropped]
    let below := cs'.map fun e =>
      (e.1, spliceFuel alertable fuel (e.2.place (some e.1) :: path) e.2)
    (mk c [] (below.map fun e => (e.1, e.2.1)),
      attached + (below.map (·.2.2.1)).sum,
      warnings ++ below.flatMap (·.2.2.2))

/-- The tree with all relay steps attached, their number, and a warning for each position where some were
dropped. What is merged into a child is never higher than the tree it hung on, so its height bounds the
number of levels. -/
def splice (settings : ExpansionSettings) (path : List Place) (n : Node) :
    Node × Nat × List Event :=
  spliceFuel settings.relayAlertable n.height path n

end Node

end BidBook

import BidBook.Auction
import BidBook.Expansion

/-! # Pruning

Takes out of a tree what is of no use: positions whose auction is illegal, those whose call was never
found out, and those that say nothing and lead nowhere.

* `Removal` — why a position is removed.
* `Node.prune` — the tree without such positions.
-/

namespace BidBook

inductive Removal where
  /-- A choice or an open suit is left on its own token. -/
  | unexpanded
  /-- Some call on the way to it is not known. -/
  | unresolved
  | illegal
  | empty
  deriving DecidableEq, Repr

namespace Removal

def word : Removal → String
  | unexpanded => "unexpanded"
  | unresolved => "unresolved"
  | illegal => "illegal"
  | empty => "empty"

end Removal

/-- Why a child is to be removed once its own children have been pruned. `path` holds its place and those
above it. -/
def Removal.reason? (settings : PruningSettings) (path : List Place) (t : Token) (n : Node) :
    Option Removal :=
  match Place.auction? path with
  | none => some (if Token.isConcrete t.raw then .unresolved else .unexpanded)
  | some calls =>
    if settings.illegal && !Auction.isLegal calls then some .illegal
    else if settings.empty && n.isEmpty then some .empty
    else none

namespace Node

mutual

/-- Prunes a tree below its root, children before parents. `path` holds its place and those above it.
Gives the tree, the number of positions removed, and a report on each. -/
def prune (settings : PruningSettings) (path : List Place) : Node → Node × Nat × List Event
  | mk c ss cs =>
    let (cs, removed, events) := pruneChildren settings path cs
    (mk c ss cs, removed, events)

def pruneChildren (settings : PruningSettings) (path : List Place) :
    List (Token × Node) → List (Token × Node) × Nat × List Event
  | [] => ([], 0, [])
  | (t, n) :: rest =>
    let here := n.place (some t) :: path
    let (n, removed, events) := n.prune settings here
    let (kept, removed', events') := pruneChildren settings path rest
    match Removal.reason? settings here t n with
    | none => ((t, n) :: kept, removed + removed', events ++ events')
    | some reason =>
      (kept, removed + n.size + removed',
        events ++ .pruned (pathText "-" (Place.keys here)) reason.word [] :: events')

end

end Node

end BidBook

import BidBook.Node.Merge

/-! # Choices

A child written `2m|2NT` stands for one child per branch. Each branch gets a copy of it; a branch whose
key is taken already is merged into the sibling that has it.

* `Node.flatten` — the tree without choices, and how many there were.
-/

namespace BidBook.Node

/-- What a child stands for: copies under the branches of a choice, or itself. -/
def candidates (t : Token) (n : Node) : List (Token × Node) :=
  if t.isChoice then t.alternatives.map fun branch => (branch, n.copyUnder branch) else [(t, n)]

/-- Places a candidate: a new key goes behind all others, a known one is merged with. -/
def placeCandidate (cs : List (Token × Node)) (candidate : Token × Node) : List (Token × Node) :=
  match find? candidate.1.key cs with
  | none => cs ++ [candidate]
  | some present => putChild candidate.1 (mergeInto candidate.2 present) cs

/-- Children without choices on this level. -/
def flattenLevel (cs : List (Token × Node)) : List (Token × Node) :=
  (cs.flatMap fun e => candidates e.1 e.2).foldl placeCandidate []

def choiceCount (cs : List (Token × Node)) : Nat := cs.countP fun e => e.1.isChoice

/-- Flattens level by level, children before relay steps. The fuel bounds the number of levels. -/
def flattenFuel : Nat → Node → Node × Nat
  | 0, n => (n, 0)
  | fuel + 1, mk c ss cs =>
    let level := (flattenLevel cs).map fun e => (e.1, flattenFuel fuel e.2)
    let steps := ss.map (flattenFuel fuel)
    (mk c (steps.map (·.1)) (level.map fun e => (e.1, e.2.1)),
      choiceCount cs + (level.map (·.2.2)).sum + (steps.map (·.2)).sum)

/-- The tree with every choice replaced by its branches, and the number of choices replaced. Neither
copies nor merges make a tree higher, so its height bounds the number of levels. -/
def flatten (n : Node) : Node × Nat := flattenFuel n.height n

end BidBook.Node

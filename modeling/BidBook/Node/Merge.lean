import BidBook.Node

/-! # Merging

Folds one tree into another. A description goes with its marks and its priority, and replaces one of
lower priority or none at all; relay steps do the same. Shorthands are added, and children are merged
key by key. The tree that was there first wins where priorities are equal.

* `Node.mergeInto` — merges a source into a target.
-/

namespace BidBook.Node

def mergeContent (source target : Content) : Content :=
  let outranks := decide (target.priority < source.priority)
  let described :=
    if source.isDescribed && (outranks || !target.isDescribed) then
      { target with
        description := source.description, priority := source.priority
        alertable := source.alertable, announceable := source.announceable, tag := source.tag
        resolved := none }
    else target
  { described with glossary := described.glossary.addAll source.glossary.entries }

def mergeSteps (outranks : Bool) (source target : List Node) : List Node :=
  if !source.isEmpty && (outranks || target.isEmpty) then copySteps source else target

/-- A new shorthand may change every description below, so none is remembered any longer. -/
def forgetIf (stale : Bool) (c : Content) (cs : List (Token × Node)) :
    Content × List (Token × Node) :=
  if stale then (c.forget, forgetChildren cs) else (c, cs)

mutual

def mergeInto : Node → Node → Node
  | mk sc sss scs, target =>
    let outranks := decide (target.content.priority < sc.priority)
    let stale := target.content.glossary.misses sc.glossary.entries
    let (c, cs) := forgetIf stale (mergeContent sc target.content) target.children
    mk c (mergeSteps outranks sss target.steps) (mergeChildren scs cs)

def mergeChildren : List (Token × Node) → List (Token × Node) → List (Token × Node)
  | [], cs => cs
  | (t, n) :: rest, cs => mergeChildren rest (putChild t (mergeInto n (childOrNew t cs)) cs)

end

/-- Merges a source into a copy of a target. -/
def merged (source target : Node) : Node := mergeInto source target.copy

end BidBook.Node

import BidBook.Node.Merge
import BidBook.Node.Resolve
import BidBook.Settings

/-! # Open suits

A binding chooses a suit for each kind of wildcard, the same one wherever that kind occurs in a tree. Each
binding gives one copy of the tree, and the copies are merged.

* `Binding.enumerate` — every combination of suits for the kinds that occur.
* `Node.bind` — the copy of a tree that a binding gives.
* `Node.expandWildcards` — a tree with all its copies merged into it.
* `Node.wildcardExcess?` — whether that stays within the limits.
-/

namespace BidBook

/-- The suits chosen for kinds of wildcards. -/
structure Binding where
  suits : List (Wildcard × String)
  deriving DecidableEq

namespace Binding

def suit? (b : Binding) (w : Wildcard) : Option String := b.suits.lookup w

/-- Shorthands that a suit chosen for a kind gives. For a major or minor suit there is one for the
other suit of its kind, too. -/
def shorthandsFor : Wildcard → String → List Shorthand
  | .major, suit => [⟨"\\$M", suit⟩, ⟨"\\$OM", if suit = "H" then "S" else "H"⟩]
  | .minor, suit => [⟨"\\$m", suit⟩, ⟨"\\$Om", if suit = "C" then "D" else "C"⟩]
  | .any, suit => [⟨"\\$X", suit⟩]

def shorthands (b : Binding) (w : Wildcard) : List Shorthand :=
  ((b.suit? w).map (shorthandsFor w)).getD []

/-- Combinations of one suit for each of several kinds, the first kind varying slowest. -/
def combine (suits : Wildcard → List String) : List Wildcard → List (List (Wildcard × String))
  | [] => [[]]
  | w :: rest => (suits w).flatMap fun s => (combine suits rest).map ((w, s) :: ·)

/-- The bindings of the kinds that occur, in the order major, minor, any. -/
def enumerate (settings : ExpansionSettings) (occurs : Wildcard → Bool) : List Binding :=
  (combine settings.suits (Wildcard.all.filter occurs)).map Binding.mk

end Binding

namespace Node

mutual

/-- The wildcards written in a tree, relay steps included; `token` leads to its root. -/
def wildcardsBelow : Node → List Wildcard
  | mk _ ss cs => wildcardsSteps ss ++ wildcardsChildren cs

def wildcardsSteps : List Node → List Wildcard
  | [] => []
  | n :: rest => n.wildcardsBelow ++ wildcardsSteps rest

def wildcardsChildren : List (Token × Node) → List Wildcard
  | [] => []
  | (t, n) :: rest => Token.wildcardsIn t.raw ++ n.wildcardsBelow ++ wildcardsChildren rest

end

def mentions (token : Option Token) (n : Node) (w : Wildcard) : Bool :=
  ((token.map fun t => Token.wildcardsIn t.raw).getD [] ++ n.wildcardsBelow).contains w

def bindToken (b : Binding) (t : Token) : Token :=
  if t.wildcard?.isSome then (Token.parse? (Token.bind b.suit? t.raw)).getD t else t

/-- The shorthands that a token gives under a binding. -/
def injected (b : Binding) (token : Option Token) : List Shorthand :=
  match token with
  | some t => if t.wildcard?.isSome then (Token.kinds t.raw).flatMap b.shorthands else []
  | none => []

/-- Adds shorthands that neither the glossary nor one above it holds. -/
def inject (above : List Glossary) (g : Glossary) (ss : List Shorthand) : Glossary :=
  ss.foldl (fun g s => if above.any fun a => decide (s ∈ a) then g else g.add s) g

mutual

/-- The copy of a tree under a binding. `token` leads to its root, before it is bound, and `above` are
the glossaries of the positions above it. -/
def bind (b : Binding) (above : List Glossary) (token : Option Token) : Node → Node
  | mk c ss cs =>
    let glossary := inject above c.glossary (injected b token)
    mk { c.forget with glossary } (bindSteps b ss) (bindChildren b (glossary :: above) cs [])

def bindSteps (b : Binding) : List Node → List Node
  | [] => []
  | n :: rest => n.bind b [] none :: bindSteps b rest

/-- Binds children one after another; one whose key is taken is merged into the child that has it. -/
def bindChildren (b : Binding) (above : List Glossary) :
    List (Token × Node) → List (Token × Node) → List (Token × Node)
  | [], done => done
  | (t, n) :: rest, done =>
    let t' := bindToken b t
    let n' := n.bind b above (some t)
    let done' := match find? t'.key done with
      | none => done ++ [(t', n')]
      | some present => putChild t' (mergeInto n' present) done
    bindChildren b above rest done'

end

/-- The copies of a tree, one for each binding of the wildcards that occur in it, with the tokens that
lead to their roots. There are none if no wildcard occurs. -/
def wildcardAlternatives (settings : ExpansionSettings) (above : List Glossary)
    (token : Option Token) (n : Node) : List (Option Token × Node) :=
  if Wildcard.all.any (n.mentions token) then
    (Binding.enumerate settings (n.mentions token)).map fun b =>
      (token.map (bindToken b), n.bind b above token)
  else []

/-! ## Limits -/

def tokenExcess? (b : Binding) (t : Token) : Option Excess :=
  if t.wildcard?.isSome then Token.excess? (Token.bind b.suit? t.raw) else none

mutual

def bindExcess? (b : Binding) : Node → Option Excess
  | mk _ ss cs => (bindExcessSteps? b ss).or (bindExcessChildren? b cs)

def bindExcessSteps? (b : Binding) : List Node → Option Excess
  | [] => none
  | n :: rest => (n.bindExcess? b).or (bindExcessSteps? b rest)

def bindExcessChildren? (b : Binding) : List (Token × Node) → Option Excess
  | [] => none
  | (t, n) :: rest =>
    ((tokenExcess? b t).or (n.bindExcess? b)).or (bindExcessChildren? b rest)

end

/-- The limit that binding a tree in all ways would exceed; `token` leads to its root. -/
def wildcardExcess? (settings : ExpansionSettings) (token : Option Token) (n : Node) : Option Excess :=
  if Wildcard.all.any (n.mentions token) then
    (Binding.enumerate settings (n.mentions token)).findSome? fun b =>
      (token.bind (tokenExcess? b)).or (n.bindExcess? b)
  else none

/-! ## Merging the copies -/

/-- The tree with all its copies merged into it in place of its children and relay steps, and the number
of copies. -/
def expandWildcards (settings : ExpansionSettings) (above : List Glossary)
    (token : Option Token) (n : Node) : Node × Nat :=
  match n.wildcardAlternatives settings above token with
  | [] => (n, 0)
  | alternatives =>
    (alternatives.foldl (fun target a => mergeInto a.2 target) (mk n.content [] []),
      alternatives.length)

end Node

end BidBook

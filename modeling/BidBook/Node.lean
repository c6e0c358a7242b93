import BidBook.Glossary
import BidBook.Token

/-! # Positions of a bidding system

A bidding system is a tree. A node is the position after a sequence of calls: it has a description, a
glossary for itself and all that follows, and one child for each call that may come next. A child is
reached through the token that writes the call, and siblings are told apart by the keys of their tokens.

Besides its children a node may hold relay steps: trees without a call of their own, which are still to
be attached at successive bids.

* `Node.at?` — the node at the end of a path of keys.
* `Node.put` — the tree with another node at the end of a path, which is created where it is missing.
* `Node.WellFormed` — siblings have different keys, everywhere in the tree.
-/

namespace BidBook

/-- What a position says about itself. -/
structure Content where
  /-- Text of the alert. -/
  tag : Option String := none
  alertable : Bool := false
  announceable : Bool := false
  description : Option String := none
  /-- A description replaces one of lower priority. -/
  priority : Int := 0
  glossary : Glossary := .empty
  /-- The description with shorthands written out, once it has been asked for. -/
  resolved : Option String := none
  deriving DecidableEq

/-- A position with its relay steps and the positions that follow it. -/
inductive Node where
  | mk (content : Content) (steps : List Node) (children : List (Token × Node))

namespace Content

/-- Content of a new position: the marks of the token that leads to it. -/
def ofToken (t : Token) : Content :=
  { tag := t.tag, alertable := t.alertable, announceable := t.announceable }

def isText (s : Option String) : Bool := s.any (· != "")

/-- There is a description, and it is not empty. -/
def isDescribed (c : Content) : Bool := isText c.description

/-- Without the remembered description. -/
def forget (c : Content) : Content := { c with resolved := none }

end Content

namespace Node

def content : Node → Content
  | mk c _ _ => c

def steps : Node → List Node
  | mk _ ss _ => ss

def children : Node → List (Token × Node)
  | mk _ _ cs => cs

@[simp] theorem content_mk (c : Content) (ss : List Node) (cs : List (Token × Node)) :
    (mk c ss cs).content = c := rfl

@[simp] theorem steps_mk (c : Content) (ss : List Node) (cs : List (Token × Node)) :
    (mk c ss cs).steps = ss := rfl

@[simp] theorem children_mk (c : Content) (ss : List Node) (cs : List (Token × Node)) :
    (mk c ss cs).children = cs := rfl

/-- A position about which nothing is known but the token that leads to it. -/
def ofToken (t : Token) : Node := mk (.ofToken t) [] []

/-- The empty system, with shorthands for all of it. -/
def root (shorthands : List Shorthand) : Node := mk { glossary := .ofList shorthands } [] []

def mapContent (f : Content → Content) : Node → Node
  | mk c ss cs => mk (f c) ss cs

/-- No description and nothing that follows. -/
def isEmpty (n : Node) : Bool := !n.content.isDescribed && n.children.isEmpty

/-! ## Children -/

def find? (k : Key) : List (Token × Node) → Option Node
  | [] => none
  | (t, n) :: rest => if t.key = k then some n else find? k rest

def child? (n : Node) (k : Key) : Option Node := find? k n.children

/-- Puts a child in place of the one with the same key, or behind all others. -/
def putChild (t : Token) (n : Node) : List (Token × Node) → List (Token × Node)
  | [] => [(t, n)]
  | (t', n') :: rest => if t'.key = t.key then (t', n) :: rest else (t', n') :: putChild t n rest

/-- The child reached by a token, or else the one that would be created. -/
def childOrNew (t : Token) (cs : List (Token × Node)) : Node := (find? t.key cs).getD (ofToken t)

/-! ## Paths -/

def at? : Node → List Key → Option Node
  | n, [] => some n
  | n, k :: path => (n.child? k).bind fun c => c.at? path

/-- The node at the end of a path, or else the one that would be created there. -/
def reach : Node → List Token → Node
  | n, [] => n
  | n, t :: path => (childOrNew t n.children).reach path

/-- Puts a node at the end of a path; missing positions on the way are created. -/
def put : Node → List Token → Node → Node
  | _, [], new => new
  | n, t :: path, new =>
    mk n.content n.steps (putChild t ((childOrNew t n.children).put path new) n.children)

def create (n : Node) (path : List Token) : Node := n.put path (n.reach path)

/-! ## Measures -/

mutual

/-- Number of positions. Relay steps are none as yet. -/
def size : Node → Nat
  | mk _ _ cs => 1 + sizeChildren cs

def sizeChildren : List (Token × Node) → Nat
  | [] => 0
  | (_, n) :: rest => n.size + sizeChildren rest

end

mutual

/-- Length of the longest way down, through children and relay steps alike. -/
def height : Node → Nat
  | mk _ ss cs => 1 + max (heightSteps ss) (heightChildren cs)

def heightSteps : List Node → Nat
  | [] => 0
  | n :: rest => max n.height (heightSteps rest)

def heightChildren : List (Token × Node) → Nat
  | [] => 0
  | (_, n) :: rest => max n.height (heightChildren rest)

end

mutual

/-- Number of relay steps, those inside of relay steps included. -/
def stepCount : Node → Nat
  | mk _ ss cs => stepCountSteps ss + stepCountChildren cs

def stepCountSteps : List Node → Nat
  | [] => 0
  | n :: rest => 1 + n.stepCount + stepCountSteps rest

def stepCountChildren : List (Token × Node) → Nat
  | [] => 0
  | (_, n) :: rest => n.stepCount + stepCountChildren rest

end

/-! ## Remembered descriptions -/

mutual

def forgetAll : Node → Node
  | mk c ss cs => mk c.forget ss (forgetChildren cs)

def forgetChildren : List (Token × Node) → List (Token × Node)
  | [] => []
  | (t, n) :: rest => (t, n.forgetAll) :: forgetChildren rest

end

mutual

/-- A copy; nothing is remembered in it. -/
def copy : Node → Node
  | mk c ss cs => mk c.forget (copySteps ss) (copyChildren cs)

def copySteps : List Node → List Node
  | [] => []
  | n :: rest => n.copy :: copySteps rest

def copyChildren : List (Token × Node) → List (Token × Node)
  | [] => []
  | (t, n) :: rest => (t, n.copy) :: copyChildren rest

end

/-- A copy that is reached through another token, with the marks of that token. -/
def copyUnder (t : Token) (n : Node) : Node :=
  n.copy.mapContent fun c =>
    { c with tag := t.tag, alertable := t.alertable, announceable := t.announceable }

/-! ## Well-formed trees -/

mutual

/-- Siblings have different keys, everywhere in the tree and in its relay steps. -/
def WellFormed : Node → Prop
  | mk _ ss cs => WellFormedSteps ss ∧ (cs.map fun e => e.1.key).Nodup ∧ WellFormedChildren cs

def WellFormedSteps : List Node → Prop
  | [] => True
  | n :: rest => n.WellFormed ∧ WellFormedSteps rest

def WellFormedChildren : List (Token × Node) → Prop
  | [] => True
  | (_, n) :: rest => n.WellFormed ∧ WellFormedChildren rest

end

end Node

end BidBook

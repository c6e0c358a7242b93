import BidBook.Expansion

/-! # Trees and their positions

A tree on its own. Its root is the beginning of the auction, or, in a tree that was cut out of another, the
position that a token led to.

* `Item` — one member of a path: a text still to be read, or a call.
* `Item.readPath` — the tokens of a path, within the limits.
* `Tree.select?`, `Tree.find` — the node at the end of a path, with its position.
* `Tree.replace` — the tree with another node at the end of a path.
-/

namespace BidBook

inductive Item where
  | text (raw : String)
  | call (c : Call)
  deriving DecidableEq

namespace Item

/-- The token that a member of a path means; a blank text means none. -/
def read : Item → Except Excess (Option Token)
  | text raw => Token.read raw
  | call c => .ok (some (.ofCall c))

/-- The tokens of a path, up to the first member that exceeds a limit. -/
def readPath : List Item → List Token × Option Excess
  | [] => ([], none)
  | item :: rest =>
    match item.read with
    | .error e => ([], some e)
    | .ok t =>
      let (ts, e?) := readPath rest
      (t.toList ++ ts, e?)

def ofSequence (text : String) : List Item := (Sequence.split text).map Item.text

end Item

structure Tree where
  /-- The token that led to the root where the tree was cut out. -/
  token : Option Token := none
  root : Node

namespace Tree

/-- The node at the end of a path, and its position, going down from a node in some position. -/
def selectFrom? : Position → Node → List Token → Option (Position × Node)
  | p, n, [] => some (p, n)
  | p, n, t :: path =>
    -- a child keeps the token by which it was first reached
    match n.children.find? fun e => e.1.key = t.key with
    | some (t', c) => selectFrom? ⟨some t', p.places n⟩ c path
    | none => none

def select? (t : Tree) (path : List Token) : Option (Position × Node) :=
  selectFrom? ⟨t.token, []⟩ t.root path

/-- The node at the end of a written path. What comes behind a missing position is not read. -/
def find (t : Tree) (path : List Item) : Except Excess (Option (Position × Node)) :=
  let (ts, e?) := Item.readPath path
  match t.select? ts, e? with
  | none, _ => .ok none
  | some _, some e => .error e
  | found, none => .ok found

/-- Creates the missing positions of a written path, as far as it can be read. -/
def create (t : Tree) (path : List Item) : Tree × Option Excess :=
  let (ts, e?) := Item.readPath path
  ({ t with root := t.root.create ts }, e?)

def replace (t : Tree) (path : List Token) (new : Node) : Tree :=
  { t with root := t.root.put path new }

/-- A copy. Under a token it is reached by that token, with its marks. -/
def detach (under : Option Token) (p : Position) (n : Node) : Tree :=
  match under with
  | some t => ⟨some t, n.copyUnder t⟩
  | none => ⟨p.token, n.copy⟩

end Tree

end BidBook

import BidBook.Yaml.Lexer
import BidBook.Yaml.Scalar

/-! # Nodes of a YAML document

The signs of a text as a tree of scalars, sequences and mappings. An alias stands for the node that bears
its anchor. Signs are asked for one after another, so that of two faults the one that comes first counts.

* `Yaml.Node` — the nodes.
* `Yaml.Node.ofChars` — the node that a text writes; none for an empty text.
-/

namespace BidBook.Yaml

inductive Node where
  | scalar (kind : Kind) (text : String)
  | sequence (kind : Kind) (items : List Node)
  | mapping (kind : Kind) (entries : List (Node × Node))
  /-- A collection inside of itself, under its anchor: the one in which this node stands, or the one that many
  levels further up. -/
  | again (up : Nat)
  deriving Repr

namespace Node

/-- The empty scalar that stands where a node is left out. -/
def missing : Node := scalar .null ""

inductive Anchored where
  | read (n : Node)
  /-- A node that is still being read, with the number of collections around it. -/
  | unread (depth : Nat)

/-- What remains to be read, and what has been defined. -/
structure State where
  lexer : Lexer.State
  /-- Nodes by their anchors. -/
  anchors : List (String × Anchored) := []
  /-- What the handles of tags stand for. -/
  handles : List (String × String) := [("!", "!"), ("!!", "tag:yaml.org,2002:")]
  /-- Number of collections around the present place. -/
  depth : Nat := 0

abbrev Read := StateT State (Except Fault)

def fail {α : Type} : Read α := throw (.malformed .arrangement)

def peek : Read Sign := do
  let lexer ← modifyGet fun s => (s.lexer, { s with lexer := { rest := [] } })
  let (sign, lexer) ← Lexer.peekSign.run lexer
  modify fun s => { s with lexer }
  return sign

def skip : Read Unit := do
  let lexer ← modifyGet fun s => (s.lexer, { s with lexer := { rest := [] } })
  let ((), lexer) ← Lexer.skipSign.run lexer
  modify fun s => { s with lexer }

/-- Skips a sign if it is the next one. -/
def accept (sign : Sign) : Read Bool := do
  if (← peek) == sign then
    skip
    return true
  else return false

/-! ## Anchors and tags -/

/-- What is written before a node. -/
structure Properties where
  anchor : Option String := none
  tag : Option String := none

/-- The whole tag that a written one stands for. -/
def readTag (t : Tag) : Read String := do
  match t.handle with
  | none => return t.suffix
  | some h =>
    match (← get).handles.lookup h with
    | some target => return target ++ t.suffix
    | none => fail

/-- At most one anchor and one tag, in either order. What the tag stands for is asked last. -/
def readProperties : Read Properties := do
  match ← peek with
  | .anchor a =>
    skip
    match ← peek with
    | .tag t =>
      skip
      return ⟨some a, some (← readTag t)⟩
    | _ => return ⟨some a, none⟩
  | .tag t =>
    skip
    match ← peek with
    | .anchor a =>
      skip
      return ⟨some a, some (← readTag t)⟩
    | _ => return ⟨none, some (← readTag t)⟩
  | _ => return {}

/-- Announces the anchor of a node that is about to be read. -/
def announce (p : Properties) : Read Unit := do
  match p.anchor with
  | none => pure ()
  | some a =>
    if ((← get).anchors.lookup a).isSome then throw (.malformed .nodes)
    modify fun s => { s with anchors := (a, .unread s.depth) :: s.anchors }

/-- Lets the anchor stand for a node. -/
def define (p : Properties) (n : Node) : Read Node := do
  match p.anchor with
  | none => return n
  | some a =>
    modify fun s => { s with anchors := (a, .read n) :: s.anchors.filter (·.1 != a) }
    return n

def collectionKind (p : Properties) (usual : Kind) : Kind :=
  match p.tag with
  | none => usual
  | some "!" => usual
  | some tag => .ofTag tag

def scalarKind (p : Properties) (plain : Bool) (text : String) : Kind :=
  match p.tag with
  | none => if plain then .ofPlain text else .text
  | some "!" => .ofPlain text
  | some tag => .ofTag tag

def inside {α : Type} (read : Read α) : Read α := do
  if deepestNesting ≤ (← get).depth then throw (.beyond .depth)
  modify fun s => { s with depth := s.depth + 1 }
  let a ← read
  modify fun s => { s with depth := s.depth - 1 }
  return a

/-! ## Nodes -/

mutual

/-- A node. `block` allows blocks, and `indentless` a sequence that is not indented. -/
def node : Nat → Bool → Bool → Read Node
  | 0, _, _ => fail
  | fuel + 1, block, indentless => do
    match ← peek with
    | .alias name =>
      skip
      match (← get).anchors.lookup name with
      | some (.read n) => return n
      | some (.unread depth) => return .again ((← get).depth - (depth + 1))
      | none => throw (.malformed .nodes)
    | _ => pure ()
    let p ← readProperties
    match ← peek with
    | .entry =>
      if indentless then
        announce p
        define p (.sequence (collectionKind p .sequence) (← inside (indentlessItems fuel)))
      else empty p
    | .scalar text plain =>
      skip
      announce p
      define p (.scalar (scalarKind p plain text) text)
    | .flowSequence =>
      skip
      announce p
      define p (.sequence (collectionKind p .sequence) (← inside (flowItems fuel true)))
    | .flowMapping =>
      skip
      announce p
      define p (.mapping (collectionKind p .mapping) (← inside (flowEntries fuel true)))
    | .blockSequence =>
      if block then
        skip
        announce p
        define p (.sequence (collectionKind p .sequence) (← inside (blockItems fuel)))
      else empty p
    | .blockMapping =>
      if block then
        skip
        announce p
        define p (.mapping (collectionKind p .mapping) (← inside (blockEntries fuel)))
      else empty p
    | _ => empty p
where
  /-- A node of which nothing but its properties is written. -/
  empty (p : Properties) : Read Node := do
    if p.anchor.isNone && p.tag.isNone then fail
    announce p
    define p (.scalar (scalarKind p true "") "")

/-- A node, or the missing one before one of the signs that end it. -/
def nodeBefore (stops : List Sign) : Nat → Bool → Bool → Read Node
  | 0, _, _ => fail
  | fuel + 1, block, indentless => do
    if stops.contains (← peek) then return missing else node fuel block indentless

def blockItems : Nat → Read (List Node)
  | 0 => fail
  | fuel + 1 => do
    if ← accept .entry then
      let n ← nodeBefore [.entry, .blockEnd] fuel true false
      return n :: (← blockItems fuel)
    else if ← accept .blockEnd then return []
    else fail

def indentlessItems : Nat → Read (List Node)
  | 0 => fail
  | fuel + 1 => do
    if ← accept .entry then
      let n ← nodeBefore [.entry, .key, .value, .blockEnd] fuel true false
      return n :: (← indentlessItems fuel)
    else return []

def blockEntries : Nat → Read (List (Node × Node))
  | 0 => fail
  | fuel + 1 => do
    if ← accept .key then
      let k ← nodeBefore [.key, .value, .blockEnd] fuel true true
      let v ← (do
        if ← accept .value then nodeBefore [.key, .value, .blockEnd] fuel true true
        else pure missing : Read Node)
      return (k, v) :: (← blockEntries fuel)
    else if ← accept .blockEnd then return []
    else fail

def flowItems : Nat → Bool → Read (List Node)
  | 0, _ => fail
  | fuel + 1, first => do
    if ← accept .flowSequenceEnd then return []
    if !first then
      if !(← accept .separator) then fail
    if ← accept .key then
      let k ← nodeBefore [.value, .separator, .flowSequenceEnd] fuel false false
      let v ← (do
        if ← accept .value then nodeBefore [.separator, .flowSequenceEnd] fuel false false
        else pure missing : Read Node)
      return .mapping .mapping [(k, v)] :: (← flowItems fuel false)
    else if ← accept .flowSequenceEnd then return []
    else
      let n ← node fuel false false
      return n :: (← flowItems fuel false)

def flowEntries : Nat → Bool → Read (List (Node × Node))
  | 0, _ => fail
  | fuel + 1, first => do
    if ← accept .flowMappingEnd then return []
    if !first then
      if !(← accept .separator) then fail
    if ← accept .key then
      let k ← nodeBefore [.value, .separator, .flowMappingEnd] fuel false false
      let v ← (do
        if ← accept .value then nodeBefore [.separator, .flowMappingEnd] fuel false false
        else pure missing : Read Node)
      return (k, v) :: (← flowEntries fuel false)
    else if ← accept .flowMappingEnd then return []
    else
      let k ← node fuel false false
      return (k, missing) :: (← flowEntries fuel false)

end

/-! ## Documents -/

def directives : Nat → Bool → List (String × String) → Read (List (String × String))
  | 0, _, handles => return handles
  | fuel + 1, versioned, handles => do
    match ← peek with
    | .directive (.version major _) =>
      skip
      if versioned || major != 1 then fail
      directives fuel true handles
    | .directive (.tag handle target) =>
      skip
      if (handles.lookup handle).isSome then fail
      directives fuel versioned ((handle, target) :: handles)
    | .directive .other =>
      skip
      directives fuel versioned handles
    | _ => return handles

def skipEnds : Nat → Read Unit
  | 0 => pure ()
  | fuel + 1 => do
    if ← accept .documentEnd then skipEnds fuel

def isDirective : Sign → Bool
  | .directive _ => true
  | _ => false

/-- Directives, and the mark that a document begins. -/
def beginDocument (fuel : Nat) : Read Unit := do
  let handles ← directives fuel false []
  modify fun s => { s with handles := handles ++ s.handles }
  if !(← accept .documentStart) then fail

/-- The only document of a text. Behind it at most the beginning of another one is read. -/
def document (fuel : Nat) : Read (Option Node) := do
  let next ← peek
  if next == .streamEnd then return none
  let n ← (if isDirective next || next == .documentStart then do
      beginDocument fuel
      let after ← peek
      if isDirective after || [.documentStart, .documentEnd, .streamEnd].contains after then
        pure missing
      else node fuel true false
    else node fuel true false : Read Node)
  skipEnds fuel
  if (← peek) == .streamEnd then return some n
  beginDocument fuel
  throw (.malformed .nodes)

/-- The node that a text writes; none for an empty text. A sign takes at least a character, but some
characters give several. -/
def ofChars (cs : List Char) : Except Fault (Option Node) := do
  let lexer ← Lexer.begin? cs
  let (n, _) ← (document (16 * cs.length + 32)).run { lexer }
  return n

end Node

end BidBook.Yaml

import BidBook.Node

/-! # Descriptions in full

A description is resolved from the inside out. Each position on the way up to the root writes out its
own glossary, and then a dollar sign with its distance becomes the strain of its call: `$0` that of the
position itself, `$1` that of the one before it, and so on.

* `Place` — what the positions below need to know about one.
* `resolve` — a description in full.
* `Node.readResolved` — the same, remembered after the first time.
-/

namespace BidBook

/-- What resolving needs to know about a position: the token that leads to it, and its glossary. -/
structure Place where
  token : Option Token
  glossary : Glossary

namespace Place

def strainText (p : Place) : String := ((p.token.bind (·.call?)).map Call.strainText).getD ""

def key? (p : Place) : Option Key := p.token.map (·.key)

/-- Keys of a position and those above it, given nearest first, from the root on. -/
def keys (places : List Place) : List Key := (places.filterMap key?).reverse

/-- The calls that lead to a position; none if one of them is not known. -/
def auction? (places : List Place) : Option (List Call) := (keys places).mapM Key.call?

def lastBid? (places : List Place) : Option Bid :=
  (places.filterMap fun p => (p.token.bind (·.call?)).bind Call.bid?).head?

end Place

def pathText (separator : String) (keys : List Key) : String :=
  Sequence.join separator (keys.map Key.written)

/-- Replaces the dollar signs followed by `numeral`, unless the number goes on behind it. The first
argument counts characters still to be skipped: those of a numeral that has been replaced. -/
def replaceDepth (numeral strain : List Char) : Nat → List Char → List Char
  | _, [] => []
  | skip + 1, _ :: rest => replaceDepth numeral strain skip rest
  | 0, c :: rest =>
    if c == '$' && numeral.isPrefixOf rest && !(rest.drop numeral.length).head?.any Text.isDigit then
      strain ++ replaceDepth numeral strain numeral.length rest
    else c :: replaceDepth numeral strain 0 rest

variable [Pattern.CharNames]

/-- What one position contributes, at a distance from the one described. -/
def resolveAt (distance : Nat) (p : Place) (text : String) : Except Pattern.Fault String := do
  let text ← p.glossary.expand text
  return String.ofList
    (replaceDepth (toString distance).toList p.strainText.toList 0 text.toList)

/-- What the positions from a distance on contribute, nearest first. -/
def resolveFrom : Nat → List Place → String → Except Pattern.Fault String
  | _, [], text => .ok text
  | distance, p :: rest, text => do
    let text ← resolveAt distance p text
    resolveFrom (distance + 1) rest text

/-- A description in full, for a position and those above it, nearest first. -/
def resolve (places : List Place) (description : String) : Except Pattern.Fault String := do
  return Text.strip (← resolveFrom 0 places description)

namespace Node

def place (token : Option Token) (n : Node) : Place := ⟨token, n.content.glossary⟩

/-- The description in full, without regard to what is remembered. -/
def resolveFresh (places : List Place) (n : Node) : Except Pattern.Fault (Option String) :=
  match n.content.description with
  | none => .ok none
  | some description => (resolve places description).map some

/-- The description in full, and the node that remembers it. `places` are those of the node itself and
of the positions above it. -/
def readResolved (places : List Place) (n : Node) :
    Node × Except Pattern.Fault (Option String) :=
  match n.content.resolved with
  | some text => (n, .ok (some text))
  | none =>
    match n.resolveFresh places with
    | .error fault => (n, .error fault)
    | .ok text => (n.mapContent fun c => { c with resolved := text }, .ok text)

def defines (places : List Place) (s : Shorthand) : Bool :=
  places.any fun p => decide (s ∈ p.glossary)

end Node

end BidBook

import BidBook.Expansion
import BidBook.Text.Quoted

/-! # Views

What is displayed of a position: the calls that lead to it, its marks, and its description in full.

* `Node.view` — the view of one position.
* `Node.views` — those of a position and all below it, parents before children.
-/

namespace BidBook

/-- What is displayed of a position. -/
structure View where
  /-- The calls that lead to it. -/
  sequence : String
  /-- The last of them; nothing for the root. -/
  call : String
  /-- Abbreviation of the call's strain. -/
  strain : String
  tag : Option String
  alertable : Bool
  announceable : Bool
  description : Option String
  deriving DecidableEq

def DisplaySettings.call (s : DisplaySettings) (c : Call) : String :=
  if s.suitSymbols then c.symbolText else c.text

def DisplaySettings.key (s : DisplaySettings) : Key → String
  | .call c => s.call c
  | .text raw => raw

namespace Node

/-- A short description of a position: the way to it, its priority, and the number of continuations. -/
def label (p : Position) (n : Node) : String :=
  s!"ConventionNode({Text.quote p.text}, priority={n.content.priority}, children={n.children.length})"

variable [Pattern.CharNames]

/-- The view of a position, and the node that remembers its description. -/
def view (s : DisplaySettings) (p : Position) (n : Node) : Node × Except Pattern.Fault View :=
  let (n', resolved) := n.readResolved (p.places n)
  (n', resolved.map fun description => {
    sequence := Sequence.join s.separator (p.keys.map s.key)
    call := ((p.token.map (·.key)).map s.key).getD ""
    strain := (n.place p.token).strainText
    tag := n.content.tag
    alertable := n.content.alertable
    announceable := n.content.announceable
    description })

mutual

/-- The views of a position and all below it, with the tree that remembers their descriptions. After a
faulty shorthand nothing more is viewed. -/
def views (s : DisplaySettings) (p : Position) : Node → Node × List View × Option Pattern.Fault
  | mk c ss cs =>
    match view s p (mk c ss cs) with
    | (_, .error fault) => (mk c ss cs, [], some fault)
    | (n, .ok v) =>
      let (cs, vs, fault) := viewsBelow s (p.places (mk c ss cs)) cs
      (mk n.content ss cs, v :: vs, fault)

def viewsBelow (s : DisplaySettings) (above : List Place) :
    List (Token × Node) → List (Token × Node) × List View × Option Pattern.Fault
  | [] => ([], [], none)
  | (t, n) :: rest =>
    match views s ⟨some t, above⟩ n with
    | (n, vs, some fault) => ((t, n) :: rest, vs, some fault)
    | (n, vs, none) =>
      let (rest, vs', fault) := viewsBelow s above rest
      ((t, n) :: rest, vs ++ vs', fault)

end

def viewsOfChildren (s : DisplaySettings) (p : Position) (n : Node) :
    Node × List View × Option Pattern.Fault :=
  let (cs, vs, fault) := viewsBelow s (p.places n) n.children
  (mk n.content n.steps cs, vs, fault)

end Node

end BidBook

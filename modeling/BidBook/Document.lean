import BidBook.Node
import BidBook.Value.Written

/-! # Documents

A bidding system as a document: a mapping from sequences of calls to descriptions, or to mappings of the
same kind for what follows. Some keys have a meaning of their own:

    define: {pattern: replacement}    shorthands of the position
    conventions: {...}   "-": {...}   more entries for the same position
    "/": {...}                        the same, each after a pass
    steps: [...]                      relay steps after a pass
    -steps: [...]                     relay steps of the position itself
    description: text                 description of the position

A key may list several sequences, separated by commas. Below a sequence every key follows a pass of the
opponents. Whatever is declared later has a higher priority.

* `Malformed` — what is wrong with a document, and where.
* `Document.Fault` — why a document declares no tree.
* `Document.build` — the tree that a document declares.
-/

namespace BidBook

inductive Malformation where
  | rootNotMapping (root : Value)
  | definitionsNotMapping
  | definitionNotScalar (pattern : Value)
  | definitionNotPattern (pattern : String)
  | scopeNotMapping (key : String)
  | descriptionNotScalar
  | stepsNotSequence (key : String)
  | stepWithoutShape
  | keyNotSequence (key : Value)
  | entryWithoutShape
  deriving Repr

/-- What is wrong with a document, and the path of keys to it. -/
structure Malformed where
  path : String
  what : Malformation

namespace Malformation

def message : Malformation → String
  | rootNotMapping _ => "Convention document root must be a mapping"
  | definitionsNotMapping => "Macro definitions must be a mapping"
  | definitionNotScalar pattern => s!"Macro {pattern.quoted} must map a scalar to a scalar"
  | definitionNotPattern pattern => s!"Invalid macro pattern {Text.quote pattern}: "
  | scopeNotMapping key => s!"Scope {Text.quote key} must be a mapping"
  | descriptionNotScalar => "Description must be a scalar"
  | stepsNotSequence _ => "Steps must be a sequence"
  | stepWithoutShape => "Each step must be a scalar description or a mapping"
  | keyNotSequence key => s!"Unsupported sequence key {key.quoted}"
  | entryWithoutShape => "A bidding sequence must map to a description or a mapping"

def key? : Malformation → Option String
  | definitionsNotMapping => some "define"
  | definitionNotScalar pattern => some pattern.shown
  | definitionNotPattern pattern => some pattern
  | scopeNotMapping key => some key
  | descriptionNotScalar => some "description"
  | stepsNotSequence key => some key
  | keyNotSequence key => some key.shown
  | _ => none

/-- What would be right. -/
def expected : Malformation → String
  | rootNotMapping _ => "mapping"
  | definitionsNotMapping => "mapping"
  | definitionNotScalar _ => "scalar"
  | definitionNotPattern _ => "regular expression"
  | scopeNotMapping _ => "mapping"
  | descriptionNotScalar => "scalar"
  | stepsNotSequence _ => "sequence"
  | stepWithoutShape => "scalar or mapping"
  | keyNotSequence _ => "string or sequence of strings"
  | entryWithoutShape => "scalar or mapping"

end Malformation

namespace Document

/-- Why a document declares no tree. -/
inductive Fault where
  | malformed (m : Malformed)
  /-- Something in it goes beyond a limit. -/
  | beyond (e : Excess)

def refuse {α : Type} (path : String) (what : Malformation) : Except Fault α :=
  .error (.malformed ⟨path, what⟩)

def textOf (v : Value) : Except Fault String := v.render.mapError .beyond

variable [Pattern.Judge]

def checkPattern (path pattern : String) : Except Fault Unit :=
  match Pattern.Judge.verdict pattern with
  | .pattern => .ok ()
  | .noPattern => refuse path (.definitionNotPattern pattern)
  | .givenUp e => .error (.beyond e)

/-- What the key of an entry makes of its value. -/
inductive Role where
  | definitions
  /-- More entries for the same position. -/
  | scope (impliedPass : Bool) (key : String)
  /-- Relay steps, after a pass or of the position itself. -/
  | steps (impliedPass : Bool) (key : String)
  | description
  /-- A description or entries for the positions after these sequences. -/
  | sequences (texts : List String)
  deriving DecidableEq

/-- The sequences that a text lists, separated by commas; blank ones are left out. -/
def listed (text : String) : List String :=
  ((Text.splitAt ',' text.toList).filter fun part => !part.all Text.isBlank).map String.ofList

def role? : Value → Option Role
  | .text s =>
    some <|
      if s = "define" then .definitions
      else if s = "conventions" ∨ s = "-" then .scope false s
      else if s = "/" then .scope true s
      else if s = "steps" then .steps true s
      else if s = "-steps" then .steps false s
      else if s = "description" then .description
      else .sequences (listed s)
  | .int i => some (.sequences [toString i])
  | .float f => some (.sequences [f.written])
  | .tuple items => (items.mapM Value.text?).map .sequences
  | .list items => (items.mapM Value.text?).map .sequences
  | _ => none

/-- The shorthands of a mapping from patterns to replacements. A rule with a null side is skipped. -/
def definitionsOf (path : String) : List (Value × Value) → Except Fault (List Shorthand)
  | [] => .ok []
  | (pattern, replacement) :: rest =>
    match pattern, replacement with
    | .null, _ => definitionsOf path rest
    | _, .null => definitionsOf path rest
    | pattern, replacement => do
      let written ← textOf pattern
      if !(pattern.isScalar && replacement.isScalar) then
        refuse path (.definitionNotScalar pattern)
      checkPattern path written
      let replaced ← textOf replacement
      return ⟨written, replaced⟩ :: (← definitionsOf path rest)

def definitions (path : String) : Value → Except Fault (List Shorthand)
  | .null => .ok []
  | .map entries => definitionsOf path entries
  | _ => refuse path .definitionsNotMapping

/-- A position as far as it has been declared, and the number of declarations so far. -/
structure Draft where
  node : Node
  declared : Nat

namespace Draft

def next (d : Draft) : Nat := d.declared + 1

/-- Gives the position a description, as the next declaration. -/
def describe (d : Draft) (text : String) : Draft where
  node := d.node.mapContent fun c => { c with description := some text, priority := d.next }
  declared := d.next

/-- Counts a declaration of the position. -/
def declare (d : Draft) : Draft where
  node := d.node.mapContent fun c => { c with priority := d.next }
  declared := d.next

def define (d : Draft) (ss : List Shorthand) : Draft :=
  { d with node := d.node.mapContent fun c => { c with glossary := c.glossary.addAll ss } }

def addStep (d : Draft) (step : Node) : Draft :=
  { d with node := .mk d.node.content (d.node.steps ++ [step]) d.node.children }

/-- Works on the position at the end of a path, which is created where it is missing. -/
def within (d : Draft) (path : List Token)
    (work : Draft → Except Fault Draft) : Except Fault Draft := do
  let inner ← work ⟨d.node.reach path, d.declared⟩
  return ⟨d.node.put path inner.node, inner.declared⟩

end Draft

/-- The tokens of a sequence, after a pass if one is implied. -/
def sequenceTokens (impliedPass : Bool) (text : String) : Except Fault (List Token) :=
  (Token.readAll ((if impliedPass then ["P"] else []) ++ Sequence.split text)).mapError .beyond

/-- The tokens that lead to the position of relay steps. -/
def stepTokens (impliedPass : Bool) : List Token := if impliedPass then [.ofCall .pass] else []

def describe (path : String) (value : Value) (d : Draft) : Except Fault Draft :=
  match value with
  | .null => .ok d
  | value =>
    if value.isScalar then (textOf value).map d.describe else refuse path .descriptionNotScalar

/-- The step that a number in a sequence of bytes describes. -/
def byteSteps : List UInt8 → Draft → Draft
  | [], d => d
  | b :: rest, d =>
    let step : Draft := (⟨.mk {} [] [], d.declared⟩ : Draft).describe (toString b.toNat)
    byteSteps rest ({ d with declared := step.declared }.addStep step.node)

/-- Does the same work at the end of each of several sequences, as one declaration each. -/
def atEach (impliedPass : Bool) (work : Draft → Except Fault Draft) :
    List String → Draft → Except Fault Draft
  | [], d => .ok d
  | text :: rest, d => do
    let path ← sequenceTokens impliedPass text
    let d ← d.within path fun inner => work inner.declare
    atEach impliedPass work rest d

mutual

/-- The entries of a mapping, in order. -/
def buildEntries (impliedPass : Bool) (path : String) :
    List (Value × Value) → Draft → Except Fault Draft
  | [], d => .ok d
  | (key, value) :: rest, d => do
    let entryPath := path ++ "/" ++ (← textOf key)
    let d ← match role? key with
      | none => refuse entryPath (.keyNotSequence key)
      | some role => buildValue impliedPass entryPath role value d
    buildEntries impliedPass path rest d

def buildValue (impliedPass : Bool) (path : String) (role : Role) :
    Value → Draft → Except Fault Draft
  | .map entries, d =>
    match role with
    | .definitions => do return d.define (← definitionsOf path entries)
    | .scope implied _ => buildEntries implied path entries d
    | .steps _ key => refuse path (.stepsNotSequence key)
    | .description => refuse path .descriptionNotScalar
    | .sequences texts =>
      atEach impliedPass (fun inner => buildEntries true path entries inner) texts d
  | .list items, d =>
    match role with
    | .steps implied _ => d.within (stepTokens implied) (buildSteps path 0 items)
    | role => noSequence path role
  | .tuple items, d =>
    match role with
    | .steps implied _ => d.within (stepTokens implied) (buildSteps path 0 items)
    | role => noSequence path role
  | value, d =>
    match role with
    | .definitions => do return d.define (← definitions path value)
    | .scope _ key => refuse path (.scopeNotMapping key)
    | .steps implied key =>
      match value with
      | .bytes bs => d.within (stepTokens implied) fun inner => .ok (byteSteps bs inner)
      | _ => refuse path (.stepsNotSequence key)
    | .description => describe path value d
    | .sequences texts =>
      match value with
      | .null => atEach impliedPass .ok texts d
      | value =>
        if value.isScalar then
          atEach impliedPass (fun inner => (textOf value).map inner.describe) texts d
        else refuse path .entryWithoutShape
where
  /-- A sequence stands where only relay steps could be one. -/
  noSequence (path : String) : Role → Except Fault Draft
    | .definitions => refuse path .definitionsNotMapping
    | .scope _ key => refuse path (.scopeNotMapping key)
    | .steps _ key => refuse path (.stepsNotSequence key)
    | .description => refuse path .descriptionNotScalar
    | .sequences _ => refuse path .entryWithoutShape

def buildSteps (path : String) : Nat → List Value → Draft → Except Fault Draft
  | _, [], d => .ok d
  | index, item :: rest, d => do
    let itemPath := s!"{path}[{index}]"
    let step ← buildStep itemPath item ⟨.mk {} [] [], d.declared⟩
    buildSteps path (index + 1) rest ({ d with declared := step.declared }.addStep step.node)

def buildStep (path : String) : Value → Draft → Except Fault Draft
  | .map entries, d => buildEntries true path entries d
  | value, d =>
    if value.isScalar then (textOf value).map d.describe else refuse path .stepWithoutShape

end

/-- The tree that a document declares, with shorthands for all of it, and the number of declarations. -/
def build (shorthands : List Shorthand) : Value → Except Fault Draft
  | .map entries => buildEntries false "" entries ⟨.root shorthands, 0⟩
  | value => refuse "" (.rootNotMapping value)

end Document

end BidBook

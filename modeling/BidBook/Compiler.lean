import BidBook.Document
import BidBook.Pruning
import BidBook.Settings.Checks
import BidBook.View

/-! # Compiling a bidding system

From a document to the tree that is displayed: the tree that the document declares is expanded, and what is
of no use is pruned from it.

* `Settings.load` — the settings of a compilation, if nothing is wrong with them.
* `Compiler.compileTree`, `Compiler.compileWithin` — expand and prune a tree.
* `Compiler.compileDocument` — compiles a document.
-/

namespace BidBook

def Settings.load (file overrides : Value) : Except (List FieldFault) Settings :=
  let merged := Settings.layered file overrides
  match Settings.check merged with
  | [] => .ok (Settings.ofValue merged)
  | faults => .error faults

namespace Compiler

/-- Numbers of positions in the course of a compilation. -/
structure Counts where
  declared : Nat
  expanded : Nat
  pruned : Nat
  deriving DecidableEq

def Counts.final (c : Counts) : Int := (c.expanded : Int) - c.pruned

/-- What the compiler says about its own work. -/
inductive Note where
  | readingFile (path : String)
  | startingSection (name : String)
  | compiled (counts : Counts)
  | finishedIndex (path : String) (sections : Nat)

namespace Note

def title : Note → String
  | readingFile _ => "Compiling convention file"
  | startingSection _ => "Compiling section"
  | compiled _ => "Convention tree compiled"
  | finishedIndex _ _ => "Section index compiled"

def level : Note → String
  | readingFile _ => "debug"
  | startingSection _ => "debug"
  | compiled _ => "info"
  | finishedIndex _ _ => "info"

end Note

structure Output where
  tree : Node
  events : List Event
  counts : Counts

def compileTree (settings : Settings) (n : Node) : Output :=
  let (expanded, events) := n.expand settings.expansion {}
  let (pruned, removed, events') := expanded.prune settings.pruning [expanded.place none]
  { tree := pruned
    events := events ++ events'
    counts := { declared := n.size, expanded := expanded.size, pruned := removed } }

/-- Expands and prunes a tree, if that stays within the limits. -/
def compileWithin (settings : Settings) (n : Node) : Except Excess Output :=
  if deepestTree < n.height then .error .depth
  else match (n.expandWithin settings.expansion {}).2 with
  | .error e => .error e
  | .ok _ => .ok (compileTree settings n)

def documentNotes (out : Output) : List Note := [.compiled out.counts]

/-- Compiles a document, with shorthands for all of it. -/
def compileDocument [Pattern.Judge] (settings : Settings) (shorthands : List Shorthand) (document : Value) :
    Except Document.Fault Output := do
  let draft ← Document.build shorthands document
  (compileWithin settings draft.node).mapError .beyond

end Compiler

end BidBook

import BidBook.Compiler
import BidBook.FilePath
import BidBook.Yaml.Load

/-! # Documents in files

Documents are kept in files, written in YAML. An index lists the sections of a system, each in a file of its
own, with shorthands for all of them.

* `Folder` — a folder with files.
* `Folder.write` — the folder with another file in it.
* `Folder.document` — the document in a file.
* `Folder.index` — the sections that an index lists.
* `Compiler.compileFile`, `Compiler.compileSections` — compile what is in files.
-/

namespace BidBook

variable [Yaml.Loader] [Pattern.Judge]

/-- What a file holds: a text, a value that is written in it, or any bytes. -/
inductive Contents where
  | text (s : String)
  | value (v : Value)
  | bytes (bs : List UInt8)

/-- A folder, with the files and folders in it and below it, each given by the names on the way to it. -/
structure Folder where
  files : List (List String × Contents) := []
  folders : List (List String) := []

/-- Why a document cannot be had from a file. -/
inductive IngestionFault where
  | missing (path : String)
  /-- The bytes of the file are no text. -/
  | undecodable
  /-- The text of the file is no YAML. -/
  | notYaml (path : String) (stage : Yaml.Stage)
  /-- A scalar in the file does not fit its kind. -/
  | misfit (m : Yaml.Misfit)
  /-- Something in the file goes beyond a limit. -/
  | beyond (e : Excess)
  | indexNotMapping (path : String)
  | sectionsNotSequence (path : String)
  | sectionWithoutPath (path : String)
  | malformed (m : Malformed)

namespace IngestionFault

def ofYaml (path : String) : Yaml.Fault → IngestionFault
  | .malformed stage => notYaml path stage
  | .misfit m => misfit m
  | .beyond e => beyond e

def ofDocument : Document.Fault → IngestionFault
  | .malformed m => malformed m
  | .beyond e => beyond e

def message : IngestionFault → String
  | missing path => s!"Convention file not found: {path}"
  | undecodable => "Convention file is not text"
  | notYaml path _ => s!"Invalid YAML in {path}: "
  | misfit _ => "A scalar does not fit its kind"
  | beyond e => e.message
  | indexNotMapping _ => "Section index root must be a mapping"
  | sectionsNotSequence _ => "Sections must be a sequence"
  | sectionWithoutPath _ => "Each section must be a mapping with a path"
  | malformed m => m.what.message

def path : IngestionFault → String
  | missing path | notYaml path _ => path
  | indexNotMapping path | sectionsNotSequence path | sectionWithoutPath path => path
  | undecodable | misfit _ | beyond _ => ""
  | malformed m => m.path

def key? : IngestionFault → Option String
  | sectionsNotSequence _ => some "sections"
  | malformed m => m.what.key?
  | _ => none

def expected : IngestionFault → String
  | missing _ => "file"
  | undecodable => "text"
  | notYaml _ _ => "YAML document"
  | misfit _ => "scalar of its kind"
  | beyond _ => "document within the limits"
  | indexNotMapping _ => "mapping"
  | sectionsNotSequence _ => "sequence"
  | sectionWithoutPath _ => "mapping with name, description and path"
  | malformed m => m.what.expected

/-- The fault is one of the document, which a report can tell. Any other stops whoever reads the file. -/
def isReported : IngestionFault → Bool
  | undecodable | misfit _ | beyond _ => false
  | _ => true

end IngestionFault

def decodeText? (bs : List UInt8) : Option String := String.fromUTF8? (ByteArray.mk bs.toArray)

namespace Contents

def document (path : FilePath) : Contents → Except IngestionFault Value
  | value v => .ok v
  | text s => read s
  | bytes bs =>
    match decodeText? bs with
    | none => .error .undecodable
    | some s => read s
where
  /-- The document that a text writes. -/
  read (s : String) : Except IngestionFault Value :=
    (Yaml.Loader.load s).mapError (.ofYaml path.text)

/-- The document in the file at a path, given what was found there. -/
def documentOf (path : FilePath) : Except Excess (Option Contents) → Except IngestionFault Value
  | .error e => .error (.beyond e)
  | .ok none => .error (.missing path.text)
  | .ok (some c) => c.document path

end Contents

namespace Folder

/-- Goes from one folder to another by names, and makes the folders that are missing on the way. None if the
way leaves the folder. -/
def enter (f : Folder) (here : List String) : List String → Option (Folder × List String)
  | [] => some (f, here)
  | n :: rest =>
    if n = ".." then if here = [] then none else f.enter here.dropLast rest
    else { f with folders := (here ++ [n]) :: f.folders }.enter (here ++ [n]) rest

/-- Writes a file, in place of one that is there already. -/
def write (f : Folder) (p : FilePath) (c : Contents) : Folder :=
  match p.names.getLast?, f.enter [] p.names.dropLast with
  | some name, some (f, here) =>
    let names := here ++ [name]
    { f with files := (names, c) :: f.files.filter (·.1 != names) }
  | _, _ => f

def ofFiles (files : List (FilePath × Contents)) : Folder :=
  files.foldl (fun f e => f.write e.1 e.2) {}

def isFolder (f : Folder) (names : List String) : Bool := names.isEmpty || f.folders.contains names

/-- The file at a path. Nothing is known of what lies outside of the folder. -/
def file? (f : Folder) (p : FilePath) : Except Excess (Option Contents) := do
  if longestPath < p.text.utf8ByteSize then throw .name
  if p.root != "" then return none
  match ← FilePath.follow f.isFolder [] p.names with
  | none => return none
  | some names => return f.files.lookup names

def document (f : Folder) (p : FilePath) : Except IngestionFault Value :=
  Contents.documentOf p (f.file? p)

/-- The document in a file, built. An empty file declares nothing. -/
def build (f : Folder) (shorthands : List Shorthand) (p : FilePath) :
    Except IngestionFault Document.Draft := do
  let v ← f.document p
  let v := match v with
    | .null => .map []
    | v => v
  (Document.build shorthands v).mapError .ofDocument

structure Entry where
  name : String
  description : String
  path : FilePath

structure Index where
  shorthands : List Shorthand := []
  entries : List Entry := []

/-- A text of a section; null says nothing. -/
def textField (key : String) (entries : List (Value × Value)) : Except IngestionFault String :=
  match Value.lookup? key entries with
  | none => .ok ""
  | some .null => .ok ""
  | some v => v.render.mapError .beyond

def readEntry (p : FilePath) (i : Nat) (v : Value) : Except IngestionFault Entry :=
  let fault := IngestionFault.sectionWithoutPath s!"{p.text}/sections[{i}]"
  match v with
  | .map entries =>
    match Value.lookup? "path" entries with
    | some path =>
      if path.isTruthy then do
        let name ← textField "name" entries
        let description ← textField "description" entries
        let path ← textField "path" entries
        return { name, description, path := p.parent.join (.ofText path) }
      else .error fault
    | none => .error fault
  | _ => .error fault

def readEntries (p : FilePath) : Nat → List Value → Except IngestionFault (List Entry)
  | _, [] => .ok []
  | i, v :: rest => do
    let e ← readEntry p i v
    return e :: (← readEntries p (i + 1) rest)

def index (f : Folder) (p : FilePath) : Except IngestionFault Index := do
  match ← f.document p with
  | .null => return {}
  | .map entries =>
    let defined := (Value.lookup? "define" entries).getD .null
    let shorthands ← (Document.definitions (p.text ++ "/define") defined).mapError .ofDocument
    let listed := (Value.lookup? "sections" entries).getD .null
    match (if listed.isTruthy then listed else .list []) with
    | .list items => return ⟨shorthands, ← readEntries p 0 items⟩
    | _ => throw (.sectionsNotSequence p.text)
  | _ => throw (.indexNotMapping p.text)

structure Section where
  name : String
  description : String
  tree : Node

def sections (f : Folder) (p : FilePath) : Except IngestionFault (List Section) := do
  let index ← f.index p
  index.entries.mapM fun e => do
    let draft ← f.build index.shorthands e.path
    return ⟨e.name, e.description, draft.node⟩

end Folder

namespace Compiler

def compileFile (settings : Settings) (shorthands : List Shorthand) (f : Folder) (p : FilePath) :
    Except IngestionFault Output := do
  let draft ← f.build shorthands p
  (compileWithin settings draft.node).mapError .beyond

def fileNotes (path : String) (out : Output) : List Note :=
  .readingFile path :: documentNotes out

def compileSections (settings : Settings) (f : Folder) (p : FilePath) :
    Except IngestionFault (List (Folder.Section × Output)) := do
  let sections ← f.sections p
  sections.mapM fun s => do return (s, ← (compileWithin settings s.tree).mapError .beyond)

def sectionNotes (path : String) (outs : List (Folder.Section × Output)) : List Note :=
  outs.flatMap (fun (s, out) => .startingSection s.name :: documentNotes out)
    ++ [.finishedIndex path outs.length]

end Compiler

end BidBook

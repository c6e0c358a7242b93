import BidBook.Limits
import BidBook.Text.Parts

/-! # Paths of files

A path is a list of names under a root, or under the present folder if it has none. Single dots and empty
names mean nothing and are left out; double dots stay.

* `FilePath.ofText` — reads a path.
* `FilePath.text` — writes one.
* `FilePath.join` — a path below another; one with a root stays as it is.
* `FilePath.follow` — where a path leads.
-/

namespace BidBook

structure FilePath where
  /-- The slashes in front: none, one, or exactly two. -/
  root : String := ""
  names : List String
  deriving DecidableEq, Repr

namespace FilePath

def ofText (s : String) : FilePath :=
  let slashes := (s.toList.takeWhile (· == '/')).length
  { root := if slashes = 0 then "" else if slashes = 2 then "//" else "/"
    names := ((Text.splitAt '/' s.toList).filter fun n => !n.isEmpty && n != ['.']).map String.ofList }

/-- Writes a path. The present folder is a single dot. -/
def text (p : FilePath) : String :=
  if p.root = "" ∧ p.names = [] then "."
  else p.root ++ String.ofList (Text.joinWith ['/'] (p.names.map String.toList))

def join (p q : FilePath) : FilePath := if q.root = "" then { p with names := p.names ++ q.names } else q

def parent (p : FilePath) : FilePath := { p with names := p.names.dropLast }

/-- Follows names from a folder, given as a path of names without dots. A name may be taken only below a
folder, so what comes before the last one has to be one, and there it must not be too long. None if the way
leaves the present folder. -/
def follow (isFolder : List String → Bool) :
    List String → List String → Except Excess (Option (List String))
  | here, [] => .ok (some here)
  | here, n :: rest =>
    if !isFolder here then .ok none
    else if n = ".." then if here = [] then .ok none else follow isFolder here.dropLast rest
    else if longestName < n.utf8ByteSize then .error .name
    else follow isFolder (here ++ [n]) rest

end FilePath

end BidBook

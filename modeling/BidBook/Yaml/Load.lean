import BidBook.Yaml.Node

/-! # Loading YAML

The value of a YAML document. Of equal keys in a mapping the last one counts, at the place of the first. The
mappings under a merge key count as if they stood before the entries of their own.

Values are made level by level: first the node itself, if it is a scalar, then what is in it, then what is in
the collections inside of it, and so on. Of several faults the one on the uppermost level counts, and of those
on one level the first.

* `Yaml.Found` — a value, or the fault that counts.
* `Yaml.Node.mergedEntries?` — the entries of a mapping with what is merged into it.
* `Yaml.Node.toValue` — the value of a node.
* `Yaml.load` — the value of a text.
* `Yaml.Loader` — what is taken from outside: how documents are loaded.
-/

namespace BidBook

/-- Equality of keys. A key that is no number is equal to itself. -/
def Value.sameKey (a b : Value) : Bool :=
  match a, b with
  | .float .nan, .float .nan => true
  | a, b => a.same b

namespace Yaml

/-- Gives a key a value: at its place if it is known, and behind all others if it is not. -/
def putKey {α : Type} (key : Value) (value : α) : List (Value × α) → List (Value × α)
  | [] => [(key, value)]
  | (k, v) :: rest =>
    if k.sameKey key then (k, value) :: rest else (k, v) :: putKey key value rest

/-- A value, or the fault that counts with its level. -/
abbrev Found (α : Type) := Except (Nat × Fault) α

namespace Found

/-- Two values. Of two faults the one on the upper level counts, and else the first. -/
def both {α β : Type} : Found α → Found β → Found (α × β)
  | .ok a, .ok b => .ok (a, b)
  | .error e, .ok _ => .error e
  | .ok _, .error e => .error e
  | .error e, .error f => .error (if f.1 < e.1 then f else e)

def cons {α : Type} (a : Found α) (rest : Found (List α)) : Found (List α) :=
  (both a rest).map fun (a, as) => a :: as

def all {α : Type} (as : List (Found α)) : Found (List α) := as.foldr cons (.ok [])

end Found

namespace Node

def kind? : Node → Option Kind
  | scalar kind _ => some kind
  | sequence kind _ => some kind
  | mapping kind _ => some kind
  | again _ => none

/-- The sign `=` is a text where it is a key. -/
def asKey : Node → Node
  | scalar .default s => scalar .text s
  | n => n

def isMerge (n : Node) : Bool := n.kind? == some .merge

/-- A mapping around a node: its entries, and the number of the entry in which the node stands. -/
structure Around where
  entries : List (Node × Node)
  index : Nat

/-- What such a mapping contributes where it is merged: its entries, of which the one in which the node stands
leads back to the node. -/
def Around.contribution (a : Around) : List (Node × Node) :=
  a.entries.modify a.index fun e => (e.1, again 0)

/-- The mapping in which a merge key stands. Merged into itself it adds nothing. -/
def Around.own : Around := ⟨[], 0⟩

/-- What the collection that lies `up` levels above contributes; a sequence around the node adds nothing. -/
def contributionAt (above : List (Option Around)) (up : Nat) : List (Node × Node) :=
  (above[up]?.join.map (·.contribution)).getD []

mutual

/-- The entries of a mapping, those merged into it first; none if something else is to be merged. What is
around the mapping is given nearest first, with nothing for a sequence. -/
def mergedEntries? : Nat → List (Option Around) → List (Node × Node) → Option (List (Node × Node))
  | 0, _, _ => none
  | fuel + 1, above, entries => do
    let merged ← (entries.filter (·.1.isMerge)).mapM fun e =>
      mergeSource? fuel (some .own :: above) e.2
    let own := (entries.filter fun e => !e.1.isMerge).map fun e => (e.1.asKey, e.2)
    return merged.flatten ++ own

/-- The entries that the value of a merge key contributes. Of several mappings the first counts most. -/
def mergeSource? : Nat → List (Option Around) → Node → Option (List (Node × Node))
  | 0, _, _ => none
  | _ + 1, above, again up => some (contributionAt above up)
  | fuel + 1, above, mapping _ entries => mergedEntries? fuel above entries
  | fuel + 1, above, sequence _ items => do
    let parts ← items.mapM fun n =>
      match n with
      | mapping _ entries => mergedEntries? fuel (none :: above) entries
      | again (up + 1) => some (contributionAt above up)
      | _ => none
    return parts.reverse.flatten
  | _ + 1, _, scalar _ _ => none

end

mutual

def height : Node → Nat
  | scalar _ _ => 1
  | again _ => 1
  | sequence _ items => 1 + heightItems items
  | mapping _ entries => 1 + heightEntries entries

def heightItems : List Node → Nat
  | [] => 0
  | n :: rest => max n.height (heightItems rest)

def heightEntries : List (Node × Node) → Nat
  | [] => 0
  | (k, v) :: rest => max (max k.height v.height) (heightEntries rest)

end

/-- The text of a node that is to be a scalar. For a mapping the value under the sign `=` stands, and the fuel
bounds how often. -/
def scalarText? : Nat → Node → Option String
  | _, scalar _ s => some s
  | fuel + 1, mapping _ entries =>
    (entries.find? (·.1.kind? == some .default)).bind fun e => scalarText? fuel e.2
  | _, _ => none

def scalarOf (kind : Kind) (n : Node) : Except Fault Value :=
  match scalarText? n.height n with
  | none => .error (.malformed .values)
  | some s =>
    match kind, n with
    | .date, mapping _ _ => .error (.misfit .dateOfMapping)
    | kind, _ => scalarValue kind s

/-- Is a collection made of such a node? No collection can be a key. -/
def isCollection (n : Node) : Bool :=
  match n.kind? with
  | none | some .sequence | some .mapping | some .pairs => true
  | some _ => false

def collect {α : Type} (entries : List (Value × α)) : List (Value × α) :=
  entries.foldl (fun done e => putKey e.1 e.2 done) []

/-- The value of a node. -/
structure Made where
  value : Value
  /-- It lies inside of itself, so that there is no end to it. -/
  endless : Bool := false

namespace Made

/-- What stands for a value inside of itself. -/
def again : Made := ⟨.null, true⟩

def list (items : List Made) : Made := ⟨.list (items.map (·.value)), items.any (·.endless)⟩

def pair (k v : Made) : Made := ⟨.tuple [k.value, v.value], k.endless || v.endless⟩

def mapping (entries : List (Value × Made)) : Made :=
  ⟨.map (entries.map fun e => (e.1, e.2.value)), entries.any (·.2.endless)⟩

end Made

/-- The value of a node, and the fault that counts if there is none. The fuel bounds its height: a node that is
higher lies inside of itself. What is around the node is given nearest first, with nothing for a sequence. -/
def evaluate : Nat → Nat → List (Option Around) → Node → Found Made
  | 0, _, _, _ => .ok .again
  | fuel + 1, level, above, n =>
    let below (around : Option Around) := evaluate fuel (level + 1) (around :: above)
    let keyBelow (k : Node) : Found Value :=
      if k.isCollection then refused (level + 1) else (below none k).map (·.value)
    match n.kind? with
    | none => .ok .again
    | some .sequence =>
      match n with
      | sequence _ items => (Found.all (items.map (below none))).map .list
      | _ => refused (level + 1)
    | some .mapping =>
      match n with
      | mapping _ entries =>
        match mergedEntries? (2 * fuel + 2) above entries with
        | none => refused (level + 1)
        | some entries =>
          (Found.all (entries.mapIdx fun i e =>
            Found.both (keyBelow e.1) (below (some ⟨entries, i⟩) e.2))).map fun pairs =>
              .mapping (collect pairs)
      | _ => refused (level + 1)
    | some .pairs =>
      match n with
      | sequence _ items =>
        (Found.all (items.map fun item =>
          match item with
          | mapping _ [(k, v)] =>
            (Found.both (below none k) (below none v)).map fun (k, v) => .pair k v
          | _ => refused (level + 1))).map .list
      | _ => refused (level + 1)
    | some kind =>
      match scalarOf kind n with
      | .error e => .error (level, e)
      | .ok v => .ok ⟨v, false⟩
where
  /-- A node of the wrong kind on a level. -/
  refused {α : Type} (level : Nat) : Found α := .error (level, .malformed .values)

/-- The value of a node. Merging moves entries up, and no more than two levels down. -/
def toValue (n : Node) : Except Fault Value :=
  match evaluate (n.height + 2) 0 [] n with
  | .error e => .error e.2
  | .ok made => if made.endless then .error (.beyond .depth) else .ok made.value

end Node

/-- Every kind of line break of the outer world as a line feed. -/
def plainBreaks : List Char → List Char
  | '\r' :: '\n' :: rest => '\n' :: plainBreaks rest
  | '\r' :: rest => '\n' :: plainBreaks rest
  | c :: rest => c :: plainBreaks rest
  | [] => []

/-- The value of a text; null for an empty one. -/
def load (text : String) : Except Fault Value := do
  match ← Node.ofChars (plainBreaks text.toList) with
  | none => return .null
  | some n => n.toValue

/-- Whoever loads documents. What cannot be in a document, such as a set, is a fault of the text. -/
class Loader where
  load : String → Except Fault Value

instance : Loader := ⟨load⟩

end Yaml

end BidBook

import BidBook.Binary64

/-! # Document values

What a document consists of: scalars, sequences and mappings, nested at will. The entries of a mapping
keep their order, and any value without mappings and lists inside may be a key.

* `Value` — the values.
* `Value.same` — equality; a truth value is also equal to a number, and a whole number to a fraction.
* `Value.lookup?` — the value of a mapping's entry with a text as its key.
* `Value.isTruthy` — everything but null, false, zero, and what is empty.
-/

namespace BidBook

structure Clock where
  hour : Nat
  minute : Nat
  second : Nat
  /-- Millionths of a second. -/
  micro : Nat
  /-- Minutes by which the clock is ahead of the prime meridian's, where that is known. -/
  zone : Option Int
  deriving DecidableEq, Repr

structure Date where
  year : Nat
  month : Nat
  day : Nat
  time : Option Clock := none
  deriving DecidableEq, Repr

/-- A document, or a part of one. -/
inductive Value where
  | null
  | bool (b : Bool)
  | int (i : Int)
  | float (f : Binary64)
  | text (s : String)
  | bytes (bs : List UInt8)
  | date (d : Date)
  | list (items : List Value)
  | tuple (items : List Value)
  | map (entries : List (Value × Value))
  deriving Repr

namespace Value

instance : Inhabited Value := ⟨null⟩

def number? : Value → Option (Int ⊕ Binary64)
  | bool b => some (.inl (if b then 1 else 0))
  | int i => some (.inl i)
  | float f => some (.inr f)
  | _ => none

def sameNumber : Int ⊕ Binary64 → Int ⊕ Binary64 → Bool
  | .inl i, .inl j => i == j
  | .inl i, .inr f => f.isInt i
  | .inr f, .inl i => f.isInt i
  | .inr f, .inr g => f.sameValue g

mutual

/-- Equality of values. The order of a mapping's entries does not count. -/
def same : Value → Value → Bool
  | null, v => match v with
    | null => true
    | _ => false
  | text s, v => match v with
    | text t => s == t
    | _ => false
  | bytes a, v => match v with
    | bytes b => a == b
    | _ => false
  | date a, v => match v with
    | date b => a == b
    | _ => false
  | list a, v => match v with
    | list b => sameItems a b
    | _ => false
  | tuple a, v => match v with
    | tuple b => sameItems a b
    | _ => false
  | map a, v => match v with
    | map b => a.length == b.length && sameEntries a b
    | _ => false
  | bool x, v => v.number?.any (sameNumber (.inl (if x then 1 else 0)))
  | int i, v => v.number?.any (sameNumber (.inl i))
  | float f, v => v.number?.any (sameNumber (.inr f))

def sameItems : List Value → List Value → Bool
  | [], [] => true
  | a :: as, b :: bs => same a b && sameItems as bs
  | _, _ => false

/-- Every entry of the first mapping has an equal one in the second. -/
def sameEntries : List (Value × Value) → List (Value × Value) → Bool
  | [], _ => true
  | (k, v) :: rest, b => b.any (fun e => same k e.1 && same v e.2) && sameEntries rest b

end

/-- A text, a truth value or a number. -/
def isScalar : Value → Bool
  | bool _ | int _ | float _ | text _ => true
  | _ => false

/-- Everything but null, false, zero, and what is empty. -/
def isTruthy : Value → Bool
  | null => false
  | bool b => b
  | int i => i != 0
  | float f => !f.isZero
  | text s => s != ""
  | bytes bs => !bs.isEmpty
  | date _ => true
  | list items => !items.isEmpty
  | tuple items => !items.isEmpty
  | map entries => !entries.isEmpty

def isText (s : String) : Value → Bool
  | text t => t == s
  | _ => false

theorem isText_iff {s : String} {v : Value} : v.isText s = true ↔ v = text s := by
  cases v <;> simp [isText]

def lookup? (key : String) (entries : List (Value × Value)) : Option Value :=
  (entries.find? fun e => e.1.isText key).map (·.2)

def entries? : Value → Option (List (Value × Value))
  | map entries => some entries
  | _ => none

/-- The items of a sequence. A byte string is one of numbers, and a text is none. -/
def items? : Value → Option (List Value)
  | list items => some items
  | tuple items => some items
  | bytes bs => some (bs.map fun b => int b.toNat)
  | _ => none

def text? : Value → Option String
  | text s => some s
  | _ => none

def kindName : Value → String
  | null => "NoneType"
  | bool _ => "bool"
  | int _ => "int"
  | float _ => "float"
  | text _ => "str"
  | bytes _ => "bytes"
  | date d => if d.time.isSome then "datetime" else "date"
  | list _ => "list"
  | tuple _ => "tuple"
  | map _ => "dict"

end Value

end BidBook

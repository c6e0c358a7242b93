import BidBook.Limits
import BidBook.Text.Blank
import BidBook.Text.Digit

/-! # Numerals

Integers as they are written by hand: with blanks around them, a sign in front, and digits of any script. In
bases other than ten a mark such as `0x` may stand before the digits.

* `Text.plainForm?` — a numeral in plain digits and spaces.
* `Text.readInteger` — the integer that a text writes in a base.
-/

namespace BidBook.Text

def stripPlain (cs : List Char) : List Char :=
  ((cs.dropWhile isPlainBlank).reverse.dropWhile isPlainBlank).reverse

/-- A character of a numeral as a plain one: blanks are spaces, and digits are those of the usual script. -/
def plainChar? (c : Char) : Option Char :=
  if c.toNat < 0x7F then some c
  else if isBlank c then some ' '
  else (digitValue? c).map fun n => Char.ofNat ('0'.toNat + n)

/-- A numeral in plain characters. One that is plain already stays as it is. -/
def plainForm? (cs : List Char) : Option (List Char) :=
  if cs.all (·.toNat < 0x80) then some cs else cs.mapM plainChar?

/-- A sign in front, and whether it is the negative one. -/
def splitSign : List Char → Bool × List Char
  | '-' :: rest => (true, rest)
  | '+' :: rest => (false, rest)
  | cs => (false, cs)

def digitIn? (base : Nat) (c : Char) : Option Nat :=
  let n :=
    if c.isDigit then c.toNat - '0'.toNat
    else if 'a' ≤ c && c ≤ 'f' then c.toNat - 'a'.toNat + 10
    else if 'A' ≤ c && c ≤ 'F' then c.toNat - 'A'.toNat + 10
    else base
  if n < base then some n else none

/-- The letter that marks a base, after a zero. -/
def baseMark? : Nat → Option Char
  | 2 => some 'b'
  | 8 => some 'o'
  | 16 => some 'x'
  | _ => none

def dropMark (base : Nat) : List Char → List Char
  | '0' :: c :: rest => if baseMark? base == some c.toLower then rest else '0' :: c :: rest
  | cs => cs

/-- Value of one or more digits in a base; none if some character is no digit of it. -/
def readNatural? (base : Nat) (cs : List Char) : Option Nat :=
  if cs.isEmpty then none
  else cs.foldlM (fun n c => (digitIn? base c).map (base * n + ·)) 0

/-- The integer that a text writes in a base; none if it writes no integer. Decimal numerals may be too
long. -/
def readInteger (base : Nat) (text : List Char) : Except Excess (Option Int) :=
  match plainForm? text with
  | none => .ok none
  | some cs =>
    let (negative, body) := splitSign (stripPlain cs)
    let ds := dropMark base body
    match if base = 10 then Excess.ofNumeral? ds else none with
    | some e => .error e
    | none => .ok ((readNatural? base ds).map fun n => if negative then -(n : Int) else n)

end BidBook.Text

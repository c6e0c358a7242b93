import BidBook.Text.Printable

/-! # Quoted texts

Texts and byte strings between quotation marks, with everything escaped that could not be read off the
page. The marks are single, unless that would force an escape that double ones avoid.

* `Text.quote` — a quoted text.
* `Text.quoteBytes` — a quoted byte string.
-/

namespace BidBook.Text

/-- The quotation mark for a text: double where it holds single ones only. -/
def quoteMark (cs : List Char) : Char :=
  if cs.contains '\'' && !cs.contains '"' then '"' else '\''

/-- Hexadecimal digits of a number, at least `width` of them. -/
def hexDigits (width n : Nat) : List Char :=
  let ds := Nat.toDigits 16 n
  List.replicate (width - ds.length) '0' ++ ds

/-- The escapes that bytes and characters have in common. -/
def shortEscape? (mark : Char) (c : Char) : Option (List Char) :=
  if c == '\\' then some ['\\', '\\']
  else if c == mark then some ['\\', mark]
  else if c == '\n' then some ['\\', 'n']
  else if c == '\t' then some ['\\', 't']
  else if c == '\r' then some ['\\', 'r']
  else none

def escapeChar (mark c : Char) : List Char :=
  match shortEscape? mark c with
  | some e => e
  | none =>
    if isPrintable c then [c]
    else if c.toNat < 0x100 then '\\' :: 'x' :: hexDigits 2 c.toNat
    else if c.toNat < 0x10000 then '\\' :: 'u' :: hexDigits 4 c.toNat
    else '\\' :: 'U' :: hexDigits 8 c.toNat

def quote (s : String) : String :=
  let mark := quoteMark s.toList
  String.ofList (mark :: s.toList.flatMap (escapeChar mark) ++ [mark])

def escapeByte (mark : Char) (b : UInt8) : List Char :=
  let c := Char.ofNat b.toNat
  match shortEscape? mark c with
  | some e => e
  | none => if 0x20 ≤ b && b < 0x7F then [c] else '\\' :: 'x' :: hexDigits 2 b.toNat

def quoteBytes (bs : List UInt8) : String :=
  let mark := quoteMark (bs.map fun b => Char.ofNat b.toNat)
  String.ofList ('b' :: mark :: bs.flatMap (escapeByte mark) ++ [mark])

end BidBook.Text

/-! # Limits

Documents are written by hand, and what no hand writes is given up instead of judged: numerals of thousands
of digits, numbers too large to count with, nesting without end, and names that no file can have.

* `Excess` — which limit is exceeded.
* `Excess.ofNumeral?` — the check of a numeral's length.
-/

namespace BidBook

inductive Excess where
  /-- A decimal numeral has too many digits. -/
  | numeral
  /-- A number is too large for its purpose. -/
  | size
  /-- Too many levels lie inside of each other. -/
  | depth
  /-- The name of a file is too long. -/
  | name
  deriving DecidableEq, Repr

/-- Most digits of a decimal numeral, zeros in front included. -/
def longestNumeral : Nat := 4300

/-- Most levels inside of each other. -/
def deepestNesting : Nat := 485

/-- Most levels of a tree that is compiled. -/
def deepestTree : Nat := 980

def longestName : Nat := 255

def longestPath : Nat := 4095

namespace Excess

def message : Excess → String
  | numeral => "Numeral has too many digits"
  | size => "Number is too large"
  | depth => "Nesting is too deep"
  | name => "Name of a file is too long"

def ofNumeral? (digits : List Char) : Option Excess :=
  if longestNumeral < digits.length then some numeral else none

end Excess

end BidBook

import BidBook.Limits

/-! # The signs of a YAML text

A YAML text is a sequence of signs: scalars, indicators, and the beginnings and ends of blocks, which the
indentation gives.

* `Yaml.Sign` — the signs.
* `Yaml.Fault` — why a text has no value.
* `Yaml.Chars` — the classes of characters that matter.
-/

namespace BidBook.Yaml

/-- At which level a text fails to be YAML. -/
inductive Stage where
  /-- A character that may not occur. -/
  | characters
  /-- Characters that make up no sign. -/
  | signs
  /-- Signs that make up no document. -/
  | arrangement
  /-- An alias without an anchor, an anchor given twice, or a second document. -/
  | nodes
  /-- Nodes that have no value. -/
  | values
  deriving DecidableEq, Repr

/-- Why a scalar has no value of the kind that it looks like or is tagged as. -/
inductive Misfit where
  /-- A text that writes no number. -/
  | noNumber
  /-- No text where a number is to be read. -/
  | noDigits
  /-- A word that is no truth value. -/
  | noTruthValue
  /-- A text that has not the form of a date. -/
  | noDate
  /-- A mapping where a date is to be read. -/
  | dateOfMapping
  /-- A date that is not in the calendar. -/
  | noSuchDay
  /-- The number of no character. -/
  | noSuchCharacter
  deriving DecidableEq, Repr

inductive Fault where
  /-- The text is no YAML. -/
  | malformed (stage : Stage)
  /-- It is, but a scalar does not fit its kind. -/
  | misfit (m : Misfit)
  /-- It may be, but goes beyond a limit. -/
  | beyond (e : Excess)
  deriving DecidableEq, Repr

/-- The handle of a tag, if it has one, and what follows it. -/
structure Tag where
  handle : Option String
  suffix : String
  deriving DecidableEq, Repr

inductive Directive where
  | version (major minor : Nat)
  | tag (handle target : String)
  | other
  deriving DecidableEq, Repr

inductive Sign where
  | directive (d : Directive)
  | documentStart
  | documentEnd
  | blockSequence
  | blockMapping
  | blockEnd
  | flowSequence
  | flowSequenceEnd
  | flowMapping
  | flowMappingEnd
  | entry
  | separator
  | key
  | value
  | alias (name : String)
  | anchor (name : String)
  | tag (t : Tag)
  /-- A scalar; `plain` if it stands without quotation marks and is no block. -/
  | scalar (text : String) (plain : Bool)
  | streamEnd
  deriving DecidableEq, Repr

/-! ## Classes of characters

The end of the text counts as the character `\x00`, which may not occur otherwise. -/

namespace Chars

def isEnd (c : Char) : Bool := c == '\x00'

def isBreak (c : Char) : Bool :=
  c == '\n' || c == '\r' || c == '\x85' || c == '\u2028' || c == '\u2029'

def isBreakOrEnd (c : Char) : Bool := isEnd c || isBreak c

def isSpaceOrBreak (c : Char) : Bool := c == ' ' || isBreakOrEnd c

def isBlankOrBreak (c : Char) : Bool := c == '\t' || isSpaceOrBreak c

def isSpaceOrTab (c : Char) : Bool := c == ' ' || c == '\t'

def isName (c : Char) : Bool := c.isAlphanum || c == '-' || c == '_'

def isUri (c : Char) : Bool := c.isAlphanum || "-;/?:@&=+$,_.!~*'()[]%".toList.contains c

def isHex (c : Char) : Bool := c.isDigit || ('a' ≤ c && c ≤ 'f') || ('A' ≤ c && c ≤ 'F')

/-- An indicator, with which no plain scalar begins unless it has a character of its own behind it. -/
def isIndicator (c : Char) : Bool := "-?:,[]\x7b\x7d#&*!|>'\"%@`".toList.contains c

def isAllowed (c : Char) : Bool :=
  let n := c.toNat
  n == 9 || n == 10 || n == 13 || (0x20 ≤ n && n ≤ 0x7E) || n == 0x85 || (0xA0 ≤ n && n ≤ 0xD7FF)
    || (0xE000 ≤ n && n ≤ 0xFFFD) || 0x10000 ≤ n

end Chars

end BidBook.Yaml

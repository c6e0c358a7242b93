import BidBook.Limits
import BidBook.Text.Blank
import BidBook.Text.Case
import BidBook.Text.Digit
import BidBook.Text.Letter

/-! # Patterns

The expressions a shorthand is searched by: characters and character sets, sequences, alternatives,
groups, repetitions, and conditions on what stands around the place of a match.

* `Pattern.Expr` — the expressions.
* `Pattern.CharSet.holds` — membership in a character set, with or without regard to case.
* `Pattern.Fault` — why a text is no pattern.
* `Pattern.Judge`, `Pattern.CharNames` — what is taken from outside: whether a text is a pattern at all, and the
  characters that have a name.
-/

namespace BidBook.Pattern

/-! ## Character sets -/

inductive CharClass where
  | digit
  | blank
  | word
  deriving DecidableEq, Repr

/-- A member of a character set. Code points are numbers, so that a set may mention those that are no
character. -/
inductive CharRange where
  /-- A single code point. -/
  | one (code : Nat)
  /-- The code points from `first` to `last`. -/
  | codes (first last : Nat)
  /-- The characters of a class, or with `negated` all others. -/
  | named (negated : Bool) (cls : CharClass)
  deriving DecidableEq, Repr

structure CharSet where
  negated : Bool
  ignoreCase : Bool
  /-- Letters, digits and blanks are those of the basic alphabet only. -/
  basic : Bool := false
  ranges : List CharRange
  deriving DecidableEq, Repr

def CharClass.holds (basic : Bool) : CharClass → Char → Bool
  | digit, c => if basic then c.isDigit else Text.isDigit c
  | blank, c => if basic then Text.isPlainBlank c else Text.isBlank c
  | word, c => if basic then c == '_' || c.isAlphanum else Text.isWordChar c

/-- Code points below this one make up the basic plane. -/
def basicPlane : Nat := 0x10000

namespace CharSet

/-- Does a member of the set hold a character, of which `forms` are all the variants that count as the same?
Beyond the basic plane a single letter stands for all of its variants only where it is the whole set; as one
of several members, and where case is ignored, it stands for the letters of which it is the lower case. A
range that ends beyond the basic plane holds a letter whose upper case form begins in it, too. -/
def memberHolds (s : CharSet) (forms : List Nat) (c : Char) : CharRange → Bool
  | .one code =>
    if s.ignoreCase && !s.basic && basicPlane ≤ code && s.ranges != [.one code] then
      Text.lowerCode c.toNat == code
    else forms.contains code
  | .codes first last =>
    let upper? := if s.basic then some (Text.upperCode c.toNat) else Text.upperCaseBehind.lookup c.toNat
    (forms.any fun n => first ≤ n && n ≤ last)
      || (s.ignoreCase && basicPlane ≤ last && upper?.any fun n => first ≤ n && n ≤ last)
  | .named negated cls => cls.holds s.basic c != negated

/-- Membership. Where case is ignored a member holds a character with any of its variants. -/
def holds (s : CharSet) (c : Char) : Bool :=
  let forms :=
    if !s.ignoreCase then [c.toNat]
    else if s.basic then Text.basicVariants c.toNat
    else Text.caseVariants c.toNat
  s.ranges.any (s.memberHolds forms c) != s.negated

def single (ignoreCase : Bool) (code : Nat) : CharSet := { negated := false, ignoreCase, ranges := [.one code] }

def full : CharSet := { negated := true, ignoreCase := false, ranges := [] }

def noLineFeed : CharSet := { negated := true, ignoreCase := false, ranges := [.codes 10 10] }

@[simp] theorem holds_single (c d : Char) : (single false c.toNat).holds d = (d == c) := by
  by_cases h : d = c
  · subst h
    simp [single, holds, memberHolds]
  · have hn : c.toNat ≠ d.toNat := fun e => h (Char.toNat_inj.1 e.symm)
    simp [single, holds, memberHolds, hn, h]

end CharSet

/-! ## Expressions -/

/-- Conditions on a place in the text that consume nothing. -/
inductive Anchor where
  | textStart
  | lineStart
  | textEnd
  /-- Before a line feed, or the end of the text. -/
  | lineEnd
  /-- The end of the text, or before a line feed that ends it. -/
  | lastLineEnd
  /-- The edge of a word, of letters of all scripts or of the basic alphabet only. -/
  | wordEdge (basic : Bool)
  | noWordEdge (basic : Bool)
  deriving DecidableEq, Repr

inductive Greed where
  /-- As many as possible, fewer if the rest fails. -/
  | greedy
  /-- As few as possible, more if the rest fails. -/
  | lazy
  /-- As many as possible, whatever becomes of the rest. -/
  | possessive
  deriving DecidableEq, Repr

inductive Expr where
  | empty
  | char (set : CharSet)
  | seq (first second : Expr)
  | alt (first second : Expr)
  /-- A group whose text is remembered under a number. -/
  | group (index : Nat) (body : Expr)
  /-- The text remembered under a number. -/
  | sameAs (index : Nat) (ignoreCase basic : Bool)
  /-- `yes` if a text is remembered under a number, and else `no`. -/
  | either (index : Nat) (yes no : Expr)
  /-- Holds where `body` matches: right here, or `behind` characters back. -/
  | look (behind : Option Nat) (negated : Bool) (body : Expr)
  /-- Matches as `body` does at its first try only. -/
  | atomic (body : Expr)
  | times (least : Nat) (most : Option Nat) (greed : Greed) (body : Expr)
  | anchor (a : Anchor)
  deriving DecidableEq, Repr

inductive Fault where
  | danglingEscape
  | unknownEscape
  | unterminatedSet
  | reversedRange
  | nothingToRepeat
  | repeatedRepeat
  | reversedBounds
  | unclosedGroup
  | unopenedGroup
  | unknownExtension
  | unknownFlag
  | lateFlag
  | badGroupName
  | repeatedGroupName
  | unknownGroup
  | openGroup
  | thirdBranch
  | unboundedLookBehind
  /-- It repeats something, though its flags exclude that. -/
  | excludedRepeat
  /-- It has two flags for the whole of it that exclude each other. -/
  | conflictingFlags
  /-- The text may be one, but goes beyond a limit. -/
  | beyond (e : Excess)
  deriving DecidableEq, Repr

/-- The limit for which a text is given up instead of judged. Flags that exclude each other are given up like
a numeral of too many digits. -/
def Fault.excess? : Fault → Option Excess
  | beyond e => some e
  | conflictingFlags => some .numeral
  | _ => none

/-! ## What is taken from outside -/

/-- What becomes of a text that is to be a pattern. -/
inductive Verdict where
  | pattern
  | noPattern
  | givenUp (e : Excess)
  deriving DecidableEq, Repr

/-- Whoever decides whether a text is a pattern. -/
class Judge where
  verdict : String → Verdict

/-- Characters by name, given by their code points. -/
class CharNames where
  code? : String → Option Nat

/-- Without a table of names no character has one. -/
instance : CharNames := ⟨fun _ => none⟩

end BidBook.Pattern

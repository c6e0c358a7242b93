import BidBook.Call
import BidBook.Limits
import BidBook.Text.Blank
import BidBook.Text.Digit
import BidBook.Text.Parts

/-! # Tokens

How a call is written in a document: `1C`, `2NT!![puppet]`, `1M`, `2m|2NT`, `P`. Reading never fails. A
text of no known form stays as it is.

* `Token.parse?` — reads one call; a blank text is none.
* `Token.read` — the same, within the limits.
* `Token.key` — what tells the continuations of a position apart: the call, or else the text.
* `Token.bind` — writes suits in place of wildcards.
* `Sequence.split` — a text such as `1C/1H-2C` as its single calls.
-/

namespace BidBook

/-! ## Wildcards -/

/-- A suit left open. The letter after the level says which suits it stands for. -/
inductive Wildcard where
  /-- `M`: a major suit. -/
  | major
  /-- `m`: a minor suit. -/
  | minor
  /-- `X`: any suit. -/
  | any
  deriving DecidableEq, Repr

namespace Wildcard

/-- Every kind of wildcard; bindings enumerate them in this order. -/
def all : List Wildcard := [major, minor, any]

def letter : Wildcard → Char
  | major => 'M'
  | minor => 'm'
  | any => 'X'

def ofLetter? : Char → Option Wildcard
  | 'M' => some major
  | 'm' => some minor
  | 'X' => some any
  | _ => none

@[simp] theorem ofLetter?_letter (w : Wildcard) : ofLetter? w.letter = some w := by
  cases w <;> rfl

theorem mem_all (w : Wildcard) : w ∈ all := by cases w <;> decide

def isLevelDigit (c : Char) : Bool := '1' ≤ c && c ≤ '7'

/-- The wildcard written by two neighbouring characters. -/
def ofPair? (a b : Char) : Option Wildcard := if isLevelDigit a then ofLetter? b else none

/-- The first wildcard in a text, with its level. -/
def first? : List Char → Option (Nat × Wildcard)
  | a :: b :: rest =>
    match ofPair? a b with
    | some w => some (a.toNat - '0'.toNat, w)
    | none => first? (b :: rest)
  | _ => none

def list : List Char → List Wildcard
  | a :: b :: rest =>
    match ofPair? a b with
    | some w => w :: list rest
    | none => list (b :: rest)
  | _ => []

/-- Writes suits in place of the letters of wildcards; those without a suit stay. -/
def bindChars (suit? : Wildcard → Option String) : List Char → List Char
  | a :: b :: rest =>
    match ofPair? a b with
    | some w =>
      match suit? w with
      | some s => a :: (s.toList ++ bindChars suit? rest)
      | none => a :: b :: bindChars suit? rest
    | none => a :: bindChars suit? (b :: rest)
  | cs => cs

end Wildcard

/-! ## Parts of a written call -/

namespace Token

/-- What a token says. -/
inductive Reading where
  | call (c : Call)
  /-- A bid of an open suit. -/
  | wildcard (level : Nat) (kind : Wildcard)
  /-- Several tokens, any of which may be meant. -/
  | choice (branches : List String)
  /-- No known form. -/
  | unread
  deriving DecidableEq

end Token

/-- One written call. -/
structure Token where
  /-- The text, without blanks at its ends. -/
  raw : String
  reading : Token.Reading
  /-- What stands in brackets behind the call. -/
  tag : Option String := none
  /-- One exclamation mark. -/
  alertable : Bool := false
  /-- Two exclamation marks. -/
  announceable : Bool := false
  deriving DecidableEq

/-- What tells the continuations of a position apart. -/
inductive Key where
  | call (c : Call)
  | text (raw : String)
  deriving DecidableEq

namespace Key

def written : Key → String
  | call c => c.text
  | text raw => raw

def call? : Key → Option Call
  | call c => some c
  | text _ => none

end Key

namespace Token

/-! ## Reading -/

/-- The text before the first opening bracket. -/
def beforeTag (cs : List Char) : List Char := cs.takeWhile (· != '[')

/-- What stands behind the first opening bracket, without a closing one at its end. -/
def tagChars? (cs : List Char) : Option (List Char) :=
  match cs.dropWhile (· != '[') with
  | [] => none
  | _ :: tag => some (if tag.getLast? == some ']' then tag.dropLast else tag)

/-- The strain that a text mentions; the first in the order of strains if there are several. -/
def strainIn? (cs : List Char) : Option Strain :=
  if cs.contains 'C' then some .clubs
  else if cs.contains 'D' then some .diamonds
  else if cs.contains 'H' then some .hearts
  else if cs.contains 'S' then some .spades
  else if Text.hasPart ['N', 'T'] cs then some .notrump
  else none

/-- The call that a text without tag and exclamation marks writes. Behind the number of a bid only the
strain matters, and behind the letter of a pass or double nothing. -/
def callOf? (cs : List Char) : Option Call :=
  let digits := cs.takeWhile Text.isDigit
  if digits.isEmpty then
    if ['X', 'X'].isPrefixOf cs then some .redouble
    else if ['X'].isPrefixOf cs then some .double
    else if ['P'].isPrefixOf cs then some .pass
    else none
  else
    let level := Text.readNumeral digits
    if level = 0 then none else (Call.ofLevel? level (strainIn? cs)).toOption

/-- A text without tag and exclamation marks. -/
def plainChars (cs : List Char) : List Char :=
  Text.stripChars ((beforeTag cs).filter (· != '!'))

/-- Reads a text that is not blank, has no blanks at its ends and offers no choice. -/
def parseSingle (cs : List Char) : Token :=
  let body := beforeTag cs
  let marks := body.filter (· == '!')
  let announceable := Text.hasPart ['!', '!'] body
  let plain := plainChars cs
  let marked (reading : Reading) : Token :=
    { raw := String.ofList cs, reading, tag := (tagChars? cs).map String.ofList,
      alertable := !announceable && !marks.isEmpty, announceable }
  match Wildcard.first? plain with
  | some (level, kind) => marked (.wildcard level kind)
  | none =>
    match callOf? plain with
    | some c => marked (.call c)
    | none => { raw := String.ofList cs, reading := .unread }

/-- The texts between the bars, without blanks at their ends; blank ones are left out. -/
def branchTexts (cs : List Char) : List (List Char) :=
  ((Text.splitAt '|' cs).map Text.stripChars).filter (!·.isEmpty)

def parseChars? (cs : List Char) : Option Token :=
  let cs := Text.stripChars cs
  if cs.isEmpty then none
  else if cs.contains '|' then
    let branches := branchTexts cs
    some {
      raw := String.ofList cs,
      reading := if branches.isEmpty then .unread else .choice (branches.map String.ofList) }
  else some (parseSingle cs)

/-- Reads one call. A blank text is none. -/
def parse? (raw : String) : Option Token := parseChars? raw.toList

/-- The level of a bid is not read from a numeral that is too long. -/
def excessOf? (cs : List Char) : Option Excess :=
  let plain := plainChars cs
  if (Wildcard.first? plain).isSome then none else Excess.ofNumeral? (plain.takeWhile Text.isDigit)

def excess? (raw : String) : Option Excess :=
  let cs := Text.stripChars raw.toList
  if cs.contains '|' then (branchTexts cs).findSome? excessOf? else excessOf? cs

/-- Reads one call, if that stays within the limits. A blank text is none. -/
def read (raw : String) : Except Excess (Option Token) :=
  match excess? raw with
  | some e => .error e
  | none => .ok (parse? raw)

def readAll : List String → Except Excess (List Token)
  | [] => .ok []
  | raw :: rest => do
    let t ← read raw
    return t.toList ++ (← readAll rest)

/-- The token of a call that was never written. -/
def ofCall (c : Call) : Token := { raw := c.text, reading := .call c }

/-! ## Views -/

def call? (t : Token) : Option Call :=
  match t.reading with
  | .call c => some c
  | _ => none

def wildcard? (t : Token) : Option Wildcard :=
  match t.reading with
  | .wildcard _ kind => some kind
  | _ => none

def level? (t : Token) : Option Nat :=
  match t.reading with
  | .wildcard level _ => some level
  | _ => none

def alternatives (t : Token) : List Token :=
  match t.reading with
  | .choice branches => branches.map fun b => parseSingle b.toList
  | _ => []

def isChoice (t : Token) : Bool :=
  match t.reading with
  | .choice _ => true
  | _ => false

/-- The token is of no known form. -/
def isUnread (t : Token) : Bool := t.reading == .unread

/-- The call once it is known, and the text until then. -/
def key (t : Token) : Key :=
  match t.call? with
  | some c => .call c
  | none => .text t.raw

/-! ## Wildcards of a text -/

/-- Neither a choice nor a wildcard outside of the tag. -/
def isConcrete (raw : String) : Bool :=
  !raw.toList.contains '|' && (Wildcard.first? (beforeTag raw.toList)).isNone

/-- The wildcards of every branch of a text, outside of tags. -/
def wildcardsIn (raw : String) : List Wildcard :=
  (Text.splitAt '|' raw.toList).flatMap fun branch => Wildcard.list (beforeTag branch)

def kinds (raw : String) : List Wildcard := Wildcard.all.filter (wildcardsIn raw).contains

/-- Writes suits in place of the wildcards before the tag. -/
def bind (suit? : Wildcard → Option String) (raw : String) : String :=
  String.ofList
    (Wildcard.bindChars suit? (beforeTag raw.toList) ++ raw.toList.dropWhile (· != '['))

end Token

/-! ## Sequences -/

namespace Sequence

/-- Writes out the slash, which stands for a pass between two calls. -/
def writeOutPasses (cs : List Char) : List Char :=
  cs.flatMap fun c => if c == '/' then ['-', 'P', '-'] else [c]

/-- The calls of a sequence: between dashes, without spaces and empty parts. -/
def splitChars (cs : List Char) : List (List Char) :=
  (Text.splitAt '-' ((writeOutPasses cs).filter (· != ' '))).filter (!·.isEmpty)

def split (text : String) : List String := (splitChars text.toList).map String.ofList

def join (separator : String) (parts : List String) : String :=
  String.ofList (Text.joinWith separator.toList (parts.map String.toList))

end Sequence

end BidBook

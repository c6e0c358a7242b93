import BidBook.Text.Numeral
import BidBook.Text.Parts
import BidBook.Value
import BidBook.Yaml.Token

/-! # Values of scalars

A plain scalar is a number, a truth value, a date or null if it looks like one, and a text otherwise. A tag
says what any scalar is to be read as, and then more forms are understood than a plain scalar may have.

* `Yaml.Kind` — what a node is.
* `Yaml.Kind.ofPlain` — what a plain scalar looks like.
* `Yaml.scalarValue` — the value of a scalar of a kind.
-/

namespace BidBook.Yaml

/-- What a node is. -/
inductive Kind where
  | null
  | bool
  | int
  | float
  | bytes
  | date
  | text
  | sequence
  | mapping
  /-- A sequence of mappings with one entry each. -/
  | pairs
  /-- The key `<<`, under which other mappings are merged. -/
  | merge
  /-- The sign `=`, which is a key only. -/
  | default
  | unknown
  deriving DecidableEq, Repr

def Kind.ofTag (tag : String) : Kind :=
  if tag = "tag:yaml.org,2002:null" then .null
  else if tag = "tag:yaml.org,2002:bool" then .bool
  else if tag = "tag:yaml.org,2002:int" then .int
  else if tag = "tag:yaml.org,2002:float" then .float
  else if tag = "tag:yaml.org,2002:binary" then .bytes
  else if tag = "tag:yaml.org,2002:timestamp" then .date
  else if tag = "tag:yaml.org,2002:str" then .text
  else if tag = "tag:yaml.org,2002:seq" then .sequence
  else if tag = "tag:yaml.org,2002:map" then .mapping
  else if tag = "tag:yaml.org,2002:pairs" ∨ tag = "tag:yaml.org,2002:omap" then .pairs
  else if tag = "tag:yaml.org,2002:merge" then .merge
  else if tag = "tag:yaml.org,2002:value" then .default
  else .unknown

/-! ## The look of scalars -/

def unsigned : List Char → List Char
  | '-' :: cs => cs
  | '+' :: cs => cs
  | cs => cs

def isDigitOrLow (c : Char) : Bool := c.isDigit || c == '_'

/-- One or more characters that all satisfy a test. -/
def someAll (test : Char → Bool) (cs : List Char) : Bool := !cs.isEmpty && cs.all test

/-- A digit, and then digits and low lines. -/
def isCount (cs : List Char) : Bool := (cs.head?.any Char.isDigit) && cs.all isDigitOrLow

/-- One or two digits of a number below sixty. -/
def isSixtieth : List Char → Bool
  | [a] => a.isDigit
  | [a, b] => '0' ≤ a && a ≤ '5' && b.isDigit
  | _ => false

/-- Digits, and then one or more numbers below sixty after colons. -/
def isSexagesimal (cs : List Char) : Bool :=
  match Text.splitAt ':' cs with
  | first :: rest => isCount first && !rest.isEmpty && rest.all isSixtieth
  | [] => false

def looksInt (cs : List Char) : Bool :=
  match unsigned cs with
  | ['0'] => true
  | '0' :: 'b' :: ds => someAll (fun c => c == '0' || c == '1' || c == '_') ds
  | '0' :: 'x' :: ds => someAll (fun c => Chars.isHex c || c == '_') ds
  | '0' :: ds => someAll (fun c => ('0' ≤ c && c ≤ '7') || c == '_') ds
  | ds => isCount ds || isSexagesimal ds

/-- An exponent with its sign, or none. -/
def isExponent : List Char → Bool
  | [] => true
  | e :: s :: ds => (e == 'e' || e == 'E') && (s == '-' || s == '+') && someAll Char.isDigit ds
  | _ => false

/-- Digits and low lines, and perhaps an exponent. -/
def isFraction (cs : List Char) : Bool := isExponent (cs.dropWhile isDigitOrLow)

def looksFloat (cs : List Char) : Bool :=
  let whole := (unsigned cs).takeWhile (· != '.')
  match (unsigned cs).dropWhile (· != '.') with
  | [] => false
  | _ :: part =>
    if whole.isEmpty then
      ["inf", "Inf", "INF"].any (·.toList == part)
        || (cs.head? == some '.'
          && (["nan", "NaN", "NAN"].any (·.toList == part)
            || (part.head?.any Char.isDigit && isFraction part)))
    else (isCount whole && isFraction part) || (isSexagesimal whole && part.all isDigitOrLow)

/-- A numeral of so many digits at least and at most, and what follows it. -/
def takeNumeral? (least most : Nat) (cs : List Char) : Option (Nat × List Char) :=
  let ds := (cs.take most).takeWhile Char.isDigit
  if ds.length < least then none else some (Text.readNumeral ds, cs.drop ds.length)

def past? (c : Char) : List Char → Option (List Char)
  | [] => none
  | d :: rest => if d == c then some rest else none

/-- Millionths, from the digits of a fraction. -/
def readMicro (ds : List Char) : Nat :=
  let ds := ds.take 6
  Text.readNumeral (ds ++ List.replicate (6 - ds.length) '0')

/-- The zone behind a time, in minutes; the letter `Z` stands for the prime meridian's. -/
def readZone? : List Char → Option (Option Int)
  | [] => some none
  | cs =>
    match cs.dropWhile Chars.isSpaceOrTab with
    | ['Z'] => some (some 0)
    | sign :: rest => do
      if sign != '+' && sign != '-' then none
      let (hours, rest) ← takeNumeral? 1 2 rest
      let (minutes, rest) ← if rest.isEmpty then some (0, []) else (past? ':' rest).bind (takeNumeral? 2 2)
      if !rest.isEmpty then none
      let distance : Int := 60 * hours + minutes
      some (some (if sign == '-' then -distance else distance))
    | [] => none

/-- The time behind a date, after a letter `T` or blanks. -/
def readClock? : List Char → Option Clock
  | [] => none
  | c :: rest => do
    let cs ← if c == 'T' || c == 't' then some rest
      else if Chars.isSpaceOrTab c then some (rest.dropWhile Chars.isSpaceOrTab)
      else none
    let (hour, cs) ← takeNumeral? 1 2 cs
    let (minute, cs) ← (past? ':' cs).bind (takeNumeral? 2 2)
    let (second, cs) ← (past? ':' cs).bind (takeNumeral? 2 2)
    let (micro, cs) := match cs with
      | '.' :: rest => (readMicro (rest.takeWhile Char.isDigit), rest.dropWhile Char.isDigit)
      | cs => (0, cs)
    return ⟨hour, minute, second, micro, ← readZone? cs⟩

/-- Year, month and day between dashes, and perhaps a time. Whether there is such a day is not asked. -/
def readStamp? (cs : List Char) : Option Date := do
  let (year, cs) ← takeNumeral? 4 4 cs
  let (month, cs) ← (past? '-' cs).bind (takeNumeral? 1 2)
  let (day, cs) ← (past? '-' cs).bind (takeNumeral? 1 2)
  if cs.isEmpty then return ⟨year, month, day, none⟩
  return ⟨year, month, day, some (← readClock? cs)⟩

/-- Without a time, month and day have to have two digits. -/
def looksDate (cs : List Char) : Bool :=
  match readStamp? cs with
  | some d => d.time.isSome || cs.length == 10
  | none => false

/-- A single line feed at the end does not change the look of a scalar. -/
def withoutLastBreak (cs : List Char) : List Char :=
  if cs.getLast? == some '\n' && cs.length != 1 then cs.dropLast else cs

def trueWords : List String := ["yes", "true", "on"]

def falseWords : List String := ["no", "false", "off"]

/-- A word in lower case, in upper case, or with a capital. -/
def isWord (words : List String) (s : String) : Bool :=
  words.any fun w => s == w || s == w.toUpper || s == w.capitalize

def Kind.ofPlain (text : String) : Kind :=
  let cs := withoutLastBreak text.toList
  let s := String.ofList cs
  if isWord trueWords s || isWord falseWords s then .bool
  else if looksFloat cs then .float
  else if looksInt cs then .int
  else if s = "<<" then .merge
  else if s = "" ∨ s = "~" ∨ isWord ["null"] s then .null
  else if looksDate cs then .date
  else if s = "=" then .default
  else if ["!", "&", "*"].contains s then .unknown
  else .text

/-! ## Values -/

def noNumber {α : Type} : Except Fault α := .error (.misfit .noNumber)

def integerIn (base : Nat) (cs : List Char) : Except Fault Int :=
  match Text.readInteger base cs with
  | .error e => .error (.beyond e)
  | .ok none => noNumber
  | .ok (some i) => .ok i

/-- An integer behind its sign. Parts between colons are worth sixty times those behind them. -/
def readMagnitude : List Char → Except Fault Int
  | [] => .error (.misfit .noDigits)
  | ['0'] => .ok 0
  | '0' :: 'b' :: ds => integerIn 2 ds
  | '0' :: 'x' :: ds => integerIn 16 ds
  | '0' :: ds => integerIn 8 ('0' :: ds)
  | ds => do
    let parts ← (Text.splitAt ':' ds).mapM (integerIn 10)
    return parts.foldl (fun n part => 60 * n + part) 0

def readInt (s : String) : Except Fault Int := do
  let (negative, body) := Text.splitSign (s.toList.filter (· != '_'))
  let n ← readMagnitude body
  return if negative then -n else n

/-- The sum of numbers, lowest first, each worth sixty times the one before it. -/
def sumSixties : Nat → Binary64 → List Binary64 → Except Fault Binary64
  | _, total, [] => .ok total
  | base, total, part :: rest =>
    match Binary64.ofNat? base with
    | none => .error (.beyond .size)
    | some factor => sumSixties (60 * base) (total.add (part.mul factor)) rest

def fractionIn (cs : List Char) : Except Fault Binary64 :=
  match Binary64.ofText? cs with
  | none => noNumber
  | some f => .ok f

def readFloat (s : String) : Except Fault Binary64 := do
  let cs := (s.toList.filter (· != '_')).map Char.toLower
  if cs.isEmpty then throw (.misfit .noDigits)
  let (negative, body) := Text.splitSign cs
  let f ← (if body = ".inf".toList then .ok (.infinite false)
    else if body = ".nan".toList then .ok .nan
    else if body.contains ':' then do
      let parts ← (Text.splitAt ':' body).mapM fractionIn
      sumSixties 1 (.zero false) parts.reverse
    else fractionIn body : Except Fault Binary64)
  return if negative then f.negate else f

def isLeapYear (y : Nat) : Bool := (y % 4 == 0 && y % 100 != 0) || y % 400 == 0

def daysIn (y m : Nat) : Nat :=
  if m = 2 then (if isLeapYear y then 29 else 28)
  else if m = 4 ∨ m = 6 ∨ m = 9 ∨ m = 11 then 30
  else 31

/-- There is such a time, and its zone is less than a day away. -/
def isTime (t : Clock) : Bool :=
  t.hour < 24 && t.minute < 60 && t.second < 60 && t.zone.all (·.natAbs < 1440)

def isDay (d : Date) : Bool :=
  1 ≤ d.year && 1 ≤ d.month && d.month ≤ 12 && 1 ≤ d.day && d.day ≤ daysIn d.year d.month
    && d.time.all isTime

def readDate (s : String) : Except Fault Date :=
  match readStamp? (withoutLastBreak s.toList) with
  | none => .error (.misfit .noDate)
  | some d => if isDay d then .ok d else .error (.misfit .noSuchDay)

def sixBits? (c : Char) : Option Nat :=
  if 'A' ≤ c && c ≤ 'Z' then some (c.toNat - 65)
  else if 'a' ≤ c && c ≤ 'z' then some (c.toNat - 71)
  else if c.isDigit then some (c.toNat + 4)
  else if c == '+' then some 62
  else if c == '/' then some 63
  else none

/-- Bytes written in groups of four signs; signs without a value are skipped. `place` is the place in the
group, `left` holds bits of a byte that is not complete, and `pads` counts the padding signs. -/
def readBytes? : Nat → Nat → Nat → List Char → Option (List UInt8)
  | place, _, _, [] => if place = 0 then some [] else none
  | place, left, pads, c :: rest =>
    if c == '=' then
      if 2 ≤ place ∧ 4 ≤ place + pads + 1 then some []
      else readBytes? place left (if 2 ≤ place then pads + 1 else pads) rest
    else
      match sixBits? c, place with
      | none, place => readBytes? place left pads rest
      | some v, 0 => readBytes? 1 v 0 rest
      | some v, 1 => (readBytes? 2 (v % 16) 0 rest).map ((left * 4 + v / 16).toUInt8 :: ·)
      | some v, 2 => (readBytes? 3 (v % 4) 0 rest).map ((left * 16 + v / 4).toUInt8 :: ·)
      | some v, _ => (readBytes? 0 0 0 rest).map ((left * 64 + v).toUInt8 :: ·)

def readBool (s : String) : Except Fault Bool :=
  if trueWords.contains s.toLower then .ok true
  else if falseWords.contains s.toLower then .ok false
  else .error (.misfit .noTruthValue)

def scalarValue (kind : Kind) (s : String) : Except Fault Value :=
  match kind with
  | .null => .ok .null
  | .bool => (readBool s).map .bool
  | .int => (readInt s).map .int
  | .float => (readFloat s).map .float
  | .bytes =>
    match if s.toList.all (·.toNat < 0x80) then readBytes? 0 0 0 s.toList else none with
    | some bs => .ok (.bytes bs)
    | none => .error (.malformed .values)
  | .date => (readDate s).map .date
  | .text => .ok (.text s)
  | _ => .error (.malformed .values)

end BidBook.Yaml

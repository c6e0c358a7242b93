import BidBook.Limits
import BidBook.Text.Parts
import BidBook.Text.Quoted
import BidBook.Value

/-! # Values as text

How a value is shown. On its own a text is shown as it is; inside of sequences and mappings, and wherever
a message has to tell texts from other values, it is quoted.

* `Value.quoted` — a value as it is shown inside of others.
* `Value.shown` — a value as it is shown on its own.
* `Value.render` — the same, within the limits.
-/

namespace BidBook

/-- A number with at least `width` digits. -/
def padded (width n : Nat) : String :=
  let ds := (toString n).toList
  String.ofList (List.replicate (width - ds.length) '0' ++ ds)

namespace Clock

def zoneShown (minutes : Int) : String :=
  let sign := if minutes < 0 then "-" else "+"
  s!"{sign}{padded 2 (minutes.natAbs / 60)}:{padded 2 (minutes.natAbs % 60)}"

/-- The time between colons, with the zone behind it. -/
def shown (t : Clock) : String :=
  let micro := if t.micro = 0 then "" else s!".{padded 6 t.micro}"
  s!"{padded 2 t.hour}:{padded 2 t.minute}:{padded 2 t.second}{micro}" ++
    ((t.zone.map zoneShown).getD "")

/-- A distance from the prime meridian as a call. -/
def zoneQuoted (minutes : Int) : String :=
  if minutes = 0 then "datetime.timezone.utc"
  else
    let days := if minutes < 0 then "days=-1, " else ""
    let seconds := 60 * (minutes % 1440)
    s!"datetime.timezone(datetime.timedelta({days}seconds={seconds}))"

/-- The numbers of the time, without seconds that are zero, and the zone. -/
def quotedParts (t : Clock) : List String :=
  let small := if t.micro ≠ 0 then [t.second, t.micro] else if t.second ≠ 0 then [t.second] else []
  (t.hour :: t.minute :: small).map toString
    ++ (t.zone.map fun z => "tzinfo=" ++ zoneQuoted z).toList

end Clock

namespace Date

def dayShown (d : Date) : String := s!"{padded 4 d.year}-{padded 2 d.month}-{padded 2 d.day}"

def written (separator : String) (d : Date) : String :=
  match d.time with
  | none => d.dayShown
  | some t => d.dayShown ++ separator ++ t.shown

def shown (d : Date) : String := d.written " "

def quoted (d : Date) : String :=
  let day := [d.year, d.month, d.day].map toString
  let call (name : String) (parts : List String) : String :=
    s!"datetime.{name}(" ++ String.ofList (Text.joinWith [',', ' '] (parts.map String.toList)) ++ ")"
  match d.time with
  | none => call "date" day
  | some t => call "datetime" (day ++ t.quotedParts)

end Date

namespace Value

def bracketed (opening closing : String) (parts : List String) : String :=
  String.ofList
    (opening.toList ++ Text.joinWith [',', ' '] (parts.map String.toList) ++ closing.toList)

mutual

/-- A value as it is shown inside of others. -/
def quoted : Value → String
  | null => "None"
  | bool true => "True"
  | bool false => "False"
  | int i => toString i
  | float f => f.written
  | text s => Text.quote s
  | bytes bs => Text.quoteBytes bs
  | date d => d.quoted
  | list items => bracketed "[" "]" (quotedItems items)
  | tuple items =>
    match items with
    | [item] => bracketed "(" ",)" [item.quoted]
    | items => bracketed "(" ")" (quotedItems items)
  | map entries => bracketed "\x7b" "\x7d" (quotedEntries entries)

def quotedItems : List Value → List String
  | [] => []
  | v :: rest => v.quoted :: quotedItems rest

def quotedEntries : List (Value × Value) → List String
  | [] => []
  | (k, v) :: rest => (k.quoted ++ ": " ++ v.quoted) :: quotedEntries rest

end

/-- A value as it is shown on its own. -/
def shown : Value → String
  | text s => s
  | date d => d.shown
  | v => v.quoted

/-- Integers from here on have too many digits to be written. -/
def tooManyDigits : Nat := Nat.pow 10 longestNumeral

mutual

def excess? : Value → Option Excess
  | int i => if tooManyDigits ≤ i.natAbs then some .numeral else none
  | list items => excessItems? items
  | tuple items => excessItems? items
  | map entries => excessEntries? entries
  | _ => none

def excessItems? : List Value → Option Excess
  | [] => none
  | v :: rest => v.excess?.or (excessItems? rest)

def excessEntries? : List (Value × Value) → Option Excess
  | [] => none
  | (k, v) :: rest => (k.excess?.or v.excess?).or (excessEntries? rest)

end

/-- A value as it is shown on its own, if that stays within the limits. -/
def render (v : Value) : Except Excess String :=
  match v.excess? with
  | some e => .error e
  | none => .ok v.shown

end Value

end BidBook

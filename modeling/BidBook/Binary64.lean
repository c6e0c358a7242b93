import BidBook.Text.Numeral

/-! # Binary fractions

Numbers with a binary fraction of fifty-three significant bits, as exact values, and their decimal
notation.

* `Binary64.ofRatio` — the nearest such number to a quotient; a half goes to the even neighbour.
* `Binary64.digits` — the fewest decimal digits that still read back as the number.
* `Binary64.written` — those digits in plain or in exponent notation.
* `Binary64.ofText?` — the nearest number to a decimal numeral.
-/

namespace BidBook

/-- A finite number is `mantissa * 2 ^ exponent` with its sign. The mantissa has fifty-three bits, or
fewer at the lowest exponent, so that a number has one form only. -/
inductive Binary64 where
  | finite (negative : Bool) (mantissa : Nat) (exponent : Int)
  | infinite (negative : Bool)
  | nan
  deriving DecidableEq, Repr

namespace Binary64

/-- Number of values of the leading bits: a full mantissa lies below. -/
def mantissaBound : Nat := Nat.pow 2 53

def lowestExponent : Int := -1074

def highestExponent : Int := 971

def zero (negative : Bool) : Binary64 := finite negative 0 lowestExponent

/-- A quotient scaled by a power of two, as numerator and denominator. -/
def scale (num den : Nat) (power : Int) : Nat × Nat :=
  if 0 ≤ power then (num * Nat.pow 2 power.toNat, den) else (num, den * Nat.pow 2 (-power).toNat)

/-- The nearest natural number to a quotient; a half goes to the even neighbour. -/
def roundRatio (num den : Nat) : Nat :=
  let q := num / den
  let r := num % den
  if den < 2 * r || (2 * r == den && q % 2 == 1) then q + 1 else q

/-- Exponent at which a positive quotient has a full mantissa, or the lowest one. -/
def exponentOf (num den : Nat) : Int :=
  let guess : Int := (Nat.log2 num : Int) - (Nat.log2 den : Int) - 52
  let (n, d) := scale num den (-guess)
  max lowestExponent (if n < d * Nat.pow 2 52 then guess - 1 else guess)

/-- The nearest number to a quotient. -/
def ofRatio (negative : Bool) (num den : Nat) : Binary64 :=
  if num = 0 then zero negative
  else
    let e := exponentOf num den
    let (n, d) := scale num den (-e)
    let m := roundRatio n d
    let (m, e) := if m = mantissaBound then (m / 2, e + 1) else (m, e)
    if highestExponent < e then infinite negative else finite negative m e

def toRatio? : Binary64 → Option (Int × Nat)
  | finite negative m e =>
    let (n, d) := scale m 1 e
    some (if negative then -(n : Int) else n, d)
  | _ => none

def ofSignedRatio (num : Int) (den : Nat) : Binary64 :=
  ofRatio (decide (num < 0)) num.natAbs den

/-- Sum, rounded. Infinities of both signs have none. -/
def add : Binary64 → Binary64 → Binary64
  | nan, _ | _, nan => nan
  | infinite s, infinite t => if s == t then infinite s else nan
  | infinite s, _ => infinite s
  | _, infinite t => infinite t
  | a, b =>
    match a.toRatio?, b.toRatio? with
    | some (n, d), some (n', d') => ofSignedRatio (n * d' + n' * d) (d * d')
    | _, _ => nan

def isNegative : Binary64 → Bool
  | finite s _ _ => s
  | infinite s => s
  | nan => false

/-- Product, rounded. Zero and an infinity have none. -/
def mul (a b : Binary64) : Binary64 :=
  let negative := a.isNegative != b.isNegative
  match a, b with
  | nan, _ | _, nan => nan
  | infinite _, finite _ m _ => if m = 0 then nan else infinite negative
  | finite _ m _, infinite _ => if m = 0 then nan else infinite negative
  | infinite _, infinite _ => infinite negative
  | finite _ m e, finite _ m' e' =>
    let (n, d) := scale (m * m') 1 (e + e')
    ofRatio negative n d

/-- The nearest number to a natural number; none if that is infinite. -/
def ofNat? (n : Nat) : Option Binary64 :=
  match ofRatio false n 1 with
  | infinite _ => none
  | f => some f

def negate : Binary64 → Binary64
  | finite s m e => finite (!s) m e
  | infinite s => infinite (!s)
  | nan => nan

def isZero : Binary64 → Bool
  | finite _ m _ => m == 0
  | _ => false

/-- Equality of values: zero has one value whatever its sign, and what is no number equals nothing. -/
def sameValue (a b : Binary64) : Bool :=
  match a, b with
  | nan, _ => false
  | _, nan => false
  | a, b => a == b || (a.isZero && b.isZero)

def isInt (a : Binary64) (i : Int) : Bool :=
  match a.toRatio? with
  | some (n, d) => n == i * d
  | none => false

/-! ## Decimal notation -/

/-- A power of ten as numerator and denominator of a factor. -/
def timesTen (num den : Nat) (power : Int) : Nat × Nat :=
  if 0 ≤ power then (num * Nat.pow 10 power.toNat, den) else (num, den * Nat.pow 10 (-power).toNat)

/-- Number of decimal digits before the point of a positive quotient; zero or less for one below one
tenth and so on. The guess is too low by at most two. -/
def pointOf (num den : Nat) : Int :=
  let below (p : Int) : Bool :=
    let (n, d) := timesTen num den (-p)
    n < d
  let guess : Int := ((Nat.log2 num : Int) - (Nat.log2 den : Int) - 1) * 30103 / 100000
  if below guess then guess
  else if below (guess + 1) then guess + 1
  else if below (guess + 2) then guess + 2
  else guess + 3

/-- Do a quotient's distances below and above a number stay inside the interval that rounds to it? All
are given over one denominator. -/
def within (low high x : Nat) (closed : Bool) : Bool :=
  if closed then low ≤ x && x ≤ high else low < x && x < high

/-- Of the multiples of a power of ten next to a number, the nearer one that reads back. -/
def onGrid? (m : Nat) (e : Int) (power : Int) : Option Nat :=
  -- four times the number, so that the borders of its interval are whole
  let (n, d) := scale m 1 e
  let (n, d) := timesTen n d (-power)
  let value := 4 * n
  let (half, den) := scale 2 1 e
  let (half, _) := timesTen half den (-power)
  let low := if m == Nat.pow 2 52 && lowestExponent < e then value - half / 2 else value - half
  let high := value + half
  let closed := m % 2 == 0
  let below := n / d
  let inside (q : Nat) : Bool := within low high (4 * q * d) closed
  let nearer (q : Nat) : Bool := 2 * (n - q * d) < d || (2 * (n - q * d) == d && q % 2 == 0)
  if inside below && (!inside (below + 1) || nearer below) then some below
  else if inside (below + 1) then some (below + 1)
  else none

/-- The first grid, from the coarsest on, with a number that reads back. -/
def digitsFrom (m : Nat) (e : Int) (point : Int) : Nat → Nat → Nat × Int
  | 0, _ => (0, point)
  | fuel + 1, count =>
    match onGrid? m e (point - count) with
    | some q => (q, point - count)
    | none => digitsFrom m e point fuel (count + 1)

/-- Decimal digits, and the exponent of the last one. -/
def digits (m : Nat) (e : Int) : Nat × Int :=
  let (n, d) := scale m 1 e
  digitsFrom m e (pointOf n d) 17 1

def trimZeros : List Char → List Char := fun cs => (cs.reverse.dropWhile (· == '0')).reverse

/-- Digits with the point after the first `point` of them. -/
def plainNotation (ds : List Char) (point : Int) : List Char :=
  if point ≤ 0 then '0' :: '.' :: (List.replicate (-point).toNat '0' ++ ds)
  else
    let p := point.toNat
    if ds.length ≤ p then ds ++ List.replicate (p - ds.length) '0' ++ ['.', '0']
    else ds.take p ++ '.' :: ds.drop p

/-- Digits with the point after the first one, and an exponent of at least two digits. -/
def exponentNotation (ds : List Char) (point : Int) : List Char :=
  let e := point - 1
  let mantissa := match ds with
    | d :: [] => [d]
    | d :: rest => d :: '.' :: rest
    | [] => ['0']
  let n := (toString e.natAbs).toList
  mantissa ++ 'e' :: (if e < 0 then '-' else '+') :: (if n.length < 2 then '0' :: n else n)

/-- Plain notation is used from `0.0001` up to sixteen digits before the point. -/
def notationOf (ds : List Char) (point : Int) : List Char :=
  if -4 < point && point ≤ 16 then plainNotation ds point else exponentNotation ds point

def written : Binary64 → String
  | nan => "nan"
  | infinite negative => if negative then "-inf" else "inf"
  | finite negative m e =>
    let ds := if m = 0 then ['0', '.', '0']
      else
        let (q, power) := digits m e
        let cs := (toString q).toList
        notationOf (trimZeros cs) (cs.length + power)
    String.ofList (if negative then '-' :: ds else ds)

/-! ## Reading -/

/-- The nearest number to `n * 10 ^ power`. Powers far out of range need not be computed. -/
def ofDecimal (negative : Bool) (n : Nat) (power : Int) : Binary64 :=
  if n = 0 then zero negative
  else
    let top : Int := (toString n).length + power
    if 400 < top then infinite negative
    else if top < -400 then zero negative
    else
      let (num, den) := timesTen n 1 power
      ofRatio negative num den

def digitsValue (cs : List Char) : Nat := cs.foldl (fun n c => 10 * n + (c.toNat - 48)) 0

def readExponent? (cs : List Char) : Option Int :=
  let (negative, ds) := Text.splitSign cs
  if ds.isEmpty || !ds.all Char.isDigit then none
  else some (if negative then -(digitsValue ds : Int) else digitsValue ds)

/-- The number that a sign, digits with a point among them, and an exponent write. -/
def read? (text : List Char) : Option Binary64 :=
  let (negative, cs) := Text.splitSign text
  match cs.map Char.toLower with
  | ['i', 'n', 'f'] => some (infinite negative)
  | ['i', 'n', 'f', 'i', 'n', 'i', 't', 'y'] => some (infinite negative)
  | ['n', 'a', 'n'] => some nan
  | cs =>
    let whole := cs.takeWhile Char.isDigit
    let rest := cs.dropWhile Char.isDigit
    let (part, rest) := match rest with
      | '.' :: rest => (rest.takeWhile Char.isDigit, rest.dropWhile Char.isDigit)
      | rest => ([], rest)
    if whole.isEmpty && part.isEmpty then none
    else
      let n := digitsValue (whole ++ part)
      let number (e : Int) : Binary64 := ofDecimal negative n (e - part.length)
      match rest with
      | [] => some (number 0)
      | 'e' :: ds => (readExponent? ds).map number
      | _ => none

/-- The number that a text writes: with blanks around it, and in digits of any script. -/
def ofText? (text : List Char) : Option Binary64 :=
  (Text.plainForm? text).bind fun cs => read? (Text.stripPlain cs)

end Binary64

end BidBook

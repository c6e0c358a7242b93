import BidBook.Pattern.Matching
import BidBook.Text.Identifier
import BidBook.Text.Numeral
import BidBook.Text.Parts

/-! # Reading patterns

The written form of patterns. Most characters stand for themselves; `. ^ $ * + ? ( ) [ {` and `|` have
their usual meaning, and the backslash takes a meaning away or gives one.

* `Symbol.ofChars` — a text as symbols: a character, or one with a backslash before it.
* `Expr.read` — the expression a text writes.
* `Fault` — what is wrong with any other text.

Flags and groups are resolved while reading: an expression says for each set whether it ignores case,
and a look behind says how many characters it goes back.
-/

namespace BidBook.Pattern

section

variable [CharNames]

/-! ## Symbols -/

/-- A character, bare or after a backslash. -/
inductive Symbol where
  | bare (c : Char)
  | escaped (c : Char)
  /-- A backslash at the end of the text, which has nothing to escape. -/
  | dangling
  deriving DecidableEq, Repr

def Symbol.ofChars : List Char → List Symbol
  | [] => []
  | ['\\'] => [.dangling]
  | '\\' :: c :: rest => .escaped c :: ofChars rest
  | c :: rest => .bare c :: ofChars rest

/-- Takes symbols while they are bare characters that satisfy `test`, at most `limit` of them. -/
def takeBare (test : Char → Bool) : Nat → List Symbol → List Char × List Symbol
  | 0, ts => ([], ts)
  | limit + 1, .bare c :: rest =>
    if test c then
      let (cs, rest') := takeBare test limit rest
      (c :: cs, rest')
    else ([], .bare c :: rest)
  | _, ts => ([], ts)

def takeUntil (stop : Char) : List Symbol → Option (List Char × List Symbol)
  | [] => none
  | .bare c :: rest =>
    if c == stop then some ([], rest)
    else (takeUntil stop rest).map fun (cs, rest') => (c :: cs, rest')
  | .escaped c :: rest => (takeUntil stop rest).map fun (cs, rest') => ('\\' :: c :: cs, rest')
  | .dangling :: _ => none

def dropPast (stop : Char) : List Symbol → Option (List Symbol)
  | [] => none
  | t :: rest => if t == .bare stop then some rest else dropPast stop rest

/-! ## Numerals -/

def isOctal (c : Char) : Bool := '0' ≤ c && c ≤ '7'

/-- Value of a hexadecimal digit; zero for any other character. -/
def hexValue (c : Char) : Nat :=
  if c.isDigit then c.toNat - 48
  else if 'a' ≤ c && c ≤ 'f' then c.toNat - 87
  else if 'A' ≤ c && c ≤ 'F' then c.toNat - 55
  else 0

def isHex (c : Char) : Bool := c.isDigit || ('a' ≤ c && c ≤ 'f') || ('A' ≤ c && c ≤ 'F')

def numeral (base : Nat) (cs : List Char) : Nat := cs.foldl (fun n c => base * n + hexValue c) 0

/-! ## Escapes -/

def controlCode? : Char → Option Nat
  | 'a' => some 7
  | 'b' => some 8
  | 'f' => some 12
  | 'n' => some 10
  | 'r' => some 13
  | 't' => some 9
  | 'v' => some 11
  | '\\' => some 92
  | _ => none

def classRange? : Char → Option CharRange
  | 'd' => some (.named false .digit)
  | 'D' => some (.named true .digit)
  | 's' => some (.named false .blank)
  | 'S' => some (.named true .blank)
  | 'w' => some (.named false .word)
  | 'W' => some (.named true .word)
  | _ => none

def anchor? (basic : Bool) : Char → Option Anchor
  | 'A' => some .textStart
  | 'Z' => some .textEnd
  | 'b' => some (.wordEdge basic)
  | 'B' => some (.noWordEdge basic)
  | _ => none

/-- A code point given by exactly `count` hexadecimal digits. -/
def readHex (count : Nat) (ts : List Symbol) : Except Fault (Nat × List Symbol) :=
  let (cs, rest) := takeBare isHex count ts
  if cs.length = count ∧ numeral 16 cs < 0x110000 then .ok (numeral 16 cs, rest)
  else .error .unknownEscape

def readName (ts : List Symbol) : Except Fault (Nat × List Symbol) :=
  match ts with
  | .bare '{' :: rest =>
    match takeUntil '}' rest with
    | some (name, rest) =>
      match CharNames.code? (String.ofList name) with
      | some n => .ok (n, rest)
      | none => .error .unknownEscape
    | none => .error .unknownEscape
  | _ => .error .unknownEscape

/-- A code point named by an escape that means the same inside and outside of sets. -/
def readCode? (c : Char) (ts : List Symbol) : Option (Except Fault (Nat × List Symbol)) :=
  match c with
  | 'x' => some (readHex 2 ts)
  | 'u' => some (readHex 4 ts)
  | 'U' => some (readHex 8 ts)
  | 'N' => some (readName ts)
  | c =>
    if c.isAlpha then some (.error .unknownEscape)
    else if c.isDigit then none
    else some (.ok (c.toNat, ts))

def readSetEscape (c : Char) (ts : List Symbol) : Except Fault (CharRange × List Symbol) :=
  match controlCode? c, classRange? c with
  | some n, _ => .ok (.one n, ts)
  | none, some r => .ok (r, ts)
  | none, none =>
    match readCode? c ts with
    | some result => result.map fun (n, rest) => (.one n, rest)
    | none =>
      if isOctal c then
        let (cs, rest) := takeBare isOctal 2 ts
        let n := numeral 8 (c :: cs)
        if n ≤ 0o377 then .ok (.one n, rest) else .error .unknownEscape
      else .error .unknownEscape

/-! ## Character sets -/

/-- One member of a set, before a range is made of it. -/
def readSetItem : List Symbol → Except Fault (CharRange × List Symbol)
  | [] => .error .unterminatedSet
  | .bare c :: rest => .ok (.one c.toNat, rest)
  | .escaped c :: rest => readSetEscape c rest
  | .dangling :: _ => .error .danglingEscape

/-- The range from one member of a set to another; both have to be single characters. -/
def joinRange : CharRange → CharRange → Except Fault CharRange
  | .one lo, .one hi => if lo ≤ hi then .ok (.codes lo hi) else .error .reversedRange
  | _, _ => .error .reversedRange

/-- The members of a set up to its closing bracket. A bracket in first place is a member. -/
def readSetItems : Nat → Bool → List Symbol → Except Fault (List CharRange × List Symbol)
  | 0, _, _ => .error .unterminatedSet
  | fuel + 1, first, ts =>
    if !first && ts.head? == some (.bare ']') then .ok ([], ts.tail)
    else do
      let (item, rest) ← readSetItem ts
      match rest with
      | .bare '-' :: .bare ']' :: rest' => return ([item, .one 45], rest')
      | .bare '-' :: rest' =>
        let (upper, rest'') ← readSetItem rest'
        let range ← joinRange item upper
        let (items, out) ← readSetItems fuel false rest''
        return (range :: items, out)
      | _ =>
        let (items, out) ← readSetItems fuel false rest
        return (item :: items, out)

def readSet (ignoreCase basic : Bool) (ts : List Symbol) : Except Fault (CharSet × List Symbol) := do
  let (negated, ts) := match ts with
    | .bare '^' :: rest => (true, rest)
    | _ => (false, ts)
  let (items, rest) ← readSetItems (ts.length + 1) true ts
  return (⟨negated, ignoreCase, basic, items.eraseDups⟩, rest)

/-! ## Widths -/

/-- Number of characters that stands for any larger one. -/
def unboundedWidth : Nat := Nat.pow 2 64

/-- Largest bound of a repetition, and largest number of characters to look back. -/
def largestBound : Nat := Nat.pow 2 32 - 1

/-- Fewest and most characters that an expression consumes, given those of the groups. -/
def Expr.width (groups : List (Option (Nat × Nat))) : Expr → Nat × Nat
  | empty => (0, 0)
  | char _ => (1, 1)
  | seq a b =>
    let (l, h) := a.width groups
    let (l', h') := b.width groups
    (min (l + l') unboundedWidth, min (h + h') unboundedWidth)
  | alt a b =>
    let (l, h) := a.width groups
    let (l', h') := b.width groups
    (min l l', max h h')
  | group _ body => body.width groups
  | sameAs index _ _ => ((groups[index - 1]?).join).getD (0, 0)
  | either _ yes no =>
    let (l, h) := yes.width groups
    let (l', h') := no.width groups
    (min l l', max h h')
  | look _ _ _ => (0, 0)
  | atomic body => body.width groups
  | times least most _ body =>
    let (l, h) := body.width groups
    let high := match most with
      | none => if h = 0 then 0 else unboundedWidth
      | some m => h * m
    (min (l * least) unboundedWidth, min high unboundedWidth)
  | anchor _ => (0, 0)

def Expr.repeats : Expr → Bool
  | seq a b | alt a b | either _ a b => a.repeats || b.repeats
  | group _ body | look _ _ body | atomic body => body.repeats
  | times _ _ _ _ => true
  | empty | char _ | sameAs _ _ _ | anchor _ => false

/-! ## Expressions -/

structure Flags where
  ignoreCase : Bool := false
  multiline : Bool := false
  dotAll : Bool := false
  verbose : Bool := false
  /-- Letters, digits and blanks are those of the basic alphabet only. -/
  basic : Bool := false
  /-- They are those of all scripts, as without any flag. -/
  full : Bool := false
  /-- Nothing may be repeated. -/
  template : Bool := false
  deriving DecidableEq, Repr

def Flags.set? (f : Flags) (value : Bool) : Char → Option Flags
  | 'i' => some { f with ignoreCase := value }
  | 'm' => some { f with multiline := value }
  | 's' => some { f with dotAll := value }
  | 'x' => some { f with verbose := value }
  | 'a' => some { f with basic := value }
  | 'u' => some { f with full := value }
  | 't' => some { f with template := value }
  | _ => none

structure Progress where
  flags : Flags := {}
  /-- Widths of the groups opened so far; none while a group is open. -/
  groups : List (Option (Nat × Nat)) := []
  /-- Numbers of the named groups. -/
  names : List (String × Nat) := []
  /-- Inside a look behind, the number of groups opened before it. -/
  lookBehindFrom : Option Nat := none
  /-- Number of groups around the present place. -/
  depth : Nat := 0
  /-- A look behind whose width varies has been read. It is a fault only if nothing else is. -/
  unbounded : Bool := false
  /-- The largest number of a group that a condition asks for. That there is such a group is seen only at the
  end. -/
  asked : Nat := 0

/-- What a repetition sign finds before it. -/
inductive ItemKind where
  | anchor
  | repeated
  | other
  deriving DecidableEq, Repr

def Progress.checkReference (p : Progress) (index : Nat) : Except Fault Unit :=
  if index = 0 ∨ p.groups.length < index then .error .unknownGroup
  else if ((p.groups[index - 1]?).join).isNone then .error .openGroup
  else match p.lookBehindFrom with
    | none => .ok ()
    | some n => if n < index then .error .openGroup else .ok ()

/-- May a condition here ask for a group? Outside of a look behind it may be one that comes later. -/
def Progress.checkCondition (p : Progress) (index : Nat) : Except Fault Unit :=
  match p.lookBehindFrom with
  | none => .ok ()
  | some _ => p.checkReference index

def Progress.literal (p : Progress) (code : Nat) : Expr :=
  .char { CharSet.single p.flags.ignoreCase code with basic := p.flags.basic }

def Progress.sameAs (p : Progress) (index : Nat) : Expr := .sameAs index p.flags.ignoreCase p.flags.basic

def readEscape (p : Progress) (c : Char) (ts : List Symbol) :
    Except Fault (Expr × ItemKind × List Symbol) :=
  match anchor? p.flags.basic c, classRange? c, controlCode? c with
  | some a, _, _ => .ok (.anchor a, .anchor, ts)
  | none, some r, _ => .ok (.char ⟨false, p.flags.ignoreCase, p.flags.basic, [r]⟩, .other, ts)
  | none, none, some n => .ok (p.literal n, .other, ts)
  | none, none, none =>
    match readCode? c ts with
    | some result => result.map fun (n, rest) => (p.literal n, .other, rest)
    | none =>
      if c == '0' then
        let (cs, rest) := takeBare isOctal 2 ts
        .ok (p.literal (numeral 8 cs), .other, rest)
      else
        let (second, rest) := takeBare Char.isDigit 1 ts
        let (third, rest') := takeBare isOctal 1 rest
        if isOctal c && second.any isOctal && !third.isEmpty then
          let n := numeral 8 (c :: second ++ third)
          if n ≤ 0o377 then .ok (p.literal n, .other, rest') else .error .unknownEscape
        else do
          let index := numeral 10 (c :: second)
          p.checkReference index
          return (p.sameAs index, .other, rest)

/-- Bounds in braces, after the opening one: least and most count. None if it is no quantifier. -/
def readBounds? (ts : List Symbol) : Option (List Char × List Char × List Symbol) :=
  if ts.head? == some (.bare '}') then none
  else
    let (lo, rest) := takeBare Char.isDigit ts.length ts
    match rest with
    | .bare ',' :: rest' =>
      match takeBare Char.isDigit rest'.length rest' with
      | (hi, .bare '}' :: out) => some (lo, hi, out)
      | _ => none
    | .bare '}' :: out => some (lo, lo, out)
    | _ => none

def readBound (cs : List Char) : Except Fault Nat :=
  match Excess.ofNumeral? cs with
  | some e => .error (.beyond e)
  | none =>
    let n := numeral 10 cs
    if largestBound ≤ n then .error (.beyond .size) else .ok n

/-- The bounds that digits in braces give; no digits, no bound. -/
def readBoundPair (lo hi : List Char) : Except Fault (Nat × Option Nat) := do
  let least ← readBound lo
  if hi.isEmpty then return (least, none)
  let most ← readBound hi
  if most < least then throw .reversedBounds
  return (least, some most)

def readQuantifier (c : Char) (ts : List Symbol) :
    Option (Except Fault (Nat × Option Nat × List Symbol)) :=
  match c with
  | '?' => some (.ok (0, some 1, ts))
  | '*' => some (.ok (0, none, ts))
  | '+' => some (.ok (1, none, ts))
  | '{' => (readBounds? ts).map fun (lo, hi, rest) =>
      if rest == [.dangling] then .error .danglingEscape
      else (readBoundPair lo hi).map fun (least, most) => (least, most, rest)
  | _ => none

def readGreed : List Symbol → Greed × List Symbol
  | .bare '?' :: rest => (.lazy, rest)
  | .bare '+' :: rest => (.possessive, rest)
  | ts => (.greedy, ts)

def Flags.setAll (f : Flags) (value : Bool) (letters : List Char) : Flags :=
  letters.foldl (fun f c => (f.set? value c).getD f) f

def isFlagLetter (c : Char) : Bool := ['i', 'm', 's', 'x', 'a', 'u', 't'].contains c

/-- A letter that names the alphabet, of which there can be one at a time. -/
def isAlphabetLetter (c : Char) : Bool := c == 'a' || c == 'u'

def readFlagLetters (stops : List Char) :
    List Symbol → Except Fault (List Char × Char × List Symbol)
  | .bare c :: rest =>
    if stops.contains c then .ok ([], c, rest)
    else if isFlagLetter c then
      (readFlagLetters stops rest).map fun (cs, stop, out) => (c :: cs, stop, out)
    else .error .unknownFlag
  | _ => .error .unknownFlag

/-- Flags to set, flags to clear, and the sign after them: a colon opens a group for which they hold, a
parenthesis closes flags for the whole pattern. -/
def readFlags (ts : List Symbol) :
    Except Fault (List Char × List Char × Char × List Symbol) := do
  if !(ts.head?.any fun t => match t with
      | .bare c => isFlagLetter c || c == '-'
      | _ => false) then throw .unknownExtension
  let (on, stop, rest) ← readFlagLetters [')', ':', '-'] ts
  if on.contains 'a' && on.contains 'u' then throw .unknownFlag
  if stop == ')' then return (on, [], stop, rest)
  if on.contains 't' then throw .unknownFlag
  if stop == ':' then return (on, [], stop, rest)
  let (off, stop, rest) ← readFlagLetters [':'] rest
  if off.isEmpty || off.any fun c => isAlphabetLetter c || c == 't' || on.contains c then throw .unknownFlag
  return (on, off, stop, rest)

/-- Flags for a group. An alphabet of its own stands for the one around it. -/
def Flags.inside (f : Flags) (on off : List Char) : Flags :=
  let f := if on.any isAlphabetLetter then { f with basic := false, full := false } else f
  (f.setAll true on).setAll false off

/-- The number that a condition gives for a group: an integer as it is written by hand, with low lines between
its digits. None if it is no number of a group. -/
def groupNumber? (name : List Char) : Option Nat := do
  let plain ← Text.plainForm? name
  let (negative, digits) := Text.splitSign (Text.stripPlain plain)
  let parts := Text.splitAt '_' digits
  let n ← Text.readNatural? 10 parts.flatten
  if negative || n == 0 || parts.any List.isEmpty || (Excess.ofNumeral? parts.flatten).isSome then none
  else some n

def sequence : List Expr → Expr
  | [] => .empty
  | [e] => e
  | e :: rest => .seq e (sequence rest)

/-- An item of a sequence: the expressions that make it up, one after another, and what a repetition sign
makes of it. -/
abbrev Piece := List Expr × ItemKind

/-- All expressions of the items read so far, latest first. -/
def joinPieces (pieces : List Piece) : List Expr := (pieces.reverse.map (·.1)).flatten

/-! ### Alternatives -/

/-- An expression of one sign, which alternatives may have in common. -/
def isPlainSign : Expr → Bool
  | .char _ | .sameAs _ _ _ | .anchor _ => true
  | _ => false

def commonFirst? : List (List Expr) → Option Expr
  | [] => none
  | [e :: _] => if isPlainSign e then some e else none
  | (e :: _) :: rest => if commonFirst? rest == some e then some e else none
  | [] :: _ => none

/-- Takes the signs that all alternatives begin with in front of them. Their number is bounded by the length
of the first alternative. -/
def splitCommon : Nat → List (List Expr) → List Expr × List (List Expr)
  | 0, branches => ([], branches)
  | fuel + 1, branches =>
    match commonFirst? branches with
    | none => ([], branches)
    | some e =>
      let (front, rest) := splitCommon fuel (branches.map List.tail)
      (e :: front, rest)

/-- The members of the set that alternatives of single characters make up together. -/
def joinedRanges? : List (List Expr) → Option (List CharRange)
  | [] => some []
  | [.char set] :: rest =>
    if set.negated then none else (joinedRanges? rest).map (set.ranges ++ ·)
  | _ :: _ => none

/-- Alternatives as one sequence. What they begin with in common stands in front, and if single characters
are left, they make up one set. -/
def joinBranches (ignoreCase basic : Bool) : List (List Expr) → List Expr
  | [] => []
  | [branch] => branch
  | branches =>
    let (front, rest) := splitCommon (branches.headD []).length branches
    match joinedRanges? rest with
    | some ranges => front ++ [.char ⟨false, ignoreCase, basic, ranges.eraseDups⟩]
    | none => front ++ [alternatives rest]
where
  /-- Alternatives, each of them tried after those before it. -/
  alternatives : List (List Expr) → Expr
    | [] => .empty
    | [branch] => sequence branch
    | branch :: rest => .alt (sequence branch) (alternatives rest)

/-! ### Groups -/

def closeParen : List Symbol → Except Fault (List Symbol)
  | .bare ')' :: rest => .ok rest
  | _ => .error .unclosedGroup

mutual

/-- Alternatives, up to a closing parenthesis or the end, as one sequence. -/
def readAlternatives : Nat → Bool → Progress → List Symbol →
    Except Fault (List Expr × Progress × List Symbol)
  | 0, _, _, _ => .error .unclosedGroup
  | fuel + 1, outermost, p, ts => do
    let (branches, p, rest) ← readBranches fuel outermost p ts
    return (joinBranches p.flags.ignoreCase p.flags.basic branches, p, rest)

def readBranches : Nat → Bool → Progress → List Symbol →
    Except Fault (List (List Expr) × Progress × List Symbol)
  | 0, _, _, _ => .error .unclosedGroup
  | fuel + 1, outermost, p, ts => do
    let (branch, p, rest) ← readPieces fuel outermost p [] ts
    match rest with
    | .bare '|' :: rest' =>
      let (branches, p, rest'') ← readBranches fuel false p rest'
      return (branch :: branches, p, rest'')
    | _ => return ([branch], p, rest)

/-- A sequence of items, up to a bar, a closing parenthesis or the end. `outermost` holds at the very
beginning of the pattern, where flags for the whole of it may stand. -/
def readPieces : Nat → Bool → Progress → List Piece → List Symbol →
    Except Fault (List Expr × Progress × List Symbol)
  | 0, _, _, _, _ => .error .unclosedGroup
  | _ + 1, _, p, pieces, [] => .ok (joinPieces pieces, p, [])
  | _ + 1, _, _, _, .dangling :: _ => .error .danglingEscape
  | fuel + 1, outermost, p, pieces, .escaped c :: rest => do
    let (e, kind, rest) ← readEscape p c rest
    readPieces fuel outermost p (([e], kind) :: pieces) rest
  | fuel + 1, outermost, p, pieces, .bare c :: rest => do
    if c == '|' || c == ')' then
      return (joinPieces pieces, p, .bare c :: rest)
    if p.flags.verbose && Text.isPlainBlank c then
      readPieces fuel outermost p pieces rest
    else if p.flags.verbose && c == '#' then
      match dropPast '\n' rest with
      | some rest => readPieces fuel outermost p pieces rest
      | none => readPieces fuel outermost p pieces (rest.filter (· == .dangling))
    else match c with
      | '.' =>
        let set := if p.flags.dotAll then CharSet.full else CharSet.noLineFeed
        readPieces fuel outermost p (([.char set], .other) :: pieces) rest
      | '^' =>
        let a := if p.flags.multiline then Anchor.lineStart else Anchor.textStart
        readPieces fuel outermost p (([.anchor a], .anchor) :: pieces) rest
      | '$' =>
        let a := if p.flags.multiline then Anchor.lineEnd else Anchor.lastLineEnd
        readPieces fuel outermost p (([.anchor a], .anchor) :: pieces) rest
      | '[' =>
        let (set, rest) ← readSet p.flags.ignoreCase p.flags.basic rest
        readPieces fuel outermost p (([.char set], .other) :: pieces) rest
      | '(' =>
        let (piece, p, rest) ← readGroup fuel (outermost && pieces.isEmpty) p rest
        readPieces fuel outermost p (piece.toList ++ pieces) rest
      | c =>
        match readQuantifier c rest with
        | none => readPieces fuel outermost p (([p.literal c.toNat], .other) :: pieces) rest
        | some quantifier =>
          let (least, most, rest) ← quantifier
          match pieces with
          | [] => throw .nothingToRepeat
          | (_, .anchor) :: _ => throw .nothingToRepeat
          | (_, .repeated) :: _ => throw .repeatedRepeat
          | (es, .other) :: pieces =>
            let (greed, rest) := readGreed rest
            let e := Expr.times least most greed (sequence es)
            readPieces fuel outermost p (([e], .repeated) :: pieces) rest

/-- What an opening parenthesis begins, after it; flags and comments leave no item. `outermost` holds
where flags for the whole pattern may stand. -/
def readGroup : Nat → Bool → Progress → List Symbol →
    Except Fault (Option Piece × Progress × List Symbol)
  | 0, _, _, _ => .error .unclosedGroup
  | fuel + 1, outermost, p, ts =>
    match ts with
    | .bare '?' :: .bare 'P' :: .bare '<' :: rest => do
      match takeUntil '>' rest with
      | none => throw .badGroupName
      | some (name, rest) =>
        if !Text.isIdentifier name then throw .badGroupName
        let name := String.ofList name
        if (p.names.lookup name).isSome then throw .repeatedGroupName
        let p := { p with names := (name, p.groups.length + 1) :: p.names }
        readCapture fuel p rest
    | .bare '?' :: .bare 'P' :: .bare '=' :: rest => do
      match takeUntil ')' rest with
      | none => throw .badGroupName
      | some (name, rest) =>
        match p.names.lookup (String.ofList name) with
        | none => throw .unknownGroup
        | some index =>
          p.checkReference index
          return (some ([p.sameAs index], .other), p, rest)
    | .bare '?' :: .bare ':' :: rest => do
      let (es, p, rest) ← readInside fuel p p.flags rest
      return (some (es, .other), p, rest)
    | .bare '?' :: .bare '>' :: rest => do
      let (es, p, rest) ← readInside fuel p p.flags rest
      return (some ([.atomic (sequence es)], .other), p, rest)
    | .bare '?' :: .bare '#' :: rest =>
      match dropPast ')' rest with
      | none => .error .unclosedGroup
      | some rest => .ok (none, p, rest)
    | .bare '?' :: .bare '=' :: rest => readLookAhead fuel false p rest
    | .bare '?' :: .bare '!' :: rest => readLookAhead fuel true p rest
    | .bare '?' :: .bare '<' :: .bare '=' :: rest => readLookBehind fuel false p rest
    | .bare '?' :: .bare '<' :: .bare '!' :: rest => readLookBehind fuel true p rest
    | .bare '?' :: .bare '(' :: rest =>
      match takeUntil ')' rest with
      | none => .error .badGroupName
      | some (name, rest) => readCondition fuel name p rest
    | .bare '?' :: rest => do
      let (on, off, stop, rest) ← readFlags rest
      if stop == ')' then
        if !outermost then throw .lateFlag
        return (none, { p with flags := p.flags.setAll true on }, rest)
      let (es, p, rest) ← readInside fuel p (p.flags.inside on off) rest
      -- its flags are its own, so what is inside is not joined with what is outside
      return (some ([.seq .empty (sequence es)], .other), p, rest)
    | rest => readCapture fuel p rest

/-- What stands inside of a group, read under its own flags, up to the parenthesis that closes it. -/
def readInside : Nat → Progress → Flags → List Symbol →
    Except Fault (List Expr × Progress × List Symbol)
  | 0, _, _, _ => .error .unclosedGroup
  | fuel + 1, p, flags, ts => do
    if deepestNesting ≤ p.depth then throw (.beyond .depth)
    let (es, p', rest) ← readAlternatives fuel false { p with flags, depth := p.depth + 1 } ts
    let rest ← closeParen rest
    return (es, { p' with flags := p.flags, depth := p.depth }, rest)

def readCapture : Nat → Progress → List Symbol →
    Except Fault (Option Piece × Progress × List Symbol)
  | 0, _, _ => .error .unclosedGroup
  | fuel + 1, p, ts => do
    let index := p.groups.length + 1
    let (es, p, rest) ← readInside fuel { p with groups := p.groups ++ [none] } p.flags ts
    let e := sequence es
    let p := { p with groups := p.groups.set (index - 1) (e.width p.groups) }
    return (some ([.group index e], .other), p, rest)

/-- A group whose inside depends on whether another one, given by its name or number, has matched. Its two
branches are sequences, and the second one may be left out. -/
def readCondition : Nat → List Char → Progress → List Symbol →
    Except Fault (Option Piece × Progress × List Symbol)
  | 0, _, _, _ => .error .unclosedGroup
  | fuel + 1, name, p, ts => do
    let index ←
      if Text.isIdentifier name then
        match p.names.lookup (String.ofList name) with
        | some index => pure index
        | none => throw .unknownGroup
      else match groupNumber? name with
        | some index => pure index
        | none => throw .badGroupName
    p.checkCondition index
    if deepestNesting ≤ p.depth then throw (.beyond .depth)
    let (yes, p', rest) ←
      readPieces fuel false { p with depth := p.depth + 1, asked := max index p.asked } [] ts
    let (no, p', rest) ← match rest with
      | .bare '|' :: rest' => readPieces fuel false p' [] rest'
      | rest => .ok ([], p', rest)
    if rest.head? == some (.bare '|') then throw .thirdBranch
    let rest ← closeParen rest
    return (some ([.either index (sequence yes) (sequence no)], .other), { p' with depth := p.depth }, rest)

def readLookAhead : Nat → Bool → Progress → List Symbol →
    Except Fault (Option Piece × Progress × List Symbol)
  | 0, _, _, _ => .error .unclosedGroup
  | fuel + 1, negated, p, ts => do
    let (es, p, rest) ← readInside fuel p p.flags ts
    return (some ([.look none negated (sequence es)], .other), p, rest)

/-- A condition on what stands before; it has to be of one width. -/
def readLookBehind : Nat → Bool → Progress → List Symbol →
    Except Fault (Option Piece × Progress × List Symbol)
  | 0, _, _, _ => .error .unclosedGroup
  | fuel + 1, negated, p, ts => do
    let inside := { p with lookBehindFrom := some (p.lookBehindFrom.getD p.groups.length) }
    let (es, p', rest) ← readInside fuel inside p.flags ts
    let e := sequence es
    let (l, h) := e.width p'.groups
    let unbounded := p'.unbounded || l != h || largestBound < l
    return (some ([.look (some l) negated e], .other),
      { p' with lookBehindFrom := p.lookBehindFrom, unbounded }, rest)

end

def Expr.read (text : String) : Except Fault Expr := do
  let ts := Symbol.ofChars text.toList
  let (es, p, rest) ← readAlternatives (6 * ts.length + 8) true {} ts
  if p.flags.basic && p.flags.full then throw .conflictingFlags
  if !rest.isEmpty then throw .unopenedGroup
  if p.groups.length < p.asked then throw .unknownGroup
  if p.unbounded then throw .unboundedLookBehind
  if p.flags.template && (sequence es).repeats then throw .excludedRepeat
  return sequence es

/-- A text is a pattern if an expression can be read from it. -/
instance : Judge where
  verdict text :=
    match Expr.read text with
    | .ok _ => .pattern
    | .error fault =>
      match fault.excess? with
      | some e => .givenUp e
      | none => .noPattern

def replace (pattern replacement text : String) : Except Fault String := do
  let e ← Expr.read pattern
  return String.ofList (e.replaceAll replacement.toList text.toList)

end

/-- Flags for one alphabet or another, and a condition on a group; but no pattern is for both alphabets. -/
example : ["(?a)x", "(?u:x)", "(a)?(?(1)b|c)"].map Judge.verdict = [.pattern, .pattern, .pattern] ∧
    Judge.verdict "(?a)(?u)x" = .givenUp .numeral := by
  decide +kernel

end BidBook.Pattern

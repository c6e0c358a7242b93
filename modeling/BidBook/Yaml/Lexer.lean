import BidBook.Yaml.Token

/-! # Reading signs

Cuts a YAML text into signs. The lexer goes through the text once, and no further than it has to for the
sign that is asked for. It keeps track of the indentation, which opens and closes blocks, and of scalars that
may turn out to be keys: only the colon behind a scalar shows that it was one, and then the signs of the key
are put in front of it.

* `Yaml.Lexer.peekSign`, `Yaml.Lexer.skipSign` — the next sign.
* `Yaml.Lexer.begin?` — the lexer at the beginning of a text.
-/

namespace BidBook.Yaml

namespace Lexer

/-- A sign that may turn out to begin a key. -/
structure PossibleKey where
  /-- Number of signs before it. -/
  number : Nat
  /-- It can be nothing but a key. -/
  required : Bool
  index : Nat
  line : Nat
  column : Nat

/-- What is left of a text, and what is known about the part that has been read. -/
structure State where
  rest : List Char
  index : Nat := 0
  line : Nat := 0
  column : Nat := 0
  /-- Number of open brackets and braces, less those closed without having been opened. -/
  flow : Int := 0
  indent : Int := -1
  /-- Indentations of the blocks around the innermost one. -/
  outer : List Int := []
  keyAllowed : Bool := true
  /-- For each level of brackets, the last sign that may be a key. -/
  possible : List (Int × PossibleKey) := []
  /-- The signs read so far. -/
  signs : Array Sign := #[]
  /-- Number of signs that have been made use of. -/
  taken : Nat := 0
  /-- The end of the text has been read. -/
  done : Bool := false

abbrev Lex := StateT State (Except Fault)

def fail {α : Type} : Lex α := throw (.malformed .signs)

/-! ## Characters -/

/-- The state behind the next character. A mark of the byte order takes no column. -/
def State.next (s : State) : State :=
  match s.rest with
  | [] => s
  | c :: rest =>
    let s' := { s with rest := rest, index := s.index + 1 }
    if Chars.isBreak c && !(c == '\r' && rest.head? == some '\n') then
      { s' with line := s.line + 1, column := 0 }
    else if c == '\uFEFF' then s'
    else { s' with column := s.column + 1 }

def State.skip : Nat → State → State
  | 0, s => s
  | n + 1, s => skip n s.next

/-- The character at a distance, without reading it. -/
def peek (n : Nat) : Lex Char := do return (← get).rest.getD n '\x00'

def forward (n : Nat) : Lex Unit := modify (State.skip n)

def takeWhile (test : Char → Bool) : Lex (List Char) := do
  let cs := (← get).rest.takeWhile test
  forward cs.length
  return cs

def skipSpaces : Lex Unit := do
  let _ ← takeWhile (· == ' ')

/-- Reads a line break, if there is one. The usual breaks are all read as a line feed. -/
def lineBreak : Lex (List Char) := do
  let c ← peek 0
  if c == '\r' && (← peek 1) == '\n' then
    forward 2
    return ['\n']
  else if c == '\n' || c == '\r' || c == '\x85' then
    forward 1
    return ['\n']
  else if c == '\u2028' || c == '\u2029' then
    forward 1
    return [c]
  else return []

/-- Fuel for a loop that reads at least one character each time. -/
def fuel : Lex Nat := do return (← get).rest.length + 2

def atDocumentMark : Lex Bool := do
  let three := (← get).rest.take 3
  return (three == ['-', '-', '-'] || three == ['.', '.', '.']) && Chars.isBlankOrBreak (← peek 3)

/-! ## Signs and blocks -/

def emit (s : Sign) : Lex Unit := modify fun st => { st with signs := st.signs.push s }

/-- Puts a sign in front of the sign with a given number. -/
def insert (number : Nat) (s : Sign) : Lex Unit :=
  modify fun st => { st with signs := st.signs.insertIdxIfInBounds number s }

def allowKey (b : Bool) : Lex Unit := modify fun st => { st with keyAllowed := b }

/-- Closes the blocks that are indented by more than a column. -/
def closeBlocks : Nat → Int → Lex Unit
  | 0, _ => pure ()
  | fuel + 1, column => do
    let st ← get
    if st.flow == 0 && column < st.indent then
      set { st with indent := st.outer.headD (-1), outer := st.outer.tail }
      emit .blockEnd
      closeBlocks fuel column

def unwind (column : Int) : Lex Unit := do closeBlocks ((← get).outer.length + 1) column

/-- Opens a block at a column, unless one is open there. -/
def openBlock (column : Nat) : Lex Bool := do
  let st ← get
  if st.indent < column then
    set { st with outer := st.indent :: st.outer, indent := column }
    return true
  else return false

/-! ## Possible keys -/

/-- The sign on the present level that may be a key can be none any longer. -/
def dropPossible : Lex Unit := do
  let st ← get
  if (st.possible.lookup st.flow).any (·.required) then fail
  set { st with possible := st.possible.filter (·.1 != st.flow) }

/-- Drops the signs that can be keys no longer: a key is short and stays on one line. -/
def dropStale : Lex Unit := do
  let st ← get
  let stale (k : PossibleKey) : Bool := k.line != st.line || 1024 < st.index - k.index
  if st.possible.any fun e => stale e.2 && e.2.required then fail
  set { st with possible := st.possible.filter fun e => !stale e.2 }

/-- The next sign may be a key, where keys are allowed. -/
def savePossible : Lex Unit := do
  if (← get).keyAllowed then
    dropPossible
    let st ← get
    let k : PossibleKey :=
      { number := st.signs.size, required := st.flow == 0 && st.indent == st.column,
        index := st.index, line := st.line, column := st.column }
    set { st with possible := (st.flow, k) :: st.possible }

/-! ## Blanks and comments -/

def skipComment : Lex Unit := do
  if (← peek 0) == '#' then
    let _ ← takeWhile fun c => !Chars.isBreakOrEnd c

def skipToSign : Nat → Lex Unit
  | 0 => pure ()
  | n + 1 => do
    skipSpaces
    skipComment
    if !(← lineBreak).isEmpty then
      if (← get).flow == 0 then allowKey true
      skipToSign n

/-- The rest of a line may hold blanks and a comment only. -/
def ignoreLine : Lex Unit := do
  skipSpaces
  skipComment
  if !Chars.isBreakOrEnd (← peek 0) then fail
  let _ ← lineBreak

/-! ## Directives, anchors and tags -/

def name : Lex String := do
  let cs ← takeWhile Chars.isName
  if cs.isEmpty then fail
  return String.ofList cs

def number : Lex Nat := do
  let cs ← takeWhile Char.isDigit
  if cs.isEmpty then fail
  if let some e := Excess.ofNumeral? cs then throw (.beyond e)
  return cs.foldl (fun n c => 10 * n + (c.toNat - 48)) 0

/-- The handle of a tag: `!`, `!!` or a name between exclamation marks. -/
def tagHandle : Lex String := do
  if (← peek 0) != '!' then fail
  let cs := (← get).rest.tail.takeWhile Chars.isName
  let closed := (← peek (cs.length + 1)) == '!'
  if closed then
    forward (cs.length + 2)
    return String.ofList ('!' :: cs ++ ['!'])
  else if (← peek 1) == ' ' then
    forward 1
    return "!"
  else fail

def hexValue (cs : List Char) : Nat :=
  cs.foldl (fun n c =>
    16 * n + (if c.isDigit then c.toNat - 48 else if 'a' ≤ c then c.toNat - 87 else c.toNat - 55)) 0

/-- The bytes of a run of percent signs with two digits each. -/
def escapedBytes : Nat → Lex (List UInt8)
  | 0 => return []
  | n + 1 => do
    if (← peek 0) != '%' then return []
    forward 1
    let ds := (← get).rest.take 2
    if ds.length != 2 || !ds.all Chars.isHex then fail
    forward 2
    return (hexValue ds).toUInt8 :: (← escapedBytes n)

def uriParts : Nat → Lex (List Char)
  | 0 => return []
  | n + 1 => do
    let cs ← takeWhile fun c => Chars.isUri c && c != '%'
    if (← peek 0) == '%' then
      let bytes ← escapedBytes n
      match String.fromUTF8? (ByteArray.mk bytes.toArray) with
      | some s => return cs ++ s.toList ++ (← uriParts n)
      | none => fail
    else return cs

def uri : Lex String := do
  let cs ← uriParts (← fuel)
  if cs.isEmpty then fail
  return String.ofList cs

def readTag : Lex Tag := do
  let c ← peek 1
  let tag ← (if c == '<' then do
      forward 2
      let suffix ← uri
      if (← peek 0) != '>' then fail
      forward 1
      pure ⟨none, suffix⟩
    else if Chars.isBlankOrBreak c then do
      forward 1
      pure ⟨none, "!"⟩
    else do
      let word := (← get).rest.tail.takeWhile fun c => !Chars.isSpaceOrBreak c
      let handle ← (if word.contains '!' then tagHandle else do
        forward 1
        pure "!")
      pure ⟨some handle, ← uri⟩ : Lex Tag)
  if !Chars.isSpaceOrBreak (← peek 0) then fail
  return tag

def anchorName : Lex String := do
  forward 1
  let n ← name
  let c ← peek 0
  if !(Chars.isBlankOrBreak c || "?:,]\x7d%@`".toList.contains c) then fail
  return n

def readDirective : Lex Directive := do
  forward 1
  let n ← name
  if !Chars.isSpaceOrBreak (← peek 0) then fail
  let d ← (if n == "YAML" then do
      skipSpaces
      let major ← number
      if (← peek 0) != '.' then fail
      forward 1
      let minor ← number
      if !Chars.isSpaceOrBreak (← peek 0) then fail
      pure (.version major minor)
    else if n == "TAG" then do
      skipSpaces
      let handle ← tagHandle
      if (← peek 0) != ' ' then fail
      skipSpaces
      let target ← uri
      if !Chars.isSpaceOrBreak (← peek 0) then fail
      pure (.tag handle target)
    else do
      let _ ← takeWhile fun c => !Chars.isBreakOrEnd c
      pure .other : Lex Directive)
  ignoreLine
  return d

/-! ## Quoted scalars -/

def escape? : Char → Option Char
  | '0' => some '\x00'
  | 'a' => some '\x07'
  | 'b' => some '\x08'
  | 't' => some '\t'
  | '\t' => some '\t'
  | 'n' => some '\n'
  | 'v' => some '\x0b'
  | 'f' => some '\x0c'
  | 'r' => some '\r'
  | 'e' => some '\x1b'
  | ' ' => some ' '
  | '"' => some '"'
  | '\\' => some '\\'
  | '/' => some '/'
  | 'N' => some '\x85'
  | '_' => some '\xa0'
  | 'L' => some '\u2028'
  | 'P' => some '\u2029'
  | _ => none

def codeWidth? : Char → Option Nat
  | 'x' => some 2
  | 'u' => some 4
  | 'U' => some 8
  | _ => none

def quotedBreaks : Nat → Lex (List Char)
  | 0 => return []
  | n + 1 => do
    if ← atDocumentMark then fail
    let _ ← takeWhile Chars.isSpaceOrTab
    let b ← lineBreak
    if b.isEmpty then return [] else return b ++ (← quotedBreaks n)

/-- Numbers beyond this one are no numbers of characters. -/
def largestCode : Nat := 0x7FFFFFFF

def escaped : Lex (List Char) := do
  forward 1
  let c ← peek 0
  match escape? c, codeWidth? c with
  | some x, _ =>
    forward 1
    return [x]
  | none, some width =>
    forward 1
    let ds := (← get).rest.take width
    if ds.length != width || !ds.all Chars.isHex then fail
    forward width
    let code := hexValue ds
    if code.isValidChar then return [Char.ofNat code]
    else if largestCode < code then throw (.beyond .size)
    else if 0x10FFFF < code then throw (.misfit .noSuchCharacter)
    else fail
  | none, none =>
    if Chars.isBreak c then
      let _ ← lineBreak
      quotedBreaks (← fuel)
    else fail

/-- The characters of a quoted scalar up to the next blank or the closing mark. -/
def quotedWord (double : Bool) : Nat → Lex (List Char)
  | 0 => return []
  | n + 1 => do
    let cs ← takeWhile fun c => !(Chars.isBlankOrBreak c || c == '\'' || c == '"' || c == '\\')
    let c ← peek 0
    if !double && c == '\'' && (← peek 1) == '\'' then
      forward 2
      return cs ++ '\'' :: (← quotedWord double n)
    else if (double && c == '\'') || (!double && (c == '"' || c == '\\')) then
      forward 1
      return cs ++ c :: (← quotedWord double n)
    else if double && c == '\\' then
      let e ← escaped
      return cs ++ e ++ (← quotedWord double n)
    else return cs

/-- Line breaks as they count inside of a scalar: a single one is a space. -/
def folded (first others : List Char) : List Char :=
  if first != ['\n'] then first ++ others
  else if others.isEmpty then [' ']
  else others

def quotedBlanks : Lex (List Char) := do
  let blanks ← takeWhile Chars.isSpaceOrTab
  if Chars.isEnd (← peek 0) then fail
  let b ← lineBreak
  if b.isEmpty then return blanks
  return folded b (← quotedBreaks (← fuel))

/-- Blanks and words of a quoted scalar in turn, up to the closing mark. -/
def quotedRest (mark : Char) : Nat → Lex (List Char)
  | 0 => fail
  | n + 1 => do
    if (← peek 0) == mark then
      forward 1
      return []
    let blanks ← quotedBlanks
    let word ← quotedWord (mark == '"') (← fuel)
    return blanks ++ word ++ (← quotedRest mark n)

def quoted (mark : Char) : Lex String := do
  forward 1
  let word ← quotedWord (mark == '"') (← fuel)
  return String.ofList (word ++ (← quotedRest mark (← fuel)))

/-! ## Block scalars -/

/-- What becomes of the line breaks at the end of a block. -/
inductive Chomping where
  | clip
  | strip
  | keep
  deriving DecidableEq

def indentDigit : Lex (Option Nat) := do
  let c ← peek 0
  if !c.isDigit then return none
  if c == '0' then fail
  forward 1
  return some (c.toNat - 48)

def chompingSign : Lex (Option Chomping) := do
  match ← peek 0 with
  | '+' =>
    forward 1
    return some .keep
  | '-' =>
    forward 1
    return some .strip
  | _ => return none

/-- The signs after the mark of a block scalar, in either order. -/
def blockHeader : Lex (Chomping × Option Nat) := do
  let (chomping, increment) ← (do
    match ← chompingSign with
    | some c => pure (c, ← indentDigit)
    | none =>
      let increment ← indentDigit
      if increment.isSome then pure ((← chompingSign).getD .clip, increment)
      else pure (.clip, none) : Lex (Chomping × Option Nat))
  if !Chars.isSpaceOrBreak (← peek 0) then fail
  return (chomping, increment)

def skipIndent : Nat → Nat → Lex Unit
  | 0, _ => pure ()
  | n + 1, indent => do
    if (← get).column < indent && (← peek 0) == ' ' then
      forward 1
      skipIndent n indent

/-- The empty lines before the next line of a block. -/
def blockBreaks : Nat → Nat → Lex (List Char)
  | 0, _ => return []
  | n + 1, indent => do
    skipIndent indent indent
    let b ← lineBreak
    if b.isEmpty then return [] else return b ++ (← blockBreaks n indent)

/-- The empty lines at the beginning of a block, and the largest indentation among them and the first
line. -/
def blockIndent : Nat → Nat → Lex (List Char × Nat)
  | 0, widest => return ([], widest)
  | n + 1, widest => do
    if (← peek 0) == ' ' then
      forward 1
      blockIndent n (max widest (← get).column)
    else
      let b ← lineBreak
      if b.isEmpty then return ([], widest)
      let (bs, widest) ← blockIndent n widest
      return (b ++ bs, widest)

/-- The lines of a block. Gives its text, the break after the last line, and the empty lines after it. -/
def blockLines (fold : Bool) (indent : Nat) :
    Nat → List Char → Lex (List Char × List Char × List Char)
  | 0, breaks => return ([], [], breaks)
  | n + 1, breaks => do
    if (← get).column != indent || Chars.isEnd (← peek 0) then return ([], [], breaks)
    let begins := !Chars.isSpaceOrTab (← peek 0)
    let line ← takeWhile fun c => !Chars.isBreakOrEnd c
    let b ← lineBreak
    let breaks' ← blockBreaks (← fuel) indent
    if (← get).column == indent && !Chars.isEnd (← peek 0) then
      let joint :=
        if fold && b == ['\n'] && begins && !Chars.isSpaceOrTab (← peek 0) then
          if breaks'.isEmpty then [' '] else []
        else b
      let (text, last, after) ← blockLines fold indent n breaks'
      return (breaks ++ line ++ joint ++ text, last, after)
    else return (breaks ++ line, b, breaks')

def block (fold : Bool) : Lex String := do
  forward 1
  let (chomping, increment) ← blockHeader
  ignoreLine
  let least := (max 1 ((← get).indent + 1)).toNat
  let (breaks, indent) ← (match increment with
    | some n => do
      let indent := least + n - 1
      pure (← blockBreaks (← fuel) indent, indent)
    | none => do
      let (breaks, widest) ← blockIndent (← fuel) 0
      pure (breaks, max least widest) : Lex (List Char × Nat))
  let (text, last, after) ← blockLines fold indent (← fuel) breaks
  return String.ofList (text ++ match chomping with
    | .clip => last
    | .strip => []
    | .keep => last ++ after)

/-! ## Plain scalars -/

def plainLength (inFlow : Bool) : List Char → Nat
  | [] => 0
  | c :: rest =>
    let next := rest.headD '\x00'
    if Chars.isBlankOrBreak c
        || (c == ':' && (Chars.isBlankOrBreak next
          || (inFlow && ",[]\x7b\x7d".toList.contains next)))
        || (inFlow && ",?[]\x7b\x7d".toList.contains c) then 0
    else 1 + plainLength inFlow rest

/-- The empty lines after a line of a plain scalar; none if the document ends. -/
def plainBreaks : Nat → Lex (Option (List Char))
  | 0 => return some []
  | n + 1 => do
    skipSpaces
    let b ← lineBreak
    if b.isEmpty then return some []
    if ← atDocumentMark then return none
    return (← plainBreaks n).map (b ++ ·)

/-- What stands between the words of a plain scalar. Nothing, if the scalar is at its end. -/
def plainBlanks : Lex (List Char) := do
  let blanks ← takeWhile (· == ' ')
  let b ← lineBreak
  if b.isEmpty then return blanks
  allowKey true
  if ← atDocumentMark then return []
  match ← plainBreaks (← fuel) with
  | none => return []
  | some bs => return folded b bs

/-- The words of a plain scalar; `blanks` stand before the next one. -/
def plainWords : Nat → List Char → Lex (List Char)
  | 0, _ => return []
  | n + 1, blanks => do
    let st ← get
    let length := plainLength (st.flow != 0) st.rest
    if (← peek 0) == '#' || length == 0 then return []
    allowKey false
    forward length
    let word := st.rest.take length
    let blanks' ← plainBlanks
    let st' ← get
    if blanks'.isEmpty || (← peek 0) == '#' || (st'.flow == 0 && (st'.column : Int) < st'.indent + 1) then
      return blanks ++ word
    return blanks ++ word ++ (← plainWords n blanks')

def plain : Lex String := do return String.ofList (← plainWords (← fuel) [])

/-! ## Signs -/

def keySign (read : Lex Sign) : Lex Unit := do
  savePossible
  allowKey false
  emit (← read)

def documentSign (read : Lex Sign) : Lex Unit := do
  unwind (-1)
  dropPossible
  allowKey false
  emit (← read)

def openFlow (s : Sign) : Lex Unit := do
  savePossible
  modify fun st => { st with flow := st.flow + 1, keyAllowed := true }
  forward 1
  emit s

/-- A closing bracket, whether one is open or not. -/
def closeFlow (s : Sign) : Lex Unit := do
  dropPossible
  modify fun st => { st with flow := st.flow - 1, keyAllowed := false }
  forward 1
  emit s

/-- Opens a block for a sign outside of brackets, where one may begin. -/
def openBlockFor (s : Sign) : Lex Unit := do
  let st ← get
  if st.flow == 0 then
    if !st.keyAllowed then fail
    if ← openBlock st.column then emit s

def entrySign : Lex Unit := do
  openBlockFor .blockSequence
  allowKey true
  dropPossible
  forward 1
  emit .entry

def keyMark : Lex Unit := do
  openBlockFor .blockMapping
  allowKey ((← get).flow == 0)
  dropPossible
  forward 1
  emit .key

def valueMark : Lex Unit := do
  let st ← get
  match st.possible.lookup st.flow with
  | some k =>
    set { st with possible := st.possible.filter (·.1 != st.flow) }
    insert k.number .key
    if st.flow == 0 then
      if ← openBlock k.column then insert k.number .blockMapping
    allowKey false
  | none =>
    openBlockFor .blockMapping
    allowKey (st.flow == 0)
    dropPossible
  forward 1
  emit .value

/-- A plain scalar may begin with these two characters. -/
def beginsPlain (inFlow : Bool) (c next : Char) : Bool :=
  !(Chars.isBlankOrBreak c || Chars.isIndicator c)
    || (!Chars.isBlankOrBreak next && (c == '-' || (!inFlow && (c == '?' || c == ':'))))

/-- Reads the next sign, which is the last one at the end of the text. -/
def nextSign : Lex Unit := do
  skipToSign (← fuel)
  dropStale
  unwind (← get).column
  let st ← get
  let inFlow := st.flow != 0
  let c ← peek 0
  let next ← peek 1
  let spaced := Chars.isBlankOrBreak next
  let mark ← atDocumentMark
  if Chars.isEnd c then
    unwind (-1)
    dropPossible
    emit .streamEnd
    modify fun st => { st with possible := [], done := true }
  else if st.column == 0 && c == '%' then documentSign do return .directive (← readDirective)
  else if st.column == 0 && mark then
    documentSign do
      forward 3
      return if c == '-' then .documentStart else .documentEnd
  else if c == '[' then openFlow .flowSequence
  else if c == '\x7b' then openFlow .flowMapping
  else if c == ']' then closeFlow .flowSequenceEnd
  else if c == '\x7d' then closeFlow .flowMappingEnd
  else if c == ',' then
    allowKey true
    dropPossible
    forward 1
    emit .separator
  else if c == '-' && spaced then entrySign
  else if c == '?' && (inFlow || spaced) then keyMark
  else if c == ':' && (inFlow || spaced) then valueMark
  else if c == '*' then keySign do return .alias (← anchorName)
  else if c == '&' then keySign do return .anchor (← anchorName)
  else if c == '!' then keySign do return .tag (← readTag)
  else if (c == '|' || c == '>') && !inFlow then
    allowKey true
    dropPossible
    emit (.scalar (← block (c == '>')) false)
  else if c == '\'' || c == '"' then keySign do return .scalar (← quoted c) false
  else if beginsPlain inFlow c next then
    savePossible
    allowKey false
    emit (.scalar (← plain) true)
  else fail

/-! ## On demand -/

/-- The next sign is not certain yet: it has not been read, or it may still turn out to begin a key. -/
def isOpen : Lex Bool := do
  let st ← get
  if st.done then return false
  if st.signs.size ≤ st.taken then return true
  dropStale
  return ((← get).possible.map (·.2.number)).min? == some st.taken

def settle : Nat → Lex Unit
  | 0 => pure ()
  | n + 1 => do
    if ← isOpen then
      nextSign
      settle n

def peekSign : Lex Sign := do
  if ← isOpen then settle (← fuel)
  let st ← get
  return st.signs.getD st.taken .streamEnd

def skipSign : Lex Unit := modify fun st => { st with taken := st.taken + 1 }

/-- The lexer at the beginning of a text, behind a mark of the byte order. -/
def begin? (cs : List Char) : Except Fault State :=
  if !cs.all Chars.isAllowed then .error (.malformed .characters)
  else
    let s : State := { rest := cs }
    .ok (if cs.head? == some '\uFEFF' then s.next else s)

end Lexer

end BidBook.Yaml

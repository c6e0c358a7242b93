import BidBook.Pattern.Basic

/-! # Matching

Searching a text for a pattern, by trying its choices one after another. A place in the text is a
`Cursor`; matching goes on with a continuation, which decides whether the choices made so far stand.

* `Expr.run` — match at a cursor, then go on.
* `Expr.replaceAll` — a text with every match replaced, from left to right.

After a match the search goes on at its end. A match of nothing is allowed there too, unless the match
before it was one of nothing itself.
-/

namespace BidBook.Pattern

/-- The text of a group, and the number of characters behind it. -/
structure Capture where
  text : List Char
  left : Nat

/-- A place in a text, and what the groups have matched on the way. -/
structure Cursor where
  /-- What stands before the place, nearest first. -/
  before : List Char
  after : List Char
  /-- What has been captured under the numbers of the groups, latest first. -/
  groups : List (Nat × Capture) := []
  /-- Number of characters after the place. Two places of one text are the same if these numbers are. -/
  left : Nat := after.length
  left_eq : left = after.length := by rfl

namespace Cursor

def text (c : Cursor) : List Char := c.before.reverse ++ c.after

def next? (c : Cursor) : Option (Char × Cursor) :=
  match h : c.after with
  | [] => none
  | x :: rest =>
    some (x, ⟨x :: c.before, rest, c.groups, c.left - 1, by simp [c.left_eq, h]⟩)

/-- Another place in the same text, one character further on. -/
theorem text_of_next? {c c' : Cursor} {x : Char} (h : c.next? = some (x, c')) :
    c'.text = c.text ∧ c.after = x :: c'.after := by
  unfold next? at h
  split at h
  · cases h
  · rename_i y rest hc
    cases h
    simp [text, hc]

def step? (c : Cursor) (test : Char → Bool) : Option Cursor :=
  match c.next? with
  | none => none
  | some (x, c') => if test x then some c' else none

/-- Past a given text; `same` compares its characters with those of the cursor. -/
def over? (same : Char → Char → Bool) : Cursor → List Char → Option Cursor
  | c, [] => some c
  | c, x :: rest => (c.step? (same x)).bind fun c' => over? same c' rest

def back? (c : Cursor) : Nat → Option Cursor
  | 0 => some c
  | n + 1 =>
    match c.before with
    | [] => none
    | x :: rest =>
      (⟨rest, x :: c.after, c.groups, c.left + 1, by simp [c.left_eq]⟩ : Cursor).back? n

/-- Remembers as a group's text what stands between the cursor and the place with `start` characters after
it. -/
def remember (c : Cursor) (index start : Nat) : Cursor :=
  { c with groups := (index, ⟨(c.before.take (start - c.left)).reverse, c.left⟩) :: c.groups }

def group? (c : Cursor) (index : Nat) : Option (List Char) := (c.groups.lookup index).map (·.text)

/-- Where a group begins once more, it has no text while it lasts, unless its last one ends there or later. -/
def reopen (c : Cursor) (index : Nat) : Cursor :=
  if (c.groups.lookup index).any fun last => c.left < last.left then
    { c with groups := c.groups.filter (·.1 != index) }
  else c

def atWordEdge (c : Cursor) (basic : Bool) : Bool :=
  c.before.head?.any (CharClass.word.holds basic) != c.after.head?.any (CharClass.word.holds basic)

/-- Neither edge nor inside is to be found in an empty text. -/
def inEmptyText (c : Cursor) : Bool := c.before.isEmpty && c.after.isEmpty

def satisfies (c : Cursor) : Anchor → Bool
  | .textStart => c.before.isEmpty
  | .lineStart => c.before.head?.all (· == '\n')
  | .textEnd => c.after.isEmpty
  | .lineEnd => c.after.head?.all (· == '\n')
  | .lastLineEnd => c.after.isEmpty || c.after == ['\n']
  | .wordEdge basic => !c.inEmptyText && c.atWordEdge basic
  | .noWordEdge basic => !c.inEmptyText && !c.atWordEdge basic

end Cursor

/-- What is left to match after an expression: the cursor at the end, if it succeeds. -/
abbrev Continuation := Cursor → Option Cursor

def orTry (a : Option Cursor) (b : Unit → Option Cursor) : Option Cursor :=
  match a with
  | some c => some c
  | none => b ()

/-- Repeats `body`. `last` says where the previous repetition beyond the least number began, by the number of
characters left there: one that would begin there again is not tried. The fuel bounds the number of repetitions. -/
def repeatRun (greed : Greed) (body : Cursor → Continuation → Option Cursor) (k : Continuation) :
    Nat → Nat → Option Nat → Option Nat → Cursor → Option Cursor
  | 0, _, _, _, _ => none
  | fuel + 1, least + 1, most, last, c =>
    match greed with
    | .possessive =>
      (body c some).bind fun c' => repeatRun greed body k fuel least (most.map (· - 1)) last c'
    | _ => body c fun c' => repeatRun greed body k fuel least (most.map (· - 1)) last c'
  | fuel + 1, 0, most, last, c =>
    if most == some 0 || last == some c.left then k c
    else
      let more := repeatRun greed body k fuel 0 (most.map (· - 1)) (some c.left)
      match greed with
      | .greedy => orTry (body c more) fun _ => k c
      | .lazy => orTry (k c) fun _ => body c more
      | .possessive =>
        match body c some with
        | none => k c
        | some c' => more c'

namespace Expr

/-- Matches an expression at a cursor and goes on with `k` at its end. -/
def run : Expr → Cursor → Continuation → Option Cursor
  | empty, c, k => k c
  | char set, c, k => (c.step? set.holds).bind k
  | seq a b, c, k => a.run c fun c' => b.run c' k
  | alt a b, c, k => orTry (a.run c k) fun _ => b.run c k
  | group index body, c, k => body.run (c.reopen index) fun c' => k (c'.remember index c.left)
  | sameAs index ignoreCase basic, c, k =>
    match c.group? index with
    | none => none
    | some text =>
      let form (x : Char) : Nat :=
        if !ignoreCase then x.toNat else if basic then x.toLower.toNat else Text.lowerCode x.toNat
      (c.over? (fun x y => form x == form y) text).bind k
  | either index yes no, c, k => if (c.group? index).isSome then yes.run c k else no.run c k
  | look behind negated body, c, k =>
    let found := (c.back? (behind.getD 0)).bind fun c' => body.run c' some
    match found with
    | some c' => if negated then none else k { c with groups := c'.groups }
    | none => if negated then k c else none
  | atomic body, c, k => (body.run c some).bind k
  | times least most greed body, c, k =>
    repeatRun greed (fun c' k' => body.run c' k') k (least + c.left + 2) least most none c
  | anchor a, c, k => if c.satisfies a then k c else none

/-- The end of a match that begins at the cursor; with `nonempty`, of one that consumes something. -/
def matchAt? (e : Expr) (nonempty : Bool) (c : Cursor) : Option Cursor :=
  e.run c fun c' => if nonempty && c'.left == c.left then none else some c'

/-- Replaces the matches from the cursor on. `nonempty` holds after a match of nothing. -/
def replaceFrom (e : Expr) (replacement : List Char) : Nat → Bool → Cursor → List Char
  | 0, _, c => c.after
  | fuel + 1, nonempty, c =>
    match e.matchAt? nonempty c with
    | some c' =>
      replacement ++ e.replaceFrom replacement fuel (c'.left == c.left)
        { c' with groups := [] }
    | none =>
      match c.next? with
      | none => []
      | some (x, c') => x :: e.replaceFrom replacement fuel false { c' with groups := [] }

def replaceAll (e : Expr) (replacement text : List Char) : List Char :=
  e.replaceFrom replacement (2 * text.length + 2) false { before := [], after := text }

end Expr

end BidBook.Pattern

/-! # Blank characters

The characters that separate nothing from nothing: those the Unicode standard treats as white space,
and the four information separators `U+001C` to `U+001F`.

* `Text.isBlank` — is a character blank.
* `Text.strip` — a text without the blanks at its ends.
-/

namespace BidBook.Text

/-- Blank characters. The zero-width space `U+200B` and the byte order mark `U+FEFF` are not. -/
def isBlank (c : Char) : Bool :=
  let n := c.toNat
  (9 ≤ n && n ≤ 13) || (28 ≤ n && n ≤ 32) || n == 0x85 || n == 0xA0 || n == 0x1680
    || (0x2000 ≤ n && n ≤ 0x200A) || n == 0x2028 || n == 0x2029 || n == 0x202F || n == 0x205F
    || n == 0x3000

/-- The space, and the control characters that move on a page. -/
def isPlainBlank (c : Char) : Bool := c == ' ' || ('\t' ≤ c && c ≤ '\r')

def stripRight (cs : List Char) : List Char := (cs.reverse.dropWhile isBlank).reverse

def stripChars (cs : List Char) : List Char := stripRight (cs.dropWhile isBlank)

/-- Without the blanks at both ends. -/
def strip (s : String) : String := String.ofList (stripChars s.toList)

end BidBook.Text

import Needlework.Text.Printable

/-!
# Quoted text

Messages that name a piece of the input show it quoted.  The quotation mark is
the apostrophe, unless the text has an apostrophe and no double quote.  Inside,
a backslash and the chosen mark are written after a backslash, line feed,
carriage return and tab by their letters, and every other unprintable code
point as `\xhh`, `\uhhhh` or `\Uhhhhhhhh`, by its size.  All else stands as it is.
-/

namespace Needlework.Text

/-- A hexadecimal digit, in lower case. -/
def hexDigit (n : Nat) : CodePoint := if n < 10 then 0x30 + n else 0x57 + n

/-- The last `width` hexadecimal digits of a number. -/
def hex : Nat → Nat → Text
  | 0, _ => []
  | width + 1, n => hex width (n / 16) ++ [hexDigit (n % 16)]

/-- The mark that a quoted text stands between. -/
def quoteMark (t : Text) : CodePoint :=
  if t.contains 0x27 && !t.contains 0x22 then 0x22 else 0x27

/-- One code point of a text quoted with a mark. -/
def quotePoint (mark c : CodePoint) : Text :=
  if c == mark || c == 0x5C then [0x5C, c]
  else if c == 0x0A then [0x5C, 0x6E]
  else if c == 0x0D then [0x5C, 0x72]
  else if c == 0x09 then [0x5C, 0x74]
  else if isPrintable c then [c]
  else if c < 0x100 then 0x5C :: 0x78 :: hex 2 c
  else if c < 0x10000 then 0x5C :: 0x75 :: hex 4 c
  else 0x5C :: 0x55 :: hex 8 c

/-- A text between quotation marks. -/
def quoted (t : Text) : Text :=
  let mark := quoteMark t
  mark :: t.flatMap (quotePoint mark) ++ [mark]

end Needlework.Text

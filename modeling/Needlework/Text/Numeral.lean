import Needlework.Text.Blank

/-!
# Integers as text

A text denotes an integer when it is a run of decimal digits, with an optional
sign directly before it and blanks around the whole.  A single underscore may
stand between two digits.

*Digits.*  Decimal digits of every script count.  The Unicode property
Decimal_Number comes in runs of ten code points, from a zero to a nine, so a
table of the zeros is a table of the digits (`zeros`).

*Blanks.*  The information separators `1C` to `1F`, which are blanks in a
description, do not count as blanks here.

*Length.*  Long numerals are costly to read, so one of more than `digitLimit`
digits is refused.  Leading zeros count as digits, the sign and underscores do
not.  The length is looked at as soon as the digits end, before what follows
them.
-/

namespace Needlework.Text

/-! ## Digits -/

/-- The decimal digits zero of all scripts. -/
def zeros : List CodePoint :=
  [0x30, 0x660, 0x6F0, 0x7C0, 0x966, 0x9E6, 0xA66, 0xAE6, 0xB66, 0xBE6, 0xC66, 0xCE6, 0xD66,
   0xDE6, 0xE50, 0xED0, 0xF20, 0x1040, 0x1090, 0x17E0, 0x1810, 0x1946, 0x19D0, 0x1A80, 0x1A90,
   0x1B50, 0x1BB0, 0x1C40, 0x1C50, 0xA620, 0xA8D0, 0xA900, 0xA9D0, 0xA9F0, 0xAA50, 0xABF0,
   0xFF10, 0x104A0, 0x10D30, 0x11066, 0x110F0, 0x11136, 0x111D0, 0x112F0, 0x11450, 0x114D0,
   0x11650, 0x116C0, 0x11730, 0x118E0, 0x11950, 0x11C50, 0x11D50, 0x11DA0, 0x16A60, 0x16AC0,
   0x16B50, 0x1D7CE, 0x1D7D8, 0x1D7E2, 0x1D7EC, 0x1D7F6, 0x1E140, 0x1E2F0, 0x1E950, 0x1FBF0]

/-- The value of a decimal digit of any script. -/
def digitValue? (c : CodePoint) : Option Nat :=
  (zeros.find? fun z => z ≤ c && c < z + 10).map fun z => c - z

/-- The number that the values of decimal digits denote. -/
def ofDigits (digits : List Nat) : Nat := digits.foldl (fun n d => n * 10 + d) 0

/-! ## Integers -/

/-- Why a text is not read as an integer. -/
inductive NumeralFault where
  /-- It does not denote an integer. -/
  | malformed
  /-- It has too many digits. -/
  | tooLong (digits : Nat)
deriving DecidableEq, Repr

/-- The number of digits that a numeral may have. -/
def digitLimit : Nat := 4300

/-- The wording for a numeral with too many digits. -/
def tooLongMessage (digits : Nat) : Text :=
  cat ["Exceeds the limit (", ofNat digitLimit, " digits) for integer string conversion: value has ",
    ofNat digits, " digits; use sys.set_int_max_str_digits() to increase the limit"]

/-- Whether a code point may stand around a numeral. -/
def isPadding (c : CodePoint) : Bool := isBlank c && !(0x1C ≤ c && c ≤ 0x1F)

/-- The digits at the head of a text and what follows them.  The flag says that a
digit was read last, so that an underscore or the end may come. -/
def readDigits? : Bool → Text → Option (List Nat × Text)
  | afterDigit, [] => if afterDigit then some ([], []) else none
  | afterDigit, c :: r =>
      match digitValue? c with
      | some d => (readDigits? true r).map fun (ds, rest) => (d :: ds, rest)
      | none =>
          if !afterDigit then none
          else if c == 0x5F then readDigits? false r
          else some ([], c :: r)

/-- Split off a sign.  The flag says that it is a minus. -/
def splitSign : Text → Bool × Text
  | 0x2D :: r => (true, r)
  | 0x2B :: r => (false, r)
  | r => (false, r)

/-- The integer that a text denotes. -/
def readInt (t : Text) : Except NumeralFault Int :=
  let (negative, r) := splitSign (t.dropWhile isPadding)
  match readDigits? false r with
  | none => .error .malformed
  | some (digits, rest) =>
      if digitLimit < digits.length then .error (.tooLong digits.length)
      else if !rest.all isPadding then .error .malformed
      else
        let n : Int := ofDigits digits
        .ok (if negative then -n else n)

example : zeros.length = 66 := by decide
example : (readInt [0x20, 0x2D, 0x30, 0x5F, 0x37, 0x0A]).toOption = some (-7) := by decide
example : (readInt [0x0664, 0x32]).toOption = some 42 := by decide
example : (readInt [0x31, 0x5F, 0x5F, 0x32]).toOption = none := by decide

end Needlework.Text

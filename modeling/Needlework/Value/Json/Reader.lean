import Needlework.Text.Numeral
import Needlework.Value.Json.Printer

/-!
# Reading JSON

The reader takes a whole text to a value, or refuses it.  Blanks are space, tab,
line feed and carriage return.  A number without fraction and exponent is an
integer of any size, any other number a double.  `NaN`, `Infinity` and
`-Infinity` are doubles.  Control characters must be escaped inside a text.  Two
escaped surrogates that belong together are one code point, and one that stands
alone is kept.  Of two fields with one key the later value wins, in the place of
the earlier.

*Limits.*  A reader may refuse long integers and deep nesting (`Limits`).  The
length of an integer is looked at when it has been read, and the nesting when a
bracket opens.  Reading goes from left to right and stops at the first fault.

Each reader returns what it read and the rest of the text.  The readers of
nested values take a fuel.  Of two calls one inside the other at least one comes
after a code point was consumed, so twice the length of the text is enough
(`read`).
-/

namespace Needlework.Json

/-! ## Faults and limits -/

/-- The values that hold other values. -/
inductive Container where
  /-- A list. -/
  | list
  /-- An object. -/
  | object
deriving DecidableEq, Repr

/-- Why a text is not read. -/
inductive ReadFault where
  /-- It is not JSON. -/
  | malformed
  /-- An integer has too many digits. -/
  | tooLong (digits : Nat)
  /-- A list or an object is nested too deeply. -/
  | tooDeep (container : Container)
deriving DecidableEq, Repr

/-- What a reader refuses to take on. -/
structure Limits where
  /-- The most digits of an integer, if there is a limit. -/
  digits : Option Nat := none
  /-- The most levels of nesting, if there is a limit. -/
  levels : Option Nat := none
deriving DecidableEq, Repr

/-- The limits of a reader that is not told otherwise. -/
def Limits.standard : Limits := { digits := some Text.digitLimit, levels := some 990 }

/-- Whether a number of digits is beyond the limit. -/
def Limits.exceeds (limits : Limits) (digits : Nat) : Bool := limits.digits.any (· < digits)

/-- The wording of a fault. -/
def ReadFault.message : ReadFault → Text
  | .malformed => "not a JSON text"
  | .tooLong n => Text.tooLongMessage n
  | .tooDeep c => Text.cat ["maximum recursion depth exceeded while decoding a JSON ",
      (match c with
        | .list => "array"
        | .object => "object" : String),
      " from a unicode string"]

/-- What was read and the rest of the text. -/
abbrev Read (α : Type) := Except ReadFault (α × Text)

/-- A reader that finds something or nothing, as one that must find it. -/
def Read.ofOption {α : Type} : Option (α × Text) → Read α
  | none => .error .malformed
  | some r => .ok r

/-! ## Blanks and digits -/

/-- Whether a code point is a blank between tokens. -/
def isSpace (c : CodePoint) : Bool := c == 0x20 || c == 0x09 || c == 0x0A || c == 0x0D

/-- The text after its leading blanks. -/
def skipSpace (t : Text) : Text := t.dropWhile isSpace

/-- Whether a code point is a decimal digit. -/
def isDigit (c : CodePoint) : Bool := 0x30 ≤ c && c ≤ 0x39

/-- The number that decimal digits denote. -/
def digitsValue (t : Text) : Nat := t.foldl (fun n c => n * 10 + (c - 0x30)) 0

/-- The value of a hexadecimal digit. -/
def hexValue? (c : CodePoint) : Option Nat :=
  if 0x30 ≤ c && c ≤ 0x39 then some (c - 0x30)
  else if 0x61 ≤ c && c ≤ 0x66 then some (c - 0x57)
  else if 0x41 ≤ c && c ≤ 0x46 then some (c - 0x37)
  else none

/-- The sixteen-bit unit of four hexadecimal digits. -/
def unit? (a b c d : CodePoint) : Option Nat := do
  let a ← hexValue? a
  let b ← hexValue? b
  let c ← hexValue? c
  let d ← hexValue? d
  return ((a * 16 + b) * 16 + c) * 16 + d

/-! ## Texts -/

/-- The code point of an escape letter. -/
def unescape? (c : CodePoint) : Option CodePoint :=
  if c == 0x22 || c == 0x5C || c == 0x2F then some c
  else if c == 0x62 then some 0x08
  else if c == 0x66 then some 0x0C
  else if c == 0x6E then some 0x0A
  else if c == 0x72 then some 0x0D
  else if c == 0x74 then some 0x09
  else none

/-- Put a unit before the text read after it.  A high surrogate and an escaped
low surrogate that follows it directly are one code point. -/
def joinUnit (u : Nat) (escaped : Bool) (t : Text) : Text :=
  match t with
  | v :: r =>
      if escaped && 0xD800 ≤ u && u ≤ 0xDBFF && 0xDC00 ≤ v && v ≤ 0xDFFF then
        (0x10000 + (u - 0xD800) * 0x400 + (v - 0xDC00)) :: r
      else u :: t
  | [] => [u]

/-- Whether a text goes on with the escape of a unit. -/
def startsUnit : Text → Bool
  | 0x5C :: 0x75 :: _ => true
  | _ => false

/-- A text after its opening quote, up to its closing quote. -/
def readText : Text → Option (Text × Text)
  | [] => none
  | 0x22 :: r => some ([], r)
  | 0x5C :: 0x75 :: a :: b :: c :: d :: r =>
      match unit? a b c d with
      | none => none
      | some u =>
          match readText r with
          | none => none
          | some (t, rest) => some (joinUnit u (startsUnit r) t, rest)
  | 0x5C :: e :: r =>
      match unescape? e with
      | none => none
      | some c => (readText r).map fun (t, rest) => (c :: t, rest)
  | c :: r =>
      if c < 0x20 || c == 0x5C then none
      else (readText r).map fun (t, rest) => (c :: t, rest)

/-! ## Numbers -/

/-- The digits of a fraction, if one follows. -/
def readFraction (t : Text) : Text × Text :=
  match t with
  | 0x2E :: r =>
      let digits := r.takeWhile isDigit
      if digits.isEmpty then ([], t) else (digits, r.dropWhile isDigit)
  | _ => ([], t)

/-- A sign and the digits after it. -/
def readSigned (t : Text) : Option (Int × Text) :=
  let (negative, r) : Bool × Text := match t with
    | 0x2D :: r => (true, r)
    | 0x2B :: r => (false, r)
    | r => (false, r)
  let digits := r.takeWhile isDigit
  if digits.isEmpty then none
  else
    let n : Int := digitsValue digits
    some (if negative then -n else n, r.dropWhile isDigit)

/-- An exponent, if one follows. -/
def readExponent (t : Text) : Option (Int × Text) :=
  match t with
  | 0x65 :: r => readSigned r
  | 0x45 :: r => readSigned r
  | _ => none

/-- The digits before the fraction: a zero, or digits that start with another. -/
def readWhole (t : Text) : Option (Text × Text) :=
  match t with
  | 0x30 :: r => some ([0x30], r)
  | _ =>
      let digits := t.takeWhile isDigit
      if digits.isEmpty then none else some (digits, t.dropWhile isDigit)

/-- A number after its sign. -/
def readNumber (limits : Limits) (negative : Bool) (t : Text) : Read Value :=
  match readWhole t with
  | none => .error .malformed
  | some (whole, rest) =>
      let (fraction, rest) := readFraction rest
      match fraction.isEmpty, readExponent rest with
      | true, none =>
          if limits.exceeds whole.length then .error (.tooLong whole.length)
          else
            let n : Int := digitsValue whole
            .ok (.int (if negative then -n else n), rest)
      | _, some (e, rest) =>
          .ok (.double (.ofDecimal negative (digitsValue (whole ++ fraction))
            (e - fraction.length)), rest)
      | false, none =>
          .ok (.double (.ofDecimal negative (digitsValue (whole ++ fraction))
            (-(fraction.length : Int))), rest)

/-! ## Values -/

/-- The words that stand for values. -/
def words : List (Text × Value) :=
  [("null", .null), ("true", .bool true), ("false", .bool false), ("NaN", .double .nan),
   ("Infinity", .double (.infinite false)), ("-Infinity", .double (.infinite true))]

/-- A word at the head of a text. -/
def readWord (t : Text) : Option (Value × Text) :=
  words.findSome? fun (w, v) => if t.startsWith w then some (v, t.drop w.length) else none

/-- A word or a number. -/
def readAtom (limits : Limits) (t : Text) : Read Value :=
  match readWord t with
  | some r => .ok r
  | none =>
      match t with
      | 0x2D :: r => readNumber limits true r
      | r => readNumber limits false r

mutual

/-- A value at the head of a text.  The first number is the fuel, the second the
levels of nesting that are left. -/
def readValue (limits : Limits) : Nat → Nat → Text → Read Value
  | 0, _, _ => .error .malformed
  | fuel + 1, levels, t =>
      match t with
      | 0x22 :: r => (Read.ofOption (readText r)).map fun (s, rest) => (.text s, rest)
      | 0x5B :: r =>
          match levels with
          | 0 => .error (.tooDeep .list)
          | levels + 1 =>
              match skipSpace r with
              | 0x5D :: rest => .ok (.list [], rest)
              | r => (readItems limits fuel levels r).map fun (vs, rest) => (.list vs, rest)
      | 0x7B :: r =>
          match levels with
          | 0 => .error (.tooDeep .object)
          | levels + 1 =>
              match skipSpace r with
              | 0x7D :: rest => .ok (.object [], rest)
              | r => (readFields limits fuel levels [] r).map fun (fs, rest) => (.object fs, rest)
      | r => readAtom limits r

/-- The items of a list, up to its closing bracket. -/
def readItems (limits : Limits) : Nat → Nat → Text → Read (List Value)
  | 0, _, _ => .error .malformed
  | fuel + 1, levels, t =>
      match readValue limits fuel levels t with
      | .error f => .error f
      | .ok (v, r) =>
          match skipSpace r with
          | 0x5D :: rest => .ok ([v], rest)
          | 0x2C :: r =>
              (readItems limits fuel levels (skipSpace r)).map fun (vs, rest) => (v :: vs, rest)
          | _ => .error .malformed

/-- The fields of an object, up to its closing bracket, after those read so far. -/
def readFields (limits : Limits) : Nat → Nat → Fields → Text → Read Fields
  | 0, _, _, _ => .error .malformed
  | fuel + 1, levels, seen, t =>
      match t with
      | 0x22 :: r =>
          match readText r with
          | none => .error .malformed
          | some (k, r) =>
              match skipSpace r with
              | 0x3A :: r =>
                  match readValue limits fuel levels (skipSpace r) with
                  | .error f => .error f
                  | .ok (v, r) =>
                      match skipSpace r with
                      | 0x7D :: rest => .ok (Fields.put k v seen, rest)
                      | 0x2C :: r => readFields limits fuel levels (Fields.put k v seen) (skipSpace r)
                      | _ => .error .malformed
              | _ => .error .malformed
      | _ => .error .malformed

end

/-- The value of a JSON text.  Without a limit on the levels the length of the text
bounds them. -/
def read (limits : Limits) (t : Text) : Except ReadFault Value :=
  match readValue limits (2 * t.length + 1) (limits.levels.getD t.length) (skipSpace t) with
  | .error f => .error f
  | .ok (v, rest) => if (skipSpace rest).isEmpty then .ok v else .error .malformed

end Needlework.Json

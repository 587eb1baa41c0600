import Needlework.Text.Numeral
import Needlework.Value.Basic

/-!
# Arithmetic on values

The layout of a tree may be given by values: the margin of a line is the product
of an indentation and a level, and the level of a child is one more than that of
its parent.

*Products.*  Numbers multiply as numbers.  A truth value counts as one or zero, and
an integer beside a double becomes a double.  A text or a list times an integer, in
either order, is written that many times, and not at all if the integer is
negative.  Nothing else has a product.

*Sizes.*  A number of repetitions must be a machine word (`isWord`), even if there
is nothing to repeat.  A text that would be longer than a word can tell is refused
as too long, and what is longer than `roomLimit` finds no room.

*Digits.*  An integer that is shown has at most `Text.digitLimit` digits, as one
that is read.
-/

namespace Needlework

/-- Why arithmetic on values fails. -/
inductive ArithmeticFault where
  /-- What should say how often to repeat is no integer. -/
  | notACount (typeName : Text)
  /-- Two values have no product. -/
  | noProduct (left right : Text)
  /-- Two values have no sum. -/
  | noSum (left right : Text)
  /-- A text or a list is followed by something of another type. -/
  | notJoinable (sequence other : Text)
  /-- An integer is no machine word. -/
  | notAWord
  /-- An integer is too large for a double. -/
  | tooLargeForDouble
  /-- A repeated text is too long. -/
  | tooLong
  /-- There is no room for the result. -/
  | noRoom
  /-- An integer has too many digits to be shown. -/
  | tooManyDigits
deriving DecidableEq, Repr

/-- The wording of an arithmetic fault. -/
def ArithmeticFault.message : ArithmeticFault → Text
  | .notACount t => Text.cat ["can't multiply sequence by non-int of type ", t.quoted]
  | .noProduct l r =>
      Text.cat ["unsupported operand type(s) for *: ", l.quoted, " and ", r.quoted]
  | .noSum l r => Text.cat ["unsupported operand type(s) for +: ", l.quoted, " and ", r.quoted]
  | .notJoinable s t => Text.cat ["can only concatenate ", s, " (not \"", t, "\") to ", s]
  | .notAWord => "cannot fit 'int' into an index-sized integer"
  | .tooLargeForDouble => "int too large to convert to float"
  | .tooLong => "repeated string is too long"
  | .noRoom => []
  | .tooManyDigits => Text.cat ["Exceeds the limit (", Text.ofNat Text.digitLimit,
      " digits) for integer string conversion; use sys.set_int_max_str_digits() ",
      "to increase the limit"]

/-- The number of words that are not negative. -/
def wordLimit : Nat := Double.pow2 63

/-- Whether an integer is a machine word: 64 bits with a sign. -/
def isWord (i : Int) : Bool := -(wordLimit : Int) ≤ i && i < wordLimit

/-- The length for which there is room. -/
def roomLimit : Nat := Double.pow10 10

namespace Value

/-! ## Repetition -/

/-- How often a value says to repeat something. -/
def count (v : Value) : Except ArithmeticFault Nat :=
  match v.asInt? with
  | none => .error (.notACount v.typeName)
  | some n => if isWord n then .ok n.toNat else .error .notAWord

/-- A text as often as a value says. -/
def repeatText (t : Text) (v : Value) : Except ArithmeticFault Text := do
  let n ← v.count
  if wordLimit ≤ t.length * n then .error .tooLong
  else if roomLimit < t.length * n then .error .noRoom
  else if t.isEmpty then .ok [] else .ok (t.times n)

/-- A list as often as a value says. -/
def repeatList (items : List Value) (v : Value) : Except ArithmeticFault (List Value) := do
  let n ← v.count
  if roomLimit < items.length * n then .error .noRoom
  else if items.isEmpty then .ok [] else .ok (List.replicate n items).flatten

/-! ## Products -/

/-- The product of a double and an integer. -/
def scale (x : Double) (i : Int) : Except ArithmeticFault Value :=
  match Double.ofInt? i with
  | none => .error .tooLargeForDouble
  | some y => .ok (.double (x.mul y))

/-- The product of two values that are neither texts nor lists. -/
def numberProduct (v w : Value) : Except ArithmeticFault Value :=
  match v, w, v.asInt?, w.asInt? with
  | .double x, .double y, _, _ => .ok (.double (x.mul y))
  | .double x, _, _, some j => scale x j
  | _, .double y, some i, _ => scale y i
  | _, _, some i, some j => .ok (.int (i * j))
  | _, _, _, _ => .error (.noProduct v.typeName w.typeName)

/-- The product of two values. -/
def product : Value → Value → Except ArithmeticFault Value
  | .text t, w => .text <$> repeatText t w
  | .list items, w => .list <$> repeatList items w
  | v, .text t => .text <$> repeatText t v
  | v, .list items => .list <$> repeatList items v
  | v, w => numberProduct v w

/-! ## Sums -/

/-- One more than a value. -/
def successor (v : Value) : Except ArithmeticFault Value :=
  let one : Value := .int 1
  match v with
  | .bool b => .ok (.int (if b then 2 else 1))
  | .int i => .ok (.int (i + 1))
  | .double x => .ok (.double (x.add (.ofInt 1)))
  | .text _ | .list _ => .error (.notJoinable v.typeName one.typeName)
  | .null | .object _ => .error (.noSum v.typeName one.typeName)

/-! ## Text -/

/-- A value as it reads in a line of text. -/
def shown : Value → Except ArithmeticFault Text
  | .int i =>
      let digits := Text.ofNat i.natAbs
      if Text.digitLimit < digits.length then .error .tooManyDigits else .ok (Text.ofInt i)
  | v => .ok v.plain

example : (product (.int 2) (.int (-2))).toOption.map quoted = some (Text.ofInt (-4)) := by
  decide +kernel
example : (product (.bool true) (.text [0x78])).toOption.map plain = some [0x78] := by
  decide +kernel
example : repeatText [] (.int 9223372036854775808) = .error .notAWord := rfl
example : repeatText [] (.int 9223372036854775807) = .ok [] := rfl

end Value

end Needlework

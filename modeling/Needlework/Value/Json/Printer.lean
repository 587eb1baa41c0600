import Needlework.Value.Basic

/-!
# Writing JSON

A value is written either on one line or with an indentation.  On one line,
items are separated by a comma and a space.  With an indentation every item
starts a line of its own, indented by one unit for each level, and a comma ends
the line before.  A key and its value are separated by a colon and a space, and
an empty list or object has nothing between its brackets.

The text is ASCII.  A code point outside the printable ASCII range is written
as `\uhhhh`, and one above `FFFF` as the escapes of its two surrogates.
-/

namespace Needlework.Json

/-! ## Texts -/

/-- The escape of a sixteen-bit unit. -/
def escapeUnit (u : Nat) : Text := 0x5C :: 0x75 :: Text.hex 4 u

/-- A code point inside a quoted JSON text. -/
def escape (c : CodePoint) : Text :=
  if c == 0x22 || c == 0x5C then [0x5C, c]
  else if c == 0x0A then [0x5C, 0x6E]
  else if c == 0x0D then [0x5C, 0x72]
  else if c == 0x09 then [0x5C, 0x74]
  else if c == 0x0C then [0x5C, 0x66]
  else if c == 0x08 then [0x5C, 0x62]
  else if 0x20 ≤ c && c ≤ 0x7E then [c]
  else if c < 0x10000 then escapeUnit c
  else escapeUnit (0xD800 + (c - 0x10000) / 0x400) ++ escapeUnit (0xDC00 + (c - 0x10000) % 0x400)

/-- A text between double quotes. -/
def writeText (t : Text) : Text := 0x22 :: t.flatMap escape ++ [0x22]

/-- A double.  Infinities and what is not a number have names of their own. -/
def writeDouble : Double → Text
  | .nan => "NaN"
  | .infinite true => "-Infinity"
  | .infinite false => "Infinity"
  | x => x.toText

/-! ## Values -/

/-- The line break before an item at a level.  There is none without an
indentation. -/
def lineBreak (indent : Option Text) (level : Nat) : Text :=
  match indent with
  | none => []
  | some unit => 0x0A :: unit.times level

/-- What separates an item at a level from the one before. -/
def separator (indent : Option Text) (level : Nat) : Text :=
  match indent with
  | none => [0x2C, 0x20]
  | some unit => 0x2C :: 0x0A :: unit.times level

mutual

/-- A value whose items stand at the level after the given one. -/
def write (indent : Option Text) (level : Nat) : Value → Text
  | .null => "null"
  | .bool true => "true"
  | .bool false => "false"
  | .int i => Text.ofInt i
  | .double x => writeDouble x
  | .text t => writeText t
  | .list items => 0x5B :: (writeItems indent level items ++ [0x5D])
  | .object fields => 0x7B :: (writeFields indent level fields ++ [0x7D])
termination_by structural v => v

/-- The items of a list, with the breaks before the first and after the last. -/
def writeItems (indent : Option Text) (level : Nat) : List Value → Text
  | [] => []
  | v :: r =>
      lineBreak indent (level + 1) ++ write indent (level + 1) v
        ++ writeMoreItems indent (level + 1) r ++ lineBreak indent level
termination_by structural items => items

/-- The items after the first. -/
def writeMoreItems (indent : Option Text) (level : Nat) : List Value → Text
  | [] => []
  | v :: r => separator indent level ++ write indent level v ++ writeMoreItems indent level r
termination_by structural items => items

/-- The fields of an object, with the breaks before the first and after the
last. -/
def writeFields (indent : Option Text) (level : Nat) : List (Text × Value) → Text
  | [] => []
  | f :: r =>
      lineBreak indent (level + 1) ++ writeField indent (level + 1) f
        ++ writeMoreFields indent (level + 1) r ++ lineBreak indent level
termination_by structural fields => fields

/-- The fields after the first. -/
def writeMoreFields (indent : Option Text) (level : Nat) : List (Text × Value) → Text
  | [] => []
  | f :: r =>
      separator indent level ++ writeField indent level f ++ writeMoreFields indent level r
termination_by structural fields => fields

/-- One field. -/
def writeField (indent : Option Text) (level : Nat) : Text × Value → Text
  | (k, v) => writeText k ++ 0x3A :: 0x20 :: write indent level v
termination_by structural f => f

end

/-- A value as JSON, with a unit of indentation or on one line. -/
def print (indent : Option Text) (v : Value) : Text := write indent 0 v

end Needlework.Json

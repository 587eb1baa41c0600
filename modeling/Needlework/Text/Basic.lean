/-!
# Text as code points

The scanner works on code points.  An offset is a position in a list of code
points and a length is their number, so a text here is that list.  Lone
surrogates are code points too: bytes that do not decode may be carried through
a parse as the code points `DC80` to `DCFF`, which no `String` can hold.

A *start* is an offset read the way a slice reads it: a negative one counts
from the end of the text and stops at its beginning.  The scan position is
always such an offset.  `Text.dropFrom` and `Text.between` cut at starts,
`Text.at?` reads one code point.

Searching is by needle.  `Text.find?` is the first occurrence of one of them, and
`Text.findNeedle?` looks for one after the other and keeps what comes first
(`Text.consider`).  So the earliest position wins, and among the needles of one
position the one listed first.  The empty needle is never found.
-/

namespace Needlework

/-- A Unicode code point, lone surrogates included. -/
abbrev CodePoint := Nat

/-- A text: its code points in order. -/
abbrev Text := List CodePoint

namespace Text

/-! ## Building texts -/

/-- The code points of a string. -/
def ofString (s : String) : Text := s.toList.map Char.toNat

instance : Coe String Text := ⟨ofString⟩

/-- The text of a list of characters. -/
def ofChars (cs : List Char) : Text := cs.map Char.toNat

/-- A natural number in decimal. -/
def ofNat (n : Nat) : Text := (Nat.toDigits 10 n).map Char.toNat

/-- An integer in decimal, with a minus sign where it is negative. -/
def ofInt : Int → Text
  | .ofNat n => ofNat n
  | .negSucc n => 0x2D :: ofNat (n + 1)

/-- Texts one after the other. -/
def cat (parts : List Text) : Text := parts.flatten

/-- Texts one after the other, with a separator between neighbours. -/
def joinWith (separator : Text) : List Text → Text
  | [] => []
  | [t] => t
  | t :: u :: r => t ++ separator ++ joinWith separator (u :: r)

/-- A text written a number of times. -/
def times (t : Text) (n : Nat) : Text := (List.replicate n t).flatten

/-- Whether a code point is a surrogate. -/
def isSurrogate (c : CodePoint) : Bool := 0xD800 ≤ c && c ≤ 0xDFFF

/-- The string of a text.  A lone surrogate has no character and becomes the
replacement character. -/
def toString (t : Text) : String :=
  String.ofList (t.map fun c => if isSurrogate c then Char.ofNat 0xFFFD else Char.ofNat c)

/-! ## Order -/

/-- Whether a text comes before another or is equal to it, by code point. -/
def le : Text → Text → Bool
  | [], _ => true
  | _ :: _, [] => false
  | a :: r, b :: s => if a < b then true else if b < a then false else le r s

/-! ## Cutting -/

/-- Where an offset starts in a text.  A negative offset counts from the end and
stops at the beginning. -/
def start (t : Text) (offset : Int) : Nat :=
  if offset < 0 then (t.length + offset).toNat else offset.toNat

/-- The text from an offset on. -/
def dropFrom (t : Text) (offset : Int) : Text := t.drop (t.start offset)

/-- The text from an offset up to a position. -/
def between (t : Text) (offset : Int) (stop : Nat) : Text :=
  (t.drop (t.start offset)).take (stop - t.start offset)

/-- The code point at an offset.  A negative offset counts from the end, and one
outside the text has no code point. -/
def at? (t : Text) (offset : Int) : Option CodePoint :=
  if offset < 0 then
    if 0 ≤ t.length + offset then t[(t.length + offset).toNat]? else none
  else t[offset.toNat]?

/-! ## Searching -/

/-- Whether a text begins with another. -/
def startsWith : Text → Text → Bool
  | _, [] => true
  | [], _ :: _ => false
  | c :: r, d :: s => c == d && startsWith r s

theorem startsWith_iff : ∀ {t w : Text}, t.startsWith w = true ↔ w <+: t
  | t, [] => by cases t <;> simp [startsWith]
  | [], _ :: _ => by simp [startsWith]
  | c :: r, d :: s => by
      rw [startsWith, Bool.and_eq_true, beq_iff_eq, startsWith_iff, List.cons_prefix_cons]
      exact and_congr_left' eq_comm

/-- The first occurrence of a word in a text whose head is at position `p`. -/
def find? (w t : Text) (p : Nat) : Option Nat :=
  if t.startsWith w then some p
  else match t with
    | [] => none
    | _ :: r => find? w r (p + 1)

/-- Look for one more needle in a text whose head is at position `p`.  It is kept if
nothing has been found yet, or only something that comes later. -/
def consider (t : Text) (p : Nat) (best : Option (Text × Nat)) (needle : Text) :
    Option (Text × Nat) :=
  if needle.isEmpty then best
  else match find? needle t p, best with
    | none, _ => best
    | some q, none => some (needle, q)
    | some q, some (_, earliest) => if q < earliest then some (needle, q) else best

/-- The earliest needle at or after an offset, with its position.  The needles are looked
for in turn, so the first listed is kept of several at one position. -/
def findNeedle? (needles : List Text) (t : Text) (offset : Int) : Option (Text × Nat) :=
  if offset < t.length then needles.foldl (consider (t.dropFrom offset) (t.start offset)) none
  else none

/-! ## Replacing -/

/-- Replace occurrences from left to right.  The counter is the number of code
points that still belong to the occurrence replaced last. -/
def replaceFrom (old new : Text) : Nat → Text → Text
  | _, [] => []
  | k + 1, _ :: r => replaceFrom old new k r
  | 0, c :: r =>
      if startsWith (c :: r) old then new ++ replaceFrom old new (old.length - 1) r
      else c :: replaceFrom old new 0 r

/-- Every occurrence of `old`, from left to right and without overlap, becomes
`new`.  The empty text occurs before each code point and at the end. -/
def replaceAll (t old new : Text) : Text :=
  if old.isEmpty then new ++ t.flatMap (fun c => c :: new) else replaceFrom old new 0 t

example : findNeedle? [[2], [1, 2], []] [0, 1, 2, 2] 0 = some ([1, 2], 1) := by decide
example : findNeedle? [[2], [1, 2], []] [0, 1, 2, 2] (-1) = some ([2], 3) := by decide
example : replaceAll [1, 1, 1, 2] [1, 1] [7] = [7, 1, 2] := by decide

end Text

end Needlework

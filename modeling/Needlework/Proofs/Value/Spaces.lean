import Mathlib.Data.List.Range
import Needlework.Script.Step

/-!
# Spaces

A number of spaces can be asked for by a value, as the unit of an indentation or as the margin of a line.
It is granted as long as there is room (`repeatText_space`).  So a dump that indents by one space for each
level has these margins, one for each of its levels (`margins_space`).
-/

namespace Needlework

variable {n k : Nat}

/-- As many spaces as there is room for. -/
theorem Value.repeatText_space (room : n ≤ roomLimit) :
    repeatText [0x20] (.int n) = .ok (Text.times [0x20] n) := by
  have length : ([0x20] : Text).length * n = n := by rw [List.length_singleton, Nat.one_mul]
  have short : n < wordLimit := Nat.lt_of_le_of_lt room (by decide)
  have word : isWord n = true := by
    simp only [isWord, Bool.and_eq_true, decide_eq_true_eq]
    omega
  have count : Value.count (.int n) = .ok n := by
    simp [Value.count, Value.asInt?, word]
  have counted : ∀ f : Nat → Except ArithmeticFault Text, (Except.ok n >>= f) = f n := fun _ => rfl
  rw [repeatText, count, counted, length, if_neg (Nat.not_le.2 short), if_neg (Nat.not_lt.2 room),
    if_neg (by decide)]

theorem Value.product_space (room : n ≤ roomLimit) :
    product (.text [0x20]) (.int n) = .ok (.text (Text.times [0x20] n)) := by
  rw [product, repeatText_space room]
  rfl

/-- The margins of a level and of those below it are one space more for each level. -/
theorem Script.margins_space (room : k + n ≤ roomLimit) :
    margins (.text [0x20]) n (.int k) = .ok ((List.range' k (n + 1)).map (Text.times [0x20])) := by
  induction n generalizing k with
  | zero =>
      rw [margins, Value.product_space (n := k) room]
      rfl
  | succ n ih =>
      have here : k ≤ roomLimit := Nat.le_trans (Nat.le_add_right k _) room
      have deeper := ih (k := k + 1) (by omega)
      have next : (Value.int k).successor = .ok (.int (k + 1 : Nat)) := rfl
      rw [margins, Value.product_space here, List.range'_succ, List.map_cons]
      change (Value.successor (.int k) >>= fun level => margins (.text [0x20]) n level >>= fun below =>
        pure (Text.times [0x20] k :: below)) = _
      rw [next]
      change (margins (.text [0x20]) n (.int (k + 1 : Nat)) >>= _) = _
      rw [deeper]
      rfl

end Needlework

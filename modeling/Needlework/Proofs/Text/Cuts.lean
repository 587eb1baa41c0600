import Needlework.Text.Basic
import Mathlib.Tactic.Common

/-!
# Cuts of a text

A scan cuts its text at the cursor and at the needles that it finds.  At an offset
that is not negative, the pieces are what `take` and `drop` give.
-/

namespace Needlework.Text

variable {t w : Text}

theorem start_of_nonneg {i : Int} (hi : 0 ≤ i) : t.start i = i.toNat := by
  rw [start, if_neg (by omega)]

theorem at?_of_nonneg {i : Int} (hi : 0 ≤ i) : t.at? i = t[i.toNat]? := by
  rw [at?, if_neg (by omega)]

/-- A code point stands inside the text. -/
theorem lt_length_of_at? {i : Int} {c : CodePoint} (hi : 0 ≤ i) (h : t.at? i = some c) :
    i < t.length := by
  rw [at?_of_nonneg hi] at h
  obtain ⟨hlt, -⟩ := List.getElem?_eq_some_iff.mp h
  omega

/-! ## Pieces in a row -/

theorem dropFrom_natCast (t : Text) (i : Nat) : t.dropFrom i = t.drop i := by
  rw [dropFrom, start_of_nonneg (Int.natCast_nonneg i), Int.toNat_natCast]

theorem singleton_prefix_of_at? {i : Nat} {c : CodePoint} (h : t.at? i = some c) :
    [c] <+: t.drop i := by
  rw [at?_of_nonneg (Int.natCast_nonneg i), Int.toNat_natCast] at h
  obtain ⟨inside, rfl⟩ := List.getElem?_eq_some_iff.mp h
  rw [List.drop_eq_getElem_cons inside]
  exact ⟨_, rfl⟩

theorem between_prefix (i q : Nat) : t.between i q <+: t.drop i := by
  rw [between, start_of_nonneg (Int.natCast_nonneg i), Int.toNat_natCast]
  exact List.take_prefix ..

theorem length_between {i q : Nat} (inside : q ≤ t.length) : (t.between i q).length = q - i := by
  rw [between, start_of_nonneg (Int.natCast_nonneg i), Int.toNat_natCast, List.length_take,
    List.length_drop]
  omega

theorem take_eq_append_of_prefix {q : Nat} (h : w <+: t.drop q) :
    t.take (q + w.length) = t.take q ++ w := by
  rw [List.take_add, ← List.prefix_iff_eq_take.mp h]

/-- Two pieces in a row are one piece. -/
theorem append_prefix {u : Text} {i : Nat} (first : u <+: t.drop i)
    (second : w <+: t.drop (i + u.length)) : u ++ w <+: t.drop i := by
  obtain ⟨rest, whole⟩ := first
  rw [← List.drop_drop, ← whole, List.drop_left] at second
  rw [← whole]
  exact (List.prefix_append_right_inj u).2 second

/-- A piece lies within the text. -/
theorem le_length_of_prefix {i : Nat} (inside : i ≤ t.length) (h : w <+: t.drop i) :
    i + w.length ≤ t.length := by
  have fits := h.length_le
  rw [List.length_drop] at fits
  omega

end Needlework.Text

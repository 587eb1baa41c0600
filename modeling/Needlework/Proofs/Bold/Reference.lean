import Needlework.Bold
import Needlework.Proofs.Text.Splits

/-!
# What bold markup stands for

The HTML of a text has a description that says nothing of a scan, a status or a tree.  The first
opening mark is looked for, and behind it the first closing mark.  If there are both, then what
stands between them is strong, and what stands behind them is described in the same way.
Otherwise all that is left is text (`reference`).

The text at which the description stops is the *remainder*.  It may still hold opening marks.  Each
of them is a mark that the scan opens in vain, and reads again as text.  So the remainder is taken
mark by mark.  Without the first code point of its first opening mark it is still a remainder, with
one opening mark less (`firstBold?_resumed`).
-/

namespace Needlework.Bold

open Text

/-- The first bold text that is closed: what stands before it, the bold text itself, and what stands
behind it. -/
def firstBold? (t : Text) : Option (Text × Text × Text) :=
  match split? openMark t with
  | none => none
  | some (before, rest) => (split? closeMark rest).map fun cut => (before, cut.1, cut.2)

theorem firstBold?_of_split? {t before rest : Text} (h : split? openMark t = some (before, rest)) :
    firstBold? t = (split? closeMark rest).map fun cut => (before, cut.1, cut.2) := by
  rw [firstBold?, h]

theorem exists_of_firstBold? {t before bold behind : Text}
    (h : firstBold? t = some (before, bold, behind)) :
    ∃ rest, split? openMark t = some (before, rest) ∧ split? closeMark rest = some (bold, behind) := by
  rw [firstBold?] at h
  cases opened : split? openMark t with
  | none =>
      rw [opened] at h
      cases h
  | some cut =>
      obtain ⟨x, rest⟩ := cut
      rw [opened] at h
      obtain ⟨⟨y, z⟩, closed, same⟩ := Option.map_eq_some_iff.1 h
      cases same
      exact ⟨rest, rfl, closed⟩

/-- A text with bold text in it, put together again. -/
theorem eq_of_firstBold? {t before bold behind : Text}
    (h : firstBold? t = some (before, bold, behind)) :
    t = before ++ openMark ++ (bold ++ closeMark ++ behind) := by
  obtain ⟨rest, opened, closed⟩ := exists_of_firstBold? h
  rw [eq_of_split? opened, eq_of_split? closed]

theorem length_of_firstBold? {t before bold behind : Text}
    (h : firstBold? t = some (before, bold, behind)) : behind.length + 7 ≤ t.length := by
  rw [eq_of_firstBold? h]
  simp only [List.length_append, openMark, closeMark, Text.ofChars, List.map_cons, List.map_nil,
    List.length_cons, List.length_nil]
  omega

/-- The HTML of a text. -/
def reference (t : Text) : Text :=
  match _found : firstBold? t with
  | none => escape t
  | some (before, bold, behind) =>
      escape before ++ strongStart ++ escape bold ++ strongEnd ++ reference behind
termination_by t.length
decreasing_by
  have shorter := length_of_firstBold? _found
  omega

/-- What is left of a text where no bold text that is closed follows any more. -/
def remainder (t : Text) : Text :=
  match _found : firstBold? t with
  | none => t
  | some (_, _, behind) => remainder behind
termination_by t.length
decreasing_by
  have shorter := length_of_firstBold? _found
  omega

variable {t before bold behind rest : Text}

theorem reference_of_none (h : firstBold? t = none) : reference t = escape t := by
  rw [reference]
  split
  next => rfl
  next found => rw [h] at found; cases found

theorem reference_of_some (h : firstBold? t = some (before, bold, behind)) : reference t
    = escape before ++ strongStart ++ escape bold ++ strongEnd ++ reference behind := by
  rw [reference]
  split
  next found => rw [h] at found; cases found
  next found => rw [h] at found; cases found; rfl

theorem remainder_of_none (h : firstBold? t = none) : remainder t = t := by
  rw [remainder]
  split
  next => rfl
  next found => rw [h] at found; cases found

theorem remainder_of_some (h : firstBold? t = some (before, bold, behind)) :
    remainder t = remainder behind := by
  rw [remainder]
  split
  next found => rw [h] at found; cases found
  next found => rw [h] at found; cases found; rfl

/-- Escaping goes code point by code point. -/
theorem escape_append (t u : Text) : escape (t ++ u) = escape t ++ escape u := List.flatMap_append

/-- The number of opening marks that are never closed. -/
def unclosed (t : Text) : Nat := occurrences openMark (remainder t)

/-- A text without an opening mark has none that is never closed. -/
theorem unclosed_of_split?_none (h : split? openMark t = none) : unclosed t = 0 := by
  have none : firstBold? t = none := by rw [firstBold?, h]
  rw [unclosed, remainder_of_none none]
  exact (occurrences_eq_zero_iff (by decide)).2 (split?_eq_none_iff.1 h)

/-- Behind the beginning of a mark that is never closed, no bold text is closed either. -/
theorem firstBold?_resumed (dangling : split? closeMark rest = none) :
    firstBold? (openMark.tail ++ rest) = none := by
  have later : split? openMark (openMark.tail ++ rest)
      = (split? openMark rest).map fun cut => (0x62 :: 0x5D :: cut.1, cut.2) := by
    show split? openMark (0x62 :: 0x5D :: rest) = _
    rw [split?_cons, split?_cons, Option.map_map]
    · rfl
    · rintro ⟨z, hz⟩
      cases hz
    · rintro ⟨z, hz⟩
      cases hz
  rw [firstBold?, later]
  cases again : split? openMark rest with
  | none => rfl
  | some cut =>
      have absent : split? closeMark cut.2 = none := by
        rw [split?_eq_none_iff] at dangling ⊢
        refine fun occurs => dangling (occurs.trans ?_)
        rw [eq_of_split? again]
        exact (List.suffix_append ..).isInfix
      show (split? closeMark cut.2).map _ = none
      rw [absent]
      rfl

section Resumed

variable (opened : split? openMark t = some (before, rest)) (dangling : split? closeMark rest = none)

include opened dangling

theorem firstBold?_of_dangling : firstBold? t = none := by
  rw [firstBold?_of_split? opened, dangling]
  rfl

/-- Every opening mark of a remainder is opened in vain once. -/
theorem unclosed_resumed : unclosed t = unclosed (openMark.tail ++ rest) + 1 := by
  rw [unclosed, remainder_of_none (firstBold?_of_dangling opened dangling), unclosed,
    remainder_of_none (firstBold?_resumed dangling)]
  exact occurrences_of_split? opened

theorem reference_resumed :
    reference t = escape before ++ escape [0x5B] ++ reference (openMark.tail ++ rest) := by
  rw [reference_of_none (firstBold?_of_dangling opened dangling),
    reference_of_none (firstBold?_resumed dangling), ← escape_append, ← escape_append]
  refine congrArg escape ((eq_of_split? opened).trans ?_)
  rw [List.append_assoc, List.append_assoc]
  rfl

end Resumed

end Needlework.Bold

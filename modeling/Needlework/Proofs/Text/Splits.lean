import Needlework.Proofs.Text.Cuts

/-!
# Splitting a text at a word

A word splits a text at its first occurrence into what stands before it and what stands behind it.
-/

namespace Needlework.Text

variable {t w x y : Text} {c : CodePoint}

/-- What stands before and behind the first occurrence of a word in a text. -/
def split? (w t : Text) : Option (Text × Text) :=
  if t.startsWith w then some ([], t.drop w.length)
  else match t with
    | [] => none
    | c :: r => (split? w r).map fun cut => (c :: cut.1, cut.2)

/-- How often a word occurs in a text, at any place. -/
def occurrences (w : Text) : Text → Nat
  | [] => 0
  | c :: r => (if startsWith (c :: r) w then 1 else 0) + occurrences w r

/-! ## The first occurrence -/

theorem split?_of_startsWith (h : w <+: t) : split? w t = some ([], t.drop w.length) := by
  rw [split?.eq_def, if_pos (startsWith_iff.2 h)]

theorem split?_cons (h : ¬ w <+: c :: t) :
    split? w (c :: t) = (split? w t).map fun cut => (c :: cut.1, cut.2) := by
  rw [split?.eq_def, if_neg (fun starts => h (startsWith_iff.1 starts))]

theorem split?_nil (h : w ≠ []) : split? w [] = none := by
  rw [split?.eq_def, if_neg (fun starts => h (List.prefix_nil.1 (startsWith_iff.1 starts)))]

/-- A text that is split is put together again by the word. -/
theorem eq_of_split? (h : split? w t = some (x, y)) : t = x ++ w ++ y := by
  induction t generalizing x with
  | nil =>
      by_cases nonempty : w = []
      · subst nonempty
        cases h
        rfl
      · rw [split?_nil nonempty] at h
        cases h
  | cons c t ih =>
      by_cases here : w <+: c :: t
      · rw [split?_of_startsWith here] at h
        cases h
        exact (List.prefix_iff_eq_append.1 here).symm
      · rw [split?_cons here] at h
        obtain ⟨⟨x', y'⟩, later, cut⟩ := Option.map_eq_some_iff.1 h
        cases cut
        rw [ih later]
        rfl

/-- A text is split at the first occurrence. -/
theorem length_le_of_split? (h : split? w t = some (x, y)) {x' y' : Text} (ht : t = x' ++ w ++ y') :
    x.length ≤ x'.length := by
  induction t generalizing x x' with
  | nil =>
      rw [List.append_assoc] at ht
      obtain ⟨-, rest⟩ := List.append_eq_nil_iff.1 ht.symm
      obtain ⟨rfl, -⟩ := List.append_eq_nil_iff.1 rest
      cases h
      exact Nat.zero_le _
  | cons c t ih =>
      by_cases here : w <+: c :: t
      · rw [split?_of_startsWith here] at h
        cases h
        exact Nat.zero_le _
      · rw [split?_cons here] at h
        obtain ⟨⟨x₁, y₁⟩, later, cut⟩ := Option.map_eq_some_iff.1 h
        cases cut
        cases x' with
        | nil =>
            rw [List.nil_append] at ht
            exact absurd ⟨y', ht.symm⟩ here
        | cons d x' =>
            rw [List.cons_append, List.cons_append] at ht
            obtain ⟨-, ht⟩ := List.cons.inj ht
            exact Nat.succ_le_succ (ih later ht)

/-- A text is split by the words that occur in it. -/
theorem split?_eq_none_iff : split? w t = none ↔ ¬ w <:+: t := by
  induction t with
  | nil =>
      by_cases nonempty : w = []
      · subst nonempty
        exact ⟨nofun, fun absent => absurd (List.nil_infix) absent⟩
      · rw [split?_nil nonempty]
        exact ⟨fun _ occurs => nonempty (List.infix_nil.1 occurs), fun _ => rfl⟩
  | cons c t ih =>
      rw [List.infix_cons_iff]
      by_cases here : w <+: c :: t
      · rw [split?_of_startsWith here]
        exact ⟨nofun, fun absent => absurd (.inl here) absent⟩
      · rw [split?_cons here, Option.map_eq_none_iff, ih]
        exact ⟨fun absent => not_or.2 ⟨here, absent⟩, fun absent => (not_or.1 absent).2⟩

/-! ## Counting -/

theorem occurrences_eq_zero_iff (h : w ≠ []) : occurrences w t = 0 ↔ ¬ w <:+: t := by
  induction t with
  | nil => exact ⟨fun _ occurs => h (List.infix_nil.1 occurs), fun _ => rfl⟩
  | cons c t ih =>
      rw [occurrences, List.infix_cons_iff, Nat.add_eq_zero_iff, ih, not_or, ← startsWith_iff]
      refine and_congr_left' ?_
      split
      next here => exact ⟨nofun, fun absent => absurd here absent⟩
      next absent => exact ⟨fun _ => absent, fun _ => rfl⟩

/-- Behind the beginning of its first occurrence a word occurs once less. -/
theorem occurrences_of_split? (h : split? (c :: w) t = some (x, y)) :
    occurrences (c :: w) t = occurrences (c :: w) (w ++ y) + 1 := by
  induction t generalizing x with
  | nil =>
      rw [split?_nil (List.cons_ne_nil c w)] at h
      cases h
  | cons d t ih =>
      rw [occurrences]
      by_cases here : c :: w <+: d :: t
      · rw [split?_of_startsWith here] at h
        cases h
        obtain ⟨z, hz⟩ := here
        rw [← hz, List.drop_left, if_pos (startsWith_iff.2 ⟨z, rfl⟩), Nat.add_comm]
        rw [List.cons_append] at hz
        rw [(List.cons.inj hz).2]
      · rw [split?_cons here] at h
        obtain ⟨⟨x', y'⟩, later, cut⟩ := Option.map_eq_some_iff.1 h
        cases cut
        rw [if_neg (fun starts => here (startsWith_iff.1 starts)), Nat.zero_add, ih later]

end Needlework.Text

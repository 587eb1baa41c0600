import Needlework.Proofs.Text.Splits

/-!
# Searching

A search looks for one needle after the other and keeps what comes first.  What it has kept after
some of the needles is the earliest place at which one of these stands, with the first listed of those
that stand there (`Best`).  A needle that is looked for next takes its place only if it stands earlier
(`Best.consider`), so the order of the list decides between needles at one position.

So a search from an offset on finds a needle exactly if it is the first to stand at a position, and
none stands between the offset and that position (`findNeedle?_eq_some_iff`).
-/

namespace Needlework.Text

variable {t v w : Text} {needles seen : List Text} {i k p q : Nat} {best : Option (Text × Nat)}

/-! ## One word -/

/-- A word is found where it splits the text. -/
theorem find?_eq_split? (w t : Text) (p : Nat) :
    find? w t p = (split? w t).map fun cut => p + cut.1.length := by
  induction t generalizing p with
  | nil =>
      rw [find?.eq_def, split?.eq_def]
      split
      · rfl
      · rfl
  | cons c t ih =>
      rw [find?.eq_def, split?.eq_def]
      split
      · rfl
      · dsimp only
        rw [ih, Option.map_map]
        refine congrArg (Option.map · _) (funext fun cut => ?_)
        show p + 1 + cut.1.length = p + (c :: cut.1).length
        rw [List.length_cons, Nat.add_right_comm, Nat.add_assoc]

/-- A word is found at its first occurrence. -/
theorem find?_eq_some (h : find? w (t.drop p) p = some q) :
    p ≤ q ∧ w <+: t.drop q ∧ ∀ k, p ≤ k → k < q → ¬ w <+: t.drop k := by
  rw [find?_eq_split?] at h
  obtain ⟨⟨x, y⟩, cut, rfl⟩ := Option.map_eq_some_iff.1 h
  refine ⟨Nat.le_add_right p _, ?_, fun k low high stands => ?_⟩
  · rw [← List.drop_drop, eq_of_split? cut, List.append_assoc, List.drop_left]
    exact List.prefix_append w y
  · obtain ⟨z, rest⟩ := stands
    have whole : t.drop p = (t.drop p).take (k - p) ++ w ++ z := by
      rw [List.append_assoc, rest]
      have split := List.take_append_drop (k - p) (t.drop p)
      rw [List.drop_drop, Nat.add_sub_cancel' low] at split
      exact split.symm
    have short := length_le_of_split? cut whole
    rw [List.length_take] at short
    dsimp only at high
    omega

/-- A word that is not found does not occur. -/
theorem find?_eq_none (h : find? w (t.drop p) p = none) (low : p ≤ k) : ¬ w <+: t.drop k := by
  rw [find?_eq_split?, Option.map_eq_none_iff, split?_eq_none_iff] at h
  intro stands
  have later : t.drop k = (t.drop p).drop (k - p) := by
    rw [List.drop_drop, Nat.add_sub_cancel' low]
  rw [later] at stands
  exact h (stands.isInfix.trans (List.drop_suffix _ _).isInfix)

/-! ## Needles at a position -/

/-- None of some needles stands at a position.  Empty needles do not count. -/
def Bare (needles : List Text) (t : Text) (p : Nat) : Prop :=
  ∀ w ∈ needles, w ≠ [] → ¬ w <+: t.drop p

/-- A needle is the first one listed of those that stand at a position.  Empty needles do not count. -/
structure FirstAt (needles : List Text) (t : Text) (p : Nat) (w : Text) : Prop where
  nonempty : w ≠ []
  stands : w <+: t.drop p
  first : ∃ before after, needles = before ++ w :: after ∧ Bare before t p

theorem bare_append {more : List Text} :
    Bare (needles ++ more) t p ↔ Bare needles t p ∧ Bare more t p := List.forall_mem_append

theorem bare_singleton : Bare [w] t p ↔ (w ≠ [] → ¬ w <+: t.drop p) := List.forall_mem_singleton

/-- Nothing stands behind the end of the text. -/
theorem bare_of_length_le (h : t.length ≤ p) : Bare needles t p := by
  intro w _ nonempty stands
  rw [List.drop_eq_nil_of_le h, List.prefix_nil] at stands
  exact nonempty stands

namespace FirstAt

theorem mem (h : FirstAt needles t p w) : w ∈ needles := by
  obtain ⟨before, after, rfl, -⟩ := h.first
  simp

theorem not_bare (h : FirstAt needles t p w) : ¬ Bare needles t p :=
  fun bare => bare w h.mem h.nonempty h.stands

/-- A needle lies within the text. -/
theorem le_length (h : FirstAt needles t p w) : p + w.length ≤ t.length := by
  have pos := List.length_pos_iff.2 h.nonempty
  have fits := h.stands.length_le
  rw [List.length_drop] at fits
  omega

theorem append (h : FirstAt needles t p w) (more : List Text) : FirstAt (needles ++ more) t p w := by
  obtain ⟨before, after, rfl, bare⟩ := h.first
  exact ⟨h.nonempty, h.stands, before, after ++ more, by simp, bare⟩

/-- Only one needle is the first. -/
theorem unique (h : FirstAt needles t p w) (h' : FirstAt needles t p v) : v = w := by
  obtain ⟨before, after, rfl, bare⟩ := h.first
  obtain ⟨before', after', same, bare'⟩ := h'.first
  rcases List.append_eq_append_iff.1 same with ⟨l, rfl, tail⟩ | ⟨l, rfl, tail⟩
  · cases l with
    | nil => exact (List.cons.inj tail).1.symm
    | cons u l =>
        obtain ⟨rfl, -⟩ := List.cons.inj tail
        exact absurd h.stands (bare' w (by simp) h.nonempty)
  · cases l with
    | nil => exact (List.cons.inj tail).1
    | cons u l =>
        obtain ⟨rfl, -⟩ := List.cons.inj tail
        exact absurd h'.stands (bare v (by simp) h'.nonempty)

end FirstAt

/-! ## The search -/

/-- What a search from a position on has kept after some needles. -/
def Best (seen : List Text) (t : Text) (p : Nat) : Option (Text × Nat) → Prop
  | none => ∀ k, p ≤ k → Bare seen t k
  | some (w, q) => p ≤ q ∧ FirstAt seen t q w ∧ ∀ k, p ≤ k → k < q → Bare seen t k

namespace Best

/-- A needle that stands nowhere before what was kept is of no account. -/
theorem skip (h : Best seen t p best)
    (absent : ∀ k, p ≤ k → (∀ w q, best = some (w, q) → k < q) → Bare [v] t k) :
    Best (seen ++ [v]) t p best := by
  cases best with
  | none => exact fun k low => bare_append.2 ⟨h k low, absent k low nofun⟩
  | some kept =>
      obtain ⟨w, q⟩ := kept
      obtain ⟨le, first, bare⟩ := h
      refine ⟨le, first.append [v], fun k low high => bare_append.2 ⟨bare k low high, ?_⟩⟩
      refine absent k low fun w' q' same => ?_
      cases same
      exact high

/-- A needle that stands where none of the others does, and nowhere earlier, is kept. -/
theorem take (bare : ∀ k, p ≤ k → k ≤ q → Bare seen t k) (nonempty : v ≠ []) (le : p ≤ q)
    (stands : v <+: t.drop q) (absent : ∀ k, p ≤ k → k < q → ¬ v <+: t.drop k) :
    Best (seen ++ [v]) t p (some (v, q)) := by
  refine ⟨le, ⟨nonempty, stands, seen, [], rfl, bare q le (Nat.le_refl q)⟩, fun k low high => ?_⟩
  exact bare_append.2 ⟨bare k low (Nat.le_of_lt high), bare_singleton.2 fun _ => absent k low high⟩

/-- One needle more is looked for. -/
theorem consider (h : Best seen t p best) (v : Text) :
    Best (seen ++ [v]) t p (consider (t.drop p) p best v) := by
  rw [Text.consider.eq_def]
  by_cases empty : v = []
  · rw [if_pos (List.isEmpty_iff.2 empty)]
    exact h.skip fun k _ _ => bare_singleton.2 fun nonempty => absurd empty nonempty
  rw [if_neg (fun isEmpty => empty (List.isEmpty_iff.1 isEmpty))]
  cases found : find? v (t.drop p) p with
  | none => exact h.skip fun k low _ => bare_singleton.2 fun _ => find?_eq_none found low
  | some q =>
      obtain ⟨le, stands, absent⟩ := find?_eq_some found
      cases best with
      | none => exact take (fun k low _ => h k low) empty le stands absent
      | some kept =>
          obtain ⟨w, earliest⟩ := kept
          dsimp only
          split
          next earlier =>
            refine take (fun k low high => h.2.2 k low ?_) empty le stands absent
            exact Nat.lt_of_le_of_lt high earlier
          next later =>
            refine h.skip fun k low high => bare_singleton.2 fun _ => absent k low ?_
            exact Nat.lt_of_lt_of_le (high w earliest rfl) (Nat.not_lt.1 later)

theorem foldl (h : Best seen t p best) (more : List Text) :
    Best (seen ++ more) t p (more.foldl (Text.consider (t.drop p) p) best) := by
  induction more generalizing seen best with
  | nil =>
      rw [List.append_nil]
      exact h
  | cons v more ih =>
      have later := ih (h.consider v)
      rwa [List.append_assoc, List.singleton_append] at later

/-- There is only one best needle. -/
theorem unique {other : Option (Text × Nat)} (h : Best seen t p best) (h' : Best seen t p other) :
    other = best := by
  cases best with
  | none =>
      cases other with
      | none => rfl
      | some kept =>
          obtain ⟨w, q⟩ := kept
          exact absurd (h q h'.1) h'.2.1.not_bare
  | some kept =>
      obtain ⟨w, q⟩ := kept
      cases other with
      | none => exact absurd (h' q h.1) h.2.1.not_bare
      | some kept' =>
          obtain ⟨w', q'⟩ := kept'
          obtain ⟨le, first, bare⟩ := h
          obtain ⟨le', first', bare'⟩ := h'
          have notLater : ¬ q < q' := fun lt => first.not_bare (bare' q le lt)
          have notEarlier : ¬ q' < q := fun lt => first'.not_bare (bare q' le' lt)
          obtain rfl : q = q' := by omega
          rw [first.unique first']

end Best

/-- A search keeps the best of all needles. -/
theorem best_findNeedle? (needles : List Text) (t : Text) (i : Nat) :
    Best needles t i (findNeedle? needles t i) := by
  rw [findNeedle?, dropFrom_natCast, start_of_nonneg (Int.natCast_nonneg i), Int.toNat_natCast]
  split
  next inside =>
    have start : Best [] t i none := fun k _ w hw => absurd hw List.not_mem_nil
    exact start.foldl needles
  next behind => exact fun k low => bare_of_length_le (by omega)

theorem findNeedle?_eq_some_iff : findNeedle? needles t i = some (w, q) ↔
    i ≤ q ∧ FirstAt needles t q w ∧ ∀ k, i ≤ k → k < q → Bare needles t k := by
  have best := best_findNeedle? needles t i
  constructor
  · intro found
    rwa [found] at best
  · intro h
    have kept : Best needles t i (some (w, q)) := h
    exact (best.unique kept).symm

theorem findNeedle?_eq_none_iff :
    findNeedle? needles t i = none ↔ ∀ k, i ≤ k → Bare needles t k := by
  have best := best_findNeedle? needles t i
  constructor
  · intro absent
    rwa [absent] at best
  · intro h
    have none : Best needles t i none := h
    exact (best.unique none).symm

/-- A needle that is found is not empty and stands at its position, which is not
before the offset. -/
theorem findNeedle?_spec {offset : Int} (nonneg : 0 ≤ offset)
    (h : findNeedle? needles t offset = some (w, q)) : w ≠ [] ∧ offset ≤ q ∧ w <+: t.drop q := by
  obtain ⟨i, rfl⟩ := Int.eq_ofNat_of_zero_le nonneg
  obtain ⟨le, first, -⟩ := findNeedle?_eq_some_iff.1 h
  exact ⟨first.nonempty, Int.ofNat_le.2 le, first.stands⟩

/-- A search for one needle finds where it splits the rest of the text. -/
theorem findNeedle?_append (h : w ≠ []) (x t : Text) : findNeedle? [w] (x ++ t) x.length
    = (split? w t).map fun cut => (w, x.length + cut.1.length) := by
  have nonempty : ¬ w.isEmpty = true := fun isEmpty => h (List.isEmpty_iff.1 isEmpty)
  rw [findNeedle?, dropFrom_natCast, List.drop_left, start_of_nonneg (Int.natCast_nonneg _),
    Int.toNat_natCast]
  split
  next inside =>
    rw [List.foldl_cons, List.foldl_nil, consider.eq_def, if_neg nonempty, find?_eq_split?]
    cases split? w t with
    | none => rfl
    | some cut => rfl
  next behind =>
    have empty : t = [] := by
      rw [List.length_append] at behind
      exact List.eq_nil_of_length_eq_zero (by omega)
    rw [empty, split?_nil h]
    rfl

end Needlework.Text

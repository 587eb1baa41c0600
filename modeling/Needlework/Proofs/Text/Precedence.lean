import Mathlib.Logic.Equiv.Basic
import Needlework.Proofs.Text.Search

/-!
# Precedence among needles

Of the needles that stand at a position a search takes the one that is listed first.  This is the first
element of the list with a property, so what decides is the outcome of `List.find?` at each position
(`findNeedle?_congr`).

*What may go.*  An empty needle stands nowhere.  A needle that repeats an earlier one stands only where
that one stands.  Neither is ever taken (`Pruned`).

*What may move.*  Two needles stand at one position only if one of them is a prefix of the other.  So a
list may be put in another order as long as it keeps the order within all such pairs (`KeepsOrder`).
-/

namespace Needlework.Text

variable {t w : Text} {needles fewer : List Text} {i p : Nat}

/-! ## The first of a list -/

/-- Whether a needle stands at a position.  The empty needle does not. -/
def standsAt (t : Text) (p : Nat) (w : Text) : Bool := !w.isEmpty && startsWith (t.drop p) w

theorem standsAt_iff : standsAt t p w = true ↔ w ≠ [] ∧ w <+: t.drop p := by
  rw [standsAt, Bool.and_eq_true, startsWith_iff]
  simp

theorem firstAt_iff_find? : FirstAt needles t p w ↔ needles.find? (standsAt t p) = some w := by
  rw [List.find?_eq_some_iff_append, standsAt_iff]
  constructor
  · rintro ⟨nonempty, stands, before, after, rfl, bare⟩
    refine ⟨⟨nonempty, stands⟩, before, after, rfl, fun v hv => ?_⟩
    rw [Bool.not_eq_true', ← Bool.not_eq_true, standsAt_iff]
    exact fun here => bare v hv here.1 here.2
  · rintro ⟨⟨nonempty, stands⟩, before, after, rfl, absent⟩
    refine ⟨nonempty, stands, before, after, rfl, fun v hv nonempty' stands' => ?_⟩
    have here := absent v hv
    rw [standsAt_iff.2 ⟨nonempty', stands'⟩] at here
    cases here

theorem bare_iff_find? : Bare needles t p ↔ needles.find? (standsAt t p) = none := by
  rw [List.find?_eq_none]
  simp only [standsAt_iff, Bare, not_and]

/-- A needle is the first that stands at a position if it is the entry of least index there. -/
theorem FirstAt.exists_index (h : FirstAt needles t p w) :
    ∃ k : Nat, needles[k]? = some w ∧
      ∀ j < k, ∀ v, needles[j]? = some v → v ≠ [] → ¬ v <+: t.drop p := by
  obtain ⟨before, after, rfl, bare⟩ := h.first
  refine ⟨before.length, by simp, fun j early v hv nonempty stands => ?_⟩
  rw [List.getElem?_append_left early] at hv
  exact bare v (List.mem_of_getElem? hv) nonempty stands

/-- Lists that take the same needle at every position find the same. -/
theorem findNeedle?_congr
    (same : ∀ p, fewer.find? (standsAt t p) = needles.find? (standsAt t p)) :
    findNeedle? fewer t i = findNeedle? needles t i := by
  have bare : ∀ {k}, Bare needles t k → Bare fewer t k := fun h => by
    rw [bare_iff_find?] at h ⊢
    rw [same, h]
  cases found : findNeedle? needles t i with
  | none =>
      rw [findNeedle?_eq_none_iff] at found ⊢
      exact fun k low => bare (found k low)
  | some kept =>
      obtain ⟨w, q⟩ := kept
      rw [findNeedle?_eq_some_iff] at found ⊢
      obtain ⟨le, first, earlier⟩ := found
      refine ⟨le, ?_, fun k low high => bare (earlier k low high)⟩
      rw [firstAt_iff_find?] at first ⊢
      rw [same, first]

/-! ## Needles left out -/

/-- What is left of a list if some needles are left out that are empty or repeat an earlier one. -/
inductive Pruned (needles : List Text) : List Text → Prop where
  /-- Nothing is left out. -/
  | all : Pruned needles needles
  /-- One needle more is left out. -/
  | drop {before after : List Text} {w : Text} : Pruned needles (before ++ w :: after) →
      (w = [] ∨ w ∈ before) → Pruned needles (before ++ after)

/-- A needle that is empty or repeats an earlier one is taken nowhere. -/
theorem find?_append_cons {before after : List Text} (idle : w = [] ∨ w ∈ before) (t : Text) (p : Nat) :
    (before ++ after).find? (standsAt t p) = (before ++ w :: after).find? (standsAt t p) := by
  rw [List.find?_append, List.find?_append]
  cases found : before.find? (standsAt t p) with
  | some v => rfl
  | none =>
      have absent : standsAt t p w = false := by
        rcases idle with rfl | earlier
        · rfl
        · exact Bool.eq_false_iff.2 (List.find?_eq_none.1 found w earlier)
      rw [List.find?_cons, absent]

theorem Pruned.find? (pruned : Pruned needles fewer) (t : Text) (p : Nat) :
    fewer.find? (standsAt t p) = needles.find? (standsAt t p) := by
  induction pruned with
  | all => rfl
  | drop _ idle ih => rw [find?_append_cons idle, ih]

/-! ## Needles put in another order -/

/-- A list in another order: the needle of each index goes to another index. -/
def reordered (needles : List Text) (place : Equiv.Perm (Fin needles.length)) : List Text :=
  List.ofFn fun k => needles.get (place.symm k)

/-- Of two needles one of which is a prefix of the other, the earlier stays the earlier.  Empty needles
may go anywhere. -/
def KeepsOrder (needles : List Text) (place : Equiv.Perm (Fin needles.length)) : Prop :=
  ∀ j k, j < k → needles.get j ≠ [] → needles.get k ≠ [] →
    needles.get j <+: needles.get k ∨ needles.get k <+: needles.get j → place j < place k

variable {place : Equiv.Perm (Fin needles.length)}

theorem mem_reordered : w ∈ reordered needles place ↔ w ∈ needles := by
  rw [reordered, List.mem_ofFn, List.mem_iff_get]
  exact (place.symm.surjective.exists (p := fun k => needles.get k = w)).symm

/-- The needle that is taken at a position keeps its precedence over the others that stand there. -/
theorem KeepsOrder.find? (keeps : KeepsOrder needles place) (t : Text) (p : Nat) :
    (reordered needles place).find? (standsAt t p) = needles.find? (standsAt t p) := by
  cases found : needles.find? (standsAt t p) with
  | none =>
      rw [List.find?_eq_none] at found ⊢
      exact fun w hw => found w (mem_reordered.1 hw)
  | some w =>
      obtain ⟨here, k, hk, rfl, first⟩ := List.find?_eq_some_iff_getElem.1 found
      refine List.find?_eq_some_iff_getElem.2
        ⟨here, place ⟨k, hk⟩, by simp [reordered], by simp [reordered], fun j early => ?_⟩
      obtain ⟨source, rfl⟩ : ∃ source, (place source : Nat) = j :=
        ⟨place.symm ⟨j, Nat.lt_trans early (place ⟨k, hk⟩).isLt⟩, by simp⟩
      have bound : (place source : Nat) < (reordered needles place).length := by simp [reordered]
      have moved : (reordered needles place)[(place source : Nat)] = needles.get source := by
        simp [reordered]
      rw [moved, Bool.not_eq_true', ← Bool.not_eq_true]
      intro other
      -- a needle that stands there too was listed later, and it is a prefix or has one here
      obtain ⟨nonempty, stands⟩ := standsAt_iff.1 here
      obtain ⟨nonempty', stands'⟩ := standsAt_iff.1 other
      have later : ⟨k, hk⟩ < source := by
        rcases Nat.lt_trichotomy k source with lt | same | gt
        · exact lt
        · rw [Fin.ext (a := ⟨k, hk⟩) same] at early
          exact absurd early (Nat.lt_irrefl _)
        · have absent := first source gt
          rw [List.get_eq_getElem] at other
          rw [other] at absent
          cases absent
      have kept := keeps _ _ later nonempty nonempty' (List.prefix_or_prefix_of_prefix stands stands')
      exact Nat.lt_asymm early kept

/-! ## What a search finds -/

/-- A search from an offset on finds nothing exactly if no needle stands there or later.  Otherwise it finds
the least position at which one stands, and of those that stand there the entry of least index, which lies
within the text.  Hence it does not matter if needles are left out that are empty or repeat an earlier one,
nor if the list is put in an order that keeps the earlier of two needles first whenever one is a prefix of
the other. -/
theorem earliest_needle_found (needles : List Text) (t : Text) (i : Nat) :
    (findNeedle? needles t i = none ↔ ∀ p, i ≤ p → ∀ w ∈ needles, w ≠ [] → ¬ w <+: t.drop p)
      ∧ (∀ w p, findNeedle? needles t i = some (w, p) →
        i ≤ p ∧ p + w.length ≤ t.length ∧ w ≠ [] ∧ w <+: t.drop p
          ∧ (∀ k, i ≤ k → k < p → ∀ v ∈ needles, v ≠ [] → ¬ v <+: t.drop k)
          ∧ ∃ k : Nat, needles[k]? = some w ∧
            ∀ j < k, ∀ v, needles[j]? = some v → v ≠ [] → ¬ v <+: t.drop p)
      ∧ (∀ fewer, Pruned needles fewer → findNeedle? fewer t i = findNeedle? needles t i)
      ∧ ∀ place, KeepsOrder needles place →
        findNeedle? (reordered needles place) t i = findNeedle? needles t i := by
  refine ⟨findNeedle?_eq_none_iff, fun w p found => ?_,
    fun fewer pruned => findNeedle?_congr (pruned.find? t),
    fun place keeps => findNeedle?_congr (keeps.find? t)⟩
  obtain ⟨le, first, bare⟩ := findNeedle?_eq_some_iff.1 found
  exact ⟨le, first.le_length, first.nonempty, first.stands, bare, first.exists_index⟩

/-- Of two needles at the offset the first listed is found, also without the idle needles of the list and
with needles that never meet in another order. -/
theorem earliest_needle_found_shuffled :
    let needles : List Text := [[2], [], [1, 2], [2], [1]]
    Pruned needles [[2], [1, 2], [1]] ∧ KeepsOrder needles (Equiv.swap ⟨0, by decide⟩ ⟨2, by decide⟩)
      ∧ findNeedle? needles [0, 1, 2, 2] (1 : Nat) = some ([1, 2], 1)
      ∧ findNeedle? [[2], [1, 2], [1]] [0, 1, 2, 2] (1 : Nat) = some ([1, 2], 1)
      ∧ findNeedle? (reordered needles (Equiv.swap ⟨0, by decide⟩ ⟨2, by decide⟩)) [0, 1, 2, 2] (1 : Nat)
        = some ([1, 2], 1) := by
  intro needles
  obtain ⟨-, -, less, moved⟩ := earliest_needle_found needles [0, 1, 2, 2] 1
  have whole : Pruned needles ([[2], [], [1, 2]] ++ [2] :: [[1]]) := .all
  have once : Pruned needles ([[2]] ++ [] :: [[1, 2], [1]]) := whole.drop (.inr (by decide))
  have pruned : Pruned needles ([[2]] ++ [[1, 2], [1]]) := once.drop (.inl rfl)
  have keeps : KeepsOrder needles (Equiv.swap ⟨0, by decide⟩ ⟨2, by decide⟩) := by
    unfold KeepsOrder
    decide
  have found : findNeedle? needles [0, 1, 2, 2] (1 : Nat) = some ([1, 2], 1) := by decide
  exact ⟨pruned, keeps, found, (less _ pruned).trans found, (moved _ keeps).trans found⟩

end Needlework.Text

import Needlework.Proofs.Text.Search

/-!
# Sightings

A scan that looks for the same needles all the way sees some of them, one after the other.  Behind
each of them it goes on at a distance, its *reach*.  The sightings are told by the text alone
(`Sightings`): each is the first needle that stands at its position and is beyond the reach of the
ones before it, and no needle stands where nothing reaches.  There is only one such list
(`Sightings.unique`).

A scan that reaches behind each needle cuts the text into needles and what is between them.  A scan
that reaches one code point further sees every position at which a needle stands
(`Sightings.mem_iff`).
-/

namespace Needlework.Text

variable {t v w : Text} {needles : List Text} {reach : Text → Nat} {p q : Nat}
  {l l' : List (Nat × Text)}

/-- What a scan sees from a position on. -/
structure Sightings (needles : List Text) (t : Text) (reach : Text → Nat) (p : Nat)
    (l : List (Nat × Text)) : Prop where
  /-- Each sighting is beyond the reach of the ones before it. -/
  apart : l.Pairwise fun a b => a.1 + reach a.2 ≤ b.1
  /-- No sighting is before the position. -/
  ahead : ∀ a ∈ l, p ≤ a.1
  /-- Each sighting is the first needle that stands there. -/
  first : ∀ a ∈ l, FirstAt needles t a.1 a.2
  /-- Where nothing reaches, no needle stands. -/
  gaps : ∀ k, p ≤ k → (∀ a ∈ l, k < a.1 ∨ a.1 + reach a.2 ≤ k) → Bare needles t k

namespace Sightings

theorem nil (bare : ∀ k, p ≤ k → Bare needles t k) : Sightings needles t reach p [] where
  apart := .nil
  ahead := nofun
  first := nofun
  gaps k low _ := bare k low

/-- One sighting comes before those of the rest. -/
theorem cons (le : p ≤ q) (here : FirstAt needles t q w) (bare : ∀ k, p ≤ k → k < q → Bare needles t k)
    (rest : Sightings needles t reach (q + reach w) l) :
    Sightings needles t reach p ((q, w) :: l) where
  apart := List.pairwise_cons.2 ⟨rest.ahead, rest.apart⟩
  ahead := List.forall_mem_cons.2 ⟨le, fun a ha =>
    Nat.le_trans le (Nat.le_trans (Nat.le_add_right q _) (rest.ahead a ha))⟩
  first := List.forall_mem_cons.2 ⟨here, rest.first⟩
  gaps k low uncovered := by
    rw [List.forall_mem_cons] at uncovered
    rcases uncovered.1 with before | behind
    · exact bare k low before
    · exact rest.gaps k behind uncovered.2

theorem tail (h : Sightings needles t reach p ((q, w) :: l)) :
    Sightings needles t reach (q + reach w) l where
  apart := (List.pairwise_cons.1 h.apart).2
  ahead := (List.pairwise_cons.1 h.apart).1
  first := (List.forall_mem_cons.1 h.first).2
  gaps k low uncovered := by
    have le := (List.forall_mem_cons.1 h.ahead).1
    refine h.gaps k (Nat.le_trans le (Nat.le_trans (Nat.le_add_right q _) low)) ?_
    exact List.forall_mem_cons.2 ⟨.inr low, uncovered⟩

/-- No sighting is before the first one. -/
theorem le_of_mem (h : Sightings needles t reach p ((q, w) :: l)) : ∀ a ∈ l, q ≤ a.1 := fun a ha =>
  Nat.le_trans (Nat.le_add_right q _) (h.tail.ahead a ha)

/-- Nothing is sighted where a needle stands and others only see later ones. -/
theorem not_lt (h : Sightings needles t reach p ((q, w) :: l))
    (h' : Sightings needles t reach p l') (later : ∀ a ∈ l', q < a.1) : False := by
  obtain ⟨le, -⟩ := List.forall_mem_cons.1 h.ahead
  obtain ⟨here, -⟩ := List.forall_mem_cons.1 h.first
  exact here.not_bare (h'.gaps q le fun a ha => .inl (later a ha))

/-- The text tells what is sighted. -/
theorem unique (h : Sightings needles t reach p l) (h' : Sightings needles t reach p l') : l' = l := by
  induction l generalizing p l' with
  | nil =>
      cases l' with
      | nil => rfl
      | cons a l' => exact (h'.not_lt h nofun).elim
  | cons a l ih =>
      obtain ⟨q, w⟩ := a
      cases l' with
      | nil => exact (h.not_lt h' nofun).elim
      | cons b l' =>
          obtain ⟨q', w'⟩ := b
          have notLater : ¬ q < q' := fun lt => h.not_lt h' <| List.forall_mem_cons.2
            ⟨lt, fun a ha => Nat.lt_of_lt_of_le lt (h'.le_of_mem a ha)⟩
          have notEarlier : ¬ q' < q := fun lt => h'.not_lt h <| List.forall_mem_cons.2
            ⟨lt, fun a ha => Nat.lt_of_lt_of_le lt (h.le_of_mem a ha)⟩
          obtain rfl : q' = q := by omega
          obtain ⟨here, -⟩ := List.forall_mem_cons.1 h.first
          obtain ⟨here', -⟩ := List.forall_mem_cons.1 h'.first
          obtain rfl := here.unique here'
          rw [ih h.tail h'.tail]

/-- Step by step, every position is seen at which a needle stands. -/
theorem mem_iff (h : Sightings needles t (fun _ => 1) 0 l) : (q, w) ∈ l ↔ FirstAt needles t q w := by
  refine ⟨h.first (q, w), fun here => ?_⟩
  obtain ⟨a, ha, rfl⟩ : ∃ a ∈ l, a.1 = q := by
    by_contra unseen
    refine here.not_bare (h.gaps q (Nat.zero_le q) fun a ha => ?_)
    have ne : a.1 ≠ q := fun same => unseen ⟨a, ha, same⟩
    omega
  rw [← here.unique (h.first a ha)]
  exact ha

end Sightings

end Needlework.Text

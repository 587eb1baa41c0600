import Mathlib.Data.DFinsupp.WellFounded
import Needlework.Bold
import Needlework.Proofs.Engine.Origins
import Needlework.Proofs.Engine.Preservation
import Needlework.Proofs.Text.Search

/-!
# The scan comes to an end

A recovery moves the cursor back, and the text behind it may open the same constructs
again.  Neither the cursor nor the number of open nodes bounds the rounds of a scan.

*Charges.*  Each position of the text has a charge.  Ahead of the cursor the charge is
infinite.  Behind it, the charge is the number of open nodes that began there
(`charge`).  Two worlds are compared at the first position where their charges differ
(`Below`).  There are as many positions as the text is long, so this order is well
founded (`wellFounded_below`).

*Descent.*  A node that is pushed at the cursor costs nothing, as the position is
still ahead.  What is closed or taken out lowers a charge.  A recovery takes out a node
that began at some position and puts the cursor right behind it.  The positions up to
there lose, and what happens to the positions behind does not count.  This holds
around whatever the grammar does while the recovery switches the status
(`spent_recoverCourse`).  Every round that is followed by another one has moved the
cursor over a needle or over one code point, or has recovered (`descends_round`).

*Discipline.*  This needs a grammar that pushes a node only where it began and leaves
cursor, text and origins to the engine (`Moment.Disciplined`).  The grammar may do
anything else.  The limit on recoveries plays no part.
-/

namespace Needlework

namespace Engine

open Act

variable {σ α : Type} {w w' : World σ}

/-! ## The order of charges -/

section Order

variable {a b c : Nat → WithTop Nat} {k l : Nat}

/-- The first of the leading positions at which the charges differ has lost. -/
def Below (l : Nat) (a b : Nat → WithTop Nat) : Prop :=
  ∃ p < l, (∀ q < p, a q = b q) ∧ a p < b p

/-- The leading positions agree, or the first that does not has lost. -/
def AtMost (l : Nat) (a b : Nat → WithTop Nat) : Prop := (∀ q < l, a q = b q) ∨ Below l a b

theorem Below.mono (hkl : k ≤ l) (h : Below k a b) : Below l a b := by
  obtain ⟨p, hp, heq, hlt⟩ := h
  exact ⟨p, by omega, heq, hlt⟩

theorem AtMost.refl (l : Nat) (a : Nat → WithTop Nat) : AtMost l a a := .inl fun _ _ => rfl

theorem AtMost.restrict (hkl : k ≤ l) (h : AtMost l a b) : AtMost k a b := by
  obtain heq | ⟨p, hp, heq, hlt⟩ := h
  · exact .inl fun q hq => heq q (by omega)
  · by_cases hpk : p < k
    · exact .inr ⟨p, hpk, heq, hlt⟩
    · exact .inl fun q hq => heq q (by omega)

theorem AtMost.of_le (h : ∀ q < l, a q ≤ b q) : AtMost l a b := by
  induction l with
  | zero => exact .inl fun q hq => absurd hq (Nat.not_lt_zero q)
  | succ l ih =>
    obtain heq | hlt := ih fun q hq => h q (by omega)
    · rcases (h l (by omega)).eq_or_lt with hl | hl
      · refine .inl fun q hq => ?_
        rcases Nat.lt_succ_iff_lt_or_eq.mp hq with hq | rfl
        · exact heq q hq
        · exact hl
      · exact .inr ⟨l, by omega, heq, hl⟩
    · exact .inr (hlt.mono (by omega))

theorem Below.trans_atMost (h₁ : Below l a b) (h₂ : AtMost l b c) : Below l a c := by
  obtain ⟨p, hp, heq, hlt⟩ := h₁
  obtain heq' | ⟨r, hr, heq', hlt'⟩ := h₂
  · refine ⟨p, hp, fun q hq => (heq q hq).trans (heq' q (by omega)), ?_⟩
    rw [← heq' p hp]
    exact hlt
  · rcases Nat.lt_trichotomy p r with hpr | rfl | hrp
    · refine ⟨p, hp, fun q hq => (heq q hq).trans (heq' q (by omega)), ?_⟩
      rw [← heq' p hpr]
      exact hlt
    · exact ⟨p, hp, fun q hq => (heq q hq).trans (heq' q hq), hlt.trans hlt'⟩
    · refine ⟨r, hr, fun q hq => (heq q (by omega)).trans (heq' q hq), ?_⟩
      rw [heq r hrp]
      exact hlt'

theorem AtMost.trans_below (h₁ : AtMost l a b) (h₂ : Below l b c) : Below l a c := by
  obtain heq | hlt := h₁
  · obtain ⟨p, hp, heq', hlt'⟩ := h₂
    refine ⟨p, hp, fun q hq => (heq q (by omega)).trans (heq' q hq), ?_⟩
    rw [heq p hp]
    exact hlt'
  · exact hlt.trans_atMost (.inr h₂)

theorem AtMost.trans (h₁ : AtMost l a b) (h₂ : AtMost l b c) : AtMost l a c := by
  obtain heq | hlt := h₁
  · obtain heq' | hlt' := h₂
    · exact .inl fun q hq => (heq q hq).trans (heq' q hq)
    · exact .inr (AtMost.trans_below (.inl heq) hlt')
  · exact .inr (hlt.trans_atMost h₂)

theorem AtMost.below_of_ne (h : AtMost l a b) {p : Nat} (hp : p < l) (hne : a p ≠ b p) :
    Below l a b := by
  obtain heq | hlt := h
  · exact absurd (heq p hp) hne
  · exact hlt

theorem Below.of_le (h : ∀ q < l, a q ≤ b q) {p : Nat} (hp : p < l) (hlt : a p < b p) :
    Below l a b :=
  (AtMost.of_le h).below_of_ne hp hlt.ne

theorem wellFounded_below (l : Nat) : WellFounded (Below l) := by
  have lex : WellFounded (Pi.Lex (· < ·) fun {_ : Fin l} (x y : WithTop Nat) => x < y) :=
    Pi.Lex.wellFounded _ fun _ => wellFounded_lt
  refine Subrelation.wf (fun {a b} h => ?_)
    (InvImage.wf (fun (a : Nat → WithTop Nat) (p : Fin l) => a p) lex)
  obtain ⟨p, hp, heq, hlt⟩ := h
  exact ⟨⟨p, hp⟩, fun q hq => heq q hq, hlt⟩

end Order

/-! ## Charges -/

/-- The number of open nodes that began at a position. -/
def openAt (w : World σ) (p : Nat) : Nat :=
  w.engine.stack.countP fun h => (w.forest.node h).origin = some (p : Int)

/-- The charge of a position. -/
def charge (w : World σ) (p : Nat) : WithTop Nat :=
  if w.engine.cursor ≤ p then ⊤ else WithTop.some (openAt w p)

/-- The cursor is inside the text, the open nodes are in the table, and none of them
began before the text. -/
structure Sound (w : World σ) : Prop where
  cursor : 0 ≤ w.engine.cursor
  known : ∀ h ∈ w.engine.stack, h < w.forest.size
  origin : ∀ h ∈ w.engine.stack, ∀ o, (w.forest.node h).origin = some o → 0 ≤ o

/-- The open nodes of a later world were open before, and no origin has changed. -/
structure Shrinks (w w' : World σ) : Prop where
  stack : w'.engine.stack.Sublist w.engine.stack
  origins : w.forest.OriginsKept w'.forest

theorem charge_of_le {p : Nat} (h : w.engine.cursor ≤ p) : charge w p = ⊤ := if_pos h

theorem charge_of_lt {p : Nat} (h : (p : Int) < w.engine.cursor) : charge w p = WithTop.some (openAt w p) :=
  if_neg (by omega)

theorem openAt_le_charge (w : World σ) (p : Nat) : WithTop.some (openAt w p) ≤ charge w p := by
  rw [charge]
  split
  · exact le_top
  · exact le_rfl

namespace Shrinks

theorem openAt_le (sound : Sound w) (h : Shrinks w w') (p : Nat) : openAt w' p ≤ openAt w p := by
  have same : openAt w' p
      = w'.engine.stack.countP fun h => (w.forest.node h).origin = some (p : Int) := by
    refine List.countP_congr fun k hk => ?_
    rw [h.origins.origin k (sound.known k (h.stack.subset hk))]
  rw [same]
  exact h.stack.countP_le

/-- With the cursor where it was or further on, no charge rises. -/
theorem charge_le (sound : Sound w) (h : Shrinks w w')
    (hc : w.engine.cursor ≤ w'.engine.cursor) (p : Nat) : charge w' p ≤ charge w p := by
  by_cases hp : w.engine.cursor ≤ p
  · rw [charge_of_le hp]
    exact le_top
  · rw [charge_of_lt (by omega), charge_of_lt (by omega)]
    exact WithTop.coe_le_coe.mpr (openAt_le sound h p)

theorem sound (sound : Sound w) (h : Shrinks w w') (hc : 0 ≤ w'.engine.cursor) : Sound w' := by
  refine ⟨hc, fun k hk => ?_, fun k hk o ho => ?_⟩
  · exact Nat.lt_of_lt_of_le (sound.known k (h.stack.subset hk)) h.origins.size
  · have hk' := h.stack.subset hk
    rw [h.origins.origin k (sound.known k hk')] at ho
    exact sound.origin k hk' o ho

theorem of_unmoved (h : Unmoved w w') : Shrinks w w' := by
  refine ⟨?_, ?_⟩
  · rw [h.stack]
  · rw [h.forest]
    exact .refl _

end Shrinks

/-! ## What a hook can spend -/

/-- The charges have not risen, and unless the cursor is where it was, a recovery has
lowered them. -/
structure Spent (w w' : World σ) : Prop where
  sound : Sound w'
  text : w'.engine.text = w.engine.text
  atMost : AtMost w.engine.text.length (charge w') (charge w)
  settled : (w'.engine.cursor = w.engine.cursor ∧ w'.engine.rewound = w.engine.rewound)
    ∨ (w'.engine.rewound = true ∧ Below w.engine.text.length (charge w') (charge w))

/-- What a hook does to a sound world. -/
def Spends (w w' : World σ) : Prop := Sound w → Spent w w'

theorem Spends.refl (w : World σ) : Spends w w :=
  fun sound => ⟨sound, rfl, .refl _ _, .inl ⟨rfl, rfl⟩⟩

theorem Spends.trans (w₁ w₂ w₃ : World σ) (h₁ : Spends w₁ w₂) (h₂ : Spends w₂ w₃) :
    Spends w₁ w₃ := by
  intro sound
  obtain ⟨sound₂, text₂, atMost₂, settled₂⟩ := h₁ sound
  obtain ⟨sound₃, text₃, atMost₃, settled₃⟩ := h₂ sound₂
  rw [text₂] at atMost₃ settled₃
  refine ⟨sound₃, text₃.trans text₂, atMost₃.trans atMost₂, ?_⟩
  rcases settled₃ with ⟨hc₃, hr₃⟩ | ⟨hr₃, below₃⟩
  · rcases settled₂ with ⟨hc₂, hr₂⟩ | ⟨hr₂, below₂⟩
    · exact .inl ⟨hc₃.trans hc₂, hr₃.trans hr₂⟩
    · exact .inr ⟨hr₃.trans hr₂, atMost₃.trans_below below₂⟩
  · exact .inr ⟨hr₃, below₃.trans_atMost atMost₂⟩

/-- What only closes nodes or edits the forest spends nothing. -/
theorem Spends.of_shrinks (h : Shrinks w w') (hc : w'.engine.cursor = w.engine.cursor)
    (ht : w'.engine.text = w.engine.text) (hr : w'.engine.rewound = w.engine.rewound) :
    Spends w w' := by
  intro sound
  have cursor : 0 ≤ w'.engine.cursor := by
    rw [hc]
    exact sound.cursor
  exact ⟨h.sound sound cursor, ht, .of_le fun p _ => h.charge_le sound (le_of_eq hc.symm) p,
    .inl ⟨hc, hr⟩⟩

theorem Spends.of_unmoved (h : Unmoved w w') : Spends w w' :=
  .of_shrinks (.of_unmoved h) h.cursor h.text h.rewound

theorem Spends.of_forest {f : Forest} (h : w.forest.OriginsKept f) : Spends w (w.withForest f) :=
  .of_shrinks ⟨.refl _, h⟩ rfl rfl rfl

/-! ## Operations -/

/-- A grammar keeps to the rules: it pushes a node only where the node began, and
leaves cursor, text, open nodes and origins to the engine. -/
def Moment.Disciplined (m : Moment σ) : Prop :=
  match m.step with
  | .op (.push (.node h)) => (m.before.forest.node h).origin = some m.before.engine.cursor
  | .op (.assign (.cursor _)) => False
  | .op (.assign (.text _)) => False
  | .op (.assign (.stack _)) => False
  | .op (.assign .newRoot) => False
  | .op (.tamper (.origin _ _)) => False
  | _ => True

instance : DecidablePred (Moment.Disciplined : Moment σ → Prop)
  | ⟨.op (.push (.node h)), w⟩ =>
      inferInstanceAs (Decidable ((w.forest.node h).origin = some w.engine.cursor))
  | ⟨.op (.assign (.cursor _)), _⟩ | ⟨.op (.assign (.text _)), _⟩ | ⟨.op (.assign (.stack _)), _⟩
  | ⟨.op (.assign .newRoot), _⟩ | ⟨.op (.tamper (.origin _ _)), _⟩ =>
      inferInstanceAs (Decidable False)
  | ⟨.op (.assign (.strict _)), _⟩ | ⟨.op (.assign (.output _)), _⟩ | ⟨.op (.assign (.root _)), _⟩
  | ⟨.op (.assign (.status _)), _⟩ | ⟨.op (.assign (.needles _)), _⟩ | ⟨.op (.assign .dropTop), _⟩
  | ⟨.op (.tamper (.parent _ _)), _⟩ | ⟨.op (.tamper (.child _ _)), _⟩ | ⟨.op (.tamper (.id _ _)), _⟩
  | ⟨.op (.tamper (.destroyed _ _)), _⟩ | ⟨.op (.push (.other _)), _⟩ | ⟨.op .look, _⟩
  | ⟨.op .strictness, _⟩ | ⟨.op .memory, _⟩ | ⟨.op (.remember _), _⟩ | ⟨.op (.setStatus _), _⟩
  | ⟨.op .pop, _⟩ | ⟨.op (.appendText _ _), _⟩ | ⟨.op .recover, _⟩ | ⟨.op .closeOpen, _⟩
  | ⟨.op (.edit _), _⟩ | ⟨.op (.postfilter _), _⟩ | ⟨.op (.parse _ _), _⟩ | ⟨.enter _, _⟩
  | ⟨.withdraw, _⟩ | ⟨.resume _ _, _⟩ | ⟨.beginRound, _⟩ | ⟨.approach _, _⟩ | ⟨.accept _, _⟩
  | ⟨.reject _ _, _⟩ | ⟨.appendRest, _⟩ | ⟨.load _, _⟩ | ⟨.reportOpen, _⟩ | ⟨.handOut, _⟩ =>
      inferInstanceAs (Decidable True)

/-- A node that is opened at the cursor is at a position whose charge is infinite
anyway. -/
theorem Spends.of_open {h : Handle} (hs : w'.engine.stack = h :: w.engine.stack)
    (origin : (w.forest.node h).origin = some w.engine.cursor)
    (kept : w.forest.OriginsKept w'.forest) (hc : w'.engine.cursor = w.engine.cursor)
    (ht : w'.engine.text = w.engine.text) (hr : w'.engine.rewound = w.engine.rewound) :
    Spends w w' := by
  intro sound
  have known : h < w.forest.size := by
    by_contra hsize
    rw [Forest.node_of_size_le (Nat.le_of_not_lt hsize)] at origin
    cases origin
  have origins : ∀ k ∈ w'.engine.stack, k < w.forest.size
      ∧ (w'.forest.node k).origin = (w.forest.node k).origin := by
    intro k hk
    rw [hs] at hk
    rcases List.mem_cons.mp hk with rfl | hk
    · exact ⟨known, kept.origin k known⟩
    · exact ⟨sound.known k hk, kept.origin k (sound.known k hk)⟩
  refine ⟨⟨?_, fun k hk => ?_, fun k hk o ho => ?_⟩, ht, .inl fun p _ => ?_, .inl ⟨hc, hr⟩⟩
  · rw [hc]
    exact sound.cursor
  · exact Nat.lt_of_lt_of_le (origins k hk).1 kept.size
  · rw [(origins k hk).2] at ho
    rw [hs] at hk
    rcases List.mem_cons.mp hk with rfl | hk
    · rw [origin] at ho
      cases ho
      exact sound.cursor
    · exact sound.origin k hk o ho
  · by_cases hp : w.engine.cursor ≤ p
    · rw [charge_of_le hp, charge_of_le (by omega)]
    · rw [charge_of_lt (by omega), charge_of_lt (by omega)]
      have same : openAt w' p
          = (h :: w.engine.stack).countP fun k => (w.forest.node k).origin = some (p : Int) := by
        rw [← hs]
        refine List.countP_congr fun k hk => ?_
        rw [(origins k hk).2]
      have passed : ¬ w.engine.cursor = (p : Int) := by omega
      rw [same, List.countP_cons_of_neg (by simpa [origin] using passed)]
      rfl

theorem spends_push (n : Arg) (hd : Moment.Disciplined ⟨.op (.push n), w⟩) :
    Spends w ((push n).outcome w).2 := by
  have kept := originsKept_push n w
  rcases push_cases n w with ⟨e, f, hout, -⟩ | ⟨top, rest, h, f, -, rfl, -, hout⟩
  · rw [hout] at kept ⊢
    exact .of_forest kept
  · rw [hout] at kept ⊢
    exact .of_open rfl hd kept rfl rfl rfl

theorem originsKept_tamper {t : Tamper} (hd : Moment.Disciplined ⟨.op (.tamper t), w⟩) :
    w.forest.OriginsKept (t.apply w.forest) := by
  cases t with
  | origin h o => exact hd.elim
  | parent h p => exact .setParent h p
  | child h c => exact .setChildren h _
  | id h i => exact .update ⟨rfl, rfl, rfl⟩
  | destroyed h b => exact .update ⟨rfl, rfl, rfl⟩

theorem spends_assign {a : Assignment} (hd : Moment.Disciplined ⟨.op (.assign a), w⟩) :
    Spends w ((assign a).outcome w).2 := by
  cases a with
  | cursor i => exact hd.elim
  | text t => exact hd.elim
  | stack hs => exact hd.elim
  | newRoot => exact hd.elim
  | dropTop =>
      rw [assign, outcome_engine]
      split
      · exact .refl w
      · exact .of_shrinks ⟨List.tail_sublist _, .refl _⟩ rfl rfl rfl
  | _ => exact .of_shrinks ⟨.refl _, .refl _⟩ rfl rfl rfl

theorem spends_closeOpen (w : World σ) : Spends w (closeOpen.outcome w).2 := by
  rcases closeOpen_cases w with ⟨b, hb⟩ | hu
  · rw [hb]
    exact .refl w
  · refine .trans _ _ _ ?_ (.of_unmoved hu)
    refine .of_shrinks ⟨?_, .refl _⟩ rfl rfl rfl
    rw [World.engine_onEngine]
    cases hl : w.engine.stack.getLast? with
    | none => exact List.nil_sublist _
    | some r =>
        have last : r ∈ w.engine.stack := List.mem_of_getLast? hl
        exact List.singleton_sublist.mpr last

theorem spends_plain (o : Op σ) (w : World σ) (ho : IsPlain o)
    (hd : Moment.Disciplined ⟨.op o, w⟩) : Spends w ((Step.act (.op o)).outcome w).2 := by
  cases o with
  | setStatus n => exact ho.elim
  | recover => exact ho.elim
  | look => exact .refl w
  | strictness => exact .refl w
  | memory => exact .refl w
  | remember s => exact .of_unmoved ⟨rfl, rfl, rfl⟩
  | push n => exact spends_push n hd
  | pop =>
      show Spends w (pop.outcome w).2
      rcases pop_cases w with ⟨e, hout⟩ | ⟨top, next, rest, hs, hout⟩
      · rw [hout]
        exact .refl w
      · rw [hout]
        refine .of_shrinks ⟨?_, .refl _⟩ rfl rfl rfl
        rw [hs]
        exact List.sublist_cons_self ..
  | appendText t offset =>
      show Spends w ((appendText t offset).outcome w).2
      rw [after_appendText]
      exact .of_forest (originsKept_textForest w t offset)
  | closeOpen => exact spends_closeOpen w
  | edit e =>
      show Spends w ((tree e.run).outcome w).2
      rw [after_tree]
      exact .of_forest (Forest.originsKept_edit e w.forest)
  | tamper t => exact .of_forest (originsKept_tamper hd)
  | assign a => exact spends_assign hd
  | postfilter t => exact .of_unmoved (unmoved_applyFilters .post t w)
  | parse input override => exact .of_unmoved (unmoved_refuseParse w)

/-! ## Recoveries -/

/-- A node that began at a position is taken out, something is spent, and the cursor
goes right behind the position.  Then the charges up to the position have dropped. -/
theorem below_of_rewind {w₁ w₂ w₃ : World σ} {o : Nat} (sound : Sound w) (taken : Shrinks w w₁)
    (hc₁ : w₁.engine.cursor = w.engine.cursor) (ht₁ : w₁.engine.text = w.engine.text)
    (lost : openAt w₁ o < openAt w o) (spent : Spent w₁ w₂) (kept : Shrinks w₂ w₃)
    (hc₃ : w₃.engine.cursor = o + 1) (ho : o < w.engine.text.length) :
    Below w.engine.text.length (charge w₃) (charge w) := by
  refine Below.mono (k := o + 1) (by omega) ?_
  have third : ∀ q < o + 1, charge w₃ q = openAt w₃ q := fun q hq => charge_of_lt (by omega)
  have after : AtMost (o + 1) (charge w₃) (charge w₂) := by
    refine .of_le fun q hq => ?_
    rw [third q hq]
    exact (WithTop.coe_le_coe.mpr (kept.openAt_le spent.sound q)).trans (openAt_le_charge w₂ q)
  have between : AtMost (o + 1) (charge w₂) (charge w₁) := by
    have atMost := spent.atMost
    rw [ht₁] at atMost
    exact atMost.restrict (by omega)
  have first : ∀ q, charge w₁ q ≤ charge w q := taken.charge_le sound (le_of_eq hc₁.symm)
  by_cases hpassed : (o : Int) < w.engine.cursor
  · have dropped : charge w₁ o < charge w o := by
      rw [charge_of_lt hpassed, charge_of_lt (by omega)]
      exact WithTop.coe_lt_coe.mpr lost
    exact (after.trans between).trans_below (.of_le (fun q _ => first q) (by omega) dropped)
  · -- The node began ahead of the cursor.  Its position had an infinite charge.
    have atMost := (after.trans between).trans (.of_le fun q _ => first q)
    refine atMost.below_of_ne (p := o) (by omega) ?_
    rw [third o (by omega), charge_of_le (w := w) (by omega)]
    exact WithTop.coe_ne_top

theorem openAt_lt_of_take {top : Handle} {rest : List Handle} {o : Nat} (sound : Sound w)
    (hs : w.engine.stack = top :: rest) (hs' : w'.engine.stack = rest)
    (kept : w.forest.OriginsKept w'.forest) (ho : (w.forest.node top).origin = some (o : Int)) :
    openAt w' o < openAt w o := by
  have tail : openAt w' o = rest.countP fun h => (w.forest.node h).origin = some (o : Int) := by
    rw [openAt, hs']
    refine List.countP_congr fun k hk => ?_
    have hk' : k ∈ w.engine.stack := by
      rw [hs]
      exact List.mem_cons_of_mem _ hk
    rw [kept.origin k (sound.known k hk')]
  rw [tail, openAt, hs, List.countP_cons_of_pos (by simpa using ho)]
  exact Nat.lt_succ_self _

/-- The second half of a recovery, seen from before the first. -/
theorem spent_resume {w₁ w₂ : World σ} {top : Handle} {rest : List Handle} {o : Int}
    (sound : Sound w) (taken : Shrinks w w₁) (hc₁ : w₁.engine.cursor = w.engine.cursor)
    (ht₁ : w₁.engine.text = w.engine.text) (spends₁ : Spends w w₁)
    (hs : w.engine.stack = top :: rest) (hs₁ : w₁.engine.stack = rest)
    (origin : (w.forest.node top).origin = some o) (hlt : o < w.engine.text.length)
    (spent : Spent w₁ w₂) :
    Spent w ((resume top o).outcome w₂).2
      ∧ (((resume top o).outcome w₂).1 = .ok () →
        Below w.engine.text.length (charge ((resume top o).outcome w₂).2) (charge w)) := by
  have spends₂ : Spends w w₂ := .trans _ _ _ spends₁ fun _ => spent
  have origins := originsKept_resume top o w₂
  rcases resume_cases top o w₂ with ⟨e, f, hout, -⟩ | ⟨c, inner, rest₂, f, -, -, -, hu⟩
  · rw [hout] at origins ⊢
    exact ⟨Spends.trans _ _ _ spends₂ (.of_forest origins) sound, fun h => by cases h⟩
  have nonneg : 0 ≤ o := sound.origin top (by rw [hs]; exact List.mem_cons_self ..) o origin
  obtain ⟨p, rfl⟩ := Int.eq_ofNat_of_zero_le nonneg
  generalize ((resume top p).outcome w₂).2 = w₃ at hu origins
  have kept : Shrinks w₂ w₃ := by
    refine ⟨?_, origins⟩
    rw [hu.stack]
    exact .refl _
  have below : Below w.engine.text.length (charge w₃) (charge w) :=
    below_of_rewind sound taken hc₁ ht₁ (openAt_lt_of_take sound hs hs₁ taken.origins origin) spent
      kept hu.cursor (by omega)
  have cursor₃ : 0 ≤ w₃.engine.cursor := by
    rw [hu.cursor]
    exact Int.natCast_nonneg (p + 1)
  refine ⟨⟨kept.sound spent.sound cursor₃, ?_, .inr below, .inr ⟨hu.rewound, below⟩⟩, fun _ => below⟩
  exact hu.text.trans (spent.text.trans ht₁)

/-- A recovery spends, whatever the switch in the middle does, and lowers the charges
if it succeeds. -/
theorem spent_recoverCourse {switch : Int → Course σ Unit}
    (hs : ∀ n, (switch n).Keeps Moment.Disciplined Spends) (sound : Sound w)
    (disciplined : ∀ m ∈ (recoverCourse switch).moments w, m.Disciplined) :
    Spent w ((recoverCourse switch).outcome w).2
      ∧ (((recoverCourse switch).outcome w).1 = .ok () →
        Below w.engine.text.length (charge ((recoverCourse switch).outcome w).2) (charge w)) := by
  have withdrawn : (Course.take .withdraw).outcome w = withdraw.outcome w := Course.outcome_take ..
  have kept := originsKept_withdraw w
  rcases withdraw_cases w with ⟨e, he⟩ | ⟨top, next, rest, p, hst, -, ⟨e, f, -, he⟩ | ⟨c, f, -, hw, hok⟩⟩
  · rw [recoverCourse, Course.outcome_andThen_error (withdrawn.trans he)]
    exact ⟨Spends.refl w sound, fun h => by cases h⟩
  · rw [he] at kept
    rw [recoverCourse, Course.outcome_andThen_error (withdrawn.trans he)]
    exact ⟨Spends.of_forest kept sound, fun h => by cases h⟩
  rw [hw] at kept
  change w.forest.OriginsKept f at kept
  generalize hout : withdraw.outcome w = out at withdrawn hw hok
  obtain ⟨r, w₁⟩ := out
  dsimp only at hw hok
  have stack₁ : w₁.engine.stack = next :: rest := by rw [hw]; rfl
  have cursor₁ : w₁.engine.cursor = w.engine.cursor := by rw [hw]; rfl
  have text₁ : w₁.engine.text = w.engine.text := by rw [hw]; rfl
  have forest₁ : w₁.forest = f := by rw [hw]; rfl
  have taken : Shrinks w w₁ := by
    refine ⟨?_, by rw [forest₁]; exact kept⟩
    rw [stack₁, hst]
    exact List.sublist_cons_self ..
  have spends₁ : Spends w w₁ := .of_shrinks taken cursor₁ text₁ (by rw [hw]; rfl)
  cases r with
  | error e =>
      rw [recoverCourse, Course.outcome_andThen_error withdrawn]
      exact ⟨spends₁ sound, fun h => by cases h⟩
  | ok found =>
    obtain ⟨h, o⟩ := found
    obtain ⟨rfl, ho, hlt⟩ := hok h o rfl
    have switched : Spends w₁ ((switch 0).outcome w₁).2 := by
      refine hs 0 w₁ fun m hm => disciplined m ?_
      rw [recoverCourse, Course.moments_andThen_ok withdrawn, Course.moments_andThen]
      exact List.mem_append_right _ (List.mem_append_left _ hm)
    rw [recoverCourse, Course.outcome_andThen_ok withdrawn]
    generalize hsw : (switch 0).outcome w₁ = out at switched
    obtain ⟨r, w₂⟩ := out
    dsimp only at switched
    have spends₂ : Spends w w₂ := .trans _ _ _ spends₁ switched
    cases r with
    | error e =>
        rw [Course.outcome_andThen_error hsw]
        exact ⟨spends₂ sound, fun h => by cases h⟩
    | ok u =>
      rw [Course.outcome_andThen_ok hsw, Course.outcome_take]
      have origin : (w.forest.node h).origin = some o := by
        have hin : h ∈ w.engine.stack := by
          rw [hst]
          exact List.mem_cons_self ..
        rw [← kept.origin h (sound.known h hin)]
        exact ho
      exact spent_resume sound taken cursor₁ text₁ spends₁ hst stack₁ origin hlt
        (switched (spends₁ sound).sound)

theorem spendsLaws : HookLaws (Moment.Disciplined : Moment σ → Prop) Spends where
  refl := .refl
  trans := .trans
  plain := spends_plain
  recovery _ hs _ disciplined sound := (spent_recoverCourse hs sound disciplined).1

/-! ## Rounds -/

/-- The charges have dropped. -/
structure Descends (w w' : World σ) : Prop where
  sound : Sound w'
  text : w'.engine.text = w.engine.text
  below : Below w.engine.text.length (charge w') (charge w)

theorem Descends.of_atMost {w₀ : World σ} (atMost : AtMost w₀.engine.text.length (charge w) (charge w₀))
    (ht : w.engine.text = w₀.engine.text) (h : Descends w w') : Descends w₀ w' := by
  refine ⟨h.sound, h.text.trans ht, ?_⟩
  have below := h.below
  rw [ht] at below
  exact below.trans_atMost atMost

/-- A cursor that leaves a position behind lowers its charge. -/
theorem Descends.of_advance (sound : Sound w) (h : Shrinks w w')
    (ht : w'.engine.text = w.engine.text) (hin : w.engine.cursor < w.engine.text.length)
    (hc : w.engine.cursor < w'.engine.cursor) : Descends w w' := by
  have nonneg := sound.cursor
  refine ⟨h.sound sound (by omega), ht, ?_⟩
  refine .of_le (fun q _ => h.charge_le sound (by omega) q) (p := w.engine.cursor.toNat) (by omega) ?_
  rw [charge_of_le (w := w) (by omega), charge_of_lt (by omega)]
  exact WithTop.coe_lt_top _

/-- The hook has accepted its needle.  If it has recovered, this has lowered the charges,
and otherwise the cursor is still at the needle. -/
theorem descends_accept {w₂ w₃ : World σ} {needle : Text} {position : Nat} (spent : Spent w₂ w₃)
    (hc : w₂.engine.cursor = position) (hr : w₂.engine.rewound = false)
    (hin : position < w₂.engine.text.length) (hne : needle ≠ []) :
    Descends w₂ ((accept needle).outcome w₃).2 := by
  rw [outcome_accept]
  dsimp only
  rcases spent.settled with ⟨hc₃, hr₃⟩ | ⟨hr₃, below⟩
  · rw [hr₃, hr, if_neg Bool.false_ne_true]
    refine .of_atMost spent.atMost spent.text (.of_advance spent.sound ⟨.refl _, .refl _⟩ rfl ?_ ?_)
    · rw [hc₃, hc, spent.text]
      exact Int.ofNat_lt.mpr hin
    · have long : 0 < needle.length := List.length_pos_iff.mpr hne
      rw [World.engine_onEngine]
      dsimp only
      omega
  · rw [hr₃, if_pos rfl]
    exact ⟨spent.sound, spent.text, below⟩

theorem descends_reject {needle : Text} {position : Nat} (sound : Sound w)
    (h : (reject needle position).outcome w = (.ok (), w')) : Descends w w' := by
  have origins := originsKept_reject needle position w
  rcases reject_cases needle position w
    with ⟨e, w'', hout, -⟩ | ⟨c, inner, rest, f, w'', hc, -, -, hout, hu⟩
  · rw [hout] at h
    cases h
  rw [hout] at h origins
  cases h
  have kept : Shrinks w w' := by
    refine ⟨?_, origins⟩
    rw [hu.stack]
    exact .refl _
  have moved : w'.engine.cursor = w.engine.cursor + 1 := hu.cursor
  exact .of_advance sound kept hu.text (Text.lt_length_of_at? sound.cursor hc) (by omega)

/-- Dealing with a needle descends, whatever the hook decides. -/
theorem descends_needle {g : Grammar σ} {needle : Text} {position : Nat} (sound : Sound w)
    (hr : w.engine.rewound = false) (hle : w.engine.cursor ≤ position)
    (hin : position < w.engine.text.length) (hne : needle ≠ [])
    (disciplined : ∀ m ∈ (needleCourse g needle position).moments w, m.Disciplined)
    (h : (needleCourse g needle position).outcome w = (.ok (), w')) : Descends w w' := by
  have approached : (Course.take (.approach position)).outcome w = (approach position).outcome w :=
    Course.outcome_take ..
  rcases approach_cases position w with ⟨e, he⟩ | ⟨-, hok⟩
  · rw [needleCourse, Course.outcome_andThen_error (approached.trans he)] at h
    cases h
  rw [hok] at approached
  generalize hw₂ : World.onEngine _ _ = w₂ at approached
  have shrinks : Shrinks w w₂ := by
    rw [← hw₂]
    exact ⟨.refl _, originsKept_textForest ..⟩
  have cursor₂ : w₂.engine.cursor = position := by rw [← hw₂]; rfl
  have text₂ : w₂.engine.text = w.engine.text := by rw [← hw₂]; rfl
  have rewound₂ : w₂.engine.rewound = false := by rw [← hw₂]; exact hr
  have sound₂ : Sound w₂ := shrinks.sound sound (by omega)
  rw [needleCourse, Course.moments_andThen_ok approached] at disciplined
  rw [needleCourse, Course.outcome_andThen_ok approached] at h
  refine .of_atMost (.of_le fun q _ => shrinks.charge_le sound (by omega) q) text₂ ?_
  have spends : Spends w₂ ((callCourse g (.handleStatus w.engine.status needle)).outcome w₂).2 := by
    refine spendsLaws.keeps_callCourse g _ w₂ fun m hm => disciplined m ?_
    rw [Course.moments_andThen]
    exact List.mem_append_right _ (List.mem_append_left _ hm)
  generalize hcall : (callCourse g (.handleStatus w.engine.status needle)).outcome w₂ = out
    at spends
  obtain ⟨r, w₃⟩ := out
  have spent : Spent w₂ w₃ := spends sound₂
  cases r with
  | error f =>
      rw [Course.outcome_andThen_error hcall] at h
      cases h
  | ok accepted =>
      rw [Course.outcome_andThen_ok hcall] at h
      cases accepted with
      | true =>
          rw [if_pos rfl, Course.outcome_take] at h
          have descends := descends_accept spent cursor₂ rewound₂ (by rw [text₂]; exact hin) hne
          have ended : (accept needle).outcome w₃ = (.ok (), w') := h
          rw [ended] at descends
          exact descends
      | false =>
          rw [if_neg Bool.false_ne_true, Course.outcome_take] at h
          exact .of_atMost spent.atMost spent.text (descends_reject spent.sound h)

/-- Every round that is followed by another descends. -/
theorem descends_round {g : Grammar σ} (sound : Sound w)
    (disciplined : ∀ m ∈ (roundCourse g).moments w, m.Disciplined)
    (h : (roundCourse g).outcome w = (.ok true, w')) : Descends w w' := by
  obtain ⟨ms, moments, ends⟩ := roundEnds_of_ok h
  rw [moments] at disciplined
  have inside := fun m hm => disciplined m (List.mem_cons_of_mem _ hm)
  have sound₁ : Sound (begun w) := ⟨sound.cursor, sound.known, sound.origin⟩
  refine .of_atMost (.refl _ _) rfl (w := begun w) ?_
  cases ends with
  | @needle needle position found dealt =>
      obtain ⟨hne, hle, hpre⟩ := Text.findNeedle?_spec sound₁.cursor found
      have hin : position < (begun w).engine.text.length := by
        have fits := hpre.length_le
        have long : 0 < needle.length := List.length_pos_iff.mpr hne
        rw [List.length_drop] at fits
        omega
      exact descends_needle sound₁ rfl hle hin hne inside dealt
  | recovery recovered =>
      have spent := spent_recoverCourse (spendsLaws.keeps_switchCourse g nestingLimit) sound₁ inside
      rw [recovered] at spent
      exact ⟨spent.1.sound, spent.1.text, spent.2 rfl⟩

/-! ## Scans -/

/-- From a world, the scan needs no more than a number of rounds. -/
def EndsWithin (g : Grammar σ) : Nat → World σ → Prop
  | 0, _ => False
  | n + 1, w =>
      match (round g).outcome w with
      | (.ok true, w') => EndsWithin g n w'
      | _ => True

instance decidableEndsWithin (g : Grammar σ) : (n : Nat) → (w : World σ) →
    Decidable (EndsWithin g n w)
  | 0, _ => inferInstanceAs (Decidable False)
  | n + 1, w => by
      unfold EndsWithin
      split
      · exact decidableEndsWithin g n _
      · exact inferInstanceAs (Decidable True)

/-- More rounds than the scan needs make no difference. -/
theorem outcome_scan_of_endsWithin {g : Grammar σ} {n k : Nat} (h : EndsWithin g n w)
    (hk : n ≤ k) : (scan g k).outcome w = (scan g n).outcome w := by
  induction n generalizing k w with
  | zero => exact h.elim
  | succ n ih =>
    obtain ⟨k, rfl⟩ : ∃ j, k = j + 1 := ⟨k - 1, by omega⟩
    rw [scan, scan, outcome_bind, outcome_bind]
    rw [EndsWithin] at h
    generalize (round g).outcome w = out at h ⊢
    obtain ⟨r, w₁⟩ := out
    rcases r with f | _ | _
    · rfl
    · rfl
    · exact ih h (by omega)

theorem endsWithin_of_disciplined {g : Grammar σ} (sound : Sound w)
    (disciplined : ∀ n, ∀ m ∈ (scanCourse g n).moments w, m.Disciplined) :
    ∃ n, EndsWithin g n w := by
  -- The induction is on the charges.  The text, and with it the order, stays the same.
  generalize hl : w.engine.text.length = l
  generalize hc : charge w = c
  induction c using (wellFounded_below l).induction generalizing w with
  | _ c ih =>
    subst hl hc
    have followed := follows_roundCourse g w
    cases hr : (roundCourse g).outcome w with
    | mk r w₁ =>
      rw [hr] at followed
      have another : r = .ok true → ∃ n, EndsWithin g n w₁ := by
        rintro rfl
        have descends : Descends w w₁ := by
          refine descends_round sound (fun m hm => disciplined 1 m ?_) hr
          rw [scanCourse, Course.moments_andThen]
          exact List.mem_append_left _ hm
        refine ih _ descends.below descends.sound (fun n m hm => disciplined (n + 1) m ?_)
          (by rw [descends.text]) rfl
        rw [scanCourse, Course.moments_andThen_ok hr]
        exact List.mem_append_right _ hm
      rcases r with f | _ | _
      · exact ⟨1, by rw [EndsWithin, ← followed]; trivial⟩
      · exact ⟨1, by rw [EndsWithin, ← followed]; trivial⟩
      · obtain ⟨n, hn⟩ := another rfl
        exact ⟨n + 1, by rw [EndsWithin, ← followed]; exact hn⟩

/-- The course of a parse up to the end of its scan. -/
def searchCourse (g : Grammar σ) (rounds : Nat) (input : Input) : Course σ Unit := do
  Course.take (.load input)
  requireCourse g .init .init
  scanCourse g rounds

theorem Begins.sound {f : Forest} (h : Begins w w' f) : Sound w' := by
  refine ⟨by rw [h.cursor], fun k hk => ?_, fun k hk o ho => ?_⟩
  · rw [h.stack, List.mem_singleton] at hk
    rw [hk, h.forest, Forest.size_add]
    exact Nat.lt_succ_self _
  · rw [h.stack, List.mem_singleton] at hk
    rw [hk, h.forest, Forest.node_add, if_pos rfl] at ho
    cases ho

theorem moments_searchCourse {g : Grammar σ} {input : Input} {w₀ w₁ : World σ} {u v : Unit}
    (loaded : (load input).outcome w₀ = (.ok u, w₁))
    (prepared : (require g .init g.init).outcome w₁ = (.ok v, w)) (n : Nat) :
    (searchCourse g n input).moments w₀ = (Course.take (.load input)).moments w₀
      ++ ((requireCourse g .init .init).moments w₁ ++ (scanCourse g n).moments w) := by
  have first : (Course.take (.load input)).outcome w₀ = (.ok u, w₁) :=
    (Course.outcome_take ..).trans loaded
  have second : (requireCourse g .init .init).outcome w₁ = (.ok v, w) :=
    (follows_requireCourse g .init .init w₁).trans prepared
  rw [searchCourse, Course.moments_andThen_ok first, Course.moments_andThen_ok second]

/-- The scan of every parse by a disciplined grammar ends after finitely many rounds, and
then more rounds make no difference. -/
theorem exists_endsWithin (g : Grammar σ) (input : Input) (w₀ w : World σ)
    (started : (load input >>= fun _ => require g .init g.init).outcome w₀ = (.ok (), w))
    (disciplined : ∀ n, ∀ m ∈ (searchCourse g n input).moments w₀, m.Disciplined) :
    ∃ n, EndsWithin g n w ∧ ∀ k, n ≤ k → (scan g k).outcome w = (scan g n).outcome w := by
  obtain ⟨u, w₁, loaded, prepared⟩ := exists_of_bind_ok started
  obtain ⟨f, begins⟩ := begins_of_load loaded
  have moments := moments_searchCourse loaded prepared
  have spends : Spends w₁ ((requireCourse g .init .init).outcome w₁).2 := by
    refine spendsLaws.keeps_requireCourse g .init .init w₁ fun m hm => disciplined 0 m ?_
    rw [moments]
    exact List.mem_append_right _ (List.mem_append_left _ hm)
  have sound : Sound w := by
    have ended := follows_requireCourse g .init .init w₁
    rw [ended.trans prepared] at spends
    exact (spends begins.sound).sound
  obtain ⟨n, hn⟩ : ∃ n, EndsWithin g n w := by
    refine endsWithin_of_disciplined sound fun n m hm => disciplined n m ?_
    rw [moments]
    exact List.mem_append_right _ (List.mem_append_right _ hm)
  exact ⟨n, hn, fun k hk => outcome_scan_of_endsWithin hn hk⟩

/-! ## A scan with two recoveries -/

/-- A scan that is over takes no further step, however many rounds it may use. -/
theorem mem_moments_of_endsWithin {g : Grammar σ} {n k : Nat} (h : EndsWithin g n w)
    {m : Moment σ} (hm : m ∈ (scanCourse g k).moments w) : m ∈ (scanCourse g n).moments w := by
  induction n generalizing k w with
  | zero => exact h.elim
  | succ n ih =>
    cases k with
    | zero => cases hm
    | succ k =>
      rw [EndsWithin, ← follows_roundCourse g w] at h
      rw [scanCourse, Course.moments_andThen] at hm ⊢
      generalize (roundCourse g).outcome w = out at h hm ⊢
      obtain ⟨r, w₁⟩ := out
      rcases r with f | _ | _
      · exact hm
      · exact hm
      · rcases List.mem_append.mp hm with hm | hm
        · exact List.mem_append_left _ hm
        · exact List.mem_append_right _ (ih h hm)

theorem mem_moments_searchCourse {g : Grammar σ} {input : Input} {w₀ : World σ} {n k : Nat}
    (started : (load input >>= fun _ => require g .init g.init).outcome w₀ = (.ok (), w))
    (h : EndsWithin g n w) {m : Moment σ} (hm : m ∈ (searchCourse g k input).moments w₀) :
    m ∈ (searchCourse g n input).moments w₀ := by
  obtain ⟨u, w₁, loaded, prepared⟩ := exists_of_bind_ok started
  rw [moments_searchCourse loaded prepared, List.mem_append, List.mem_append] at hm ⊢
  rcases hm with hm | hm | hm
  · exact .inl hm
  · exact .inr (.inl hm)
  · exact .inr (.inr (mem_moments_of_endsWithin h hm))

/-- Two bold texts, one inside the other, that are never closed. -/
def unclosedTwice : Input := .text (Text.ofChars ['[', 'b', ']', '[', 'b', ']', 'x'])

/-- The world in which the scan of the two begins. -/
def unclosedStart : World Unit :=
  ((load unclosedTwice >>= fun _ =>
    require (Bold.treeGrammar Unit) .init (Bold.treeGrammar Unit).init).outcome { memory := () }).2

theorem exists_endsWithin_unclosedTwice :
    ∃ n, EndsWithin (Bold.treeGrammar Unit) n unclosedStart ∧ ∀ k, n ≤ k →
      (scan (Bold.treeGrammar Unit) k).outcome unclosedStart
        = (scan (Bold.treeGrammar Unit) n).outcome unclosedStart := by
  have started : (load unclosedTwice >>= fun _ =>
      require (Bold.treeGrammar Unit) .init (Bold.treeGrammar Unit).init).outcome { memory := () }
        = (.ok (), unclosedStart) := by
    rw [unclosedStart]
    refine Prod.ext ?_ ?_
    · rfl
    · dsimp only
  have disciplined : ∀ m ∈ (searchCourse (Bold.treeGrammar Unit) 6 unclosedTwice).moments
      { memory := () }, m.Disciplined := by decide +kernel
  refine exists_endsWithin (Bold.treeGrammar Unit) unclosedTwice { memory := () } unclosedStart started
    fun n m hm => disciplined m ?_
  exact mem_moments_searchCourse started (by decide +kernel) hm

end Engine

end Needlework

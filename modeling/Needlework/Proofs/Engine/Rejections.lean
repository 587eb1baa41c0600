import Needlework.Proofs.Engine.Listing
import Needlework.Proofs.Engine.OpenBranch
import Needlework.Proofs.Engine.Progress

/-!
# Rejections

A grammar may do anything before it rejects a needle: open and close nodes, write text, recover
as often as it likes.  What is kept of the needle is the code point at the cursor, and the cursor
need not be where the needle was found.

*In hand.*  A needle that a scan rejects is the one that it has in hand (`Rounds.inHand_workCourse`).
Without a recovery all of it is still ahead of the cursor, so there is a code point to keep.  A
recovery puts the cursor behind the origin of a node, and an origin is inside the text.

*The end of the text.*  If the origin is that of the last code point, nothing is left behind it.  So
a needle at the end of the text that is recovered from and then rejected makes the scan fail, and
this is the only way in which a lenient rejection can fail (`rejection_keeps_code_point`).
-/

namespace Needlework

namespace Engine

open Act

variable {σ α β : Type} {w : World σ}

/-! ## The needle in hand -/

/-- Hooks reject no needle by themselves. -/
theorem hookSteps_ne_reject :
    HookSteps fun s : Step σ => ∀ needle position, s ≠ .reject needle position where
  enter _ _ _ := nofun
  op _ _ _ := nofun
  withdraw _ _ := nofun
  resume _ _ _ _ := nofun

/-- Every needle that is rejected on the way is in hand. -/
def InHand (Hand : Nat → Text → Nat → World σ → Prop) (ms : List (Moment σ)) : Prop :=
  ∀ m ∈ ms, ∀ needle position, m.step = .reject needle position →
    ∃ s, Hand s needle position m.before

section InHand

variable {Hand : Nat → Text → Nat → World σ → Prop}

theorem inHand_nil : InHand Hand ([] : List (Moment σ)) := fun _ hm => absurd hm List.not_mem_nil

theorem inHand_take {s : Step σ} (other : ∀ needle position, s ≠ .reject needle position) :
    InHand Hand ((Course.take s).moments w) := by
  intro m hm needle position rejects
  rw [Course.moments_take, List.mem_singleton] at hm
  rw [hm] at rejects
  exact absurd rejects (other needle position)

theorem inHand_of_within {p : Course σ α}
    (within : p.Within fun s => ∀ needle position, s ≠ .reject needle position) :
    InHand Hand (p.moments w) :=
  fun m hm needle position rejects => absurd rejects (within w m hm needle position)

theorem inHand_bind {p : Course σ α} {k : α → Course σ β} (hp : InHand Hand (p.moments w))
    (hk : ∀ a w', p.outcome w = (.ok a, w') → InHand Hand ((k a).moments w')) :
    InHand Hand ((p >>= k).moments w) := by
  intro m hm
  rw [Course.moments_andThen] at hm
  cases hr : p.outcome w with
  | mk r w' =>
  rw [hr] at hm
  rcases List.mem_append.mp hm with hm | hm
  · exact hp m hm
  · cases r with
    | ok a => exact hk a w' hr m hm
    | error f => exact absurd hm List.not_mem_nil

end InHand

namespace Rounds

variable {g : Grammar σ} {I : World σ → Prop} {Head : Nat → World σ → Prop}
  {Hand : Nat → Text → Nat → World σ → Prop} {s : Nat}

/-- The needle that is rejected is the one that was found. -/
theorem inHand_needleCourse (rounds : Rounds g I Head Hand) {needle : Text} {position : Nat}
    (head : Head s w) (rewound : w.engine.rewound = false)
    (found : Text.findNeedle? w.engine.needles w.engine.text w.engine.cursor
      = some (needle, position)) : InHand Hand ((Engine.needleCourse g needle position).moments w) := by
  refine inHand_bind (inHand_take nofun) fun status w₁ approached => ?_
  have hand := (rounds.approach head rewound found).ok status w₁ approached
  refine inHand_bind (inHand_of_within (hookSteps_ne_reject.callCourse g _)) fun accepted w₂ handled => ?_
  have hand := (rounds.handle status hand).ok accepted w₂ handled
  cases accepted with
  | true => exact inHand_take nofun
  | false =>
      intro m hm needle' position' rejects
      obtain rfl : m = ⟨.reject needle position, w₂⟩ := by
        change m ∈ (Course.take (.reject needle position)).moments w₂ at hm
        rwa [Course.moments_take, List.mem_singleton] at hm
      cases rejects
      exact ⟨s + 1, hand⟩

theorem inHand_roundCourse (rounds : Rounds g I Head Hand) (head : Head s w) :
    InHand Hand ((Engine.roundCourse g).moments w) := by
  refine inHand_bind (inHand_take nofun) fun e w₁ begins => ?_
  obtain ⟨rfl, rfl⟩ : w₁ = begun w ∧ e = (begun w).engine := by
    rw [Course.outcome_take] at begins
    cases begins
    exact ⟨rfl, rfl⟩
  have head₁ := rounds.begins head
  split
  next needle position found =>
    exact inHand_bind (rounds.inHand_needleCourse head₁ rfl found) fun _ _ _ => inHand_nil
  next =>
    split
    · exact inHand_nil
    · split
      · exact inHand_nil
      · have recovery := hookSteps_ne_reject.recoverCourse
          (hookSteps_ne_reject.switchCourse g nestingLimit)
        exact inHand_bind (inHand_of_within recovery) fun _ _ _ => inHand_nil

theorem inHand_scanCourse (rounds : Rounds g I Head Hand) (n : Nat) (head : Head s w) :
    InHand Hand ((Engine.scanCourse g n).moments w) := by
  induction n generalizing s w with
  | zero => exact inHand_nil
  | succ n ih =>
    refine inHand_bind (rounds.inHand_roundCourse head) fun again w₁ ended => ?_
    have head₁ := (rounds.roundCourse head).ok again w₁ ended
    cases again with
    | true => exact ih head₁
    | false => exact inHand_take nofun

/-- Whatever a grammar does, each needle that it rejects is in hand at that moment. -/
theorem inHand_workCourse (rounds : Rounds g I Head Hand) (n : Nat) (head : Head s w) :
    InHand Hand ((Engine.workCourse g n).moments w) := by
  have requires : ∀ name call v, InHand Hand ((Engine.requireCourse g name call).moments v) :=
    fun name call _ => inHand_of_within (hookSteps_ne_reject.requireCourse g name call)
  refine inHand_bind (requires .init .init w) fun _ w₁ prepared => ?_
  have head₁ := (rounds.requireCourse .init .init head).ok _ w₁ prepared
  refine inHand_bind (rounds.inHand_scanCourse n head₁) fun _ w₂ _ => ?_
  refine inHand_bind ?_ fun _ w₃ _ => inHand_bind (requires .modifyTree .modifyTree w₃)
    fun _ w₄ _ => requires .outputTree .outputTree w₄
  refine inHand_bind (inHand_of_within (hookSteps_ne_reject.callCourse g _)) fun closed w₃ _ => ?_
  cases closed with
  | true => exact inHand_nil
  | false => exact inHand_take nofun

end Rounds

/-! ## What is kept of a rejected needle -/

section Kept

variable {g : Grammar σ} {t : Text} {limit : Value} {due s : Nat}

/-- At the end of the text, a needle in hand has been recovered from. -/
theorem Tracked.rewound_at_end (tracked : Tracked g t limit due s w) (long : 0 < due)
    (behind : (t.length : Int) ≤ w.engine.cursor) :
    w.engine.rewound = true ∧ w.engine.cursor = t.length := by
  have inside := tracked.metered.inside
  have cursor := tracked.metered.cursor_le
  change w.engine.cursor + w.engine.place.ahead due ≤ t.length at inside
  change w.engine.cursor ≤ t.length at cursor
  refine ⟨?_, by omega⟩
  rw [← Bool.not_eq_false]
  intro still
  rw [Place.ahead_of_not_rewound (p := w.engine.place) still] at inside
  omega

/-- If the hooks leave cursor, text and origins to the engine and work with the operations on the
open nodes only, then a lenient rejection inside the text appends exactly the code point at the
cursor to the innermost open node and moves the cursor behind it.  Otherwise the grammar has
recovered from the last code point of the text before it rejected the needle, and the scan fails. -/
theorem rejection_keeps_code_point {rounds : Nat} {input : Input} {override : Option Text}
    (wf : w.forest.WellFormed) (forward : w.forest.Forward)
    (keeps : ∀ call : HookCall, (call.hook g).Uses Op.KeepsPlace)
    (helped : ∀ m ∈ parseMoments g rounds input override w, m.Helped)
    {needle : Text} {position : Nat} {v : World σ}
    (rejects : ⟨.reject needle position, v⟩ ∈ parseMoments g rounds input override w)
    (lenient : v.engine.isStrict = false) :
    (∃ (i : Nat) (c : CodePoint) (top : Handle) (rest : List Handle) (r : Option Report)
        (l : List Record) (f : Forest),
        v.engine.cursor = i ∧ v.engine.text[i]? = some c ∧ v.engine.stack = top :: rest
          ∧ v.forest.Writes top [c] (some v.engine.cursor) f
          ∧ (reject needle position).outcome v = (.ok (), ((admonished v r l).withForest f).onEngine
              fun e => { e with cursor := e.cursor + 1 }))
      ∨ v.engine.rewound = true ∧ v.engine.cursor = v.engine.text.length
        ∧ ∃ r l, (reject needle position).outcome v
            = (.error (.outside .text v.engine.cursor), admonished v r l) := by
  obtain ⟨u, loaded, member⟩ := exists_of_isWork rejects trivial
  obtain ⟨f, begins⟩ := begins_of_load loaded
  obtain ⟨orderly, -, upright⟩ := upright_of_mem wf helped rejects trivial
  obtain ⟨s, long, tracked⟩ := (rounds_tracked keeps).inHand_workCourse rounds
    (begins.tracked forward rfl) _ member needle position rfl
  have nonneg : 0 ≤ v.engine.cursor := tracked.metered.cursor
  have text : v.engine.text = u.engine.text := tracked.metered.text
  rcases lt_or_ge v.engine.cursor v.engine.text.length with inside | behind
  · left
    obtain ⟨r, -, bottom⟩ := upright.bottom
    cases stack : v.engine.stack with
    | nil =>
        rw [stack] at bottom
        cases bottom
    | cons top rest =>
    have known := (Upright.known_of_stack orderly.toTidy stack).1
    have short : v.engine.cursor.toNat < v.engine.text.length := by omega
    have point : v.engine.text[v.engine.cursor.toNat]? = some v.engine.text[v.engine.cursor.toNat] :=
      List.getElem?_eq_getElem short
    obtain ⟨r, l, f, writes, ends⟩ := exists_downgrade lenient nonneg
      ((Text.at?_of_nonneg nonneg).trans point) stack orderly.wellFormed known needle position
    exact ⟨_, _, top, rest, r, l, f, (Int.toNat_of_nonneg nonneg).symm, point, rfl, writes, ends⟩
  · right
    obtain ⟨rewound, last⟩ := tracked.rewound_at_end long (text ▸ behind)
    exact ⟨rewound, by rw [text]; exact last, exists_reject_at_end lenient nonneg behind needle position⟩

end Kept

/-! ## A mark that is recovered from and rejected -/

/-- One code point, which is a needle of its own. -/
def bang : Text := Text.ofChars ['!']

/-- Open a bold node, read it again as text, and reject the needle. -/
def renounce (_ : Text) : Hook Unit Bool := do
  let h ← Hook.edit (.create (Bold.boldNode (some (← Hook.look).cursor)))
  let _ ← Hook.push (.node h)
  Hook.recover
  return false

/-- The grammar that does so at every mark. -/
def renouncingGrammar : Grammar Unit := listing [bang] renounce

/-- The steps of a parse by it. -/
def renouncingMoments (t : Text) : List (Moment Unit) :=
  parseMoments renouncingGrammar 4 (.text t) none { memory := () }

theorem keepsPlace_renouncingGrammar (call : HookCall) :
    (call.hook renouncingGrammar).Uses Op.KeepsPlace := by
  cases call with
  | handleStatus n needle =>
      exact Hook.uses_bind_ask trivial fun _ => Hook.uses_bind_ask trivial fun _ =>
        Hook.uses_bind_ask trivial fun _ => Hook.uses_bind_ask trivial fun _ => trivial
  | setStatus n =>
      show Hook.Uses _ (ite _ _ _)
      split
      · exact Hook.uses_bind_ask trivial fun _ => Hook.uses_bind_ask trivial fun _ => trivial
      · trivial
  | init => exact Hook.uses_bind_ask trivial fun _ => trivial
  | closeRemainingBlocks => exact Hook.uses_ask trivial
  | modifyTree => trivial
  | outputTree => trivial

/-- An engine before its first parse, where there are no nodes yet. -/
def blankStart : World Unit := { memory := () }

theorem forward_blankStart : blankStart.forest.Forward := fun h o origin => by
  rw [Forest.node_of_size_le (Nat.zero_le h)] at origin
  cases origin

/-- Of three marks in a row, each is recovered from and rejected in its turn.  The second becomes text
when the first is rejected.  The third has nothing behind it. -/
theorem rejection_keeps_code_point_threeBangs : ∃ v v' : World Unit,
    ⟨.reject bang 0, v⟩ ∈ renouncingMoments (bang ++ bang ++ bang) ∧ v.engine.cursor = 1
      ∧ (∃ u, (reject bang 0).outcome v = (.ok (), u) ∧ u.engine.cursor = 2)
      ∧ ⟨.reject bang 2, v'⟩ ∈ renouncingMoments (bang ++ bang ++ bang) ∧ v'.engine.cursor = 3
      ∧ ∃ u, (reject bang 2).outcome v' = (.error (.outside .text 3), u) := by
  have helped : ∀ m ∈ renouncingMoments (bang ++ bang ++ bang), m.Helped := by decide +kernel
  have rejection {position : Nat} {v : World Unit}
      (rejects : ⟨.reject bang position, v⟩ ∈ renouncingMoments (bang ++ bang ++ bang)) :=
    rejection_keeps_code_point (w := blankStart) (.of_size_eq_zero rfl) forward_blankStart
      keepsPlace_renouncingGrammar helped rejects
  obtain ⟨v, first, lenient, cursor, length⟩ : ∃ v : World Unit,
      ⟨.reject bang 0, v⟩ ∈ renouncingMoments (bang ++ bang ++ bang) ∧ v.engine.isStrict = false
        ∧ v.engine.cursor = 1 ∧ v.engine.text.length = 3 :=
    ⟨_, List.get_mem _ ⟨16, by decide +kernel⟩, by decide +kernel, by decide +kernel, by decide +kernel⟩
  obtain ⟨v', last, lenient', cursor', length'⟩ : ∃ v : World Unit,
      ⟨.reject bang 2, v⟩ ∈ renouncingMoments (bang ++ bang ++ bang) ∧ v.engine.isStrict = false
        ∧ v.engine.cursor = 3 ∧ v.engine.text.length = 3 :=
    ⟨_, List.get_mem _ ⟨28, by decide +kernel⟩, by decide +kernel, by decide +kernel, by decide +kernel⟩
  refine ⟨v, v', first, cursor, ?_, last, cursor', ?_⟩
  · rcases rejection first lenient with ⟨i, c, top, rest, r, l, f, -, -, -, -, kept⟩ | ⟨-, atEnd, -⟩
    · refine ⟨_, kept, ?_⟩
      show v.engine.cursor + 1 = 2
      omega
    · omega
  · rcases rejection last lenient' with ⟨i, c, top, rest, r, l, f, inside, point, -⟩ | ⟨-, -, r, l, failed⟩
    · have short := (List.getElem?_eq_some_iff.mp point).1
      omega
    · rw [cursor'] at failed
      exact ⟨_, failed⟩

/-- A mark at the end of the text that is recovered from cannot be rejected.  The hooks ask for
nothing but a node that begins at the cursor, its opening and a recovery. -/
theorem rejection_fails_at_end :
    (∀ call : HookCall, (call.hook renouncingGrammar).Uses Op.KeepsPlace)
      ∧ (∀ m ∈ renouncingMoments bang, m.Helped)
      ∧ (∃ v, ⟨.reject bang 0, v⟩ ∈ renouncingMoments bang ∧ v.engine.isStrict = false
        ∧ v.engine.cursor = v.engine.text.length
        ∧ ∃ u, (reject bang 0).outcome v = (.error (.outside .text 1), u))
      ∧ ∃ report w', (parse renouncingGrammar 4 (.text bang) none).outcome { memory := () }
          = (.ok report, w') ∧ report.success = false := by
  refine ⟨keepsPlace_renouncingGrammar, by decide +kernel, ?_, exists_of_report (by decide +kernel)⟩
  have member := List.get_mem (renouncingMoments bang) ⟨16, by decide +kernel⟩
  exact ⟨_, member, by decide +kernel, by decide +kernel, _, rfl⟩

end Engine

end Needlework

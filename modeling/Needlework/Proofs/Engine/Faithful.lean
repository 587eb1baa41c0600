import Needlework.Proofs.Engine.Ledger

/-!
# Faithful grammars

A grammar is *faithful* when the tree can account for every needle that it deals with.
At a needle it does one thing and no other: it keeps the needle as text, opens a fresh
node that begins there, closes the innermost node, does nothing and rejects the needle, or
recovers (`OneAction`).  Its other hooks publish needles, and the one that is called at
the end of the text may close what is open.

*Calls.*  Faithfulness is a property of the calls that a parse makes, each in the world in
which it is made (`Moment.Faithful`).  A call that raises is not asked for anything, since
it ends the scan.

*Offsets.*  When a hook appends text, it may say under which offset.  Some ledgers need the
offset to be that of the cursor (`Moment.Dated`).

*Needles.*  After a faithful call the text is in the tree up to the cursor or up to the
end of the needle, as the reply says, unless a recovery has moved the cursor (`Dealt`).
-/

namespace Needlework

namespace Engine

open Act

variable {σ : Type} {w w' : World σ} {k : Marks} {c : Nat} {L : Ledger σ}

/-! ## What a faithful grammar does -/

/-- The steps that are not quiet. -/
def actions (ms : List (Moment σ)) : List (Moment σ) := ms.filter fun m => decide (¬ m.Quiet)

/-- A step that puts a needle in the tree: the needle becomes text, a fresh node that
begins at the cursor is opened, or a node is closed. -/
def Moment.Places (needle : Text) (m : Moment σ) : Prop :=
  match m.step with
  | .op (.appendText t _) => t = needle
  | .op (.push (.node h)) => Fresh m.before h ∧ (m.before.forest.node h).isText = false
      ∧ (m.before.forest.node h).origin = some m.before.engine.cursor
  | .op .pop => True
  | _ => False

/-- What the first half of a recovery hands to the second. -/
def Moment.taken? (m : Moment σ) : Option (Handle × Int) :=
  match m.step with
  | .withdraw => (withdraw.outcome m.before).1.toOption
  | _ => none

/-- What the second half of a recovery goes on with. -/
def Moment.resumed? (m : Moment σ) : Option (Handle × Int) :=
  match m.step with
  | .resume top origin => some (top, origin)
  | _ => none

/-- Two steps that make a recovery. -/
def Moment.Recovers (m m' : Moment σ) : Prop :=
  m.taken?.isSome ∧ m.taken? = m'.resumed?

/-- The one thing that a faithful grammar does at a needle, and its reply. -/
def OneAction (needle : Text) : List (Moment σ) → Bool → Prop
  | [], accepted => accepted = false
  | [m], accepted => m.Places needle ∧ m.succeeds = true ∧ accepted = true
  | [m, m'], _ => m.Recovers m' ∧ m'.succeeds = true
  | _, _ => False

/-- Whether a step closes everything that is open. -/
def Moment.closesAll (m : Moment σ) : Bool :=
  match m.step with
  | .op .closeOpen => true
  | _ => false

/-- A step at the end of the text: what is open may be closed. -/
def Moment.Closing (m : Moment σ) : Prop := m.Quiet ∨ m.closesAll = true

/-- A hook call of a faithful grammar. -/
def FaithfulCall (g : Grammar σ) (w : World σ) : HookCall → Prop
  | .handleStatus status needle =>
      let hook := hookCourse (switchCourse g nestingLimit) (g.handleStatus status needle)
      match (hook.outcome w).1 with
      | .ok accepted => OneAction needle (actions (hook.moments w)) accepted
      | .error _ => True
  | .setStatus status => ∀ m ∈ (switchCourse g nestingLimit status).moments w, m.Quiet
  | .closeRemainingBlocks => ∀ m ∈ (callCourse g .closeRemainingBlocks).moments w, m.Closing
  | call => ∀ m ∈ (callCourse g call).moments w, m.Quiet

/-- A step of a parse by a faithful grammar. -/
def Moment.Faithful (g : Grammar σ) (m : Moment σ) : Prop :=
  match m.step with
  | .enter call => FaithfulCall g m.before call
  | _ => True

/-- A step that appends text under the offset of the cursor, if it appends any. -/
def Moment.Dated (m : Moment σ) : Prop :=
  match m.step with
  | .op (.appendText _ offset) => offset.getD m.before.engine.cursor = m.before.engine.cursor
  | _ => True

instance (needle : Text) : DecidablePred (Moment.Places needle : Moment σ → Prop)
  | ⟨.op (.appendText t _), _⟩ => inferInstanceAs (Decidable (t = needle))
  | ⟨.op (.push (.node h)), w⟩ => inferInstanceAs (Decidable (Fresh w h
      ∧ (w.forest.node h).isText = false ∧ (w.forest.node h).origin = some w.engine.cursor))
  | ⟨.op .pop, _⟩ => inferInstanceAs (Decidable True)
  | ⟨.op (.push (.other _)), _⟩ | ⟨.op .look, _⟩ | ⟨.op .strictness, _⟩ | ⟨.op .memory, _⟩
  | ⟨.op (.remember _), _⟩ | ⟨.op (.setStatus _), _⟩ | ⟨.op .recover, _⟩ | ⟨.op .closeOpen, _⟩
  | ⟨.op (.edit _), _⟩ | ⟨.op (.tamper _), _⟩ | ⟨.op (.assign _), _⟩ | ⟨.op (.postfilter _), _⟩
  | ⟨.op (.parse _ _), _⟩ | ⟨.enter _, _⟩ | ⟨.withdraw, _⟩ | ⟨.resume _ _, _⟩ | ⟨.beginRound, _⟩
  | ⟨.approach _, _⟩ | ⟨.accept _, _⟩ | ⟨.reject _ _, _⟩ | ⟨.appendRest, _⟩ | ⟨.load _, _⟩
  | ⟨.reportOpen, _⟩ | ⟨.handOut, _⟩ => inferInstanceAs (Decidable False)

instance (m m' : Moment σ) : Decidable (m.Recovers m') :=
  inferInstanceAs (Decidable (m.taken?.isSome ∧ m.taken? = m'.resumed?))

instance (needle : Text) (ms : List (Moment σ)) (accepted : Bool) :
    Decidable (OneAction needle ms accepted) :=
  match ms with
  | [] => inferInstanceAs (Decidable (accepted = false))
  | [m] => inferInstanceAs (Decidable (m.Places needle ∧ m.succeeds = true ∧ accepted = true))
  | [m, m'] => inferInstanceAs (Decidable (m.Recovers m' ∧ m'.succeeds = true))
  | _ :: _ :: _ :: _ => inferInstanceAs (Decidable False)

instance (m : Moment σ) : Decidable m.Closing :=
  inferInstanceAs (Decidable (m.Quiet ∨ m.closesAll = true))

instance (g : Grammar σ) (w : World σ) : DecidablePred (FaithfulCall g w)
  | .handleStatus status needle =>
      let hook := hookCourse (switchCourse g nestingLimit) (g.handleStatus status needle)
      match ended : (hook.outcome w).1 with
      | .ok accepted => decidable_of_iff (OneAction needle (actions (hook.moments w)) accepted)
          (by rw [FaithfulCall, ended])
      | .error _ => isTrue (by rw [FaithfulCall, ended]; trivial)
  | .setStatus status =>
      inferInstanceAs (Decidable (∀ m ∈ (switchCourse g nestingLimit status).moments w, m.Quiet))
  | .closeRemainingBlocks =>
      inferInstanceAs (Decidable (∀ m ∈ (callCourse g .closeRemainingBlocks).moments w, m.Closing))
  | .init => inferInstanceAs (Decidable (∀ m ∈ (callCourse g .init).moments w, m.Quiet))
  | .modifyTree => inferInstanceAs (Decidable (∀ m ∈ (callCourse g .modifyTree).moments w, m.Quiet))
  | .outputTree => inferInstanceAs (Decidable (∀ m ∈ (callCourse g .outputTree).moments w, m.Quiet))

instance (g : Grammar σ) : DecidablePred (Moment.Faithful g)
  | ⟨.enter call, w⟩ => inferInstanceAs (Decidable (FaithfulCall g w call))
  | ⟨.op _, _⟩ | ⟨.withdraw, _⟩ | ⟨.resume _ _, _⟩ | ⟨.beginRound, _⟩ | ⟨.approach _, _⟩
  | ⟨.accept _, _⟩ | ⟨.reject _ _, _⟩ | ⟨.appendRest, _⟩ | ⟨.load _, _⟩ | ⟨.reportOpen, _⟩
  | ⟨.handOut, _⟩ => inferInstanceAs (Decidable True)

instance : DecidablePred (Moment.Dated : Moment σ → Prop)
  | ⟨.op (.appendText _ offset), w⟩ =>
      inferInstanceAs (Decidable (offset.getD w.engine.cursor = w.engine.cursor))
  | ⟨.op .pop, _⟩ | ⟨.op (.push _), _⟩ | ⟨.op .look, _⟩ | ⟨.op .strictness, _⟩ | ⟨.op .memory, _⟩
  | ⟨.op (.remember _), _⟩ | ⟨.op (.setStatus _), _⟩ | ⟨.op .recover, _⟩ | ⟨.op .closeOpen, _⟩
  | ⟨.op (.edit _), _⟩ | ⟨.op (.tamper _), _⟩ | ⟨.op (.assign _), _⟩ | ⟨.op (.postfilter _), _⟩
  | ⟨.op (.parse _ _), _⟩ | ⟨.enter _, _⟩ | ⟨.withdraw, _⟩ | ⟨.resume _ _, _⟩ | ⟨.beginRound, _⟩
  | ⟨.approach _, _⟩ | ⟨.accept _, _⟩ | ⟨.reject _ _, _⟩ | ⟨.appendRest, _⟩ | ⟨.load _, _⟩
  | ⟨.reportOpen, _⟩ | ⟨.handOut, _⟩ => inferInstanceAs (Decidable True)

/-! ## Quiet steps -/

theorem Moment.Quiet.closing {m : Moment σ} (quiet : m.Quiet) : m.Closing := .inl quiet

/-- Quiet steps, and the closing of what is open, leave the marks alone. -/
theorem Marks.next_of_closing {m : Moment σ} (closing : m.Closing) : k.next m = k := by
  obtain ⟨step, w⟩ := m
  rcases closing with quiet | all
  · cases step with
    | enter call =>
        cases call with
        | handleStatus status needle => exact quiet.elim
        | _ => rfl
    | op o =>
        cases o with
        | push n => exact quiet.elim
        | pop => exact quiet.elim
        | _ => rfl
    | _ => exact quiet.elim
  · cases step with
    | op o =>
        cases o with
        | closeOpen => rfl
        | _ => cases all
    | _ => cases all

theorem foldl_next_of_closing {ms : List (Moment σ)} (closing : ∀ m ∈ ms, m.Closing) :
    ms.foldl Marks.next k = k := by
  induction ms with
  | nil => rfl
  | cons m ms ih =>
    rw [List.foldl_cons, Marks.next_of_closing (closing m (List.mem_cons_self ..))]
    exact ih fun m' hm => closing m' (List.mem_cons_of_mem _ hm)

theorem Moment.Quiet.extends {m : Moment σ} (quiet : m.Quiet) : Extends m.before m.after := by
  obtain ⟨step, w⟩ := m
  cases step with
  | enter call => exact .refl w
  | op o => exact extends_quiet o w quiet
  | _ => exact quiet.elim

theorem Runs.extends {ms : List (Moment σ)} (runs : Runs w ms w') (quiet : ∀ m ∈ ms, m.Quiet) :
    Extends w w' := by
  induction runs with
  | nil w => exact .refl w
  | cons _ ih =>
      refine .trans _ _ _ (quiet _ (List.mem_cons_self ..)).extends (ih fun m hm => ?_)
      exact quiet m (List.mem_cons_of_mem _ hm)

/-! ## A needle is dealt with -/

theorem Moment.exists_of_succeeds {m : Moment σ} (ok : m.succeeds = true) :
    ∃ r, m.step.act.outcome m.before = (.ok r, m.after) := by
  rw [Moment.succeeds, Moment.reply] at ok
  rw [Moment.after]
  generalize m.step.act.outcome m.before = out at ok ⊢
  obtain ⟨r, v⟩ := out
  cases r with
  | ok r => exact ⟨r, rfl⟩
  | error f => cases ok

/-- A step that puts the needle in the tree leads the ledger to its end. -/
theorem Ledger.placed {m : Moment σ} (holds : L.Holds k c m.before)
    (cursor : m.before.engine.cursor = c) (nonempty : k.needle ≠ [])
    (covered : k.needle <+: m.before.engine.text.drop c) (places : m.Places k.needle)
    (dated : L.exact → m.Dated) (ok : m.succeeds = true) :
    L.Holds (k.next m) (c + k.needle.length) m.after ∧ SamePlace m.before m.after := by
  obtain ⟨r, returned⟩ := Moment.exists_of_succeeds ok
  obtain ⟨step, w⟩ := m
  cases step with
  | op o =>
      cases o with
      | push n =>
          cases n with
          | node h =>
              obtain ⟨fresh, htext, horigin⟩ := places
              have content : (w.forest.node h).content? = none := by
                rw [Node.isText_eq_isSome] at htext
                exact Option.isNone_iff_eq_none.mp (Option.isSome_eq_false_iff.mp htext)
              have mark : k.next ⟨.op (.push (.node h)), w⟩ = k.opened h := if_pos ok
              rw [mark]
              exact ⟨L.pushed holds fresh (horigin.trans (congrArg some cursor)) content nonempty
                covered returned, samePlace_push returned⟩
          | other v => exact places.elim
      | pop =>
          obtain ⟨top, rest, hs, holds'⟩ := L.popped holds covered returned
          have mark : k.next ⟨.op .pop, w⟩ = k.closed top := by
            rw [Marks.next]
            dsimp only at hs ⊢
            rw [hs]
            exact if_pos ok
          rw [mark]
          exact ⟨holds', samePlace_pop returned⟩
      | appendText t offset =>
          have written := after_appendText t offset w
          have text : t = k.needle := places
          rw [← text] at covered ⊢
          show L.Holds k (c + t.length) ((appendText t offset).outcome w).2
            ∧ SamePlace w ((appendText t offset).outcome w).2
          rw [written]
          refine ⟨L.wrote holds t offset (fun exact => ?_) covered rfl rfl rfl rfl rfl, ⟨rfl, rfl⟩⟩
          exact (dated exact).trans cursor
      | _ => exact places.elim
  | _ => exact places.elim

/-- A recovery leads the ledger to the new cursor. -/
theorem Ledger.recovered {m m' : Moment σ} (holds : L.Holds k c m.before)
    (recovers : m.Recovers m') (between : Extends m.after m'.before) (ok : m'.succeeds = true) :
    (k.next m).next m' = k ∧ ∃ o : Nat, L.Holds k o m'.after ∧ m'.after.engine.cursor = o
      ∧ m'.after.engine.rewound = true := by
  obtain ⟨r, returned⟩ := Moment.exists_of_succeeds ok
  obtain ⟨step, w⟩ := m
  obtain ⟨step', w'⟩ := m'
  cases step with
  | withdraw =>
      cases step' with
      | resume top origin =>
          refine ⟨rfl, ?_⟩
          have reply : (withdraw.outcome w).1.toOption = some (top, origin) := recovers.2
          have out : withdraw.outcome w = (.ok (top, origin), (withdraw.outcome w).2) := by
            generalize withdraw.outcome w = out at reply
            obtain ⟨r, v⟩ := out
            cases r with
            | ok r => cases reply; rfl
            | error f => cases reply
          obtain ⟨n, rfl, holds'⟩ := L.withdrawn holds out
          exact ⟨n + 1, Ledger.resumed (L.extend holds' between) returned⟩
      | _ =>
          -- Nothing else goes on with what was taken out.
          have taken := recovers.1
          rw [recovers.2] at taken
          cases taken
  | _ => cases recovers.1

/-- Where the scan is after a hook has dealt with a needle, by the reply. -/
inductive Dealt (L : Ledger σ) (k : Marks) (needle : Text) (c : Nat) (w : World σ) : Bool → Prop where
  | placed : w.engine.cursor = c → w.engine.rewound = false → L.Holds k (c + needle.length) w →
      Dealt L k needle c w true
  | left : w.engine.cursor = c → w.engine.rewound = false → L.Holds k c w → Dealt L k needle c w false
  | recovered {o : Nat} {accepted : Bool} : w.engine.cursor = o → w.engine.rewound = true →
      L.Holds k o w → Dealt L k needle c w accepted

/-- The steps before the first action are quiet: they extend the forest at most, and leave
the marks alone. -/
theorem Runs.exists_of_actions_cons {ms acts : List (Moment σ)} {m : Moment σ} (runs : Runs w ms w')
    (hacts : actions ms = m :: acts) : ∃ post, Extends w m.before ∧ Runs m.after post w'
      ∧ actions post = acts ∧ ms.foldl Marks.next k = post.foldl Marks.next (k.next m) := by
  obtain ⟨pre, post, rfl, hpre, -, hpost⟩ := List.filter_eq_cons_iff.mp hacts
  obtain ⟨v, first, second⟩ := runs.exists_of_append
  cases second with
  | cons second =>
      have quiet : ∀ m ∈ pre, m.Quiet := by simpa using hpre
      refine ⟨post, first.extends quiet, second, hpost, ?_⟩
      rw [List.foldl_append, foldl_next_of_closing fun m hm => (quiet m hm).closing, List.foldl_cons]

theorem Runs.extends_of_actions_nil {ms : List (Moment σ)} (runs : Runs w ms w')
    (hacts : actions ms = []) : Extends w w' ∧ ms.foldl Marks.next k = k := by
  have quiet : ∀ m ∈ ms, m.Quiet := by simpa [actions] using hacts
  exact ⟨runs.extends quiet, foldl_next_of_closing fun m hm => (quiet m hm).closing⟩

theorem mem_of_actions_eq {ms acts : List (Moment σ)} (hacts : actions ms = acts) :
    ∀ m ∈ acts, m ∈ ms := fun _ hm => List.mem_of_mem_filter (hacts ▸ hm)

/-- One action deals with the needle. -/
theorem Ledger.dealt {ms : List (Moment σ)} {accepted : Bool} (holds : L.Holds k c w)
    (cursor : w.engine.cursor = c) (rewound : w.engine.rewound = false) (nonempty : k.needle ≠ [])
    (covered : k.needle <+: w.engine.text.drop c) (runs : Runs w ms w')
    (dated : L.exact → ∀ m ∈ ms, m.Dated) (one : OneAction k.needle (actions ms) accepted) :
    Dealt L (ms.foldl Marks.next k) k.needle c w' accepted := by
  cases hacts : actions ms with
  | nil =>
      rw [hacts] at one
      obtain ⟨same, marks⟩ := runs.extends_of_actions_nil (k := k) hacts
      cases one
      rw [marks]
      exact .left (same.cursor.trans cursor) (same.rewound.trans rewound) (L.extend holds same)
  | cons m acts =>
      obtain ⟨post, same, runs', hpost, marks⟩ := runs.exists_of_actions_cons (k := k) hacts
      have here := L.extend holds same
      have member := mem_of_actions_eq hacts m List.mem_cons_self
      rw [hacts] at one
      rw [marks]
      cases acts with
      | nil =>
          obtain ⟨places, ok, rfl⟩ := one
          rw [← same.text] at covered
          obtain ⟨holds', place⟩ := Ledger.placed here (same.cursor.trans cursor) nonempty covered
            places (fun exact => dated exact m member) ok
          obtain ⟨same', marks'⟩ := runs'.extends_of_actions_nil (k := k.next m) hpost
          rw [marks']
          refine .placed ?_ ?_ (L.extend holds' same')
          · rw [same'.cursor, place.cursor, same.cursor, cursor]
          · rw [same'.rewound, place.rewound, same.rewound, rewound]
      | cons m' acts =>
          obtain ⟨post', between, runs'', hpost', marks'⟩ :=
            runs'.exists_of_actions_cons (k := k.next m) hpost
          rw [marks']
          cases acts with
          | nil =>
              obtain ⟨recovers, ok⟩ := one
              obtain ⟨marks'', o, holds', hcursor, hrewound⟩ :=
                Ledger.recovered here recovers between ok
              obtain ⟨same', unmarked⟩ := runs''.extends_of_actions_nil (k := k) hpost'
              rw [marks'', unmarked]
              exact .recovered (same'.cursor.trans hcursor) (same'.rewound.trans hrewound)
                (L.extend holds' same')
          | cons _ _ => exact one.elim

end Engine

end Needlework

import Needlework.Proofs.Engine.Faithful
import Needlework.Proofs.Text.Search

/-!
# The heads of the rounds

Between two rounds of a scan by a faithful grammar the text is in the tree up to the
cursor, as a ledger keeps it (`AtHead`).  A needle that is accepted or rejected leads from one
head to the next, and so does a recovery at the end of the text.  At the end of the scan the
whole text is in the tree, and the hooks that are called afterwards leave it so.

*Courses.*  The statements are about courses of faithful calls (`Leads`): every head on the
way is as it should be, and a course that ends well ends in a world that satisfies a
condition.  The rules follow the way in which courses are put together.
-/

namespace Needlework

namespace Engine

open Act

variable {σ α β : Type} {w w' : World σ} {k : Marks} {c : Nat} {g : Grammar σ}
  {L : Ledger σ}

/-! ## Heads -/

/-- At the head of a round the ledger has come to the cursor. -/
def AtHead (L : Ledger σ) (k : Marks) (w : World σ) : Prop :=
  ∃ c : Nat, w.engine.cursor = c ∧ L.Holds k c w

/-- At each head of a round in a list of steps, the ledger has come to the cursor. -/
def HeadsHold (L : Ledger σ) (k : Marks) : List (Moment σ) → Prop
  | [] => True
  | m :: ms => (m.step = .beginRound → AtHead L k m.before) ∧ HeadsHold L (k.next m) ms

theorem headsHold_append {ms ms' : List (Moment σ)} :
    HeadsHold L k (ms ++ ms') ↔ HeadsHold L k ms ∧ HeadsHold L (ms.foldl Marks.next k) ms' := by
  induction ms generalizing k with
  | nil => simp [HeadsHold]
  | cons m ms ih => simp [HeadsHold, ih, and_assoc]

/-- The steps between the rounds are of no concern. -/
theorem headsHold_of_ne {ms : List (Moment σ)} (h : ∀ m ∈ ms, m.step ≠ .beginRound) :
    HeadsHold L k ms := by
  induction ms generalizing k with
  | nil => trivial
  | cons m ms ih =>
    refine ⟨fun hm => absurd hm (h m (List.mem_cons_self ..)), ih fun m' hm => ?_⟩
    exact h m' (List.mem_cons_of_mem _ hm)

/-- Hooks begin no round. -/
theorem hookSteps_ne_beginRound : HookSteps fun s : Step σ => s ≠ .beginRound where
  enter _ := by simp
  op _ := by simp
  withdraw := by simp
  resume _ _ := by simp

/-! ## Courses of faithful calls -/

/-- A step of a parse by a faithful grammar that appends text as the ledger needs it. -/
def Moment.Suits (L : Ledger σ) (g : Grammar σ) (m : Moment σ) : Prop :=
  m.Faithful g ∧ (L.exact → m.Dated)

/-- With suitable steps, every head of a round in a course is as it should be, and a course
that ends well ends in a world with a condition. -/
def Leads (L : Ledger σ) (g : Grammar σ) (k : Marks) (w : World σ) (p : Course σ α)
    (Q : α → Marks → World σ → Prop) : Prop :=
  (∀ m ∈ p.moments w, m.Suits L g) → HeadsHold L k (p.moments w)
    ∧ ∀ a w', p.outcome w = (.ok a, w') → Q a ((p.moments w).foldl Marks.next k) w'

namespace Leads

variable {Q : α → Marks → World σ → Prop} {R : β → Marks → World σ → Prop}

theorem done {a : α} (h : Q a k w) : Leads L g k w (.done a) Q := by
  refine fun _ => ⟨trivial, fun b w' hout => ?_⟩
  cases hout
  exact h

theorem raise (f : Fault) : Leads L g k w (.raise f) Q :=
  fun _ => ⟨trivial, fun _ _ hout => by cases hout⟩

theorem imp {Q' : α → Marks → World σ → Prop} {p : Course σ α} (hp : Leads L g k w p Q)
    (h : ∀ a k' w', Q a k' w' → Q' a k' w') : Leads L g k w p Q' := by
  intro suits
  obtain ⟨heads, ends⟩ := hp suits
  exact ⟨heads, fun a w' hout => h a _ w' (ends a w' hout)⟩

/-- What a course keeps from any world can be added. -/
theorem keeping {P : World σ → World σ → Prop} {p : Course σ α} (hp : Leads L g k w p Q)
    (keeps : p.Keeps (fun _ => True) P) : Leads L g k w p fun a k' w' => Q a k' w' ∧ P w w' := by
  intro suits
  obtain ⟨heads, ends⟩ := hp suits
  refine ⟨heads, fun a w' hout => ⟨ends a w' hout, ?_⟩⟩
  have kept := keeps w fun _ _ => trivial
  rw [hout] at kept
  exact kept

theorem bind {p : Course σ α} {q : α → Course σ β} (hp : Leads L g k w p Q)
    (hq : ∀ a k' w', Q a k' w' → Leads L g k' w' (q a) R) : Leads L g k w (p >>= q) R := by
  intro suits
  cases hr : p.outcome w with
  | mk r w₁ =>
  cases r with
  | error f =>
      rw [Course.moments_andThen, hr, List.append_nil] at suits ⊢
      rw [Course.outcome_andThen_error hr]
      exact ⟨(hp suits).1, fun b w' hout => by cases hout⟩
  | ok a =>
      rw [Course.moments_andThen_ok hr] at suits ⊢
      rw [Course.outcome_andThen_ok hr, headsHold_append, List.foldl_append]
      obtain ⟨heads, ends⟩ := hp fun m hm => suits m (List.mem_append_left _ hm)
      obtain ⟨heads', ends'⟩ :=
        hq a _ w₁ (ends a w₁ hr) fun m hm => suits m (List.mem_append_right _ hm)
      exact ⟨⟨heads, heads'⟩, ends'⟩

/-- A step that begins a round is taken at a head. -/
theorem take {s : Step σ} {Q : s.Reply → Marks → World σ → Prop} (head : s = .beginRound → AtHead L k w)
    (h : ∀ a w', s.act.outcome w = (.ok a, w') → Q a (k.next ⟨s, w⟩) w') :
    Leads L g k w (Course.take s) Q := by
  intro _
  rw [Course.moments_take, Course.outcome_take]
  exact ⟨⟨head, trivial⟩, h⟩

theorem take_bind {s : Step σ} {q : s.Reply → Course σ β} (head : s = .beginRound → AtHead L k w)
    (h : ∀ a w', s.act.outcome w = (.ok a, w') → Leads L g (k.next ⟨s, w⟩) w' (q a) R) :
    Leads L g k w (Course.take s >>= q) R :=
  .bind (Q := fun a k' w' => Leads L g k' w' (q a) R) (.take head h) fun _ _ _ h => h

end Leads

/-! ## Needles and recoveries -/

theorem Ledger.leads_handleStatus {status : Int} {needle : Text} (holds : L.Holds k c w)
    (cursor : w.engine.cursor = c) (rewound : w.engine.rewound = false) (nonempty : needle ≠ [])
    (covered : needle <+: w.engine.text.drop c) :
    Leads L g k w (callCourse g (.handleStatus status needle)) fun accepted k' w' =>
      Dealt L k' needle c w' accepted := by
  intro suits
  refine ⟨headsHold_of_ne (hookSteps_ne_beginRound.callCourse g _ w), fun accepted w' h => ?_⟩
  rw [callCourse] at h suits ⊢
  obtain ⟨u, v, entered, hook, moments⟩ := Course.exists_of_andThen_ok h
  rw [Course.outcome_take] at entered
  cases entered
  rw [moments, Course.moments_take] at suits ⊢
  have call : FaithfulCall g w (.handleStatus status needle) :=
    (suits _ (List.mem_append_left _ (List.mem_singleton_self _))).1
  have runs := runs_moments (hookCourse (switchCourse g nestingLimit) (g.handleStatus status needle)) w
  change (hookCourse (switchCourse g nestingLimit) (g.handleStatus status needle)).outcome w
    = (.ok accepted, w') at hook
  rw [FaithfulCall] at call
  rw [hook] at call runs
  refine Ledger.dealt (L.withNeedle holds needle) cursor rewound nonempty covered runs ?_ call
  exact fun exact m hm => (suits m (List.mem_append_right _ hm)).2 exact

theorem Dealt.accepted {needle : Text} {u : Unit} (dealt : Dealt L k needle c w true)
    (h : (accept needle).outcome w = (.ok u, w')) : AtHead L k w' := by
  rw [outcome_accept] at h
  cases h
  cases dealt with
  | placed cursor rewound holds =>
      rw [rewound]
      refine ⟨c + needle.length, ?_, L.congr holds rfl rfl rfl rfl rfl⟩
      show w.engine.cursor + needle.length = _
      rw [cursor]
      rfl
  | recovered cursor rewound holds =>
      rw [rewound]
      exact ⟨_, cursor, holds⟩

theorem Dealt.rejected {needle : Text} {q : Nat} {u : Unit} (dealt : Dealt L k needle c w false)
    (h : (reject needle q).outcome w = (.ok u, w')) : AtHead L k w' := by
  cases dealt with
  | left cursor _ holds =>
      obtain ⟨holds', cursor'⟩ := Ledger.rejected holds cursor h
      exact ⟨c + 1, cursor', holds'⟩
  | @recovered o _ cursor _ holds =>
      obtain ⟨holds', cursor'⟩ := Ledger.rejected holds cursor h
      exact ⟨o + 1, cursor', holds'⟩

/-- A needle is dealt with between two rounds. -/
theorem AtHead.needle {needle : Text} {q : Nat} (head : AtHead L k w)
    (rewound : w.engine.rewound = false)
    (found : Text.findNeedle? w.engine.needles w.engine.text w.engine.cursor = some (needle, q)) :
    Leads L g k w (needleCourse g needle q) fun _ => AtHead L := by
  obtain ⟨c, cursor, holds⟩ := head
  obtain ⟨nonempty, hle, hprefix⟩ := Text.findNeedle?_spec (by omega) found
  have inside : q ≤ w.engine.text.length := by
    have fits := hprefix.length_le
    have long := List.length_pos_iff.mpr nonempty
    rw [List.length_drop] at fits
    omega
  refine .take_bind (by simp) fun status v approached => ?_
  obtain ⟨holds', cursor', rewound', text⟩ :=
    Ledger.approached holds cursor (by omega) inside approached
  rw [← text] at hprefix
  refine .bind (Ledger.leads_handleStatus holds' cursor' (rewound'.trans rewound) nonempty hprefix)
    fun accepted k' w' dealt => ?_
  cases accepted with
  | true => exact .take (by simp) fun _ _ h => dealt.accepted h
  | false => exact .take (by simp) fun _ _ h => dealt.rejected h

/-- The hook that switches the status is quiet. -/
theorem leads_switch (g : Grammar σ) (k : Marks) (w : World σ) (status : Int) :
    Leads L g k w (switchCourse g nestingLimit status) fun _ k' w' => k' = k ∧ Extends w w' := by
  intro suits
  have quiet : ∀ m ∈ (switchCourse g nestingLimit status).moments w, m.Quiet := by
    refine (suits ⟨.enter (.setStatus status), w⟩ ?_).1
    rw [nestingLimit, switchCourse, Course.moments_andThen, Course.moments_take]
    exact List.mem_append_left _ (List.mem_singleton_self _)
  have same := extendsLaws.keeps_switchCourse g nestingLimit status w quiet
  refine ⟨headsHold_of_ne (hookSteps_ne_beginRound.switchCourse g nestingLimit status w),
    fun u w' h => ⟨foldl_next_of_closing fun m hm => (quiet m hm).closing, ?_⟩⟩
  rw [h] at same
  exact same

/-- A recovery between two rounds. -/
theorem AtHead.recovery (head : AtHead L k w) :
    Leads L g k w (recoverCourse (switchCourse g nestingLimit)) fun _ => AtHead L := by
  obtain ⟨c, -, holds⟩ := head
  refine .take_bind (by simp) fun taken v withdrawn => ?_
  obtain ⟨o, origin, holds'⟩ := L.withdrawn holds withdrawn
  refine .bind (leads_switch g k v 0) fun _ k' v' switched => .take (by simp) fun _ w' h => ?_
  obtain ⟨rfl, same⟩ := switched
  rw [origin] at h
  obtain ⟨holds'', cursor, -⟩ := Ledger.resumed (L.extend holds' same) h
  exact ⟨o + 1, cursor, holds''⟩

/-! ## Scans -/

/-- A round leads from one head to the next. -/
theorem AtHead.round (head : AtHead L k w) : Leads L g k w (roundCourse g) fun _ => AtHead L := by
  refine .take_bind (fun _ => head) fun e w₁ begins => ?_
  cases begins
  obtain ⟨c, cursor, holds⟩ := head
  have head₁ : AtHead L k (begun w) := ⟨c, cursor, L.congr holds rfl rfl rfl rfl rfl⟩
  show Leads L g k (begun w) _ _
  dsimp only
  split
  next needle q found => exact .bind (head₁.needle rfl found) fun _ _ _ head' => .done head'
  next =>
    split
    · exact .done head₁
    · split
      · exact .raise _
      · exact .bind head₁.recovery fun _ _ _ head' => .done head'

/-- The ledger has come to the end of the text. -/
def AtEnd (L : Ledger σ) (k : Marks) (w : World σ) : Prop :=
  ∃ c, w.engine.text.length ≤ c ∧ L.Holds k c w

/-- From head to head, a scan comes to the end of the text. -/
theorem AtHead.scan (n : Nat) (head : AtHead L k w) :
    Leads L g k w (scanCourse g n) fun _ => AtEnd L := by
  induction n generalizing k w with
  | zero => exact .raise _
  | succ n ih =>
    refine .bind head.round fun again k' w' head' => ?_
    cases again with
    | true => exact ih head'
    | false =>
        obtain ⟨c, cursor, holds⟩ := head'
        exact .take (by simp) fun _ _ h => Ledger.appendedRest holds cursor h

/-! ## The hooks around the scan -/

theorem AtHead.extend (head : AtHead L k w) (h : Extends w w') : AtHead L k w' := by
  obtain ⟨c, cursor, holds⟩ := head
  exact ⟨c, h.cursor.trans cursor, L.extend holds h⟩

/-- Closing what is open leaves the tree alone. -/
theorem growsLaws : HookLaws (Moment.Closing : Moment σ → Prop) Grows where
  refl := .refl
  trans := .trans
  plain o w _ closing := by
    cases o with
    | closeOpen =>
        show Grows w (closeOpen.outcome w).2
        rcases closeOpen_cases w with ⟨b, hout⟩ | hu
        · rw [hout]
          exact .refl w
        · refine ⟨by rw [hu.forest]; rfl, fun x _ => by rw [hu.forest]; rfl, fun wf => ?_, hu.text,
            hu.root, hu.detached⟩
          rw [hu.forest]
          exact wf
    | _ => exact .of_extends (extends_quiet _ w (closing.resolve_right Bool.false_ne_true))
  recovery switch _ w closing := by
    have first : (⟨.withdraw, w⟩ : Moment σ) ∈ (recoverCourse switch).moments w := by
      rw [recoverCourse, Course.moments_andThen, Course.moments_take]
      exact List.mem_append_left _ (List.mem_singleton_self _)
    exact ((closing _ first).resolve_right Bool.false_ne_true).elim

/-- A hook around the scan leaves the marks alone, and changes the world as its steps do. -/
theorem leads_call {allowed : Moment σ → Prop} {R : World σ → World σ → Prop}
    (laws : HookLaws allowed R) (closing : ∀ m, allowed m → m.Closing) {call : HookCall}
    (calls : FaithfulCall g w call → ∀ m ∈ (callCourse g call).moments w, allowed m) :
    Leads L g k w (callCourse g call) fun _ k' w' => k' = k ∧ R w w' := by
  intro suits
  have within : ∀ m ∈ (callCourse g call).moments w, allowed m := by
    refine calls (suits ⟨.enter call, w⟩ ?_).1
    rw [callCourse, Course.moments_andThen, Course.moments_take]
    exact List.mem_append_left _ (List.mem_singleton_self _)
  have related := laws.keeps_callCourse g call w within
  refine ⟨headsHold_of_ne (hookSteps_ne_beginRound.callCourse g call w), fun b w' h => ⟨?_, ?_⟩⟩
  · exact foldl_next_of_closing fun m hm => closing m (within m hm)
  · rw [h] at related
    exact related

theorem leads_require {name : HookName} {call : HookCall}
    (calls : FaithfulCall g w call → ∀ m ∈ (callCourse g call).moments w, m.Quiet) :
    Leads L g k w (requireCourse g name call) fun _ k' w' => k' = k ∧ Extends w w' := by
  refine .bind (leads_call extendsLaws (fun m => Moment.Quiet.closing) calls) fun b k' w' h => ?_
  cases b with
  | true => exact .done h
  | false => exact .raise _

theorem leads_finish (g : Grammar σ) (k : Marks) (w : World σ) :
    Leads L g k w (finishCourse g) fun _ k' w' => k' = k ∧ Grows w w' := by
  refine .bind (leads_call growsLaws (fun m => id) id) fun b k' w' h => ?_
  cases b with
  | true => exact .done h
  | false =>
      refine .take (by simp) fun u v hout => ?_
      change reportOpen.outcome w' = _ at hout
      rw [reportOpen, outcome_engine] at hout
      split at hout
      · cases hout
      · cases hout

/-- Everything that a faithful grammar has a part in leads to the end of the text, and after the
scan the tree stays as it is. -/
theorem AtHead.work (rounds : Nat) (head : AtHead L k w) :
    Leads L g k w (workCourse g rounds) fun _ k' w' => ∃ v, AtEnd L k' v ∧ Grows v w' := by
  refine .bind (leads_require id) fun _ k₁ w₁ begins => ?_
  obtain ⟨rfl, same⟩ := begins
  refine .bind ((head.extend same).scan rounds) fun _ k₂ w₂ ended => ?_
  refine .bind (leads_finish g k₂ w₂) fun _ k₃ w₃ closed => ?_
  obtain ⟨rfl, grows₁⟩ := closed
  refine .bind (leads_require id) fun _ k₄ w₄ modified => ?_
  obtain ⟨rfl, grows₂⟩ := modified
  refine (leads_require id).imp fun _ k₅ w₅ put => ?_
  obtain ⟨rfl, grows₃⟩ := put
  exact ⟨w₂, ended, .trans _ _ _ grows₁ (.trans _ _ _ (.of_extends grows₂) (.of_extends grows₃))⟩

end Engine

end Needlework

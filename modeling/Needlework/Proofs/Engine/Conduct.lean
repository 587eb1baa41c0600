import Needlework.Proofs.Engine.Lockstep
import Needlework.Proofs.Engine.Termination

/-!
# The conduct of a grammar

What holds at *every* step of a run is shown along the way in which courses are put together
(`Course.Stays`).  Each step is taken in a world with a property.  A course that ends well ends
with a condition, and one that fails leaves a world with the property.

*Hooks.*  A property lasts through the hooks of a grammar if the operations that they ask for
keep it, and if a recovery does so around a switch that does (`Lasts`).

*Rounds.*  Between two rounds a scan is at a *head*, and while the grammar deals with a needle
the scan has it *in hand*.  Conditions on both, such that the steps of the engine lead from one
to the other, carry a property through the scan and the work of the grammar (`Rounds`).  A
head counts the rounds before it.  If the count has a bound, the scan comes to an end
(`Rounds.endsWithin`).
-/

namespace Needlework

namespace Engine

variable {σ α β : Type} {w w' : World σ}

/-! ## Courses with a condition -/

/-- What holds before every step of a run and at its end holds after every step. -/
theorem Runs.forall_after {I : World σ → Prop} {ms : List (Moment σ)} (runs : Runs w ms w')
    (before : ∀ m ∈ ms, I m.before) (last : I w') : ∀ m ∈ ms, I m.after := by
  induction runs with
  | nil => exact fun m hm => absurd hm List.not_mem_nil
  | @cons m ms v rest ih =>
      intro m' hm'
      rcases List.mem_cons.mp hm' with rfl | hm'
      · generalize m'.after = u at rest
        cases rest with
        | nil => exact last
        | cons _ => exact before _ (List.mem_cons_of_mem _ List.mem_cons_self)
      · exact ih (fun m hm => before m (List.mem_cons_of_mem _ hm)) last m' hm'

/-- From a world, each step of a course is taken in a world with a property, the course ends
with a condition if it ends well, and with the property otherwise. -/
structure Course.Stays (I : World σ → Prop) (w : World σ) (p : Course σ α)
    (H : α → World σ → Prop) : Prop where
  during : ∀ m ∈ p.moments w, I m.before
  ok : ∀ a w', p.outcome w = (.ok a, w') → H a w'
  error : ∀ f w', p.outcome w = (.error f, w') → I w'

namespace Course.Stays

variable {I I' : World σ → Prop} {H : α → World σ → Prop} {H' : β → World σ → Prop}

theorem done {a : α} (h : H a w) : (Course.done a).Stays I w H where
  during _ hm := absurd hm List.not_mem_nil
  ok _ _ hout := by
    cases hout
    exact h
  error _ _ hout := nomatch hout

theorem raise {f : Fault} (h : I w) : (Course.raise f).Stays I w H where
  during _ hm := absurd hm List.not_mem_nil
  ok _ _ hout := nomatch hout
  error _ _ hout := by
    cases hout
    exact h

theorem take {s : Step σ} {H : s.Reply → World σ → Prop} (before : I w)
    (ok : ∀ a w', s.act.outcome w = (.ok a, w') → H a w')
    (error : ∀ f w', s.act.outcome w = (.error f, w') → I w') : (Course.take s).Stays I w H where
  during m hm := by
    rw [moments_take, List.mem_singleton] at hm
    rw [hm]
    exact before
  ok a w' hout := ok a w' ((outcome_take s w).symm.trans hout)
  error f w' hout := error f w' ((outcome_take s w).symm.trans hout)

/-- A step that keeps the property, however it ends. -/
theorem step {s : Step σ} (before : I w) (after : I (s.act.outcome w).2) :
    (Course.take s).Stays I w fun _ => I := by
  refine .take before (fun a w' hout => ?_) fun f w' hout => ?_
  · rw [hout] at after
    exact after
  · rw [hout] at after
    exact after

/-- A step that fails and keeps the property, or leads on to a condition that includes it. -/
theorem advance {s : Step σ} {G : World σ → Prop} (before : I w)
    (ends : (∃ f, (s.act.outcome w).1 = .error f) ∧ I (s.act.outcome w).2 ∨ G (s.act.outcome w).2)
    (hG : ∀ w', G w' → I w') : (Course.take s).Stays I w fun _ => G := by
  refine .take before (fun a w' hout => ?_) fun f w' hout => ?_
  · rw [hout] at ends
    rcases ends with ⟨⟨f, failed⟩, -⟩ | done
    · cases failed
    · exact done
  · rw [hout] at ends
    rcases ends with ⟨-, kept⟩ | done
    · exact kept
    · exact hG w' done

theorem bind {p : Course σ α} {k : α → Course σ β} (hp : p.Stays I w H)
    (hk : ∀ a w', H a w' → (k a).Stays I w' H') : (p >>= k).Stays I w H' := by
  cases hr : p.outcome w with
  | mk r w₁ =>
  cases r with
  | error f =>
      refine ⟨fun m hm => ?_, fun b w' hout => ?_, fun f' w' hout => ?_⟩
      · rw [moments_andThen, hr, List.append_nil] at hm
        exact hp.during m hm
      · rw [outcome_andThen_error hr] at hout
        cases hout
      · rw [outcome_andThen_error hr] at hout
        cases hout
        exact hp.error f w₁ hr
  | ok a =>
      have rest := hk a w₁ (hp.ok a w₁ hr)
      refine ⟨fun m hm => ?_, fun b w' hout => ?_, fun f' w' hout => ?_⟩
      · rw [moments_andThen_ok hr] at hm
        rcases List.mem_append.mp hm with hm | hm
        · exact hp.during m hm
        · exact rest.during m hm
      · exact rest.ok b w' ((outcome_andThen_ok hr).symm.trans hout)
      · exact rest.error f' w' ((outcome_andThen_ok hr).symm.trans hout)

theorem attempt {p : Course σ α} (hp : p.Stays I w fun _ => I) : p.attempt.Stays I w fun _ => I where
  during m hm := by
    rw [moments_attempt] at hm
    exact hp.during m hm
  ok r w' hout := by
    rw [outcome_attempt] at hout
    cases hr : p.outcome w with
    | mk r₁ w₁ =>
    rw [hr] at hout
    cases hout
    cases r₁ with
    | ok a => exact hp.ok a w₁ hr
    | error f => exact hp.error f w₁ hr
  error f w' hout := by
    rw [outcome_attempt] at hout
    cases hout

/-- What is known of the outcome may be added to the condition. -/
theorem ending {H'' : α → World σ → Prop} {p : Course σ α} (hp : p.Stays I w H)
    (known : ∀ a w', p.outcome w = (.ok a, w') → H'' a w') :
    p.Stays I w fun a w' => H a w' ∧ H'' a w' where
  during := hp.during
  ok a w' hout := ⟨hp.ok a w' hout, known a w' hout⟩
  error := hp.error

theorem imp {H'' : α → World σ → Prop} {p : Course σ α} (hp : p.Stays I w H)
    (hI : ∀ w', I w' → I' w') (hH : ∀ a w', H a w' → H'' a w') : p.Stays I' w H'' where
  during m hm := hI _ (hp.during m hm)
  ok a w' hout := hH a w' (hp.ok a w' hout)
  error f w' hout := hI w' (hp.error f w' hout)

/-- If the condition at the end includes the property, a course ends with the property. -/
theorem last {p : Course σ α} (hp : p.Stays I w H) (hH : ∀ a w', H a w' → I w') :
    I (p.outcome w).2 := by
  cases hout : p.outcome w with
  | mk r w' =>
      cases r with
      | ok a => exact hH a w' (hp.ok a w' hout)
      | error f => exact hp.error f w' hout

theorem after {p : Course σ α} (hp : p.Stays I w H) (hH : ∀ a w', H a w' → I w') :
    ∀ m ∈ p.moments w, I m.after :=
  (runs_moments p w).forall_after hp.during (hp.last hH)

end Course.Stays

/-! ## Hooks -/

/-- A property that the hooks of a grammar keep as long as they ask for certain operations.  The
switches that they ask for keep to these operations too. -/
structure Lasts (g : Grammar σ) (allowed : Op σ → Prop) (J : World σ → Prop) : Prop where
  uses : ∀ n, allowed (.setStatus n) → (g.setStatus n).Uses allowed
  resets : allowed .recover → allowed (.setStatus 0)
  plain : ∀ o w, IsPlain o → allowed o → J w → J ((Step.act (.op o)).outcome w).2
  recovery : allowed .recover → ∀ n w, (∀ v, J v → (switchCourse g n 0).Stays J v fun _ => J) →
    J w → (recoverCourse (switchCourse g n)).Stays J w fun _ => J

namespace Lasts

variable {g : Grammar σ} {allowed : Op σ → Prop} {J : World σ → Prop}

theorem hookCourse (lasts : Lasts g allowed J) {n : Nat}
    (switches : ∀ status v, allowed (.setStatus status) → J v →
      (switchCourse g n status).Stays J v fun _ => J) :
    ∀ h : Hook σ α, h.Uses allowed → ∀ w, J w →
      (hookCourse (Engine.switchCourse g n) h).Stays J w fun _ => J
  | .done _, _, _, holds => .done holds
  | .raise _, _, _, holds => .raise holds
  | .call o next, uses, w, holds => by
      refine .bind (.attempt (?_ : (opCourse _ o).Stays J w fun _ => J)) fun r w' holds' =>
        lasts.hookCourse switches (next r) (uses.2 r) w' holds'
      cases o with
      | setStatus status => exact switches status w uses.1 holds
      | recover =>
          exact lasts.recovery uses.1 n w (fun v => switches 0 v (lasts.resets uses.1)) holds
      | _ => exact .step holds (lasts.plain _ w trivial uses.1 holds)

theorem switchCourse (lasts : Lasts g allowed J) : ∀ (n : Nat) (status : Int) (w : World σ),
    allowed (.setStatus status) → J w → (switchCourse g n status).Stays J w fun _ => J
  | 0, _, _, _, holds => .raise holds
  | n + 1, status, w, asked, holds => by
      refine .bind (.step holds holds) fun _ w₁ holds₁ => ?_
      refine .bind (lasts.hookCourse (lasts.switchCourse n) _ (lasts.uses status asked) w₁ holds₁)
        fun accepted w₂ holds₂ => ?_
      cases accepted with
      | true => exact .done holds₂
      | false => exact .raise holds₂

theorem callCourse (lasts : Lasts g allowed J) {call : HookCall} (uses : (call.hook g).Uses allowed)
    (holds : J w) : (callCourse g call).Stays J w fun _ => J :=
  .bind (.step holds holds) fun _ w₁ holds₁ =>
    lasts.hookCourse (lasts.switchCourse nestingLimit) _ uses w₁ holds₁

end Lasts

/-! ## Rounds -/

/-- Conditions on the heads of the rounds and on needles in hand, by which a property is carried
through a scan.  The number of a head goes up with each round. -/
structure Rounds (g : Grammar σ) (I : World σ → Prop) (Head : Nat → World σ → Prop)
    (Hand : Nat → Text → Nat → World σ → Prop) : Prop where
  head : ∀ {s w}, Head s w → I w
  hand : ∀ {s needle position w}, Hand s needle position w → I w
  down : ∀ {s w}, Head (s + 1) w → Head s w
  hook : ∀ {s w} call, Head s w → (callCourse g call).Stays I w fun _ => Head s
  handle : ∀ {s needle position w} status, Hand s needle position w →
    (callCourse g (.handleStatus status needle)).Stays I w fun _ => Hand s needle position
  begins : ∀ {s w}, Head s w → Head s (begun w)
  approach : ∀ {s needle position w}, Head s w → w.engine.rewound = false →
    Text.findNeedle? w.engine.needles w.engine.text w.engine.cursor = some (needle, position) →
    (Course.take (.approach position)).Stays I w fun _ => Hand (s + 1) needle position
  accept : ∀ {s needle position w}, Hand s needle position w →
    (Course.take (.accept needle)).Stays I w fun _ => Head s
  reject : ∀ {s needle position w}, Hand s needle position w →
    (Course.take (.reject needle position)).Stays I w fun _ => Head s
  recovery : ∀ {s w}, Head s w → w.engine.isStrict = false →
    (recoverCourse (switchCourse g nestingLimit)).Stays I w fun _ => Head (s + 1)
  rest : ∀ {s w}, Head s w → (Course.take .appendRest).Stays I w fun _ => Head s

namespace Rounds

variable {g : Grammar σ} {I : World σ → Prop} {Head : Nat → World σ → Prop}
  {Hand : Nat → Text → Nat → World σ → Prop} {s : Nat}

theorem needleCourse (rounds : Rounds g I Head Hand) {needle : Text} {position : Nat}
    (head : Head s w) (rewound : w.engine.rewound = false)
    (found : Text.findNeedle? w.engine.needles w.engine.text w.engine.cursor
      = some (needle, position)) :
    (needleCourse g needle position).Stays I w fun _ => Head (s + 1) := by
  refine .bind (rounds.approach head rewound found) fun status w₁ hand => ?_
  refine .bind (rounds.handle status hand) fun accepted w₂ hand => ?_
  cases accepted with
  | true => exact rounds.accept hand
  | false => exact rounds.reject hand

/-- A round that is followed by another leads to a head with a higher number. -/
theorem roundCourse (rounds : Rounds g I Head Hand) (head : Head s w) :
    (roundCourse g).Stays I w fun again w' => Head (if again then s + 1 else s) w' := by
  refine .bind (.take (H := fun e w' => w' = begun w ∧ e = w'.engine) (rounds.head head) ?_ ?_)
    fun e w₁ begins => ?_
  · rintro e w' ⟨⟩
    exact ⟨rfl, rfl⟩
  · rintro f w' ⟨⟩
  obtain ⟨rfl, rfl⟩ := begins
  have head₁ := rounds.begins head
  split
  next needle position found =>
    exact .bind (rounds.needleCourse head₁ rfl found) fun _ _ head₂ => .done head₂
  next =>
    split
    · exact .done head₁
    · split
      · exact .raise (rounds.head head₁)
      next lenient =>
        exact .bind (rounds.recovery head₁ (Bool.eq_false_iff.mpr lenient)) fun _ _ head₂ => .done head₂

/-- A scan that ends well appends the rest of the text at a head. -/
theorem scanCourse (rounds : Rounds g I Head Hand) (n : Nat) (head : Head s w) :
    (scanCourse g n).Stays I w fun _ w' =>
      Head s w' ∧ ∃ v, Head s v ∧ appendRest.outcome v = (.ok (), w') := by
  induction n generalizing s w with
  | zero => exact .raise (rounds.head head)
  | succ n ih =>
    refine .bind (rounds.roundCourse head) fun again w₁ head₁ => ?_
    cases again with
    | true =>
        refine (ih head₁).imp (fun _ h => h) fun _ w' ended => ?_
        obtain ⟨head', v, headv, rest⟩ := ended
        exact ⟨rounds.down head', v, rounds.down headv, rest⟩
    | false =>
        have appended := rounds.rest head₁
        refine .take (rounds.head head₁) (fun u w' rest => ⟨?_, w₁, head₁, rest⟩) fun f w' rest => ?_
        · exact appended.ok u w' ((Course.outcome_take ..).trans rest)
        · exact appended.error f w' ((Course.outcome_take ..).trans rest)

theorem requireCourse (rounds : Rounds g I Head Hand) (name : HookName) (call : HookCall)
    (head : Head s w) : (requireCourse g name call).Stays I w fun _ => Head s := by
  refine .bind (rounds.hook call head) fun accepted w₁ head₁ => ?_
  cases accepted with
  | true => exact .done head₁
  | false => exact .raise (rounds.head head₁)

theorem finishCourse (rounds : Rounds g I Head Hand) (head : Head s w) :
    (finishCourse g).Stays I w fun _ => Head s := by
  refine .bind (rounds.hook _ head) fun closed w₁ head₁ => ?_
  cases closed with
  | true => exact .done head₁
  | false =>
      have same : (reportOpen.outcome w₁).2 = w₁ := by
        rw [reportOpen, Act.outcome_engine]
        split
        · rfl
        · rfl
      have stays : (Course.take .reportOpen).Stays (Head s) w₁ fun _ => Head s := by
        refine .step head₁ ?_
        show Head s (reportOpen.outcome w₁).2
        rw [same]
        exact head₁
      exact stays.imp (fun _ => rounds.head) fun _ _ h => h

/-- The property holds at every step of what the grammar has a part in. -/
theorem workCourse (rounds : Rounds g I Head Hand) (n : Nat) (head : Head s w) :
    (workCourse g n).Stays I w fun _ => Head s :=
  .bind (rounds.requireCourse .init .init head) fun _ _ head₁ =>
    .bind (rounds.scanCourse n head₁) fun _ _ ended =>
    .bind (rounds.finishCourse ended.1) fun _ _ head₃ =>
    .bind (rounds.requireCourse .modifyTree .modifyTree head₃) fun _ _ head₄ =>
    rounds.requireCourse .outputTree .outputTree head₄

/-- If heads have bounded numbers, the scan ends. -/
theorem endsWithin (rounds : Rounds g I Head Hand) {b : Nat}
    (bounded : ∀ {s w}, Head s w → s ≤ b) {n : Nat} (head : Head s w) (enough : b < s + n) :
    EndsWithin g n w := by
  induction n generalizing s w with
  | zero =>
      have := bounded head
      omega
  | succ n ih =>
    have next := (rounds.roundCourse head).ok
    rw [EndsWithin, ← follows_roundCourse g w]
    generalize (Engine.roundCourse g).outcome w = out at next
    obtain ⟨r, w₁⟩ := out
    rcases r with f | _ | _
    · trivial
    · trivial
    · have head₁ : Head (s + 1) w₁ := next true w₁ rfl
      exact ih head₁ (by omega)

end Rounds

/-! ## The grammar of bold text -/

/-- The operations that the grammar of bold text asks for.  The teardown of a bold node never fails. -/
def BoldAsks : Op σ → Prop
  | .look => True
  | .setStatus _ => True
  | .push _ => True
  | .pop => True
  | .closeOpen => True
  | .edit (.create b) => b.form.teardown? = none
  | .assign (.status _) => True
  | .assign (.needles _) => True
  | _ => False

/-- Before the end of the text the grammar does not ask the engine to close what is open. -/
theorem uses_treeGrammar_of_ne {call : HookCall} (other : call ≠ .closeRemainingBlocks) :
    (call.hook (Bold.treeGrammar σ)).Uses fun o => BoldAsks o ∧ o ≠ .closeOpen := by
  cases call with
  | init => exact Hook.uses_bind_ask ⟨trivial, nofun⟩ fun _ => trivial
  | setStatus n =>
      show Hook.Uses _ (Bold.setStatus n)
      rw [Bold.setStatus]
      split
      · exact Hook.uses_bind_ask ⟨trivial, nofun⟩ fun _ =>
          Hook.uses_bind_ask ⟨trivial, nofun⟩ fun _ => trivial
      split
      · exact Hook.uses_bind_ask ⟨trivial, nofun⟩ fun _ =>
          Hook.uses_bind_ask ⟨trivial, nofun⟩ fun _ => trivial
      · trivial
  | handleStatus n needle =>
      show Hook.Uses _ (Bold.handleStatus needle)
      rw [Bold.handleStatus]
      split
      · exact Hook.uses_bind_ask ⟨trivial, nofun⟩ fun _ =>
          Hook.uses_bind_ask ⟨rfl, nofun⟩ fun _ =>
          Hook.uses_bind_ask ⟨trivial, nofun⟩ fun _ =>
          Hook.uses_bind_ask ⟨trivial, nofun⟩ fun _ => trivial
      · exact Hook.uses_bind_ask ⟨trivial, nofun⟩ fun _ =>
          Hook.uses_bind_ask ⟨trivial, nofun⟩ fun _ => trivial
  | closeRemainingBlocks => exact absurd rfl other
  | modifyTree => trivial
  | outputTree => trivial

theorem uses_treeGrammar (call : HookCall) : (call.hook (Bold.treeGrammar σ)).Uses BoldAsks := by
  by_cases closing : call = .closeRemainingBlocks
  · subst closing
    exact Hook.uses_ask trivial
  · exact (uses_treeGrammar_of_ne closing).mono fun _ asks => asks.1

end Engine

end Needlework

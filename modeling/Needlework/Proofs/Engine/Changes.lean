import Needlework.Proofs.Engine.Quiet
import Needlework.Proofs.Forest.Origins

/-!
# Changes to the tree and the stack

A grammar is *tame* when its hooks act through the operations on the open nodes only:
they open new nodes, close nodes, append text, recover and switch the status, and are
quiet otherwise (`Moment.Tame`).  Each step of a parse by a tame grammar then changes the tree and the
stack in one of a few ways (`Change`), and every change keeps them in order
(`Tidy.change`).  What holds of a whole run follows from a look at the changes.
-/

namespace Needlework

namespace Engine

open Act

variable {σ : Type} {w w' : World σ}

/-! ## Tame steps -/

/-- A node that nothing holds yet. -/
structure Fresh (w : World σ) (h : Handle) : Prop where
  known : h < w.forest.size
  parent : w.forest.parent h = none
  children : w.forest.children h = []
  notOpen : h ∉ w.engine.stack
  notAside : h ∉ w.engine.detached

instance (w : World σ) (h : Handle) : Decidable (Fresh w h) :=
  decidable_of_iff (h < w.forest.size ∧ w.forest.parent h = none ∧ w.forest.children h = []
      ∧ h ∉ w.engine.stack ∧ h ∉ w.engine.detached)
    ⟨fun ⟨a, b, c, d, e⟩ => ⟨a, b, c, d, e⟩, fun ⟨a, b, c, d, e⟩ => ⟨a, b, c, d, e⟩⟩

/-- The operations of a tame hook: besides the operations on the open nodes, of which it
opens fresh ones only, it may do what a quiet hook does. -/
def TameOp (w : World σ) : Op σ → Prop
  | .push (.node h) => Fresh w h
  | .push (.other _) => True
  | .pop => True
  | .appendText _ _ => True
  | .closeOpen => True
  | o => QuietOp o

/-- A step between the beginning and the end of a parse whose grammar is tame. -/
def Moment.Tame (m : Moment σ) : Prop :=
  match m.step with
  | .op o => TameOp m.before o
  | .load _ => False
  | .handOut => False
  | _ => True

instance (w : World σ) : DecidablePred (TameOp w)
  | .push (.node h) => inferInstanceAs (Decidable (Fresh w h))
  | .push (.other _) | .pop | .appendText _ _ | .closeOpen => inferInstanceAs (Decidable True)
  | .look => inferInstanceAs (Decidable (QuietOp (.look : Op σ)))
  | .strictness => inferInstanceAs (Decidable (QuietOp (.strictness : Op σ)))
  | .memory => inferInstanceAs (Decidable (QuietOp (.memory : Op σ)))
  | .remember s => inferInstanceAs (Decidable (QuietOp (.remember s)))
  | .setStatus n => inferInstanceAs (Decidable (QuietOp (.setStatus n : Op σ)))
  | .recover => inferInstanceAs (Decidable (QuietOp (.recover : Op σ)))
  | .edit e => inferInstanceAs (Decidable (QuietOp (.edit e : Op σ)))
  | .tamper t => inferInstanceAs (Decidable (QuietOp (.tamper t : Op σ)))
  | .assign a => inferInstanceAs (Decidable (QuietOp (.assign a : Op σ)))
  | .postfilter t => inferInstanceAs (Decidable (QuietOp (.postfilter t : Op σ)))
  | .parse input override => inferInstanceAs (Decidable (QuietOp (.parse input override : Op σ)))

instance : DecidablePred (Moment.Tame : Moment σ → Prop)
  | ⟨.op o, w⟩ => inferInstanceAs (Decidable (TameOp w o))
  | ⟨.load _, _⟩ | ⟨.handOut, _⟩ => inferInstanceAs (Decidable False)
  | ⟨.enter _, _⟩ | ⟨.withdraw, _⟩ | ⟨.resume _ _, _⟩ | ⟨.beginRound, _⟩ | ⟨.approach _, _⟩
  | ⟨.accept _, _⟩ | ⟨.reject _ _, _⟩ | ⟨.appendRest, _⟩ | ⟨.reportOpen, _⟩ =>
      inferInstanceAs (Decidable True)

/-! ## Changes -/

/-- What a tame step can do to the tree and the stack. -/
inductive Change (w w' : World σ) : Prop where
  | still : w'.forest = w.forest → w'.engine.stack = w.engine.stack →
      w'.engine.detached = w.engine.detached → Change w w'
  | created {bp : Blueprint} : w'.forest = (w.forest.add bp).2 →
      w'.engine.stack = w.engine.stack → w'.engine.detached = w.engine.detached → Change w w'
  | opened {top h : Handle} {rest : List Handle} : w.engine.stack = top :: rest → Fresh w h →
      w.forest.Insertable top h → w'.forest = w.forest.link top h (w.forest.children top ++ [h]) →
      w'.engine.stack = h :: w.engine.stack → w'.engine.detached = w.engine.detached → Change w w'
  | closed {top : Handle} {rest : List Handle} : w.engine.stack = top :: rest →
      w'.forest = w.forest → w'.engine.stack = rest →
      w'.engine.detached = w.engine.detached → Change w w'
  | wrote {top : Handle} {rest : List Handle} {t : Text} {origin : Option Int} :
      w.engine.stack = top :: rest → w.forest.Writes top t origin w'.forest →
      w'.engine.stack = w.engine.stack → w'.engine.detached = w.engine.detached → Change w w'
  | withdrawn {top p : Handle} {rest : List Handle} : w.engine.stack = top :: rest →
      w.forest.parent top = some p → w'.forest = w.forest.unlink p top →
      w'.engine.stack = rest → w'.engine.detached = top :: w.engine.detached → Change w w'
  | closedAll : w'.forest = w.forest → w'.engine.stack = w.engine.stack.getLast?.toList →
      w'.engine.detached = w.engine.detached → Change w w'

/-- The forest is well formed and the open nodes are in it. -/
structure Tidy (w : World σ) : Prop where
  wellFormed : w.forest.WellFormed
  known : ∀ h ∈ w.engine.stack, h < w.forest.size

theorem Change.of_unmoved (h : Unmoved w w') : Change w w' := .still h.forest h.stack h.detached

theorem Change.originsKept (h : Change w w') : w.forest.OriginsKept w'.forest := by
  cases h with
  | still hf _ _ => rw [hf]; exact .refl _
  | created hf _ _ => rw [hf]; exact .add _
  | opened _ _ _ hf _ _ =>
      rw [hf]
      exact (Forest.OriginsKept.setChildren _ _).trans (.setParent _ _)
  | closed _ hf _ _ => rw [hf]; exact .refl _
  | wrote _ hw _ _ => exact .writes hw
  | withdrawn _ _ hf _ _ =>
      rw [hf]
      exact (Forest.OriginsKept.setChildren _ _).trans (.setParent _ _)
  | closedAll hf _ _ => rw [hf]; exact .refl _

theorem Tidy.change (tidy : Tidy w) (h : Change w w') : Tidy w' := by
  have size := h.originsKept.size
  have known : ∀ k ∈ w.engine.stack, k < w'.forest.size := fun k hk =>
    Nat.lt_of_lt_of_le (tidy.known k hk) size
  cases h with
  | still hf hs _ => exact ⟨by rw [hf]; exact tidy.wellFormed, by rw [hs]; exact known⟩
  | created hf hs _ => exact ⟨by rw [hf]; exact tidy.wellFormed.add _, by rw [hs]; exact known⟩
  | opened htop fresh insertable hf hs _ =>
      refine ⟨?_, fun k hk => ?_⟩
      · rw [hf]
        refine tidy.wellFormed.link (tidy.known _ ?_) fresh.known fresh.parent insertable.kind
          insertable.alive insertable.notOver (List.perm_append_singleton _ _)
        rw [htop]
        exact List.mem_cons_self ..
      · rw [hs] at hk
        rcases List.mem_cons.mp hk with rfl | hk
        · exact Nat.lt_of_lt_of_le fresh.known size
        · exact known k hk
  | closed htop hf hs _ =>
      refine ⟨by rw [hf]; exact tidy.wellFormed, fun k hk => known k ?_⟩
      rw [hs] at hk
      rw [htop]
      exact List.mem_cons_of_mem _ hk
  | wrote htop hw hs _ =>
      refine ⟨tidy.wellFormed.writes (tidy.known _ ?_) hw, by rw [hs]; exact known⟩
      rw [htop]
      exact List.mem_cons_self ..
  | withdrawn htop hp hf hs _ =>
      refine ⟨by rw [hf]; exact tidy.wellFormed.unlink hp, fun k hk => known k ?_⟩
      rw [hs] at hk
      rw [htop]
      exact List.mem_cons_of_mem _ hk
  | closedAll hf hs _ =>
      refine ⟨by rw [hf]; exact tidy.wellFormed, fun k hk => known k ?_⟩
      rw [hs, Option.mem_toList] at hk
      exact List.mem_of_getLast? hk

/-! ## Tame steps make changes -/

theorem Tidy.wrote (tidy : Tidy w) (t : Text) (offset : Option Int)
    (hf : w'.forest = textForest w t offset) (hs : w'.engine.stack = w.engine.stack)
    (hd : w'.engine.detached = w.engine.detached) : Change w w' := by
  rw [textForest] at hf
  cases htop : w.engine.stack with
  | nil =>
      rw [htop] at hf
      exact .still hf hs hd
  | cons top rest =>
      rw [htop] at hf
      by_cases ht : t = []
      · subst ht
        exact .still hf hs hd
      have known : top < w.forest.size := by
        refine tidy.known top ?_
        rw [htop]
        exact List.mem_cons_self ..
      obtain ⟨f', hrun, hw⟩ := tidy.wellFormed.run_appendToLastText known ht
        (some (offset.getD w.engine.cursor))
      dsimp only at hf
      rw [Forest.after_of_ok hrun] at hf
      rw [← hf] at hw
      exact .wrote htop hw hs hd

theorem Tidy.change_push (tidy : Tidy w) {n : Arg} (tame : TameOp w (.push n)) :
    Change w ((push n).outcome w).2 := by
  have known : ∀ {top rest}, w.engine.stack = top :: rest → top < w.forest.size := by
    intro top rest hs
    refine tidy.known top ?_
    rw [hs]
    exact List.mem_cons_self ..
  rcases push_cases n w
    with ⟨e, f, hout, rfl | ⟨top, rest, h, hs, rfl, hr⟩⟩ | ⟨top, rest, h, f, hs, rfl, hr, hout⟩
  · rw [hout]
    exact .still rfl rfl rfl
  · rw [hout]
    rcases tidy.wellFormed.append_cases (known hs) h with ⟨e', he'⟩ | ⟨-, hok⟩
    · rw [hr] at he'
      cases he'
      exact .still rfl rfl rfl
    · rw [hr] at hok
      cases hok
  · rw [hout]
    rcases tidy.wellFormed.append_cases (known hs) h with ⟨e', he'⟩ | ⟨insertable, hok⟩
    · rw [hr] at he'
      cases he'
    · rw [hr, Forest.uproot_of_parent_none tame.parent] at hok
      cases hok
      exact .opened hs tame insertable rfl rfl rfl

/-- A fresh node that is opened becomes the last child of the innermost open node. -/
theorem Tidy.push_fresh (tidy : Tidy w) {h x : Handle} (fresh : Fresh w h)
    (returned : (push (.node h)).outcome w = (.ok x, w')) :
    ∃ top rest, w.engine.stack = top :: rest
      ∧ w' = (w.withForest (w.forest.link top h (w.forest.children top ++ [h]))).onEngine fun e =>
          count (fun m => { m with pushed := m.pushed + 1 }) { e with stack := h :: e.stack } := by
  rcases push_cases (.node h) w with ⟨e, f, hout, -⟩ | ⟨top, rest, h', f, hs, hn, hrun, hout⟩
  · rw [returned] at hout
    cases hout
  cases hn
  have known : top < w.forest.size := by
    refine tidy.known top ?_
    rw [hs]
    exact List.mem_cons_self ..
  rcases tidy.wellFormed.append_cases known h with ⟨e, he⟩ | ⟨-, hok⟩
  · rw [hrun] at he
    cases he
  rw [hrun, Forest.uproot_of_parent_none fresh.parent] at hok
  cases hok
  rw [returned] at hout
  cases hout
  exact ⟨top, rest, hs, rfl⟩

/-- The innermost open node that a recovery takes out is cut from its parent, and knows where it
began. -/
theorem Tidy.withdraw_ok (tidy : Tidy w) {h : Handle} {o : Int}
    (returned : withdraw.outcome w = (.ok (h, o), w')) :
    ∃ next rest p, w.engine.stack = h :: next :: rest ∧ w.forest.parent h = some p
      ∧ (w.forest.node h).origin = some o
      ∧ w' = (w.withForest (w.forest.unlink p h)).onEngine fun e =>
          { e with detached := h :: e.detached, stack := next :: rest } := by
  obtain ⟨next, rest, p, c, f, hs, hp, hrun, hout, ho, -⟩ := exists_of_withdraw returned
  rw [tidy.wellFormed.run_removeNode hp] at hrun
  cases hrun
  rw [Forest.node_unlink (tidy.wellFormed.parent_lt_size hp) (Forest.lt_size_of_parent hp)] at ho
  exact ⟨next, rest, p, hs, hp, ho, hout⟩

theorem Tidy.change_op (tidy : Tidy w) {o : Op σ} (tame : TameOp w o) :
    Change w ((Step.act (.op o)).outcome w).2 := by
  cases o with
  | look => exact .still rfl rfl rfl
  | strictness => exact .still rfl rfl rfl
  | memory => exact .still rfl rfl rfl
  | remember s => exact .still rfl rfl rfl
  | setStatus n => exact tame.elim
  | push n => exact tidy.change_push tame
  | pop =>
      show Change w (pop.outcome w).2
      rcases pop_cases w with ⟨e, hout⟩ | ⟨top, next, rest, hs, hout⟩
      · rw [hout]
        exact .still rfl rfl rfl
      · rw [hout]
        exact .closed hs rfl rfl rfl
  | appendText t offset =>
      show Change w ((appendText t offset).outcome w).2
      rw [after_appendText]
      exact tidy.wrote t offset rfl rfl rfl
  | recover => exact tame.elim
  | closeOpen =>
      rcases closeOpen_cases w with ⟨b, hout⟩ | hu
      · show Change w (closeOpen.outcome w).2
        rw [hout]
        exact .still rfl rfl rfl
      · exact .closedAll hu.forest hu.stack hu.detached
  | edit e =>
      cases e with
      | create bp =>
          show Change w ((tree (Forest.create bp)).outcome w).2
          rw [outcome_tree]
          rcases Forest.create_cases bp w.forest with ⟨e, he⟩ | hr
          · rw [he]
            exact .still rfl rfl rfl
          · rw [hr]
            exact .created rfl rfl rfl
      | _ => exact tame.elim
  | tamper t => exact tame.elim
  | assign a =>
      cases a with
      | strict v => exact .still rfl rfl rfl
      | output v => exact .still rfl rfl rfl
      | status n => exact .still rfl rfl rfl
      | needles ws => exact .still rfl rfl rfl
      | _ => exact tame.elim
  | postfilter t => exact .of_unmoved (unmoved_applyFilters .post t w)
  | parse input override => exact .of_unmoved (unmoved_refuseParse w)

theorem Tidy.change_withdraw (tidy : Tidy w) : Change w (withdraw.outcome w).2 := by
  rcases withdraw_cases w
    with ⟨e, he⟩ | ⟨top, next, rest, p, hs, hp, ⟨e, f, hr, -⟩ | ⟨c, f, hr, hout, -⟩⟩
  · rw [he]
    exact .still rfl rfl rfl
  · rw [tidy.wellFormed.run_removeNode hp] at hr
    cases hr
  · rw [tidy.wellFormed.run_removeNode hp] at hr
    cases hr
    rw [hout]
    exact .withdrawn hs hp rfl rfl rfl

theorem Tidy.change_resume (tidy : Tidy w) (top : Handle) (origin : Int) :
    Change w ((resume top origin).outcome w).2 := by
  rcases resume_cases top origin w with ⟨e, f, hout, hf⟩ | ⟨c, inner, rest, f, -, hs, hr, hu⟩
  · rw [hout]
    rcases hf with rfl | ⟨c, rfl⟩
    · exact .still rfl rfl rfl
    · exact tidy.wrote [c] (some origin) rfl rfl rfl
  · refine tidy.wrote [c] (some origin) (hu.forest.trans ?_) hu.stack hu.detached
    rw [textForest, hs]
    exact (Forest.after_of_ok hr).symm

theorem Tidy.change_approach (tidy : Tidy w) (position : Nat) :
    Change w ((approach position).outcome w).2 := by
  rcases approach_cases position w with ⟨e, hout⟩ | ⟨-, hout⟩
  · rw [hout]
    exact tidy.wrote _ none rfl rfl rfl
  · rw [hout]
    exact tidy.wrote _ none rfl rfl rfl

theorem change_accept (needle : Text) (w : World σ) : Change w ((accept needle).outcome w).2 := by
  rw [outcome_accept]
  dsimp only
  split
  · exact .still rfl rfl rfl
  · exact .still rfl rfl rfl

theorem Tidy.change_reject (tidy : Tidy w) (needle : Text) (position : Nat) :
    Change w ((reject needle position).outcome w).2 := by
  rcases reject_cases needle position w
    with ⟨e, w', hout, f, hu, hf⟩ | ⟨c, inner, rest, f, w', -, hs, hr, hout, hu⟩
  · rw [hout]
    rcases hf with rfl | ⟨c, rfl⟩
    · exact .still hu.forest hu.stack hu.detached
    · exact tidy.wrote [c] none hu.forest hu.stack hu.detached
  · rw [hout]
    refine tidy.wrote [c] none (hu.forest.trans ?_) hu.stack hu.detached
    rw [textForest, hs]
    exact (Forest.after_of_ok hr).symm

theorem Tidy.change_appendRest (tidy : Tidy w) : Change w (appendRest.outcome w).2 := by
  rcases appendRest_cases w with ⟨hout, -⟩ | ⟨e, hout⟩ | ⟨-, -, hout⟩
  · rw [hout]
    exact .still rfl rfl rfl
  · rw [hout]
    exact tidy.wrote _ none rfl rfl rfl
  · rw [hout]
    exact tidy.wrote _ none rfl rfl rfl

theorem change_reportOpen (w : World σ) : Change w (reportOpen.outcome w).2 := by
  rw [reportOpen, outcome_engine]
  split
  · exact .still rfl rfl rfl
  · exact .still rfl rfl rfl

/-- A tame step changes the tree and the stack in one of the ways listed. -/
theorem Tidy.change_tame {m : Moment σ} (tidy : Tidy m.before) (tame : m.Tame) :
    Change m.before m.after := by
  obtain ⟨step, w⟩ := m
  cases step with
  | enter call => exact .still rfl rfl rfl
  | op o => exact tidy.change_op tame
  | withdraw => exact tidy.change_withdraw
  | resume top origin => exact tidy.change_resume top origin
  | beginRound => exact .still rfl rfl rfl
  | approach position => exact tidy.change_approach position
  | accept needle => exact change_accept needle w
  | reject needle position => exact tidy.change_reject needle position
  | appendRest => exact tidy.change_appendRest
  | load input => exact tame.elim
  | reportOpen => exact change_reportOpen w
  | handOut => exact tame.elim

/-! ## Tame parses -/

theorem Begins.tidy {f : Forest} (h : Begins w w' f) (wf : w.forest.WellFormed) : Tidy w' := by
  refine ⟨?_, fun k hk => ?_⟩
  · rw [h.forest]
    exact (h.wellFormed wf).add _
  · rw [h.stack, List.mem_singleton] at hk
    rw [hk, h.forest, Forest.size_add]
    exact Nat.lt_succ_self _

/-- Every step of a tame parse is taken in a tidy world. -/
theorem tidy_of_tame {α : Type} {p : Course σ α} (tidy : Tidy w)
    (tame : ∀ m ∈ p.moments w, m.Tame) : ∀ m ∈ p.moments w, Tidy m.before := by
  induction p generalizing w with
  | done a => exact fun m hm => absurd hm List.not_mem_nil
  | raise f => exact fun m hm => absurd hm List.not_mem_nil
  | step s next ih =>
      intro m hm
      rw [Course.moments] at hm tame
      rcases List.mem_cons.mp hm with rfl | hm
      · exact tidy
      · have first : Change w (s.act.outcome w).2 :=
          Tidy.change_tame (m := ⟨s, w⟩) tidy (tame _ (List.mem_cons_self ..))
        exact ih _ (tidy.change first) (fun k hk => tame k (List.mem_cons_of_mem _ hk)) m hm

end Engine

end Needlework

import Needlework.Proofs.Engine.Disposal
import Needlework.Proofs.Forest.Branches

/-!
# The open nodes are a rightmost branch

While a grammar works with the operations on the open nodes, these go from the root down along
last children, each once, and none of them is destroyed (`OnRightmostBranch`).  The grammar may open
any node that exists.  A node that was closed, put aside or built elsewhere leaves its old place
then, be it in the same tree, and an open node is refused since it is over the innermost one.

*Bottom.*  The root is never closed, neither by the grammar nor by the engine.  Apart from a recovery
the engine opens and closes nothing by itself (`held_after`).

*Branch.*  A step writes below the innermost open node, opens a node there, or closes nodes
(`Upright.after`).  So a recovery always finds a parent of the node that it takes out.
-/

namespace Needlework

namespace Engine

open Act

variable {σ : Type} {w w' : World σ} {m : Moment σ}

/-! ## Helpers -/

/-- The operations of a grammar on the open nodes.  It may open any node in the table.  Besides
it may do what a quiet hook does. -/
def HelperOp (w : World σ) : Op σ → Prop
  | .push n => n.Fits w.forest
  | .pop | .appendText _ _ | .closeOpen => True
  | o => QuietOp o

/-- A step of a parse whose hooks use the operations on the open nodes only. -/
def Moment.Helped (m : Moment σ) : Prop :=
  match m.step with
  | .op o => HelperOp m.before o
  | _ => True

instance (w : World σ) : DecidablePred (HelperOp w)
  | .push n => inferInstanceAs (Decidable (n.Fits w.forest))
  | .pop | .appendText _ _ | .closeOpen => inferInstanceAs (Decidable True)
  | .look => inferInstanceAs (Decidable (QuietOp (.look : Op σ)))
  | .strictness => inferInstanceAs (Decidable (QuietOp (.strictness : Op σ)))
  | .memory => inferInstanceAs (Decidable (QuietOp (.memory : Op σ)))
  | .remember s => inferInstanceAs (Decidable (QuietOp (.remember s)))
  | .setStatus n => inferInstanceAs (Decidable (QuietOp (.setStatus n : Op σ)))
  | .recover => inferInstanceAs (Decidable (QuietOp (.recover : Op σ)))
  | .edit e => inferInstanceAs (Decidable (QuietOp (.edit e : Op σ)))
  | .tamper t => inferInstanceAs (Decidable (QuietOp (.tamper t : Op σ)))
  | .assign a => inferInstanceAs (Decidable (QuietOp (.assign a : Op σ)))
  | .postfilter t => inferInstanceAs (Decidable (QuietOp (.postfilter t : Op σ)))
  | .parse input override => inferInstanceAs (Decidable (QuietOp (.parse input override : Op σ)))

instance : DecidablePred (Moment.Helped : Moment σ → Prop)
  | ⟨.op o, w⟩ => inferInstanceAs (Decidable (HelperOp w o))
  | ⟨.enter _, _⟩ | ⟨.withdraw, _⟩ | ⟨.resume _ _, _⟩ | ⟨.beginRound, _⟩ | ⟨.approach _, _⟩
  | ⟨.accept _, _⟩ | ⟨.reject _ _, _⟩ | ⟨.appendRest, _⟩ | ⟨.load _, _⟩ | ⟨.reportOpen, _⟩
  | ⟨.handOut, _⟩ => inferInstanceAs (Decidable True)

theorem HelperOp.lawful {o : Op σ} (helped : HelperOp w o) : LawfulOp w o := by
  cases o with
  | push n => exact helped
  | edit e =>
      cases e with
      | create bp => trivial
      | _ => exact helped.elim
  | tamper t => exact helped.elim
  | setStatus n => exact helped.elim
  | recover => exact helped.elim
  | assign a =>
      cases a with
      | root r => exact helped.elim
      | stack hs => exact helped.elim
      | _ => trivial
  | _ => trivial

/-- Helpers destroy nothing. -/
theorem Moment.Helped.gentle (helped : m.Helped) : m.Gentle := by
  obtain ⟨step, w⟩ := m
  cases step with
  | op o =>
      refine ⟨HelperOp.lawful helped, fun e he => ?_⟩
      cases o with
      | edit e' =>
          cases he
          cases e with
          | create bp => trivial
          | _ => exact helped.elim
      | _ => cases he
  | _ => exact ⟨trivial, nofun⟩

/-! ## The branch -/

/-- The open nodes are a rightmost branch from the root. -/
structure Upright (w : World σ) : Prop where
  bottom : ∃ r, w.engine.root = some r ∧ w.engine.stack.getLast? = some r
  branch : w.forest.Branch w.engine.stack

namespace Upright

/-- The stack is what it was. -/
theorem of_stack (upright : Upright w) (root : w'.engine.root = w.engine.root)
    (stack : w'.engine.stack = w.engine.stack)
    (branch : w.forest.Branch w.engine.stack → w'.forest.Branch w.engine.stack) : Upright w' := by
  refine ⟨?_, ?_⟩
  · rw [root, stack]
    exact upright.bottom
  · rw [stack]
    exact branch upright.branch

/-- New nodes in the table make no difference. -/
theorem extend (upright : Upright w) (tidy : Tidy w) (same : Extends w w') : Upright w' := by
  refine upright.of_stack same.root same.stack fun branch => ?_
  cases hs : w.engine.stack with
  | nil => exact .nil
  | cons top rest =>
      rw [hs] at branch
      refine branch.congr_below tidy.wellFormed fun y hy _ => ?_
      have known : y < w.forest.size := by
        refine tidy.known y ?_
        rw [hs]
        exact List.mem_cons_of_mem _ hy
      rw [Forest.children, same.node y known]
      rfl

/-- What the tidiness of a world says of the open nodes. -/
theorem known_of_stack (tidy : Tidy w) {top : Handle} {rest : List Handle}
    (htop : w.engine.stack = top :: rest) : top < w.forest.size ∧ ∀ y ∈ rest, y < w.forest.size := by
  have known := tidy.known
  rw [htop] at known
  exact ⟨known top List.mem_cons_self, fun y hy => known y (List.mem_cons_of_mem _ hy)⟩

/-- A change that opens and closes nothing makes no difference. -/
theorem change (upright : Upright w) (tidy : Tidy w) (change : Change w w')
    (root : w'.engine.root = w.engine.root) (stack : w'.engine.stack = w.engine.stack) :
    Upright w' := by
  refine upright.of_stack root stack fun branch => ?_
  cases change with
  | still hf => rw [hf]; exact branch
  | closed _ hf => rw [hf]; exact branch
  | closedAll hf => rw [hf]; exact branch
  | @created bp hf =>
      cases htop : w.engine.stack with
      | nil => exact .nil
      | cons top rest =>
          rw [htop] at branch
          exact branch.congr_below tidy.wellFormed fun y _ _ => by rw [hf, Forest.children_add]
  | @wrote top rest t origin htop writes =>
      rw [htop] at branch ⊢
      obtain ⟨known, others⟩ := known_of_stack tidy htop
      exact branch.congr_below tidy.wellFormed fun y hy ne => writes.children_of_ne known (others y hy) ne
  | opened htop _ _ _ hs =>
      rw [hs] at stack
      exact absurd (congrArg List.length stack) (by simp)
  | withdrawn htop _ _ hs =>
      rw [hs, htop] at stack
      exact absurd (congrArg List.length stack) (by simp)

/-- A node is opened, wherever it was before. -/
theorem push (upright : Upright w) (tidy : Tidy w) {n : Arg} (fits : n.Fits w.forest) :
    Upright ((push n).outcome w).2 := by
  rcases push_cases n w
    with ⟨e, f, hout, rfl | ⟨top, rest, h, hs, rfl, hr⟩⟩ | ⟨top, rest, h, f, hs, rfl, hr, hout⟩
  · rw [hout]
    exact upright
  · rcases tidy.wellFormed.append_cases (known_of_stack tidy hs).1 h with ⟨e', he'⟩ | ⟨-, hok⟩
    · rw [hr] at he'
      cases he'
      rw [hout]
      exact upright
    · rw [hr] at hok
      cases hok
  · have known := (known_of_stack tidy hs).1
    rcases tidy.wellFormed.append_cases known h with ⟨e', he'⟩ | ⟨insertable, hok⟩
    · rw [hr] at he'
      cases he'
    · rw [hr] at hok
      cases hok
      rw [hout]
      obtain ⟨r, root, bottom⟩ := upright.bottom
      have branch := upright.branch
      rw [hs] at bottom branch
      refine ⟨⟨r, root, ?_⟩, ?_⟩
      · show (h :: w.engine.stack).getLast? = some r
        rw [hs, List.getLast?_cons_cons]
        exact bottom
      · show Forest.Branch _ (h :: w.engine.stack)
        rw [hs]
        exact branch.insert tidy.wellFormed known fits insertable

/-- The innermost open node is closed, and it was not the only one. -/
theorem close (upright : Upright w) {top next : Handle} {rest : List Handle}
    (htop : w.engine.stack = top :: next :: rest) (root : w'.engine.root = w.engine.root)
    (stack : w'.engine.stack = next :: rest)
    (branch : w.forest.Branch (next :: rest) → w'.forest.Branch (next :: rest)) : Upright w' := by
  obtain ⟨r, hr, bottom⟩ := upright.bottom
  rw [htop, List.getLast?_cons_cons] at bottom
  refine ⟨⟨r, root.trans hr, ?_⟩, ?_⟩
  · rw [stack]
    exact bottom
  · have chain := upright.branch
    rw [htop] at chain
    rw [stack]
    exact branch chain.tail

/-- An open node that is not the root has the next one as its parent. -/
theorem parent (upright : Upright w) (tidy : Tidy w) {top next : Handle} {rest : List Handle}
    (htop : w.engine.stack = top :: next :: rest) : w.forest.parent top = some next := by
  have branch := upright.branch
  rw [htop] at branch
  exact branch.parent tidy.wellFormed

theorem withdraw (upright : Upright w) (tidy : Tidy w) : Upright (withdraw.outcome w).2 := by
  rcases withdraw_cases w
    with ⟨e, hout⟩ | ⟨top, next, rest, p, hs, hp, ⟨e, f, hr, -⟩ | ⟨c, f, hr, hout, -⟩⟩
  · rw [hout]
    exact upright
  · rw [tidy.wellFormed.run_removeNode hp] at hr
    cases hr
  · rw [tidy.wellFormed.run_removeNode hp] at hr
    cases hr
    rw [hout]
    refine upright.close hs rfl rfl fun branch => ?_
    -- The node is cut from the next one, and nothing else on the branch has it as a child.
    have wf := tidy.wellFormed
    have next_eq := upright.parent tidy hs
    rw [hp] at next_eq
    cases next_eq
    refine branch.congr_below wf fun y _ ne => ?_
    rw [World.forest_onEngine, World.forest_withForest,
      Forest.children_unlink (wf.parent_lt_size hp) (Forest.lt_size_of_parent hp), if_neg ne]

theorem op (upright : Upright w) (tidy : Tidy w) {o : Op σ} (helped : HelperOp w o) :
    Upright ((Step.act (.op o)).outcome w).2 := by
  cases o with
  | push n => exact upright.push tidy helped
  | pop =>
      show Upright (pop.outcome w).2
      rcases pop_cases w with ⟨e, hout⟩ | ⟨top, next, rest, hs, hout⟩
      · rw [hout]
        exact upright
      · rw [hout]
        exact upright.close hs rfl rfl id
  | appendText t offset =>
      show Upright ((appendText t offset).outcome w).2
      rw [after_appendText]
      exact upright.change tidy (tidy.wrote t offset rfl rfl rfl) rfl rfl
  | closeOpen =>
      show Upright (closeOpen.outcome w).2
      rcases closeOpen_cases w with ⟨b, hout⟩ | moved
      · rw [hout]
        exact upright
      · obtain ⟨r, root, bottom⟩ := upright.bottom
        have stack : (closeOpen.outcome w).2.engine.stack = [r] := by
          rw [moved.stack, World.engine_onEngine, bottom]
          rfl
        refine ⟨⟨r, moved.root.trans root, ?_⟩, ?_⟩
        · rw [stack]
          rfl
        · rw [stack]
          exact .singleton _ r
  | _ => exact upright.extend tidy (extends_quiet _ w helped)

/-- Every step of the work keeps the open nodes on a rightmost branch. -/
theorem after (upright : Upright m.before) (tidy : Tidy m.before) (helped : m.Helped)
    (isWork : m.step.IsWork) : Upright m.after := by
  by_cases noOp : ∀ o, m.step ≠ .op o
  · by_cases recovery : m.step = .withdraw
    · obtain ⟨step, w⟩ := m
      obtain rfl : step = .withdraw := recovery
      exact upright.withdraw tidy
    · exact upright.change tidy (m.change_of_noOp tidy isWork noOp) (root_after m isWork noOp)
        (congrArg Prod.snd (held_after isWork noOp recovery))
  · obtain ⟨step, w⟩ := m
    obtain ⟨o, rfl⟩ : ∃ o, step = .op o := by simpa using noOp
    exact upright.op tidy helped

theorem fault_originOf {top : Handle} {e : Fault} (failed : ((originOf top).outcome w).1 = .error e) :
    ∃ i o, e = .recovery (.unknownOrigin i o) := by
  rw [originOf, outcome_get] at failed
  dsimp only at failed
  cases origin : (w.forest.node top).origin with
  | none =>
      rw [origin] at failed
      cases failed
      exact ⟨_, _, rfl⟩
  | some o =>
      rw [origin] at failed
      dsimp only at failed
      rw [outcome_engine] at failed
      split at failed
      · cases failed
        exact ⟨_, _, rfl⟩
      · cases failed

/-- A recovery finds the parent of the node that it takes out. -/
theorem reply_withdraw (upright : Upright w) (tidy : Tidy w) (i : Int) :
    (Engine.withdraw.outcome w).1 ≠ .error (.recovery (.notAttached i)) := by
  intro failed
  rw [Engine.withdraw, outcome_engine] at failed
  cases hs : w.engine.stack with
  | nil =>
      rw [hs] at failed
      cases failed
  | cons top rest =>
    cases rest with
    | nil =>
        rw [hs] at failed
        cases failed
    | cons next rest =>
      have hp := upright.parent tidy hs
      rw [hs] at failed
      dsimp only at failed
      by_cases limit : w.engine.limitReached = true
      · rw [if_pos limit] at failed
        cases failed
      rw [if_neg limit, outcome_get, hp] at failed
      dsimp only at failed
      rw [outcome_bind, outcome_putAside, tidy.wellFormed.run_removeNode hp] at failed
      dsimp only at failed
      -- Only the origin can be missing now.
      rw [outcome_bind] at failed
      generalize origin : (originOf top).outcome _ = out at failed
      obtain ⟨r, w'⟩ := out
      cases r with
      | ok o => cases failed
      | error e =>
          obtain ⟨j, o, rfl⟩ := fault_originOf (congrArg Prod.fst origin)
          cases failed

end Upright

theorem Begins.upright {f : Forest} (begins : Begins w w' f) : Upright w' := by
  refine ⟨⟨f.size, begins.root, ?_⟩, ?_⟩
  · rw [begins.stack]
    rfl
  · rw [begins.stack]
    exact .singleton _ _

/-- Whatever the helpers are used for, every step is taken with the open nodes on a rightmost
branch, in order and alive. -/
theorem Runs.upright {ms : List (Moment σ)} (runs : Runs w ms w') (orderly : Orderly w)
    (unharmed : Unharmed w) (upright : Upright w) (helped : ∀ m ∈ ms, m.Helped)
    (isWork : ∀ m ∈ ms, m.step.IsWork) :
    ∀ m ∈ ms, Orderly m.before ∧ Unharmed m.before ∧ Upright m.before := by
  induction runs with
  | nil => simp
  | @cons m ms w' _ ih =>
      have helps := helped m List.mem_cons_self
      have working := isWork m List.mem_cons_self
      have gentle := helps.gentle
      have tends := tends_lawful orderly.toTidy gentle.1 working
      have marks := marksKept_gentle orderly.toTidy gentle working
      have later := ih (orderly.tends tends) (unharmed.tends orderly tends marks)
        (upright.after orderly.toTidy helps working)
        (fun k hk => helped k (List.mem_cons_of_mem _ hk))
        fun k hk => isWork k (List.mem_cons_of_mem _ hk)
      intro k hk
      rcases List.mem_cons.1 hk with rfl | hk
      · exact ⟨orderly, unharmed, upright⟩
      · exact later k hk

/-! ## The steps of the work -/

/-- A step of the work is taken after the text was set. -/
theorem exists_of_isWork {g : Grammar σ} {rounds : Nat} {input : Input}
    (hm : m ∈ (buildCourse g rounds input).moments w) (isWork : m.step.IsWork) :
    ∃ u, (load input).outcome w = (.ok (), u) ∧ m ∈ (workCourse g rounds).moments u := by
  obtain ⟨⟨ended, w'⟩, built⟩ : ∃ out, (build g rounds input).outcome w = out := ⟨_, rfl⟩
  have stages := stages_of_build built
  generalize (buildCourse g rounds input).moments w = ms at hm stages
  cases stages with
  | unread =>
      rw [List.mem_singleton.1 hm] at isWork
      exact isWork.elim
  | broken loaded =>
      rcases List.mem_cons.1 hm with rfl | hm
      · exact isWork.elim
      · exact ⟨_, loaded, hm⟩
  | worked loaded =>
      rcases List.mem_cons.1 hm with rfl | hm
      · exact isWork.elim
      rcases List.mem_append.1 hm with hm | hm
      · exact ⟨_, loaded, hm⟩
      · rw [List.mem_singleton.1 hm] at isWork
        exact isWork.elim

theorem mem_moments_of_load {g : Grammar σ} {rounds : Nat} {input : Input}
    (loaded : (load input).outcome w = (.ok (), w')) (hm : m ∈ (workCourse g rounds).moments w') :
    m ∈ (buildCourse g rounds input).moments w := by
  have first : (Course.take (.load input)).outcome w = (.ok (), w') :=
    (Course.outcome_take ..).trans loaded
  rw [buildCourse, Course.moments_andThen_ok first, Course.moments_andThen]
  exact List.mem_append_right _ (List.mem_append_left _ hm)

/-- A step of the work of a parse is taken with the open nodes on a rightmost branch, in order and
alive. -/
theorem upright_of_mem {g : Grammar σ} {rounds : Nat} {input : Input} {override : Option Text}
    (wf : w.forest.WellFormed) (helped : ∀ m ∈ parseMoments g rounds input override w, m.Helped)
    (hm : m ∈ parseMoments g rounds input override w) (isWork : m.step.IsWork) :
    Orderly m.before ∧ Unharmed m.before ∧ Upright m.before := by
  obtain ⟨u, loaded, member⟩ := exists_of_isWork hm isWork
  obtain ⟨f, begins⟩ := begins_of_load loaded
  obtain ⟨orderly, unharmed⟩ := begins.orderly wf
  have helped' : ∀ k ∈ (workCourse g rounds).moments u, k.Helped := fun k hk =>
    helped k (mem_moments_of_load loaded hk)
  exact (runs_moments (workCourse g rounds) u).upright orderly unharmed begins.upright helped'
    (workSteps_isWork.workCourse g rounds u) m member

/-! ## What a grammar sees -/

/-- From the root on, each open node is followed by its last child. -/
structure OnRightmostBranch (w : World σ) : Prop where
  root : ∃ r, w.engine.root = some r ∧ w.engine.stack.reverse[0]? = some r
  nodup : w.engine.stack.reverse.Nodup
  alive : ∀ h ∈ w.engine.stack.reverse, (w.forest.node h).destroyed = false
  followed : ∀ i y x, w.engine.stack.reverse[i]? = some y → w.engine.stack.reverse[i + 1]? = some x →
    w.forest.parent x = some y ∧ w.forest.lastChild? y = some x

theorem Upright.onRightmostBranch (upright : Upright w) (orderly : Orderly w)
    (unharmed : Unharmed w) : OnRightmostBranch w := by
  have wf := orderly.wellFormed
  obtain ⟨r, root, bottom⟩ := upright.bottom
  refine ⟨⟨r, root, ?_⟩, ?_, fun h hh => ?_, fun i y x hy hx => ?_⟩
  · rw [← List.head?_eq_getElem?, List.head?_reverse, bottom]
  · exact List.nodup_reverse.2 (upright.branch.nodup wf)
  · rcases upright.branch.last_or_parent wf (List.mem_reverse.1 hh) with last | ⟨p, hp⟩
    · rw [bottom] at last
      obtain rfl := Option.some.inj last
      exact unharmed.root r root
    · rw [← Bool.not_eq_true]
      intro destroyed
      rw [wf.destroyedFree h destroyed] at hp
      cases hp
  · have last := upright.branch.lastChild?_of_reverse hy hx
    exact ⟨wf.parent_of_lastChild? last, last⟩

/-- A grammar that uses the helpers on the open nodes only, with whatever nodes, finds them on the
rightmost branch from the root, in order, each once and none destroyed.  This holds at every step
of the work, so whenever a hook is called and whenever a round begins.  No recovery fails because
its node has no parent. -/
theorem open_nodes_on_rightmost_branch (g : Grammar σ) (rounds : Nat) (input : Input)
    (override : Option Text) (w : World σ) (wf : w.forest.WellFormed)
    (helped : ∀ m ∈ parseMoments g rounds input override w, m.Helped) :
    ∀ m ∈ parseMoments g rounds input override w, m.step.IsWork →
      OnRightmostBranch m.before
        ∧ (m.step = .withdraw → ∀ i, m.reply ≠ .error (.recovery (.notAttached i))) := by
  intro m hm isWork
  obtain ⟨orderly, unharmed, upright⟩ := upright_of_mem wf helped hm isWork
  refine ⟨upright.onRightmostBranch orderly unharmed, fun recovery i => ?_⟩
  obtain ⟨step, v⟩ := m
  obtain rfl : step = .withdraw := recovery
  exact upright.reply_withdraw orderly.toTidy i

/-! ## Nodes that are opened again -/

/-- Look for both marks, whatever the status. -/
def seekBoth (status : Int) : Hook Unit Bool := do
  Hook.assign (.needles [Bold.openMark, Bold.closeMark])
  Hook.assign (.status status)
  return true

/-- Open a new bold node at an opening mark.  At a closing mark, open the newest of the nodes put
aside, or else close the innermost open node and open its first child. -/
def reopen (needle : Text) : Hook Unit Bool := do
  let view ← Hook.look
  if needle = Bold.openMark then
    let h ← Hook.edit (.create (Bold.boldNode (some view.cursor)))
    let _ ← Hook.push (.node h)
    Hook.setStatus Bold.inBold
    return true
  match view.detached with
  | newest :: _ =>
      let _ ← Hook.push (.node newest)
      return true
  | [] =>
      let closed ← Hook.pop
      match view.forest.children closed with
      | first :: _ =>
          let _ ← Hook.push (.node first)
          return true
      | [] => return true

/-- The grammar of bold text that opens nodes again. -/
def reopeningGrammar : Grammar Unit :=
  { Bold.treeGrammar Unit with setStatus := seekBoth, handleStatus := fun _ => reopen }

/-- A bold text that is closed, and some other text. -/
def boldThenText : Input := .text (Text.ofChars ['[', 'b', ']', 'x', '[', '/', 'b', ']', 'y'])

/-- The steps of the parse that opens nodes again. -/
def reopeningMoments : List (Moment Unit) :=
  parseMoments reopeningGrammar 10 boldThenText none { memory := () }

/-- A text that was closed with its bold node is opened and put aside, and opened once more. -/
theorem open_nodes_on_rightmost_branch_reopened :
    (∃ m ∈ reopeningMoments, m.step = .withdraw ∧ m.before.engine.stack = [2, 0]
        ∧ OnRightmostBranch m.before ∧ ∀ i, m.reply ≠ .error (.recovery (.notAttached i)))
      ∧ ∃ m ∈ reopeningMoments, m.step = .beginRound ∧ m.before.engine.stack = [2, 0]
        ∧ m.before.engine.detached = [2] ∧ OnRightmostBranch m.before := by
  have helped : ∀ m ∈ reopeningMoments, m.Helped := by decide +kernel
  have branch := open_nodes_on_rightmost_branch reopeningGrammar 10 boldThenText none { memory := () }
    (.of_size_eq_zero rfl) helped
  constructor
  · have recovers : (reopeningMoments.get ⟨23, by decide +kernel⟩).step = .withdraw := rfl
    have member := List.get_mem reopeningMoments ⟨23, by decide +kernel⟩
    obtain ⟨spine, attached⟩ := branch _ member (by rw [recovers]; trivial)
    exact ⟨_, member, recovers, by decide +kernel, spine, attached recovers⟩
  · have begins : (reopeningMoments.get ⟨34, by decide +kernel⟩).step = .beginRound := rfl
    have member := List.get_mem reopeningMoments ⟨34, by decide +kernel⟩
    obtain ⟨spine, -⟩ := branch _ member (by rw [begins]; trivial)
    exact ⟨_, member, begins, by decide +kernel, by decide +kernel, spine⟩

end Engine

end Needlework

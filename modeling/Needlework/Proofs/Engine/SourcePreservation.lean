import Needlework.Bold
import Needlework.Proofs.Engine.Coverage
import Needlework.Proofs.Engine.Heads
import Needlework.Proofs.Engine.Verdicts

/-!
# A parse keeps its source

A parse by a faithful grammar loses nothing of its text.  At the head of every round the
tree spells the text up to the cursor, and a tree that is handed out spells the whole text
(`source_preserved`).

*Whole parses.*  A ledger that holds when a parse begins leads to the tree that is handed out
(`exists_atEnd_of_tree`).

*Cleaning up.*  What recoveries have put aside is destroyed after the tree was handed out.
The tree has no part in it: its root has nothing above it and was never put aside, so
nothing below the root is below a node that is destroyed.
-/

namespace Needlework

namespace Engine

open Act

variable {σ : Type} {w w' : World σ} {k : Marks} {g : Grammar σ} {r : Handle} {L : Ledger σ}

/-! ## The beginning and the end -/

/-- Before the first round nothing is spelled. -/
theorem Begins.covers {f : Forest} (h : Begins w w' f) (wf : w.forest.WellFormed) :
    Covers k 0 w' := by
  have node : w'.forest.node f.size = Blueprint.root.build f.nextId := by
    rw [h.forest, Forest.node_add, if_pos rfl]
  refine ⟨h.tidy wf, ⟨f.size, [], h.stack, .root ?_⟩, ⟨f.size, h.root, ?_, ?_, ?_⟩⟩
  · rw [Forest.children, node, List.take_zero]
    exact .nil
  · rw [h.stack]
    rfl
  · rw [Forest.parent, node]
    rfl
  · rw [h.detached]
    exact List.not_mem_nil

/-- What is put aside goes without the nodes below another node. -/
theorem node_discardAll : ∀ (hs : List Handle) {f : Forest}, f.WellFormed → f.parent r = none →
    r ∉ hs → ∀ x, f.Over r x → (f.after (discardAll hs)).node x = f.node x
  | [], _, _, _, _ => fun _ _ => rfl
  | h :: hs, f, wf, top, apart => by
      have apart' : r ∉ hs := fun hm => apart (List.mem_cons_of_mem _ hm)
      intro x hover
      rw [discardAll, Forest.after_bind, EStateM.run_get]
      dsimp only
      split
      case isFalse => exact node_discardAll hs wf top apart' x hover
      case isTrue free =>
        have parent : f.parent h = none := by
          rw [Bool.and_eq_true] at free
          exact Option.isNone_iff_eq_none.mp free.1
        have off : ∀ y, f.Over r y → ¬ f.Over h y := by
          intro y hry hhy
          rcases hry.total hhy with hrh | hhr
          · exact apart (List.mem_cons.mpr (.inl (hrh.eq_of_parent_none parent)))
          · exact apart (List.mem_cons.mpr (.inl (hhr.eq_of_parent_none top).symm))
        have same : ∀ y, f.Over r y → (f.after (Forest.destroy h)).node y = f.node y := fun y hy =>
          wf.node_destroy parent (off y hy)
        have wf' := wf.after_destroy h
        refine Forest.after_bind_of (P := fun f' => f'.node x = f.node x) (fun e f' hf' => ?_)
          (fun u f' hf' => ?_)
        · rw [← Forest.after_of_error hf']
          exact same x hover
        · rw [Forest.after_of_ok hf'] at same wf'
          have top' : f'.parent r = none := by
            rw [Forest.parent, same r (.refl f r)]
            exact top
          -- Everything over a node below the root is below the root, or the root itself.
          have hover' : f'.Over r x := by
            refine .of_parent_eq (fun y hy => ?_) hover
            rcases hover.total hy with hry | hyr
            · rw [Forest.parent, same y hry]
              rfl
            · rw [hyr.eq_of_parent_none top, Forest.parent, same r (.refl f r)]
              rfl
          rw [node_discardAll hs wf' top' apart' x hover']
          exact same x hover

/-- A finished tree outlives the cleaning up. -/
theorem Finished.source_discardAll (finished : Finished k w r) :
    source (w.forest.after (discardAll w.engine.detached.reverse)) k r = w.engine.text := by
  have apart : r ∉ w.engine.detached.reverse := fun hm =>
    finished.notAside (List.mem_reverse.mp hm)
  have same := node_discardAll w.engine.detached.reverse finished.wellFormed finished.parent apart
  refine source_eq (wellFormed_discardAll _ finished.wellFormed) ?_
  rw [Forest.children, same r (.refl _ r)]
  refine finished.spells.congr finished.wellFormed fun d hd x hover => .of_node_eq (same x ?_)
  exact .trans (.of_parent ((finished.wellFormed.linked r d).2 hd)) hover

/-! ## Whole parses -/

/-- A building by a faithful grammar leads a ledger to the end of the text, and hands out what is
there. -/
theorem leads_build (g : Grammar σ) (rounds : Nat) (input : Input)
    (start : ∀ f u, Begins w u f → L.Holds k 0 u) :
    Leads L g k w (buildCourse g rounds input) fun _ k' w' =>
      ∃ u v, AtEnd L k' u ∧ Grows u v ∧ SameVerdict w v ∧ handOut.outcome v = (.ok (), w') := by
  refine .take_bind (by simp) fun _ w₁ loaded => ?_
  obtain ⟨f, begins⟩ := begins_of_load loaded
  have unsettled : SameVerdict w w₁ := by
    have same := sameVerdict_load input w
    change (load input).outcome w = _ at loaded
    rw [loaded] at same
    exact same
  have head : AtHead L k w₁ := ⟨0, begins.cursor, start f w₁ begins⟩
  refine .bind ((head.work rounds).keeping (verdictLaws.keeps_workCourse g rounds))
    fun _ k' v worked => ?_
  obtain ⟨⟨u, ended, grows⟩, same⟩ := worked
  exact .take (by simp) fun _ w' handed => ⟨u, v, ended, grows, same.trans unsettled, handed⟩

/-- A tree that is returned was the root's when the ledger was at the end of the text. -/
theorem exists_atEnd_of_tree {rounds : Nat} {input : Input} {override : Option Text} {report : Report}
    (start : ∀ f u, Begins ((enter override).outcome w).2 u f → L.Holds {} 0 u)
    (suits : ∀ m ∈ parseMoments g rounds input override w, m.Suits L g)
    (parsed : (parse g rounds input override).outcome w = (.ok report, w'))
    (success : report.success = true) (tree : report.tree = some r) :
    ∃ u v, AtEnd L (marks (parseMoments g rounds input override w)) u ∧ Grows u v
      ∧ v.engine.root = some r ∧ w'.forest = v.forest.after (discardAll v.engine.detached.reverse)
      ∧ w'.engine.text = v.engine.text := by
  obtain ⟨-, ends⟩ := leads_build g rounds input start suits
  obtain ⟨v, built, handed, cleaned, text⟩ := exists_of_success parsed success
  rw [← follows_buildCourse] at built
  obtain ⟨u, u', ended, grows, unsettled, handOut⟩ := ends () v built
  rw [tree] at handed
  rw [cleaned, text]
  rcases (handOut_cases handOut).2 with rfl | same
  · obtain ⟨rep, reported, handed⟩ := Option.map_eq_some_iff.mp handed
    obtain ⟨rep', -, rfl⟩ := Option.map_eq_some_iff.mp reported
    exact ⟨u, u', ended, grows, handed, rfl, rfl⟩
  · -- The report has no tree before one is handed out.
    have none := congrArg (Option.map Report.tree) unsettled
    rw [Option.map_map, Option.map_map] at none
    have tree' := none.symm.trans (same.symm.trans handed)
    cases tree'

theorem HeadsHold.atHead {pre post : List (Moment σ)} {m : Moment σ}
    (heads : HeadsHold L k (pre ++ m :: post)) (round : m.step = .beginRound) :
    AtHead L (pre.foldl Marks.next k) m.before :=
  (headsHold_append.mp heads).2.1 round

theorem AtHead.source_eq (head : AtHead coverage k w) :
    ∃ r, w.engine.root = some r ∧ 0 ≤ w.engine.cursor
      ∧ source w.forest k r = w.engine.text.take w.engine.cursor.toNat := by
  obtain ⟨c, cursor, covers⟩ := head
  change Covers k c w at covers
  obtain ⟨r, root, spells⟩ := covers.spells
  refine ⟨r, root, by omega, ?_⟩
  rw [cursor, Int.toNat_natCast]
  exact Engine.source_eq covers.tidy.wellFormed spells

theorem AtEnd.finished (ended : AtEnd coverage k w) : ∃ r, Finished k w r := by
  obtain ⟨c, whole, covers⟩ := ended
  change Covers k c w at covers
  exact covers.finished (List.take_of_length_le whole)

/-- In every parse by a faithful grammar, the tree spells the text up to the cursor at the
head of every round, and the whole text if the parse succeeds and hands the tree out. -/
theorem source_preserved (g : Grammar σ) (rounds : Nat) (input : Input) (override : Option Text)
    (w : World σ) (wf : w.forest.WellFormed)
    (faithful : ∀ m ∈ parseMoments g rounds input override w, m.Faithful g) :
    (∀ pre m post, parseMoments g rounds input override w = pre ++ m :: post →
        m.step = .beginRound → ∃ r, m.before.engine.root = some r ∧ 0 ≤ m.before.engine.cursor
          ∧ source m.before.forest (marks pre) r
            = m.before.engine.text.take m.before.engine.cursor.toNat)
      ∧ ∀ report w' r, (parse g rounds input override).outcome w = (.ok report, w') →
          report.success = true → report.tree = some r →
          source w'.forest (marks (parseMoments g rounds input override w)) r = w'.engine.text := by
  have start : ∀ f u, Begins ((enter override).outcome w).2 u f →
      (coverage : Ledger σ).Holds {} 0 u := fun f u begins => begins.covers wf
  have suits : ∀ m ∈ parseMoments g rounds input override w, m.Suits coverage g := fun m hm =>
    ⟨faithful m hm, False.elim⟩
  refine ⟨fun pre m post split round => ?_, fun report w' r parsed success tree => ?_⟩
  · obtain ⟨heads, -⟩ := leads_build g rounds input start suits
    rw [parseMoments] at split
    rw [split] at heads
    exact (heads.atHead round).source_eq
  · obtain ⟨u, v, ended, grows, root, cleaned, text⟩ := exists_atEnd_of_tree start suits parsed success tree
    obtain ⟨r', finished⟩ := ended.finished
    have finished := finished.grow grows
    have same : r' = r := Option.some.inj (finished.root.symm.trans root)
    subst same
    rw [cleaned, text]
    exact finished.source_discardAll

/-! ## Bold text, closed and unclosed -/

/-- A bold text, and another one that is never closed. -/
def halfClosed : Input :=
  .text (Text.ofChars ['a', '[', 'b', ']', 'c', '[', '/', 'b', ']', '[', 'b', ']', 'd'])

/-- How the parse of the half-closed text ends. -/
def halfClosedOutcome : Except Fault Report × World Unit :=
  (parse (Bold.treeGrammar Unit) 8 halfClosed none).outcome { memory := () }

theorem halfClosedOutcome_succeeds : ∃ report w, halfClosedOutcome = (.ok report, w)
    ∧ report.success = true ∧ report.tree = some 0 := by
  have ended : (halfClosedOutcome.1.toOption.map fun report => (report.success, report.tree))
      = some (true, some 0) := by decide +kernel
  generalize halfClosedOutcome = out at ended
  obtain ⟨result, w⟩ := out
  cases result with
  | error f => cases ended
  | ok report =>
      obtain ⟨success, tree⟩ := Prod.mk.inj (Option.some.inj ended)
      exact ⟨report, w, rfl, success, tree⟩

theorem source_preserved_halfClosed : ∃ report r, halfClosedOutcome.1 = .ok report
    ∧ report.success = true ∧ report.tree = some r
    ∧ source halfClosedOutcome.2.forest
        (marks (parseMoments (Bold.treeGrammar Unit) 8 halfClosed none { memory := () })) r
      = halfClosedOutcome.2.engine.text := by
  have faithful : ∀ m ∈ parseMoments (Bold.treeGrammar Unit) 8 halfClosed none { memory := () },
      m.Faithful (Bold.treeGrammar Unit) := by decide +kernel
  have preserved := (source_preserved (Bold.treeGrammar Unit) 8 halfClosed none { memory := () }
    (.of_size_eq_zero rfl) faithful).2
  obtain ⟨report, w, out, success, tree⟩ := halfClosedOutcome_succeeds
  rw [out]
  exact ⟨report, 0, rfl, success, tree, preserved report w 0 out success tree⟩

end Engine

end Needlework

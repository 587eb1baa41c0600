import Mathlib.Data.Set.Card
import Needlework.Proofs.Forest.Walks
import Needlework.Proofs.Text.Numerals
import Needlework.Proofs.Value.Spaces

/-!
# What a dump tells of a tree

A dump with one space for each level and a line feed after each node can be read.  What a node holds does
not get in the way, as long as the node is described by its form (`Forest.dump_determines_tree`).

*Lines.*  A description is on one line: a text shows its content and the names of its flags with spaces
for all blanks, and whatever breaks lines is a blank (`Node.oneLine_describe`).  So the line feeds of a
dump are those that end the lines of its nodes.

*Heads.*  The spaces in front of a line are its level, since an id does not start with a space, and the id
ends at the first colon (`rowHead_dumpRow`).

*Margins.*  No node is on a level below the height of its tree, so the margins may be made beforehand, one
for each level (`dumpWith_margins`).

*Trees.*  The levels and the ids in preorder determine the tree.  What is below a node comes after it, up
to the next node on its level or above (`Visits.takeWhile_level`).  This is used on both sides at once: two
preorders that agree in the levels and the ids come from trees that are each other's images (`Mirrors`).
-/

namespace Needlework

/-! ## Lines -/

namespace Text

variable {c : CodePoint} {s t : Text}

/-- Whether a text is broken into lines at a code point. -/
def isLineBreak (c : CodePoint) : Bool :=
  (0x0A ≤ c && c ≤ 0x0D) || (0x1C ≤ c && c ≤ 0x1E) || c == 0x85 || c == 0x2028 || c == 0x2029

/-- A text that is not broken into lines. -/
def OneLine (t : Text) : Prop := ∀ c ∈ t, isLineBreak c = false

instance (t : Text) : Decidable (OneLine t) :=
  inferInstanceAs (Decidable (∀ c ∈ t, isLineBreak c = false))

theorem isBlank_of_isLineBreak (h : isLineBreak c = true) : isBlank c = true := by
  have low : ∀ c ≤ 0x1E, isLineBreak c = true → isBlank c = true := by decide
  by_cases bound : c ≤ 0x1E
  · exact low c bound h
  · have above : ¬ c ≤ 0x0D := fun le => bound (Nat.le_trans le (by decide))
    simp only [isLineBreak, bound, above, decide_false, Bool.and_false, Bool.false_or, Bool.or_eq_true,
      beq_iff_eq] at h
    rcases h with (rfl | rfl) | rfl <;> rfl

theorem OneLine.append (first : OneLine s) (second : OneLine t) : OneLine (s ++ t) :=
  List.forall_mem_append.2 ⟨first, second⟩

theorem OneLine.cons (first : isLineBreak c = false) (second : OneLine t) : OneLine (c :: t) :=
  List.forall_mem_cons.2 ⟨first, second⟩

theorem oneLine_cat {parts : List Text} (h : ∀ s ∈ parts, OneLine s) : OneLine (cat parts) := by
  intro c hc
  obtain ⟨s, hs, hc⟩ := List.mem_flatten.1 hc
  exact h s hs c hc

theorem oneLine_ofInt (i : Int) : OneLine (ofInt i) := fun c hc =>
  (by decide : OneLine numeralPoints) c (mem_numeralPoints_of_mem_ofInt hc)

/-- Collapsing leaves no blanks but spaces. -/
theorem mem_collapseFrom {inRun : Bool} (h : c ∈ collapseFrom inRun t) :
    c = 0x20 ∨ isBlank c = false := by
  induction t generalizing inRun with
  | nil => exact absurd h List.not_mem_nil
  | cons d r ih =>
      rw [collapseFrom] at h
      split at h
      next =>
        split at h
        next => exact ih h
        next => exact (List.mem_cons.1 h).elim .inl ih
      next notBlank =>
        rcases List.mem_cons.1 h with rfl | later
        · exact .inr (by simpa using notBlank)
        · exact ih later

theorem oneLine_collapse (t : Text) : OneLine (collapse t) := by
  intro c hc
  rcases mem_collapseFrom hc with rfl | notBlank
  · rfl
  · exact Bool.eq_false_iff.2 fun lineBreak => by
      rw [isBlank_of_isLineBreak lineBreak] at notBlank
      exact absurd notBlank (by decide)

/-- The lines of a text, without the line feeds that end them. -/
def lines : Text → List Text
  | [] => []
  | c :: r =>
      if c == 0x0A then [] :: lines r
      else match lines r with
      | [] => [[c]]
      | l :: ls => (c :: l) :: ls

theorem lines_append (h : OneLine s) (t : Text) : lines (s ++ 0x0A :: t) = s :: lines t := by
  induction s with
  | nil => rfl
  | cons c s ih =>
      obtain ⟨first, rest⟩ := List.forall_mem_cons.1 h
      rw [List.cons_append, lines, if_neg, ih rest]
      intro same
      rw [beq_iff_eq.1 same] at first
      exact absurd first (by decide)

theorem lines_flatMap {α : Type} {l : List α} {line : α → Text} (h : ∀ x ∈ l, OneLine (line x)) :
    lines (l.flatMap fun x => line x ++ [0x0A]) = l.map line := by
  induction l with
  | nil => rfl
  | cons x l ih =>
      obtain ⟨first, rest⟩ := List.forall_mem_cons.1 h
      rw [List.flatMap_cons, List.append_assoc, List.singleton_append, lines_append first, ih rest,
        List.map_cons]

/-- Every line has one line feed, at its end. -/
theorem count_flatMap {α : Type} {l : List α} {line : α → Text} (h : ∀ x ∈ l, OneLine (line x)) :
    (l.flatMap fun x => line x ++ [0x0A]).count 0x0A = l.length := by
  induction l with
  | nil => rfl
  | cons x l ih =>
      obtain ⟨first, rest⟩ := List.forall_mem_cons.1 h
      have inside : (line x).count 0x0A = 0 :=
        List.count_eq_zero.2 fun hc => absurd (first _ hc) (by decide)
      rw [List.flatMap_cons, List.count_append, List.count_append, inside, ih rest, List.length_cons]
      exact Nat.add_comm 1 _

end Text

/-! ## Descriptions -/

open Text (OneLine)

/-- A form that has no description of its own. -/
def Form.Unlabelled : Form → Prop
  | .custom traits => traits.label = none
  | _ => True

instance : DecidablePred Form.Unlabelled
  | .custom traits => decidable_of_iff (traits.label.isNone = true) Option.isNone_iff_eq_none
  | .plain | .root | .text _ _ => inferInstanceAs (Decidable True)

/-- A description takes no more than the line that it stands on. -/
theorem Node.oneLine_describe {n : Node} (h : n.form.Unlabelled) : OneLine n.describe := by
  rw [describe]
  split
  next => exact Text.oneLine_ofInt _
  next => decide
  next b flags _ =>
    have preview : OneLine ((Text.collapse b.reverse).take previewLength) := fun c hc =>
      Text.oneLine_collapse _ c (List.mem_of_mem_take hc)
    refine Text.oneLine_cat fun s hs => ?_
    simp only [List.mem_cons, List.not_mem_nil, or_false] at hs
    rcases hs with rfl | rfl | rfl | rfl | rfl
    · decide
    · exact preview
    · decide
    · exact Text.oneLine_collapse _
    · decide
  next traits form =>
    rw [form] at h
    rw [show traits.label = none from h]
    exact Text.oneLine_ofInt _

/-! ## The lines of a dump -/

namespace Forest

variable {f f' : Forest} {d h h' k x x' : Handle} {hs hs' l l' : List Handle}

/-- A tree whose nodes are described by their forms alone. -/
def Unlabelled (f : Forest) (h : Handle) : Prop := ∀ x, f.Over h x → (f.node x).form.Unlabelled

/-- The level of a node in the tree of a node that is over it. -/
def levelBelow (f : Forest) (h d : Handle) : Nat := f.depth d - f.depth h

/-- The line of a node on a level, without its line feed. -/
def dumpRow (f : Forest) (level : Nat) (d : Handle) : Text :=
  List.replicate level 0x20 ++ (Text.ofInt (f.idOf d) ++ 0x3A :: 0x20 :: (f.node d).describe)

theorem oneLine_dumpRow (unlabelled : (f.node d).form.Unlabelled) (level : Nat) :
    OneLine (f.dumpRow level d) := by
  have margin : OneLine (List.replicate level 0x20) := fun c hc => by
    rw [List.eq_of_mem_replicate hc]
    rfl
  have described := Node.oneLine_describe unlabelled
  exact margin.append ((Text.oneLine_ofInt _).append (.cons rfl (.cons rfl described)))

/-- The level of a node and the text of its id, as they stand at the head of a line. -/
def rowHead (row : Text) : Nat × Text :=
  ((row.takeWhile (· == 0x20)).length, (row.dropWhile (· == 0x20)).takeWhile (· != 0x3A))

theorem rowHead_dumpRow (f : Forest) (level : Nat) (d : Handle) :
    rowHead (f.dumpRow level d) = (level, Text.ofInt (f.idOf d)) := by
  have points : ∀ c ∈ Text.numeralPoints, (c == 0x20) = false ∧ (c != 0x3A) = true := by decide
  have notColon : ∀ c ∈ Text.ofInt (f.idOf d), (c != 0x3A) = true := fun c hc =>
    (points c (Text.mem_numeralPoints_of_mem_ofInt hc)).2
  have margin : ∀ c ∈ List.replicate level 0x20, (c == 0x20) = true := fun c hc => by
    rw [List.eq_of_mem_replicate hc]
    rfl
  obtain ⟨c, r, first, numeral⟩ := Text.exists_ofInt_cons (f.idOf d)
  have notBlank : (c == 0x20) = false := (points c numeral).1
  rw [rowHead, dumpRow, List.takeWhile_append_of_pos margin, List.dropWhile_append_of_pos margin, first,
    List.cons_append, List.takeWhile_cons_of_neg (by simp [notBlank]), List.append_nil,
    List.length_replicate, List.dropWhile_cons_of_neg (by simp [notBlank]), ← List.cons_append, ← first]
  rw [List.takeWhile_append_of_pos notColon, List.takeWhile_cons_of_neg (by simp), List.append_nil]

namespace WellFormed

variable (wf : f.WellFormed)

include wf

theorem over_of_mem (hd : d ∈ h :: f.descend h) : f.Over h d := by
  rcases List.mem_cons.1 hd with rfl | hd
  · exact .refl f d
  · exact (wf.mem_descend_iff.1 hd).1

/-- A dump that starts without a margin is one row for each node. -/
theorem dump_eq_rows (h : Handle) :
    f.dump h [0x20] [0x0A] 0
      = (h :: f.descend h).flatMap fun d => f.dumpRow (f.levelBelow h d) d ++ [0x0A] := by
  rw [wf.dump_eq_flatMap]
  refine List.flatMap_congr fun d hd => ?_
  have below := wf.depth_le_of_over (wf.over_of_mem hd)
  have level : (0 + (f.depth d : Int) - f.depth h).toNat = f.levelBelow h d := by
    rw [levelBelow]
    omega
  rw [level, dumpLine, dumpRow, Text.times, List.flatten_replicate_singleton]
  simp only [List.append_assoc, List.cons_append]

theorem lines_dump (unlabelled : f.Unlabelled h) :
    Text.lines (f.dump h [0x20] [0x0A] 0)
      = (h :: f.descend h).map fun d => f.dumpRow (f.levelBelow h d) d := by
  rw [wf.dump_eq_rows, Text.lines_flatMap]
  exact fun d hd => oneLine_dumpRow (unlabelled d (wf.over_of_mem hd)) _

end WellFormed

/-! ## Margins -/

/-- No node of an outline is on a level below the height. -/
theorem level_le_height {visit : Nat × Handle} (hv : visit ∈ f.outline h) : visit.1 ≤ f.height h := by
  have fold : ∀ (visits : List (Nat × Handle)) (deepest : Nat),
      deepest ≤ visits.foldl (fun deepest v => max deepest v.1) deepest
        ∧ ∀ v ∈ visits, v.1 ≤ visits.foldl (fun deepest v => max deepest v.1) deepest := by
    intro visits
    induction visits with
    | nil => exact fun deepest => ⟨Nat.le_refl deepest, nofun⟩
    | cons v visits ih =>
        intro deepest
        obtain ⟨above, inside⟩ := ih (max deepest v.1)
        refine ⟨(Nat.le_max_left _ _).trans above, fun w hw => ?_⟩
        rcases List.mem_cons.1 hw with rfl | hw
        · exact (Nat.le_max_right _ _).trans above
        · exact inside w hw
  exact (fold _ 0).2 visit hv

/-- A dump for which a margin of one space for each level is made beforehand is the dump with that
indentation. -/
theorem dumpWith_margins (room : f.height h ≤ roomLimit) :
    ∃ ms, Script.margins (.text [0x20]) (f.height h) (.int 0) = .ok ms
      ∧ f.dumpWith h (fun below => ms.toArray.getD below []) [0x0A] = f.dump h [0x20] [0x0A] 0 := by
  refine ⟨_, Script.margins_space (k := 0) (by omega), ?_⟩
  rw [dump, dumpWith, dumpWith]
  refine List.flatMap_congr fun visit hv => ?_
  have low : visit.1 < f.height h + 1 := Nat.lt_succ_of_le (level_le_height hv)
  have level : (0 + (visit.1 : Int)).toNat = visit.1 := by omega
  have margin : ((List.range' 0 (f.height h + 1)).map (Text.times [0x20])).toArray.getD visit.1 []
      = Text.times [0x20] visit.1 := by simp [low]
  change f.dumpLine (Array.getD _ visit.1 []) _ visit.2 = f.dumpLine (Text.times _ _) _ visit.2
  rw [margin, level]

/-! ## Trees from levels -/

/-- Trees over two forests with the same ids in the same places, below each of some nodes in turn. -/
inductive Mirrors (f f' : Forest) : List Handle → List Handle → Prop where
  /-- There are no more trees. -/
  | nil : Mirrors f f' [] []
  /-- A node of the same id, with what is below it, and then the others. -/
  | cons {h h' : Handle} {hs hs' : List Handle} (same : f.idOf h = f'.idOf h') :
      Mirrors f f' (f.children h) (f'.children h') → Mirrors f f' hs hs' →
      Mirrors f f' (h :: hs) (h' :: hs')

/-- Children are one level below their parents. -/
def Leveled (f : Forest) (level : Handle → Nat) (l : List Handle) : Prop :=
  ∀ x ∈ l, ∀ c ∈ f.children x, level c = level x + 1

/-- Where a node stands in a preorder: its level and its id. -/
def place (f : Forest) (level : Handle → Nat) (x : Handle) : Nat × Int := (level x, f.idOf x)

variable {level level' : Handle → Nat} {n : Nat}

/-- A walk that starts on a level does not come above it. -/
theorem Visits.le_level (visits : f.Visits .pre hs l) (leveled : f.Leveled level l)
    (start : ∀ h ∈ hs, n ≤ level h) : ∀ x ∈ l, n ≤ level x := by
  induction visits generalizing n with
  | nil => exact fun _ hx => absurd hx List.not_mem_nil
  | @cons h hs below rest _ _ ihBelow ihRest =>
      rw [WalkOrder.put, Leveled, List.cons_append, List.forall_mem_cons, List.forall_mem_append] at leveled
      obtain ⟨here, first, second⟩ := leveled
      obtain ⟨startHere, startRest⟩ := List.forall_mem_cons.1 start
      rw [WalkOrder.put, List.cons_append, List.forall_mem_cons, List.forall_mem_append]
      refine ⟨startHere, ihBelow first fun c hc => ?_, ihRest second startRest⟩
      rw [here c hc]
      exact Nat.le_succ_of_le startHere

/-- What is below a node ends where its level is reached again. -/
theorem Visits.takeWhile_level {below rest : List Handle} (first : f.Visits .pre (f.children h) below)
    (second : f.Visits .pre hs rest) (leveled : f.Leveled level (h :: (below ++ rest)))
    (start : ∀ k ∈ h :: hs, level k = n) :
    ((below ++ rest).map (f.place level)).takeWhile (fun p => n < p.1) = below.map (f.place level) := by
  obtain ⟨here, inside⟩ := List.forall_mem_cons.1 leveled
  obtain ⟨startHere, startRest⟩ := List.forall_mem_cons.1 start
  have deeper : ∀ p ∈ below.map (f.place level), decide (n < p.1) = true := by
    intro p hp
    obtain ⟨x, hx, rfl⟩ := List.mem_map.1 hp
    refine decide_eq_true ?_
    change n + 1 ≤ level x
    refine first.le_level (List.forall_mem_append.1 inside).1 (fun c hc => ?_) x hx
    rw [here c hc, startHere]
  have ends : (rest.map (f.place level)).takeWhile (fun p => n < p.1) = [] := by
    cases second with
    | nil => rfl
    | @cons k =>
        refine List.takeWhile_cons_of_neg ?_
        simp [place, startRest k List.mem_cons_self]
  rw [List.map_append, List.takeWhile_append_of_pos deeper, ends, List.append_nil]

/-- Preorders that agree in the levels and the ids come from trees with the same ids in the same places. -/
theorem Visits.mirrors (visits : f.Visits .pre hs l) (visits' : f'.Visits .pre hs' l')
    (leveled : f.Leveled level l) (leveled' : f'.Leveled level' l')
    (start : ∀ h ∈ hs, level h = n) (start' : ∀ h ∈ hs', level' h = n)
    (same : l.map (f.place level) = l'.map (f'.place level')) :
    Mirrors f f' hs hs' := by
  induction visits generalizing hs' l' n with
  | nil =>
      cases visits' with
      | nil => exact .nil
      | cons => exact absurd same (by simp [WalkOrder.put])
  | @cons h hs below rest first second ihBelow ihRest =>
      cases visits' with
      | nil => exact absurd same (by simp [WalkOrder.put])
      | @cons h' hs' below' rest' first' second' =>
          simp only [WalkOrder.put, List.cons_append, List.map_cons] at leveled leveled' same
          obtain ⟨top, later⟩ := List.cons.inj same
          have inside : below.map (f.place level) = below'.map (f'.place level') := by
            rw [← first.takeWhile_level second leveled start, later,
              first'.takeWhile_level second' leveled' start']
          rw [List.map_append, List.map_append, inside] at later
          obtain ⟨here, leveledBelow⟩ := List.forall_mem_cons.1 leveled
          obtain ⟨here', leveledBelow'⟩ := List.forall_mem_cons.1 leveled'
          obtain ⟨startHere, startRest⟩ := List.forall_mem_cons.1 start
          obtain ⟨startHere', startRest'⟩ := List.forall_mem_cons.1 start'
          refine .cons (Prod.mk.inj top).2 (ihBelow (n := n + 1) first' ?_ ?_ ?_ ?_ inside)
            (ihRest second' ?_ ?_ startRest startRest' (List.append_cancel_left later))
          · exact (List.forall_mem_append.1 leveledBelow).1
          · exact (List.forall_mem_append.1 leveledBelow').1
          · exact fun c hc => by rw [here c hc, startHere]
          · exact fun c hc => by rw [here' c hc, startHere']
          · exact (List.forall_mem_append.1 leveledBelow).2
          · exact (List.forall_mem_append.1 leveledBelow').2

namespace Mirrors

theorem map_idOf (mirrors : Mirrors f f' hs hs') : hs.map f.idOf = hs'.map f'.idOf := by
  induction mirrors with
  | nil => rfl
  | cons same _ _ _ ih => rw [List.map_cons, List.map_cons, same, ih]

theorem symm (mirrors : Mirrors f f' hs hs') : Mirrors f' f hs' hs := by
  induction mirrors with
  | nil => exact .nil
  | cons same _ _ ihBelow ihRest => exact .cons same.symm ihBelow ihRest

/-- Every node of one tree has its like in the other. -/
theorem exists_of_below (mirrors : Mirrors f f' hs hs') (hk : k ∈ hs) (below : f.Below k x) :
    ∃ k' ∈ hs', ∃ x', f'.Below k' x' ∧ f.idOf x = f'.idOf x'
      ∧ (f.children x).map f.idOf = (f'.children x').map f'.idOf := by
  induction mirrors generalizing k with
  | nil => exact absurd hk List.not_mem_nil
  | @cons h h' hs hs' same inside _ ihBelow ihRest =>
      rcases List.mem_cons.1 hk with rfl | hk
      · rcases below_iff.1 below with rfl | ⟨c, hc, below⟩
        · exact ⟨h', List.mem_cons_self, h', .refl, same, inside.map_idOf⟩
        · obtain ⟨c', hc', x', below', found⟩ := ihBelow hc below
          exact ⟨h', List.mem_cons_self, x', below_iff.2 (.inr ⟨c', hc', below'⟩), found⟩
      · obtain ⟨k', hk', found⟩ := ihRest hk below
        exact ⟨k', List.mem_cons_of_mem _ hk', found⟩

end Mirrors

/-! ## Reading a tree off its dump -/

theorem lt_size_of_over (known : h < f.size) (hover : f.Over h x) : x < f.size := by
  rcases over_iff.1 hover with rfl | ⟨p, hp, -⟩
  · exact known
  · exact lt_size_of_parent hp

namespace WellFormed

variable (wf : f.WellFormed) (wf' : f'.WellFormed)

include wf

theorem leveled (h : Handle) : f.Leveled (f.levelBelow h) (h :: f.descend h) := by
  intro x hx c hc
  have deeper := wf.depth_of_parent ((wf.linked x c).2 hc)
  have below := wf.depth_le_of_over (wf.over_of_mem hx)
  rw [levelBelow, levelBelow, deeper, Nat.sub_add_comm below]

/-- The heads of the lines are the levels and the ids, in preorder. -/
theorem heads_dump (unlabelled : f.Unlabelled h) :
    (Text.lines (f.dump h [0x20] [0x0A] 0)).map rowHead
      = (h :: f.descend h).map fun d => (f.levelBelow h d, Text.ofInt (f.idOf d)) := by
  rw [wf.lines_dump unlabelled, List.map_map]
  exact List.map_congr_left fun d _ => rowHead_dumpRow f _ d

/-- The nodes of a tree are what its preorder lists. -/
theorem ncard_over (h : Handle) : {x | f.Over h x}.ncard = (h :: f.descend h).length := by
  have listed : {x | f.Over h x} = {x | x ∈ h :: f.descend h} := by
    ext x
    refine ⟨fun hover => ?_, wf.over_of_mem⟩
    by_cases same : x = h
    · exact same ▸ List.mem_cons_self
    · exact List.mem_cons_of_mem h (wf.mem_descend_iff.2 ⟨hover, same⟩)
  have nodup : (h :: f.descend h).Nodup :=
    List.nodup_cons.2 ⟨fun hm => (wf.mem_descend_iff.1 hm).2 rfl,
      wf.nodup_of_visits (wf.visits_descend h)⟩
  rw [listed, ← List.coe_toFinset, Set.ncard_coe_finset, List.toFinset_card_of_nodup nodup]

/-- Every node of a tree has one line of its dump. -/
theorem count_dump (unlabelled : f.Unlabelled h) :
    (f.dump h [0x20] [0x0A] 0).count 0x0A = {x | f.Over h x}.ncard := by
  rw [wf.dump_eq_rows, wf.ncard_over, Text.count_flatMap]
  exact fun d hd => oneLine_dumpRow (unlabelled d (wf.over_of_mem hd)) _

theorem isLineBreak_of_mem_dump (unlabelled : f.Unlabelled h) {c : CodePoint}
    (hc : c ∈ f.dump h [0x20] [0x0A] 0) (lineBreak : Text.isLineBreak c = true) : c = 0x0A := by
  rw [wf.dump_eq_rows] at hc
  obtain ⟨d, hd, hc⟩ := List.mem_flatMap.1 hc
  rcases List.mem_append.1 hc with inside | last
  · have oneLine := oneLine_dumpRow (unlabelled d (wf.over_of_mem hd)) _ c inside
    rw [lineBreak] at oneLine
    exact absurd oneLine (by decide)
  · exact List.mem_singleton.1 last

include wf'

theorem mirrors_of_dump_eq (unlabelled : f.Unlabelled h) (unlabelled' : f'.Unlabelled h')
    (same : f.dump h [0x20] [0x0A] 0 = f'.dump h' [0x20] [0x0A] 0) : Mirrors f f' [h] [h'] := by
  have heads := wf.heads_dump unlabelled
  rw [same, wf'.heads_dump unlabelled'] at heads
  have spelled : Function.Injective (Prod.map id Text.ofInt : Nat × Int → Nat × Text) :=
    Function.injective_id.prodMap Text.ofInt_injective
  have places : (h :: f.descend h).map (f.place (f.levelBelow h))
      = (h' :: f'.descend h').map (f'.place (f'.levelBelow h')) := by
    refine List.map_injective_iff.2 spelled ?_
    rw [List.map_map, List.map_map]
    exact heads.symm
  refine (wf.visits_descend h).node.mirrors (wf'.visits_descend h').node (wf.leveled h) (wf'.leveled h')
    (n := 0) ?_ ?_ places
  · exact fun k hk => by rw [List.mem_singleton.1 hk, levelBelow, Nat.sub_self]
  · exact fun k hk => by rw [List.mem_singleton.1 hk, levelBelow, Nat.sub_self]

omit wf' in
/-- Two nodes of a tree that show the same id are the same. -/
theorem eq_of_idOf_eq (known : h < f.size) (hx : f.Over h x) (hk : f.Over h k)
    (same : f.idOf x = f.idOf k) : x = k :=
  wf.distinct x k (lt_size_of_over known hx) (lt_size_of_over known hk) same

/-- Every node of one tree has its like in the other. -/
theorem exists_like (mirrors : Mirrors f f' [h] [h']) (hx : f.Over h x) :
    ∃ x', f'.Over h' x' ∧ f.idOf x = f'.idOf x'
      ∧ (f.children x).map f.idOf = (f'.children x').map f'.idOf := by
  obtain ⟨k', hk', x', below, found⟩ :=
    mirrors.exists_of_below (List.mem_singleton_self h) (wf.below_iff_over.2 hx)
  rw [List.mem_singleton.1 hk'] at below
  exact ⟨x', wf'.below_iff_over.1 below, found⟩

/-- Nodes of the same id have children of the same ids. -/
theorem children_of_mirrors (known' : h' < f'.size) (mirrors : Mirrors f f' [h] [h']) (hx : f.Over h x)
    (hx' : f'.Over h' x') (same : f.idOf x = f'.idOf x') :
    (f.children x).map f.idOf = (f'.children x').map f'.idOf := by
  obtain ⟨k', hk', like, children⟩ := wf.exists_like wf' mirrors hx
  rwa [wf'.eq_of_idOf_eq known' hx' hk' (same.symm.trans like)]

/-- Nodes of the same id have parents of the same id. -/
theorem parent_of_mirrors (known' : h' < f'.size) (mirrors : Mirrors f f' [h] [h']) (hx : f.Over h x)
    (hx' : f'.Over h' x') (same : f.idOf x = f'.idOf x') (ne : x ≠ h) :
    (f.parent x).map f.idOf = (f'.parent x').map f'.idOf := by
  obtain ⟨p, hp, hover⟩ := (over_iff.1 hx).resolve_left (Ne.symm ne)
  obtain ⟨p', hover', like, children⟩ := wf.exists_like wf' mirrors hover
  have listed : f.idOf x ∈ (f'.children p').map f'.idOf := by
    rw [← children]
    exact List.mem_map_of_mem ((wf.linked p x).1 hp)
  obtain ⟨c', hc', id⟩ := List.mem_map.1 listed
  have hp' := (wf'.linked p' c').2 hc'
  have here : c' = x' := wf'.eq_of_idOf_eq known' (hover'.trans (.of_parent hp')) hx' (id.trans same)
  rw [hp, ← here, hp', Option.map_some, Option.map_some, like]

end WellFormed

/-- **A dump determines the tree.**  It has one line for each node of a tree whose nodes are described by
their forms, whatever texts and flags they hold, and no other line breaks.  Of two trees with the same dump
the ids are the same, and nodes of the same id have children of the same ids, in the same order.  The tops
have the same id, and other nodes of the same id have parents of the same id.  The margins of a dump are
made beforehand, for as many levels as the tree has, and that makes no difference. -/
theorem dump_determines_tree (wf : f.WellFormed) (wf' : f'.WellFormed) (known : h < f.size)
    (known' : h' < f'.size) (unlabelled : f.Unlabelled h) (unlabelled' : f'.Unlabelled h') :
    (f.dump h [0x20] [0x0A] 0).count 0x0A = {x | f.Over h x}.ncard
      ∧ (∀ c ∈ f.dump h [0x20] [0x0A] 0, Text.isLineBreak c = true → c = 0x0A)
      ∧ (f.dump h [0x20] [0x0A] 0 = f'.dump h' [0x20] [0x0A] 0 →
          f.idOf '' {x | f.Over h x} = f'.idOf '' {x' | f'.Over h' x'}
            ∧ ∀ x x', f.Over h x → f'.Over h' x' → f.idOf x = f'.idOf x' →
                (f.children x).map f.idOf = (f'.children x').map f'.idOf
                  ∧ (x = h ↔ x' = h')
                  ∧ (x ≠ h → (f.parent x).map f.idOf = (f'.parent x').map f'.idOf))
      ∧ (f.height h ≤ roomLimit →
          ∃ ms, Script.margins (.text [0x20]) (f.height h) (.int 0) = .ok ms
            ∧ f.dumpWith h (fun below => ms.toArray.getD below []) [0x0A]
              = f.dump h [0x20] [0x0A] 0) := by
  refine ⟨wf.count_dump unlabelled, fun c => wf.isLineBreak_of_mem_dump unlabelled, fun same => ?_,
    dumpWith_margins⟩
  have mirrors := wf.mirrors_of_dump_eq wf' unlabelled unlabelled' same
  have top : f.idOf h = f'.idOf h' := List.head_eq_of_cons_eq mirrors.map_idOf
  refine ⟨Set.Subset.antisymm ?_ ?_, fun x x' hx hx' like =>
    ⟨wf.children_of_mirrors wf' known' mirrors hx hx' like, ⟨?_, ?_⟩,
      wf.parent_of_mirrors wf' known' mirrors hx hx' like⟩⟩
  · rintro _ ⟨x, hx, rfl⟩
    obtain ⟨x', hx', like, -⟩ := wf.exists_like wf' mirrors hx
    exact ⟨x', hx', like.symm⟩
  · rintro _ ⟨x', hx', rfl⟩
    obtain ⟨x, hx, like, -⟩ := wf'.exists_like wf mirrors.symm hx'
    exact ⟨x, hx, like.symm⟩
  · rintro rfl
    exact wf'.eq_of_idOf_eq known' hx' (.refl f' h') (like.symm.trans top)
  · rintro rfl
    exact wf.eq_of_idOf_eq known hx (.refl f h) (like.trans top.symm)

/-- A text with a blank in its content and in the name of its flag, next to a plain node below a root. -/
def spread (blank : CodePoint) : Forest :=
  edited {} [.create .root, .create (.text [0x61, blank, 0x39, 0x3A] none),
    .setFlag 1 [blank, 0x5D] .null, .create (.plain none), .append 0 (.node 1), .append 0 (.node 2)]

/-- What a text holds does not matter, not even a line feed. -/
theorem dump_determines_tree_spread :
    (spread 0x0A).WellFormed ∧ (spread 0x2028).WellFormed
      ∧ (spread 0x0A).dump 0 [0x20] [0x0A] 0 = (spread 0x2028).dump 0 [0x20] [0x0A] 0
      ∧ ((spread 0x0A).dump 0 [0x20] [0x0A] 0).count 0x0A = {x | (spread 0x0A).Over 0 x}.ncard
      ∧ (spread 0x0A).idOf '' {x | (spread 0x0A).Over 0 x}
        = (spread 0x2028).idOf '' {x | (spread 0x2028).Over 0 x} := by
  have wf : (spread 0x0A).WellFormed := .edited _ (.of_size_eq_zero rfl) (by decide)
  have wf' : (spread 0x2028).WellFormed := .edited _ (.of_size_eq_zero rfl) (by decide)
  have inside : ∀ x < 3, ((spread 0x0A).node x).form.Unlabelled := by decide
  have inside' : ∀ x < 3, ((spread 0x2028).node x).form.Unlabelled := by decide
  have same : (spread 0x0A).dump 0 [0x20] [0x0A] 0 = (spread 0x2028).dump 0 [0x20] [0x0A] 0 := by
    decide +kernel
  obtain ⟨lines, -, ids, -⟩ := dump_determines_tree wf wf'
    (by decide : 0 < (spread 0x0A).size) (by decide : 0 < (spread 0x2028).size)
    (fun x hover => inside x (lt_size_of_over (by decide) hover))
    (fun x hover => inside' x (lt_size_of_over (by decide) hover))
  exact ⟨wf, wf', same, lines, (ids same).1⟩

end Forest

end Needlework

import Needlework.Proofs.Engine.Changes
import Needlework.Proofs.Engine.Spelling

/-!
# The spine of open nodes

While a scan runs, the open nodes form a spine: each is the last child of the one before
it.  What is spelled before an open node is the text up to the place where the node began.
This holds on every level at once (`Spine`).  A recovery that takes out an open node comes
back to what the level above says.

*Changes at the end.*  Everything that happens to the tree happens at the end of the spine.
A change below the innermost open node leaves the levels above alone (`Spine.replace`),
since siblings have nothing below them in common.
-/

namespace Needlework

namespace Engine

variable {f f' : Forest} {k k' : Marks} {t u : Text} {c c' : Nat} {top x y r : Handle}
  {cs cs' ds rest stack : List Handle}

/-- The text up to an offset is spelled by what is above the innermost open node, and by some
children of it. -/
inductive Spine (f : Forest) (k : Marks) (t : Text) : List Handle → List Handle → Nat → Prop where
  | root {r : Handle} {cs : List Handle} {c : Nat} : Spells f k cs (t.take c) →
      Spine f k t cs [r] c
  | node {x y : Handle} {rest cs ds : List Handle} {s : Text} {o c : Nat} :
      Spine f k t ds (y :: rest) o → f.children y = ds ++ [x] →
      (f.node x).origin = some (o : Int) → (f.node x).content? = none → k.closer x = [] →
      Spells f k cs s → t.take c = t.take o ++ (k.opener x ++ s) →
      Spine f k t cs (x :: y :: rest) c

/-- The whole tree spells the text up to the offset, and what is spelled beyond the children
considered. -/
theorem Spine.whole (spine : Spine f k t cs (top :: rest) c)
    (beyond : ∀ s, Spells f k cs s → Spells f k (f.children top) (s ++ u))
    (hr : (top :: rest).getLast? = some r) : Spells f k (f.children r) (t.take c ++ u) := by
  generalize hstack : top :: rest = stack at spine
  induction spine generalizing top rest u with
  | root hs =>
      cases hstack
      cases hr
      exact beyond _ hs
  | @node x y rest' cs ds s o c inner hchildren horigin hcontent hcloser hs htake ih =>
      cases hstack
      rw [htake, List.append_assoc]
      rw [List.getLast?_cons_cons] at hr
      refine ih (fun sd hsd => ?_) hr rfl
      have here : Spells f k [x] (k.opener x ++ (s ++ u) ++ k.closer x ++ []) :=
        .node hcontent (beyond s hs) .nil
      rw [hcloser, List.append_nil, List.append_nil, ← List.append_assoc] at here
      rw [hchildren]
      exact hsd.append here

/-- A node that is on the spine above the innermost open node, or below something. -/
def Held (f : Forest) (rest : List Handle) (h : Handle) : Prop :=
  f.parent h ≠ none ∨ h ∈ rest

theorem parent_ne_none_of_over (wf : f.WellFormed) {d h : Handle} (hd : d ∈ f.children y)
    (hover : f.Over d h) : f.parent h ≠ none := by
  rcases Forest.over_iff.1 hover with rfl | ⟨p, hp, -⟩
  · rw [(wf.linked y d).2 hd]
    exact Option.some_ne_none y
  · rw [hp]
    exact Option.some_ne_none p

/-- What is off the branch of a node does not see what changes there. -/
theorem Spine.agree (wf : f.WellFormed) (spine : Spine f k t ds (y :: rest) c)
    (below : f.Over y top) (above : ¬ f.Over top y) (children : ∀ d ∈ ds, d ∈ f.children y)
    (apart : ∀ d ∈ ds, ∀ h, f.Over d h → ¬ f.Over top h)
    (same : ∀ h, Held f (y :: rest) h → ¬ f.Over top h → SameAt f f' k k' h) :
    Spine f' k' t ds (y :: rest) c := by
  generalize hstack : y :: rest = stack at spine
  induction spine generalizing y rest with
  | root hs =>
      cases hstack
      refine .root (hs.congr wf fun d hd h hover => ?_)
      exact same h (.inl (parent_ne_none_of_over wf (children d hd) hover)) (apart d hd h hover)
  | @node x z rest' cs ds s o c inner hchildren horigin hcontent hcloser hs htake ih =>
      cases hstack
      have parent := wf.parent_last hchildren
      have atX := same x (.inr (List.mem_cons_self ..)) above
      have aboveZ : ¬ f.Over top z := fun hover => wf.not_over_parent parent (below.trans hover)
      have atZ := same z (.inr (List.mem_cons_of_mem _ (List.mem_cons_self ..))) aboveZ
      have before : ∀ d ∈ ds, d ∈ f.children z := fun d hd =>
        (wf.linked z d).1 (wf.parent_of_mem_front hchildren hd)
      have inner' : Spine f' k' t ds (z :: rest') o := by
        refine ih (.trans (.of_parent parent) below) aboveZ before (fun d hd h hover hover' => ?_)
          (fun h hheld => same h ?_) rfl
        · exact wf.not_over_last hchildren hd hover (below.trans hover')
        · exact hheld.imp id (List.mem_cons_of_mem _)
      refine .node inner' (atZ.children.trans hchildren) (atX.origin.trans horigin)
        (atX.content.trans hcontent) (atX.closer.trans hcloser) (hs.congr wf fun d hd h hover => ?_) ?_
      · exact same h (.inl (parent_ne_none_of_over wf (children d hd) hover)) (apart d hd h hover)
      · rw [atX.opener]
        exact htake

/-- A change on the branch of the innermost open node, by which more text is spelled. -/
theorem Spine.replace (wf : f.WellFormed) (spine : Spine f k t cs (top :: rest) c)
    (outside : ∀ h, Held f rest h → ¬ f.Over top h → SameAt f f' k k' h)
    (here : SameSelf f f' k k' top) (grown : ∀ s, Spells f k cs s → Spells f' k' cs' (s ++ u))
    (covered : t.take c' = t.take c ++ u) : Spine f' k' t cs' (top :: rest) c' := by
  cases spine with
  | root hs =>
      refine .root ?_
      rw [covered]
      exact grown _ hs
  | @node x y rest' cs ds s o c inner hchildren horigin hcontent hcloser hs htake =>
      have parent := wf.parent_last hchildren
      have before : ∀ d ∈ ds, d ∈ f.children y := fun d hd =>
        (wf.linked y d).1 (wf.parent_of_mem_front hchildren hd)
      have above : ¬ f.Over top y := wf.not_over_parent parent
      have inner' : Spine f' k' t ds (y :: rest') o :=
        inner.agree wf (.of_parent parent) above before
          (fun d hd h hover => wf.not_over_last hchildren hd hover) outside
      have atY := outside y (.inr (List.mem_cons_self ..)) above
      refine .node inner' (atY.children.trans hchildren) (here.origin.trans horigin)
        (here.content.trans hcontent) (here.closer.trans hcloser) (grown s hs) ?_
      rw [covered, htake, here.opener, List.append_assoc, List.append_assoc]

/-! ## Steps at the end of the spine -/

theorem Held.lt_size {h : Handle} (known : ∀ h ∈ rest, h < f.size) (held : Held f rest h) :
    h < f.size := by
  rcases held with hp | hm
  · obtain ⟨p, hp⟩ := Option.ne_none_iff_exists'.mp hp
    exact Forest.lt_size_of_parent hp
  · exact known h hm

/-- New nodes in the table make no difference. -/
theorem Spine.extend (wf : f.WellFormed) (spine : Spine f k t (f.children top) (top :: rest) c)
    (known : ∀ h ∈ top :: rest, h < f.size) (node : ∀ h, h < f.size → f'.node h = f.node h) :
    Spine f' k t (f'.children top) (top :: rest) c := by
  have ptop := known top (List.mem_cons_self ..)
  refine spine.replace wf (u := []) (fun h held _ => .of_node_eq (node h ?_))
    (SameAt.of_node_eq (node top ptop)).toSameSelf (fun s hs => ?_) (List.append_nil _).symm
  · exact held.lt_size fun h hm => known h (List.mem_cons_of_mem _ hm)
  · rw [List.append_nil, Forest.children, node top ptop]
    refine hs.congr wf fun d hd h hover => .of_node_eq (node h ?_)
    obtain ⟨p, hp⟩ := Option.ne_none_iff_exists'.mp (parent_ne_none_of_over wf hd hover)
    exact Forest.lt_size_of_parent hp

/-- Text is written to the innermost open node. -/
theorem Spine.write (wf : f.WellFormed) (spine : Spine f k t (f.children top) (top :: rest) c)
    (known : ∀ h ∈ top :: rest, h < f.size) {origin : Option Int}
    (hw : f.Writes top u origin f') (covered : t.take c' = t.take c ++ u) :
    Spine f' k t (f'.children top) (top :: rest) c' := by
  have ptop := known top (List.mem_cons_self ..)
  refine spine.replace wf (fun h held off => .of_node_eq (hw.node_of_ne ptop ?_ ?_ ?_)) ?_
    (fun s hs => hs.writes wf ptop hw) covered
  · exact held.lt_size fun h hm => known h (List.mem_cons_of_mem _ hm)
  · rintro rfl
    exact off (.refl f h)
  · exact fun hm => off (.of_parent ((wf.linked top h).2 hm))
  · cases hw with
    | @last l hlast _ =>
        have parent := wf.parent_of_lastChild? hlast
        have hne : top ≠ l := wf.parent_ne parent
        exact (SameAt.of_node_eq (Forest.node_update_of_ne f hne _)).toSameSelf
    | new _ =>
        have node := Forest.node_growText ptop u origin top
        rw [if_neg (Nat.ne_of_lt ptop)] at node
        exact ⟨by rw [node]; rfl, by rw [node], rfl, rfl⟩

/-- A node is opened at a needle. -/
theorem Spine.push (wf : f.WellFormed) (spine : Spine f k t (f.children top) (top :: rest) c)
    (known : ∀ h ∈ top :: rest, h < f.size) {h : Handle} (ph : h < f.size)
    (free : f.parent h = none) (childless : f.children h = []) (off : h ∉ top :: rest)
    (origin : (f.node h).origin = some (c : Int)) (content : (f.node h).content? = none)
    (covered : t.take c' = t.take c ++ k.needle) :
    Spine (f.link top h (f.children top ++ [h])) (k.opened h) t
      ((f.link top h (f.children top ++ [h])).children h) (h :: top :: rest) c' := by
  have ptop := known top (List.mem_cons_self ..)
  have node := Forest.node_link ptop ph (f.children top ++ [h])
  have hne : h ≠ top := fun e => off (e ▸ List.mem_cons_self ..)
  -- Nothing that is below anything, and nothing on the spine, is the new node.
  have same : ∀ x, x ≠ h → x ≠ top → SameAt f (f.link top h (f.children top ++ [h])) k (k.opened h) x := by
    intro x hxh hxt
    have equal : (f.link top h (f.children top ++ [h])).node x = f.node x :=
      Forest.node_link_of_ne ptop ph hxt hxh
    obtain ⟨⟨hcontent, horigin, -, -⟩, hchildren⟩ := SameAt.of_node_eq (k := k) equal
    exact ⟨⟨hcontent, horigin, if_neg hxh, if_neg hxh⟩, hchildren⟩
  have childrenTop : (f.link top h (f.children top ++ [h])).children top = f.children top ++ [h] := by
    rw [Forest.children, node, if_pos rfl]
  have childrenH : (f.link top h (f.children top ++ [h])).children h = [] := by
    rw [Forest.children, node, if_neg hne]
    exact childless
  have inner : Spine (f.link top h (f.children top ++ [h])) (k.opened h) t (f.children top)
      (top :: rest) c := by
    refine spine.replace wf (u := []) (fun x held apart => same x ?_ ?_) ?_ (fun s hs => ?_)
      (List.append_nil _).symm
    · rintro rfl
      rcases held with hp | hm
      · exact hp free
      · exact off (List.mem_cons_of_mem _ hm)
    · rintro rfl
      exact apart (.refl f x)
    · refine ⟨by rw [node]; rfl, by rw [node], if_neg hne.symm, if_neg hne.symm⟩
    · rw [List.append_nil]
      refine hs.congr wf fun d hd x hover => same x ?_ ?_
      · rintro rfl
        exact parent_ne_none_of_over wf hd hover free
      · rintro rfl
        exact wf.not_over_parent ((wf.linked x d).2 hd) hover
  rw [childrenH]
  refine .node inner childrenTop ?_ ?_ (if_pos rfl) .nil ?_
  · rw [node]
    exact origin
  · rw [node]
    exact content
  · rw [covered, List.append_nil]
    exact congrArg _ (if_pos rfl).symm

/-- The innermost open node is closed at a needle. -/
theorem Spine.pop (wf : f.WellFormed) (spine : Spine f k t (f.children x) (x :: y :: rest) c)
    (covered : t.take c' = t.take c ++ k.needle) :
    Spine f (k.closed x) t (f.children y) (y :: rest) c' := by
  cases spine with
  | @node _ _ _ _ ds s o _ inner hchildren horigin hcontent hcloser hs htake =>
      have parent := wf.parent_last hchildren
      have hyx : y ≠ x := fun e => wf.not_over_parent parent (e ▸ .refl f y)
      have same : ∀ h, h ≠ x → SameAt f f k (k.closed x) h := fun h hne =>
        ⟨⟨rfl, rfl, rfl, if_neg hne⟩, rfl⟩
      refine inner.replace wf (u := k.opener x ++ s ++ k.needle) (fun h _ off => same h ?_)
        (same y hyx).toSameSelf (fun sd hsd => ?_) ?_
      · rintro rfl
        exact off (.of_parent parent)
      · have before : Spells f (k.closed x) ds sd := by
          refine hsd.congr wf fun d hd h hover => same h ?_
          rintro rfl
          exact wf.not_over_last hchildren hd hover (.refl f h)
        have below : Spells f (k.closed x) (f.children x) s := by
          refine hs.congr wf fun d hd h hover => same h ?_
          rintro rfl
          exact wf.not_over_parent ((wf.linked h d).2 hd) hover
        have last : Spells f (k.closed x) [x]
            ((k.closed x).opener x ++ s ++ (k.closed x).closer x ++ []) :=
          .node hcontent below .nil
        have mark : (k.closed x).closer x = k.needle := if_pos rfl
        rw [mark, List.append_nil] at last
        rw [hchildren]
        exact before.append last
      · rw [covered, htake, List.append_assoc, List.append_assoc]

/-- The innermost open node is taken out.  The level above says what is spelled then. -/
theorem Spine.withdraw (wf : f.WellFormed) (spine : Spine f k t cs (x :: y :: rest) c) :
    f.parent x = some y ∧ ∃ o : Nat, (f.node x).origin = some (o : Int)
      ∧ Spine (f.unlink y x) k t ((f.unlink y x).children y) (y :: rest) o := by
  cases spine with
  | @node _ _ _ _ ds s o _ inner hchildren horigin hcontent hcloser hs htake =>
      have parent := wf.parent_last hchildren
      have py := wf.parent_lt_size parent
      have px := Forest.lt_size_of_parent parent
      have hyx : y ≠ x := fun e => wf.not_over_parent parent (e ▸ .refl f y)
      have node := Forest.node_unlink py px
      have children : (f.unlink y x).children y = ds := wf.children_unlink_last hchildren
      refine ⟨parent, o, horigin, ?_⟩
      rw [children]
      refine inner.replace wf (u := []) (fun h _ off => .of_node_eq ?_) ?_ (fun sd hsd => ?_)
        (List.append_nil _).symm
      · refine Forest.node_unlink_of_ne py px ?_ ?_
        · rintro rfl
          exact off (.refl f h)
        · rintro rfl
          exact off (.of_parent parent)
      · exact ⟨by rw [node]; rfl, by rw [node], rfl, rfl⟩
      · rw [List.append_nil]
        refine hsd.congr wf fun d hd h hover => .of_node_eq (Forest.node_unlink_of_ne py px ?_ ?_)
        · rintro rfl
          exact wf.not_over_parent (wf.parent_of_mem_front hchildren hd) hover
        · rintro rfl
          exact wf.not_over_last hchildren hd hover (.refl f h)

end Engine

end Needlework

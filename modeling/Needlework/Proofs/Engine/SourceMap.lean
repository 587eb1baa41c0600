import Needlework.Proofs.Engine.Charts
import Needlework.Proofs.Engine.SourcePreservation
import Needlework.Proofs.Forest.Branches

/-!
# The offsets are a source map

While a faithful grammar has its needles appended where they are, the tree of a scan is charted over
the text, and the offsets that the nodes were given say where in the text they come from
(`offsets_source_map`).

*The end of the tree.*  All that a scan does to the tree happens at the innermost open node
(`Front`).  What stands there stops at the offset that the text is in the tree up to, so that the
next piece goes behind a text without a gap.  A new text and a new node begin at that offset, behind
everything that was there.

*Recoveries.*  A node that is taken out began behind its siblings and where the text before it
stops.  So the text goes on from there as if the node had never been opened
(`Mapped.withdrawn`).

The laws make a ledger (`survey`), and the rest is what faithful grammars do with any ledger.
-/

namespace Needlework

namespace Engine

open Act

variable {σ : Type} {w w' : World σ} {k : Marks} {c : Nat} {r top x y : Handle} {s : Chart}
  {f f' : Forest}

/-- What is open is a branch of the tree. -/
theorem Spine.branch {t : Text} {cs stack : List Handle} (spine : Spine f k t cs stack c) :
    f.Branch stack := by
  induction spine with
  | root => exact .singleton f _
  | node _ hchildren _ _ _ _ _ ih =>
      refine ih.cons ?_
      rw [Forest.lastChild?, hchildren, List.getLast?_concat]

/-- The tree is charted, every open node stops beyond the text, and the text goes on at the
offset. -/
structure Surveyed (k : Marks) (c : Nat) (w : World σ) (r : Handle) (s : Chart) : Prop where
  root : w.engine.root = some r
  charted : Charted w.forest k w.engine.text r s
  isOpen : ∀ x ∈ w.engine.stack, s.nodes x ∧ s.stop x = w.engine.text.length + 1
  front : ∀ top rest, w.engine.stack = top :: rest → Front w.forest r s top c

/-- The tree covers the text up to an offset within it, and is charted. -/
structure Mapped (k : Marks) (c : Nat) (w : World σ) : Prop where
  covers : Covers k c w
  within : c ≤ w.engine.text.length
  chart : ∃ r s, Surveyed k c w r s

namespace Surveyed

/-- Only the nodes on the chart and the needles at which they were opened matter. -/
theorem congr {k' : Marks} (surveyed : Surveyed k c w r s) (size : w.forest.size ≤ w'.forest.size)
    (node : ∀ y, s.nodes y → w'.forest.node y = w.forest.node y)
    (opener : ∀ y, s.nodes y → k'.opener y = k.opener y) (text : w'.engine.text = w.engine.text)
    (stack : w'.engine.stack = w.engine.stack) (root : w'.engine.root = w.engine.root) :
    Surveyed k' c w' r s where
  root := root.trans surveyed.root
  charted := by
    rw [text]
    exact surveyed.charted.congr size node opener
  isOpen := by
    rw [stack, text]
    exact surveyed.isOpen
  front top rest hs := by
    rw [stack] at hs
    have front := surveyed.front top rest hs
    have member : s.nodes top := (surveyed.isOpen top (by rw [hs]; exact List.mem_cons_self)).1
    have children : w'.forest.children top = w.forest.children top := by
      rw [Forest.children, node top member, Forest.children]
    refine ⟨fun ne => ?_, ?_, fun d hd => ?_⟩
    · rw [Forest.offset, node top member]
      exact front.begun ne
    · rw [children]
      exact front.reached
    · rw [children] at hd
      rw [node d (surveyed.charted.mem member (List.mem_of_getLast? hd))]
      exact front.flush d hd

/-- The innermost open node is on the chart, and the text goes on there. -/
theorem innermost {rest : List Handle} (surveyed : Surveyed k c w r s)
    (hs : w.engine.stack = top :: rest) :
    s.nodes top ∧ s.stop top = w.engine.text.length + 1 ∧ Front w.forest r s top c := by
  obtain ⟨htop, stops⟩ := surveyed.isOpen top (by rw [hs]; exact List.mem_cons_self)
  exact ⟨htop, stops, surveyed.front top rest hs⟩

end Surveyed

namespace Mapped

theorem extend (mapped : Mapped k c w) (same : Extends w w') : Mapped k c w' := by
  obtain ⟨covers, within, r, s, surveyed⟩ := mapped
  refine ⟨covers.extend same, by rw [same.text]; exact within, r, s, ?_⟩
  exact surveyed.congr same.size (fun y hy => same.node y (surveyed.charted.known y hy))
    (fun _ _ => rfl) same.text same.stack same.root

theorem congr (mapped : Mapped k c w) (hf : w'.forest = w.forest)
    (ht : w'.engine.text = w.engine.text) (hs : w'.engine.stack = w.engine.stack)
    (hr : w'.engine.root = w.engine.root) (hd : w'.engine.detached = w.engine.detached) :
    Mapped k c w' := by
  obtain ⟨covers, within, r, s, surveyed⟩ := mapped
  refine ⟨covers.congr hf ht hs hr hd, by rw [ht]; exact within, r, s, ?_⟩
  exact surveyed.congr (by rw [hf]) (fun y _ => by rw [hf]) (fun _ _ => rfl) ht hs hr

theorem withNeedle (mapped : Mapped k c w) (needle : Text) : Mapped { k with needle } c w := by
  obtain ⟨covers, within, r, s, surveyed⟩ := mapped
  refine ⟨covers.withNeedle needle, within, r, s, ?_⟩
  exact surveyed.congr (Nat.le_refl _) (fun _ _ => rfl) (fun _ _ => rfl) rfl rfl rfl

end Mapped

/-! ## Writing -/

namespace Surveyed

/-- Text is written behind the text at the end. -/
theorem lengthened {rest : List Handle} {l : Handle} {u : Text} (surveyed : Surveyed k c w r s)
    (wf : w.forest.WellFormed) (hs : w.engine.stack = top :: rest)
    (last : w.forest.lastChild? top = some l) (htext : (w.forest.node l).isText = true)
    (within : c + u.length ≤ w.engine.text.length) (covered : u <+: w.engine.text.drop c)
    (hf : w'.forest = w.forest.update l (Node.appendText u)) (ht : w'.engine.text = w.engine.text)
    (hs' : w'.engine.stack = w.engine.stack) (hr : w'.engine.root = w.engine.root) :
    Surveyed k (c + u.length) w' r (s.restop l (c + u.length)) := by
  obtain ⟨htop, open_, begun, reached, flush⟩ := surveyed.innermost hs
  obtain ⟨root, charted, isOpen, -⟩ := surveyed
  obtain ⟨ds, children⟩ := List.getLast?_eq_some_iff.1 last
  have member : l ∈ w.forest.children top := List.mem_of_getLast? last
  have row := charted.row top htop
  have entry := row.entry l member
  have stops : s.stop l = c := flush l last htext
  have ne : top ≠ l := by
    rintro rfl
    omega
  have node : w'.forest.node l = (w.forest.node l).appendText u := by
    rw [hf, Forest.node_update, if_pos ⟨rfl, wf.lt_size member⟩]
  have others : ∀ z, z ≠ l → w'.forest.node z = w.forest.node z := fun z hz => by
    rw [hf, Forest.node_update_of_ne w.forest hz]
  have offset : w'.forest.offset l = w.forest.offset l := by
    rw [Forest.offset, node, Node.origin_appendText, Forest.offset]
  obtain ⟨v, content⟩ : ∃ v, (w.forest.node l).content? = some v := by
    rw [Node.isText_eq_isSome] at htext
    exact Option.isSome_iff_exists.1 htext
  obtain ⟨nonempty, fits, length⟩ := entry.text v content
  have content' : (w'.forest.node l).content? = some (v ++ u) := by
    rw [node, Node.content?_appendText, content]
    rfl
  have entry' : Entry w'.forest k w.engine.text (s.restop l (c + u.length)) l := by
    refine .of_text entry.mem ?_ content' (List.append_ne_nil_of_left_ne_nil nonempty u) ?_ ?_
    · rw [offset, node, Node.origin_appendText]
      exact entry.origin
    · rw [offset]
      refine Text.append_prefix fits ?_
      rw [← length, stops]
      exact covered
    · rw [offset, Chart.stop_restop, List.length_append]
      omega
  have charted' := charted.restop wf htop children (by rw [hf, Forest.size_update])
    (fun z _ hz => others z hz) (by rw [Forest.children, node, Node.children_appendText]; rfl)
    (by rw [node, Node.origin_appendText]) (by rw [node, Node.isText_appendText])
    (fun _ _ _ => rfl) entry' (by omega) fun d hd => by
      have inside := (charted.row l entry.mem).inside d hd
      omega
  refine ⟨hr.trans root, by rw [ht]; exact charted', fun x hx => ?_, fun top' rest' hs'' => ?_⟩
  · rw [hs'] at hx
    rw [ht]
    obtain ⟨mem, stop⟩ := isOpen x hx
    refine ⟨mem, ?_⟩
    rw [Chart.stop_restop_of_ne]
    · exact stop
    · rintro rfl
      omega
  · rw [hs', hs] at hs''
    cases hs''
    have same : w'.forest.children top = ds ++ [l] := by
      rw [Forest.children, others top ne]
      exact children
    refine .of_last (fun hne => ?_) same (fun d hd => ?_) (Chart.stop_restop ..)
    · rw [Forest.offset, others top ne]
      exact Nat.lt_add_right _ (begun hne)
    · have other : d ≠ l := fun e => wf.not_mem_front children (e ▸ hd)
      rw [Chart.stop_restop_of_ne _ other]
      have inside : d ∈ w.forest.children top := by
        rw [children]
        exact List.mem_append_left _ hd
      exact Nat.le_add_right_of_le (reached d inside)

/-- Text is written into a new node at the end. -/
theorem grown {rest : List Handle} {u : Text} (surveyed : Surveyed k c w r s)
    (wf : w.forest.WellFormed) (hs : w.engine.stack = top :: rest)
    (apart : ∀ l, w.forest.lastChild? top = some l → (w.forest.node l).isText = false)
    (nonempty : u ≠ []) (within : c + u.length ≤ w.engine.text.length)
    (covered : u <+: w.engine.text.drop c)
    (hf : w'.forest = w.forest.growText top u (some (c : Int))) (ht : w'.engine.text = w.engine.text)
    (hs' : w'.engine.stack = w.engine.stack) (hr : w'.engine.root = w.engine.root) :
    Surveyed k (c + u.length) w' r (s.enter w.forest.size (c + u.length)) := by
  obtain ⟨htop, open_, front⟩ := surveyed.innermost hs
  obtain ⟨root, charted, isOpen, -⟩ := surveyed
  have known := charted.known top htop
  have node := Forest.node_growText known u (some (c : Int))
  rw [← hf] at node
  have new : w'.forest.node w.forest.size
      = { (Blueprint.text u (some (c : Int))).build w.forest.nextId with parent := some top } := by
    rw [node, if_pos rfl]
  have old : ∀ z, s.nodes z → z ≠ w.forest.size := fun z hz => Nat.ne_of_lt (charted.known z hz)
  have others : ∀ z, s.nodes z → z ≠ top → w'.forest.node z = w.forest.node z := fun z hz hzt => by
    rw [node, if_neg (old z hz), if_neg hzt]
    rfl
  have parent : w'.forest.node top
      = { w.forest.node top with children := w.forest.children top ++ [w.forest.size] } := by
    rw [node, if_neg (old top htop), if_pos rfl]
  have origin : (w'.forest.node w.forest.size).origin = some (c : Int) := by
    rw [new]
    simp [Blueprint.build, Blueprint.text]
  have offset := Forest.offset_of_origin origin
  have content : (w'.forest.node w.forest.size).content? = some u := by
    rw [hf]
    exact Forest.content?_growText known u (some (c : Int))
  have long : 0 < u.length := List.length_pos_iff.2 nonempty
  have entry : Entry w'.forest k w.engine.text (s.enter w.forest.size (c + u.length))
      w.forest.size := by
    refine .of_text (.inl rfl) (by rw [offset]; exact origin) content nonempty ?_ ?_
    · rw [offset]
      exact covered
    · rw [offset, Chart.stop_enter]
  have charted' : Charted w'.forest k w.engine.text r (s.enter w.forest.size (c + u.length)) := by
    refine charted.append htop (fun p hm => absurd (wf.lt_size hm) (Nat.lt_irrefl _)) ?_ ?_
      (fun z hz hzt _ => others z hz hzt) parent ?_ (fun _ _ => rfl) entry (old top htop) ?_ ?_
      fun l hl htext => ?_
    · rw [hf, Forest.size_growText]
      exact Nat.lt_succ_self _
    · rw [hf, Forest.size_growText]
      exact Nat.le_succ _
    · rw [Forest.children, new]
      rfl
    · omega
    · rw [offset]
      exact front
    · rw [apart l hl] at htext
      cases htext
  refine ⟨hr.trans root, by rw [ht]; exact charted', fun x hx => ?_, fun top' rest' hs'' => ?_⟩
  · rw [hs'] at hx
    obtain ⟨mem, stop⟩ := isOpen x hx
    rw [ht, Chart.stop_enter_of_ne _ (old x mem)]
    exact ⟨.inr mem, stop⟩
  · rw [hs', hs] at hs''
    cases hs''
    have children : w'.forest.children top = w.forest.children top ++ [w.forest.size] := by
      rw [Forest.children, parent]
    refine .of_last (fun hne => ?_) children (fun d hd => ?_) (Chart.stop_enter ..)
    · rw [Forest.offset, parent]
      exact Nat.lt_add_right _ (front.begun hne)
    · rw [Chart.stop_enter_of_ne _ (old d (charted.mem htop hd))]
      exact Nat.le_add_right_of_le (front.reached d hd)

end Surveyed

/-- Text goes to the innermost open node. -/
theorem Mapped.wrote (mapped : Mapped k c w) (u : Text) (offset : Option Int)
    (dated : offset.getD w.engine.cursor = (c : Int)) (covered : u <+: w.engine.text.drop c)
    (hf : w'.forest = textForest w u offset) (ht : w'.engine.text = w.engine.text)
    (hs' : w'.engine.stack = w.engine.stack) (hr : w'.engine.root = w.engine.root)
    (hd : w'.engine.detached = w.engine.detached) : Mapped k (c + u.length) w' := by
  obtain ⟨covers, within, r, s, surveyed⟩ := mapped
  have within' := Text.le_length_of_prefix within covered
  have covers' : Covers k (c + u.length) w' :=
    covers.wrote u offset hf ht hs' hr hd (Text.take_eq_append_of_prefix covered)
  refine ⟨covers', by rw [ht]; exact within', r, ?_⟩
  obtain ⟨top, rest, hs, -⟩ := covers.spine
  by_cases hu : u = []
  · subst hu
    have same : w'.forest = w.forest := by
      rw [hf, textForest, hs]
      rfl
    exact ⟨s, surveyed.congr (by rw [same]) (fun y _ => by rw [same]) (fun _ _ => rfl) ht hs' hr⟩
  have wf := covers.tidy.wellFormed
  have known := surveyed.charted.known top (surveyed.innermost hs).1
  obtain ⟨f', hrun, writes⟩ := wf.run_appendToLastText known hu (some (offset.getD w.engine.cursor))
  have forest : w'.forest = f' := by
    rw [hf, textForest, hs]
    exact Forest.after_of_ok hrun
  rw [dated] at writes
  cases writes with
  | last last htext =>
      exact ⟨_, surveyed.lengthened wf hs last htext within' covered forest ht hs' hr⟩
  | new apart => exact ⟨_, surveyed.grown wf hs apart hu within' covered forest ht hs' hr⟩

/-! ## Opening and closing -/

/-- A fresh node is opened at the needle. -/
theorem Mapped.pushed (mapped : Mapped k c w) {h x : Handle} (fresh : Fresh w h)
    (origin : (w.forest.node h).origin = some (c : Int))
    (content : (w.forest.node h).content? = none) (nonempty : k.needle ≠ [])
    (covered : k.needle <+: w.engine.text.drop c)
    (returned : (push (.node h)).outcome w = (.ok x, w')) :
    Mapped (k.opened h) (c + k.needle.length) w' := by
  obtain ⟨covers, within, r, s, surveyed⟩ := mapped
  have within' := Text.le_length_of_prefix within covered
  have covers' := covers.pushed fresh origin content (Text.take_eq_append_of_prefix covered) returned
  obtain ⟨top, rest, hs, rfl⟩ := covers.tidy.push_fresh fresh returned
  obtain ⟨htop, open_, front⟩ := surveyed.innermost hs
  obtain ⟨root, charted, isOpen, -⟩ := surveyed
  have known := charted.known top htop
  have notTop : top ≠ h := by
    rintro rfl
    exact fresh.notOpen (by rw [hs]; exact List.mem_cons_self)
  have new : ∀ p, h ∉ w.forest.children p := fun _ =>
    covers.tidy.wellFormed.not_mem_of_parent_none fresh.parent
  have long : 0 < k.needle.length := List.length_pos_iff.2 nonempty
  have mark : (k.opened h).opener h = k.needle := if_pos rfl
  have offset := Forest.offset_of_origin origin
  generalize hf : w.forest.link top h (w.forest.children top ++ [h]) = f at covers'
  have node := Forest.node_link known fresh.known (w.forest.children top ++ [h])
  rw [hf] at node
  have size : f.size = w.forest.size := by
    rw [← hf, Forest.size_link]
  have offset' : ∀ z, f.offset z = w.forest.offset z := fun z => by
    rw [Forest.offset, node, Forest.offset]
  have isText : ∀ z, (f.node z).isText = (w.forest.node z).isText := fun z => by
    rw [node]
    rfl
  have leaf : f.children h = [] := by
    rw [Forest.children, node, if_neg notTop.symm]
    exact fresh.children
  have entry : Entry f (k.opened h) w.engine.text (s.enter h (w.engine.text.length + 1)) h := by
    refine ⟨.inl rfl, ?_, ?_, fun v hv => ?_, fun _ => ?_⟩
    · rw [offset', offset, node]
      exact origin
    · rw [offset', offset, Chart.stop_enter]
      omega
    · rw [node] at hv
      rw [show (w.forest.node h).content? = some v from hv] at content
      cases content
    · rw [mark, offset', offset]
      exact ⟨nonempty, covered⟩
  have charted' : Charted f (k.opened h) w.engine.text r
      (s.enter h (w.engine.text.length + 1)) := by
    refine charted.append htop new (by rw [size]; exact fresh.known) (Nat.le_of_eq size.symm)
      (fun z _ hzt hzh => ?_) ?_ leaf (fun z hz => if_neg hz) entry notTop (Nat.le_of_eq open_.symm)
      ?_ fun _ _ _ => ?_
    · rw [node, if_neg hzh, if_neg hzt]
      rfl
    · rw [node, if_neg notTop, if_pos rfl]
      rfl
    · rw [offset', offset]
      exact front
    · rw [isText, Node.isText_eq_isSome, content]
      rfl
  refine ⟨covers', within', r, s.enter h (w.engine.text.length + 1), root, charted', fun z hz => ?_,
    fun top' rest' hs' => ?_⟩
  · rcases List.mem_cons.1 hz with rfl | hz
    · exact ⟨.inl rfl, Chart.stop_enter ..⟩
    · obtain ⟨mem, stop⟩ := isOpen z hz
      have ne : z ≠ h := fun e => fresh.notOpen (e ▸ hz)
      exact ⟨.inr mem, (Chart.stop_enter_of_ne s ne _).trans stop⟩
  · change h :: w.engine.stack = top' :: rest' at hs'
    cases hs'
    refine .of_leaf (fun _ => ?_) leaf
    show f.offset h < c + k.needle.length
    rw [offset', offset]
    omega

/-- An open node is the last child of the next one and no text, and it is not open twice. -/
theorem Covers.last_of_stack (covers : Covers k c w) {rest : List Handle}
    (hs : w.engine.stack = x :: y :: rest) :
    (∃ ds, w.forest.children y = ds ++ [x]) ∧ (w.forest.node x).content? = none ∧ x ∉ y :: rest := by
  obtain ⟨top, rest', hs', spine⟩ := covers.spine
  have once := spine.branch.nodup covers.tidy.wellFormed
  rw [← hs', hs] at once
  rw [hs] at hs'
  cases hs'
  cases spine with
  | node _ children _ content => exact ⟨⟨_, children⟩, content, (List.nodup_cons.1 once).1⟩

/-- Below the next open node, the innermost one begins before the offset and behind its siblings. -/
theorem Surveyed.last_of_stack {rest ds : List Handle} (surveyed : Surveyed k c w r s)
    (covers : Covers k c w) (hs : w.engine.stack = x :: y :: rest)
    (children : w.forest.children y = ds ++ [x]) :
    w.forest.parent x = some y ∧ x ≠ r ∧ Entry w.forest k w.engine.text s x ∧ w.forest.offset x < c
      ∧ (y ≠ r → w.forest.offset y < w.forest.offset x)
      ∧ (∀ d ∈ ds, s.nodes d ∧ s.stop d ≤ w.forest.offset x)
      ∧ ∀ d ∈ ds.getLast?, Joined w.forest s d x := by
  obtain ⟨-, -, begun, -, -⟩ := surveyed.innermost hs
  obtain ⟨root, charted, isOpen, -⟩ := surveyed
  have parent := covers.tidy.wellFormed.parent_last children
  have member := (covers.tidy.wellFormed.linked y x).1 parent
  have row := charted.row y (isOpen y (by rw [hs]; exact List.mem_cons_of_mem _ List.mem_cons_self)).1
  have entry := row.entry x member
  have later := row.below
  rw [children] at row
  obtain ⟨before, behind, joined⟩ := row.front
  have inner : x ≠ r := by
    rintro rfl
    obtain ⟨r', hr, -, hparent, -⟩ := covers.root
    obtain rfl := Option.some.inj (root.symm.trans hr)
    rw [parent] at hparent
    cases hparent
  exact ⟨parent, inner, entry, begun inner, fun ne => later ne x member,
    fun d hd => ⟨(before.entry d hd).mem, behind d hd⟩, joined⟩

/-- The innermost open node is closed at the needle. -/
theorem Mapped.popped (mapped : Mapped k c w) {x : Handle} (covered : k.needle <+: w.engine.text.drop c)
    (returned : pop.outcome w = (.ok x, w')) :
    ∃ top rest, w.engine.stack = top :: rest ∧ Mapped (k.closed top) (c + k.needle.length) w' := by
  obtain ⟨covers, within, r, s, surveyed⟩ := mapped
  have within' := Text.le_length_of_prefix within covered
  obtain ⟨top, rest, hs, covers'⟩ := covers.popped (Text.take_eq_append_of_prefix covered) returned
  rcases pop_cases w with ⟨e, hout⟩ | ⟨top', next, rest', hs', hout⟩
  · rw [returned] at hout
    cases hout
  rw [returned] at hout
  cases hout
  rw [hs] at hs'
  cases hs'
  obtain ⟨⟨ds, children⟩, content, once⟩ := covers.last_of_stack hs
  obtain ⟨-, -, entry, begun, later, behind, -⟩ := surveyed.last_of_stack covers hs children
  obtain ⟨-, -, -, reached, -⟩ := surveyed.innermost hs
  obtain ⟨root, charted, isOpen, -⟩ := surveyed
  obtain ⟨hnext, open_⟩ := isOpen next (by rw [hs]; exact List.mem_cons_of_mem _ List.mem_cons_self)
  have entry' : Entry w.forest (k.closed x) w.engine.text (s.restop x (c + k.needle.length)) x := by
    refine ⟨entry.mem, entry.origin, ?_, fun v hv => ?_, entry.opener⟩
    · rw [Chart.stop_restop]
      exact Nat.lt_add_right _ begun
    · rw [content] at hv
      cases hv
  have charted' : Charted w.forest (k.closed x) w.engine.text r (s.restop x (c + k.needle.length)) :=
    charted.restop covers.tidy.wellFormed hnext children (Nat.le_refl _) (fun _ _ _ => rfl) rfl rfl rfl
      (fun _ _ _ => rfl) entry' (by omega) fun d hd => Nat.le_add_right_of_le (reached d hd)
  refine ⟨x, _, hs, covers', within', r, s.restop x (c + k.needle.length), root, charted',
    fun z hz => ?_, fun top' rest'' hs'' => ?_⟩
  · obtain ⟨mem, stop⟩ := isOpen z (by rw [hs]; exact List.mem_cons_of_mem _ hz)
    have ne : z ≠ x := fun e => once (e ▸ hz)
    exact ⟨mem, (Chart.stop_restop_of_ne s ne _).trans stop⟩
  · change next :: rest' = top' :: rest'' at hs''
    cases hs''
    show Front w.forest r _ next _
    refine .of_last (fun ne => Nat.lt_add_right _ (Nat.lt_trans (later ne) begun)) children
      (fun d hd => ?_) (Chart.stop_restop ..)
    have other : d ≠ x := fun e => covers.tidy.wellFormed.not_mem_front children (e ▸ hd)
    have before := (behind d hd).2
    rw [Chart.stop_restop_of_ne _ other]
    omega

/-- The innermost open node is taken out, and the text goes on where it began. -/
theorem Mapped.withdrawn (mapped : Mapped k c w) {h : Handle} {o : Int}
    (returned : withdraw.outcome w = (.ok (h, o), w')) : ∃ n : Nat, o = n ∧ Mapped k n w' := by
  obtain ⟨covers, within, r, s, surveyed⟩ := mapped
  obtain ⟨n, rfl, covers'⟩ := covers.withdrawn returned
  obtain ⟨next, rest, p, hs, hp, origin, rfl⟩ := covers.tidy.withdraw_ok returned
  obtain ⟨⟨ds, children⟩, -, once⟩ := covers.last_of_stack hs
  obtain ⟨parent, inner, -, begun, later, behind, joined⟩ := surveyed.last_of_stack covers hs children
  rw [hp] at parent
  cases parent
  have offset := Forest.offset_of_origin origin
  rw [offset] at begun later behind
  obtain ⟨root, charted, isOpen, -⟩ := surveyed
  obtain ⟨hnext, -⟩ := isOpen next (by rw [hs]; exact List.mem_cons_of_mem _ List.mem_cons_self)
  have wf := covers.tidy.wellFormed
  have charted' := charted.cut wf hnext children inner
  have node := Forest.node_unlink (wf.parent_lt_size hp) (Forest.lt_size_of_parent hp)
  refine ⟨n, rfl, covers', Nat.le_trans (Nat.le_of_lt begun) within, r, s.restrict (· ≠ h), root,
    charted', fun z hz => ?_, fun top' rest'' hs'' => ?_⟩
  · obtain ⟨mem, stop⟩ := isOpen z (by rw [hs]; exact List.mem_cons_of_mem _ hz)
    exact ⟨⟨mem, fun e => once (e ▸ hz)⟩, stop⟩
  · change next :: rest = top' :: rest'' at hs''
    cases hs''
    have same : next ≠ h := fun e => once (e ▸ List.mem_cons_self)
    have left := wf.children_unlink_last children
    show Front (w.forest.unlink next h) r _ next n
    refine ⟨fun ne => ?_, fun d hd => ?_, fun d hd htext => ?_⟩
    · rw [Forest.offset, node]
      exact later ne
    · rw [left] at hd
      exact (behind d hd).2
    · rw [left] at hd
      rw [node] at htext
      exact (joined d hd htext).2.trans offset

/-- The ledger of where the nodes begin. -/
def survey : Ledger σ where
  exact := True
  Holds := Mapped
  extend := Mapped.extend
  congr := Mapped.congr
  withNeedle := Mapped.withNeedle
  wrote mapped u offset dated covered hf ht hs hr hd :=
    mapped.wrote u offset (dated trivial) covered hf ht hs hr hd
  pushed mapped _ _ fresh origin content nonempty covered returned :=
    mapped.pushed fresh origin content nonempty covered returned
  popped mapped _ covered returned := mapped.popped covered returned
  withdrawn mapped _ _ returned := mapped.withdrawn returned

/-! ## Whole parses -/

/-- Before the first round nothing but the root is charted. -/
theorem Begins.mapped {f : Forest} (begins : Begins w w' f) (wf : w.forest.WellFormed) :
    Mapped k 0 w' := by
  have node : w'.forest.node f.size = Blueprint.root.build f.nextId := by
    rw [begins.forest, Forest.node_add, if_pos rfl]
  have leaf : w'.forest.children f.size = [] := by
    rw [Forest.children, node]
    rfl
  refine ⟨begins.covers wf, Nat.zero_le _, f.size,
    { nodes := fun z => z = f.size, stop := fun _ => w'.engine.text.length + 1 }, begins.root,
    ⟨rfl, ?_, ?_⟩, fun z hz => ?_, fun top rest hs => ?_⟩
  · rintro _ rfl
    rw [begins.forest, Forest.size_add]
    exact Nat.lt_succ_self _
  · rintro _ rfl
    rw [leaf]
    exact .nil
  · rw [begins.stack] at hz
    exact ⟨List.mem_singleton.1 hz, rfl⟩
  · rw [begins.stack] at hs
    cases hs
    exact .of_leaf (fun ne => absurd rfl ne) leaf

/-- The offsets of the nodes below a root say where in a text they come from. -/
structure SourceMap (f : Forest) (k : Marks) (t : Text) (r : Handle) : Prop where
  /-- A text node holds a piece of the text, from its offset on. -/
  text : ∀ d ∈ f.descendants r, ∀ u, (f.node d).content? = some u → u ≠ [] ∧
    ∃ a : Nat, (f.node d).origin = some (a : Int) ∧ (t.drop a).take u.length = u
  /-- No two text nodes are next to each other. -/
  apart : ∀ y ∈ f.subtree r, (f.children y).IsChain fun d d' =>
    ¬ ((f.node d).isText = true ∧ (f.node d').isText = true)
  /-- At the offset of any other node stands the needle at which it was opened. -/
  opener : ∀ d ∈ f.descendants r, (f.node d).content? = none → k.opener d ≠ [] ∧
    ∃ a : Nat, (f.node d).origin = some (a : Int)
      ∧ (t.drop a).take (k.opener d).length = k.opener d
  /-- In preorder the offsets increase. -/
  order : ∃ offsets : List Nat, (f.descendants r).map (fun d => (f.node d).origin)
      = offsets.map (fun a : Nat => some (a : Int)) ∧ offsets.Pairwise (· < ·)

/-- A charted tree has a source map. -/
theorem Charted.sourceMap {t : Text} (charted : Charted f k t r s) (wf : f.WellFormed)
    (top : f.parent r = none) : SourceMap f k t r := by
  have free : ∀ p, r ∉ f.children p := by
    intro p hm
    rw [(wf.linked p r).2 hm] at top
    cases top
  have below : f.descendants r = (f.children r).flatMap (f.walk f.size) := rfl
  obtain ⟨each, sorted⟩ := charted.walk_row free f.size r charted.root
  rw [← below] at each sorted
  refine ⟨fun d hd u content => ?_, fun y hy => ?_, fun d hd content => ?_,
    (f.descendants r).map f.offset, ?_, List.pairwise_map.2 sorted⟩
  · obtain ⟨entry, -⟩ := each d hd
    obtain ⟨nonempty, fits, -⟩ := entry.text u content
    exact ⟨nonempty, _, entry.origin, (List.prefix_iff_eq_take.1 fits).symm⟩
  · have member : s.nodes y := by
      rcases List.mem_cons.1 hy with rfl | hy
      · exact charted.root
      · exact (each y hy).1.mem
    refine (charted.row y member).joined.imp fun d d' joined texts => ?_
    rw [(joined texts.1).1] at texts
    cases texts.2
  · obtain ⟨entry, -⟩ := each d hd
    obtain ⟨nonempty, fits⟩ := entry.opener content
    exact ⟨nonempty, _, entry.origin, (List.prefix_iff_eq_take.1 fits).symm⟩
  · rw [List.map_map]
    exact List.map_congr_left fun d hd => (each d hd).1.origin

/-- In every parse by a faithful grammar that appends needles where they are, the tree that is
returned has a source map. -/
theorem offsets_source_map (g : Grammar σ) (rounds : Nat) (input : Input) (override : Option Text)
    (w : World σ) (wf : w.forest.WellFormed)
    (faithful : ∀ m ∈ parseMoments g rounds input override w, m.Faithful g)
    (dated : ∀ m ∈ parseMoments g rounds input override w, m.Dated) :
    ∀ report w' r, (parse g rounds input override).outcome w = (.ok report, w') →
      report.success = true → report.tree = some r →
      SourceMap w'.forest (marks (parseMoments g rounds input override w)) w'.engine.text r := by
  intro report w' r parsed success tree
  have start : ∀ f u, Begins ((enter override).outcome w).2 u f →
      (survey : Ledger σ).Holds {} 0 u := fun f u begins => begins.mapped wf
  obtain ⟨u, v, ended, grows, root, cleaned, text⟩ :=
    exists_atEnd_of_tree start (fun m hm => ⟨faithful m hm, fun _ => dated m hm⟩) parsed success tree
  obtain ⟨c, whole, mapped⟩ := ended
  obtain ⟨covers, -, r', s, surveyed⟩ : Mapped _ c u := mapped
  obtain ⟨r'', finished⟩ := covers.finished (List.take_of_length_le whole)
  obtain rfl : r' = r := Option.some.inj (surveyed.root.symm.trans (grows.root.symm.trans root))
  obtain rfl : r' = r'' := Option.some.inj (surveyed.root.symm.trans finished.root)
  have finished := finished.grow grows
  have charted : Charted v.forest _ u.engine.text r' s := surveyed.charted.congr grows.size
    (fun y hy => grows.node y (surveyed.charted.known y hy)) fun _ _ => rfl
  -- What is destroyed in the end is not below the root.
  have aside : r' ∉ v.engine.detached.reverse := fun hm =>
    finished.notAside (List.mem_reverse.mp hm)
  have same := node_discardAll v.engine.detached.reverse finished.wellFormed finished.parent aside
  have wf' := wellFormed_discardAll v.engine.detached.reverse finished.wellFormed
  have size := (steady_discardAll v.engine.detached.reverse v.forest).size
  rw [← cleaned] at same wf' size
  rw [text, grows.text]
  refine ((charted.restrict finished.wellFormed).congr size (fun y hy => same y hy.2)
    fun _ _ => rfl).sourceMap wf' ?_
  rw [Forest.parent, same r' (.refl v.forest r')]
  exact finished.parent

theorem offsets_source_map_halfClosed : ∃ report r, halfClosedOutcome.1 = .ok report
    ∧ report.success = true ∧ report.tree = some r
    ∧ SourceMap halfClosedOutcome.2.forest
        (marks (parseMoments (Bold.treeGrammar Unit) 8 halfClosed none { memory := () }))
        halfClosedOutcome.2.engine.text r := by
  have faithful : ∀ m ∈ parseMoments (Bold.treeGrammar Unit) 8 halfClosed none { memory := () },
      m.Faithful (Bold.treeGrammar Unit) := by decide +kernel
  have dated : ∀ m ∈ parseMoments (Bold.treeGrammar Unit) 8 halfClosed none { memory := () },
      m.Dated := by decide +kernel
  have mapped := offsets_source_map (Bold.treeGrammar Unit) 8 halfClosed none { memory := () }
    (.of_size_eq_zero rfl) faithful dated
  obtain ⟨report, w, out, success, tree⟩ := halfClosedOutcome_succeeds
  rw [out]
  exact ⟨report, 0, rfl, success, tree, mapped report w 0 out success tree⟩

end Engine

end Needlework

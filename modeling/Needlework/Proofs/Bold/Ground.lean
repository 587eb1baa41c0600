import Needlework.Proofs.Bold.Pages

/-!
# The nodes of a scan

A scan of bold markup works below one root, and puts nodes aside.  A node that was put aside is
*spare*: nothing is linked to it, and its teardown does not fail.  So it stays spare while the scan
goes on elsewhere, and it can be discarded in the end (`exists_discardAll_of_spare`).

The scan changes its tree in three ways.  It opens a node below the root (`Ground.grow`), it adds
text below the root or below a bold node (`Adds`), and it takes a bold node out of the tree again.
-/

namespace Needlework.Bold

open Engine

variable {f f' : Forest} {b p r d : Handle} {aside : List Handle}

/-! ## Spare nodes -/

/-- A node put aside: nothing is linked to it, and it can be destroyed. -/
structure Spare (f : Forest) (d : Handle) : Prop where
  known : d < f.size
  parent : f.parent d = none
  children : f.children d = []
  firm : (f.node d).teardown? = none

theorem Spare.of_node_eq (spare : Spare f d) (size : f.size ≤ f'.size)
    (same : f'.node d = f.node d) : Spare f' d := by
  obtain ⟨known, parent, children, firm⟩ := spare
  rw [Forest.parent] at parent
  rw [Forest.children] at children
  rw [← same] at parent children firm
  exact ⟨Nat.lt_of_lt_of_le known size, parent, children, firm⟩

/-! ## The ground -/

/-- The nodes of a scan: the root, and what was put aside. -/
structure Ground (f : Forest) (r : Handle) (aside : List Handle) : Prop where
  wellFormed : f.WellFormed
  known : r < f.size
  kind : (f.node r).kind = rootKind
  firm : (f.node r).teardown? = none
  spare : ∀ d ∈ aside, d ≠ r ∧ Spare f d

theorem Ground.of_kept (ground : Ground f r aside) (wf : f'.WellFormed) (kept : f.OriginsKept f')
    (same : ∀ d ∈ aside, f'.node d = f.node d) : Ground f' r aside where
  wellFormed := wf
  known := Nat.lt_of_lt_of_le ground.known kept.size
  kind := (kept.same r ground.known).kind.trans ground.kind
  firm := (kept.same r ground.known).teardown?.trans ground.firm
  spare d hd := ⟨(ground.spare d hd).1, (ground.spare d hd).2.of_node_eq kept.size (same d hd)⟩

theorem Ground.grow (ground : Ground f r aside) {bp : Blueprint} (kind : bp.kind ≠ rootKind) :
    Ground (f.grow r bp) r aside := by
  have kept : f.OriginsKept (f.grow r bp) :=
    (Forest.OriginsKept.add bp).trans ((Forest.OriginsKept.setChildren ..).trans (.setParent ..))
  exact ground.of_kept (ground.wellFormed.grow ground.known kind) kept fun d hd =>
    Forest.node_grow_of_ne ground.known bp (ground.spare d hd).2.known (ground.spare d hd).1

/-- What has a parent was not put aside. -/
theorem Ground.apart (ground : Ground f r aside) (parent : f.parent b = some p) :
    ∀ d ∈ aside, d ≠ b := by
  rintro d hd rfl
  rw [(ground.spare d hd).2.parent] at parent
  cases parent

/-- A child of the root that has no children is spare when it is taken out of the tree. -/
theorem Ground.putAside (ground : Ground f r aside) (parent : f.parent b = some r)
    (leaf : f.children b = []) (firm : (f.node b).teardown? = none) :
    Ground (f.unlink r b) r (b :: aside) := by
  have wf := ground.wellFormed
  have known := Forest.lt_size_of_parent parent
  have kept : f.OriginsKept (f.unlink r b) :=
    (Forest.OriginsKept.setChildren ..).trans (.setParent ..)
  have unlinked : Ground (f.unlink r b) r aside := by
    refine ground.of_kept (wf.unlink parent) kept fun d hd => ?_
    exact Forest.node_unlink_of_ne ground.known known (ground.spare d hd).1 (ground.apart parent d hd)
  have ne : b ≠ r := (wf.parent_ne parent).symm
  have node := Forest.node_unlink ground.known known b
  rw [if_pos rfl, if_neg ne, leaf] at node
  refine { unlinked with spare := fun d hd => ?_ }
  rcases List.mem_cons.1 hd with rfl | hd
  · refine ⟨ne, Nat.lt_of_lt_of_le known kept.size, ?_, ?_, (kept.same d known).teardown?.trans firm⟩
    · rw [Forest.parent, node]
    · rw [Forest.children, node]
  · exact unlinked.spare d hd

/-! ## Text -/

/-- Text was added behind what is below a node, and nothing else has changed. -/
structure Adds (f : Forest) (p : Handle) (f' : Forest) : Prop where
  wellFormed : f'.WellFormed
  kept : f.OriginsKept f'
  itself : f'.node p = { f.node p with children := f'.children p }
  others : ∀ k, k < f.size → k ≠ p → k ∉ f.children p → f'.node k = f.node k

theorem Adds.refl (wf : f.WellFormed) (p : Handle) : Adds f p f :=
  ⟨wf, .refl f, rfl, fun _ _ _ _ => rfl⟩

theorem Adds.of_writes (wf : f.WellFormed) (hp : p < f.size) {t : Text} {origin : Option Int}
    (writes : f.Writes p t origin f') : Adds f p f' := by
  refine ⟨wf.writes hp writes, .writes writes, ?_, fun k hk apart below =>
    writes.node_of_ne hp hk apart below⟩
  cases writes with
  | @last c last _ =>
      have parent := wf.parent_of_lastChild? last
      have apart : p ≠ c := wf.parent_ne parent
      rw [Forest.children, Forest.node_update_of_ne f apart]
  | new _ => rw [Forest.children, Forest.node_growText hp, if_neg (Nat.ne_of_lt hp), if_pos rfl]

/-- Text below a node that was not put aside leaves the nodes of a scan in order. -/
theorem Ground.adds (ground : Ground f r aside) (adds : Adds f p f')
    (apart : ∀ d ∈ aside, d ≠ p) : Ground f' r aside :=
  ground.of_kept adds.wellFormed adds.kept fun d hd =>
    adds.others d (ground.spare d hd).2.known (apart d hd) fun listed =>
      ground.apart ((ground.wellFormed.linked p d).2 listed) d hd rfl

theorem Ground.addsToRoot (ground : Ground f r aside) (adds : Adds f r f') : Ground f' r aside :=
  ground.adds adds fun d hd => (ground.spare d hd).1

/-! ## Discarding -/

/-- Spare nodes are discarded without a failure. -/
theorem exists_discardAll_of_spare {ds : List Handle} (wf : f.WellFormed)
    (spare : ∀ d ∈ ds, Spare f d) : ∃ f', (discardAll ds).run f = .ok () f' := by
  induction ds generalizing f with
  | nil => exact ⟨f, rfl⟩
  | cons d ds ih =>
      have rest : ∀ x ∈ ds, Spare f x := fun x hx => spare x (List.mem_cons_of_mem d hx)
      have here := spare d List.mem_cons_self
      rw [discardAll, EStateM.run_bind, EStateM.run_get]
      dsimp only
      split
      · have alone : ∀ x, f.Over d x → x = d := fun x => wf.eq_of_over_childless here.children
        obtain ⟨g, destroyed, released, others⟩ := wf.exists_destroy here.parent here.known
          fun x below => by rw [alone x below]; exact here.firm
        have kept := Forest.steady_destroy d f
        have wg := wf.after_destroy d
        rw [Forest.after_of_ok destroyed] at kept wg
        rw [EStateM.run_bind, destroyed]
        refine ih wg fun x hx => ?_
        have before := rest x hx
        by_cases same : x = d
        · have gone := released x (same ▸ .refl f x)
          exact ⟨Nat.lt_of_lt_of_le before.known kept.size, gone.parent, gone.children,
            (kept.same x before.known).teardown?.trans before.firm⟩
        · exact before.of_node_eq kept.size (others x fun below => same (alone x below))
      · exact ih wf rest

end Needlework.Bold

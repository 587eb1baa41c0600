import Mathlib.Data.List.Chain
import Needlework.Proofs.Forest.Edits

/-!
# Rightmost branches

A list of nodes is a *rightmost branch* when each node is the last child of the next one in the
list.  The lowest node comes first, as on a stack of open nodes.

Everything on a branch is over the lowest node, so that a branch visits no node twice
(`Branch.nodup`).  A branch reads the last children of its nodes only, and not those of the lowest
one, so it survives whatever happens below that (`Branch.congr`).  A node that goes to another place is
not on the branch if it was insertable below its lowest node, and then the last children of the
branch stay where they are (`Branch.insert`).
-/

namespace Needlework

namespace Forest

variable {f f' : Forest} {h n p top x y z : Handle} {hs rest : List Handle}

/-- Each node of the list is the last child of the next one. -/
def Branch (f : Forest) (hs : List Handle) : Prop := hs.IsChain fun x y => f.lastChild? y = some x

/-- A list without the entry of another element ends as before. -/
theorem getLast?_erase_of_ne {l : List Handle} (last : l.getLast? = some x) (ne : x ≠ z) :
    (l.erase z).getLast? = some x := by
  obtain ⟨front, rfl⟩ := List.getLast?_eq_some_iff.1 last
  by_cases member : z ∈ front
  · rw [List.erase_append_left _ member, List.getLast?_concat]
  · rw [List.erase_append_right _ member, List.erase_of_not_mem (by simpa using ne.symm),
      List.getLast?_concat]

/-- Text that goes to a node leaves the children of the others alone. -/
theorem Writes.children_of_ne {t : Text} {origin : Option Int} (writes : f.Writes p t origin f')
    (hp : p < f.size) (known : y < f.size) (ne : y ≠ p) : f'.children y = f.children y := by
  cases writes with
  | last => exact children_update_appendText f _ y t
  | new => rw [Forest.children, node_growText_of_ne hp t origin known ne, Forest.children]

namespace Branch

theorem singleton (f : Forest) (h : Handle) : f.Branch [h] := List.IsChain.singleton h

theorem tail (branch : f.Branch (h :: hs)) : f.Branch hs := by
  cases hs with
  | nil => exact .nil
  | cons y hs => exact (List.isChain_cons_cons.1 branch).2

theorem lastChild? (branch : f.Branch (x :: y :: rest)) : f.lastChild? y = some x :=
  (List.isChain_cons_cons.1 branch).1

theorem cons (branch : f.Branch (y :: rest)) (last : f.lastChild? y = some x) :
    f.Branch (x :: y :: rest) :=
  List.isChain_cons_cons.2 ⟨last, branch⟩

/-- A branch reads the last children of all of its nodes but the lowest one. -/
theorem congr (branch : f.Branch (top :: rest))
    (same : ∀ y ∈ rest, ∀ x ∈ top :: rest, f.lastChild? y = some x → f'.lastChild? y = some x) :
    f'.Branch (top :: rest) := by
  induction rest generalizing top with
  | nil => exact .singleton f' top
  | cons y rest ih =>
      refine (ih branch.tail fun z hz x hx => ?_).cons ?_
      · exact same z (List.mem_cons_of_mem _ hz) x (List.mem_cons_of_mem _ hx)
      · exact same y List.mem_cons_self top List.mem_cons_self branch.lastChild?

/-- Read from its upper end, a branch goes down along last children. -/
theorem lastChild?_of_reverse (branch : f.Branch hs) {i : Nat} (hy : hs.reverse[i]? = some y)
    (hx : hs.reverse[i + 1]? = some x) : f.lastChild? y = some x := by
  obtain ⟨hi, rfl⟩ := List.getElem?_eq_some_iff.1 hy
  obtain ⟨hj, rfl⟩ := List.getElem?_eq_some_iff.1 hx
  exact List.isChain_iff_getElem.1 (List.isChain_reverse.2 branch) i hj

section WellFormed

variable (wf : f.WellFormed)

include wf

theorem parent (branch : f.Branch (x :: y :: rest)) : f.parent x = some y :=
  wf.parent_of_lastChild? branch.lastChild?

/-- Everything on a branch is over its lowest node. -/
theorem over_lowest (branch : f.Branch (top :: rest)) (hy : y ∈ top :: rest) : f.Over y top := by
  induction rest generalizing top with
  | nil =>
      rw [List.mem_singleton.1 hy]
      exact .refl f top
  | cons z rest ih =>
      rcases List.mem_cons.1 hy with rfl | hy
      · exact .refl f y
      · exact (ih branch.tail hy).trans (.of_parent (branch.parent wf))

theorem not_mem (branch : f.Branch (top :: rest)) : top ∉ rest := by
  cases rest with
  | nil => exact List.not_mem_nil
  | cons y rest =>
      intro member
      exact wf.not_over_parent (branch.parent wf) (branch.tail.over_lowest wf member)

/-- A branch visits no node twice. -/
theorem nodup {hs : List Handle} (branch : f.Branch hs) : hs.Nodup := by
  induction hs with
  | nil => exact List.nodup_nil
  | cons h hs ih => exact List.nodup_cons.2 ⟨branch.not_mem wf, ih branch.tail⟩

/-- Only the upper end of a branch may have no parent. -/
theorem last_or_parent {hs : List Handle} (branch : f.Branch hs) (hh : h ∈ hs) :
    hs.getLast? = some h ∨ ∃ p, f.parent h = some p := by
  induction hs with
  | nil => cases hh
  | cons x hs ih =>
      cases hs with
      | nil => simp_all
      | cons y hs =>
          rcases List.mem_cons.1 hh with rfl | hh
          · exact .inr ⟨y, branch.parent wf⟩
          · rw [List.getLast?_cons_cons]
            exact ih branch.tail hh

/-- A branch survives a change of the children of its lowest node. -/
theorem congr_below (branch : f.Branch (top :: rest))
    (same : ∀ y ∈ rest, y ≠ top → f'.children y = f.children y) : f'.Branch (top :: rest) := by
  refine branch.congr fun y hy x _ hx => ?_
  have ne : y ≠ top := by
    rintro rfl
    exact branch.not_mem wf hy
  rw [Forest.lastChild?, same y hy ne]
  exact hx

/-- A node that is moved below the lowest node of a branch extends the branch. -/
theorem insert (branch : f.Branch (top :: rest)) (hp : top < f.size) (hn : n < f.size)
    (insertable : f.Insertable top n) :
    ((f.uproot n).link top n ((f.uproot n).children top ++ [n])).Branch (n :: top :: rest) := by
  have children : ∀ k, ((f.uproot n).link top n ((f.uproot n).children top ++ [n])).children k
      = if k = top then (f.uproot n).children top ++ [n] else (f.children k).erase n := by
    intro k
    rw [children_link (by simpa using hp) (by simpa using hn)]
    split
    · rfl
    · rw [Forest.children, wf.node_uproot]
  refine cons (branch.congr fun y hy x member hx => ?_) ?_
  · have ne : y ≠ top := by
      rintro rfl
      exact branch.not_mem wf hy
    rw [Forest.lastChild?, children, if_neg ne]
    refine getLast?_erase_of_ne hx ?_
    -- What is on the branch is over its lowest node, and the moved node is not.
    rintro rfl
    exact insertable.notOver (branch.over_lowest wf member)
  · rw [Forest.lastChild?, children, if_pos rfl, List.getLast?_concat]

end WellFormed

end Branch

end Forest

end Needlework

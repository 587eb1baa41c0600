import Needlework.Forest.Walk

/-!
# Checking a tree

`Forest.violations` lists what is wrong with the tree below a node, for any
table whatsoever.  It makes three passes.

* Every visit of the preorder walk is checked by itself: no root and no destroyed
  node may be a child, and the parent that the node records must list it once.
* Every entry of every list of children must record that very node as its parent.
* No id may occur twice in the walk, the top included.
-/

namespace Needlework

/-- What can be wrong with a tree. -/
inductive Violation where
  /-- A root is a child. -/
  | rootAsChild (id : Int)
  /-- A destroyed node is attached. -/
  | destroyedAttached (id : Int)
  /-- A child records no parent. -/
  | noParent (id : Int)
  /-- A child does not occur exactly once under the parent that it records. -/
  | occurrences (id : Int) (count : Nat) (parent : Int)
  /-- A child records another parent. -/
  | otherParent (child node : Int)
  /-- An id is not unique. -/
  | repeatedId (id : Int) (count : Nat)
deriving DecidableEq, Repr

/-- The wording of a violation. -/
def Violation.message : Violation → Text
  | .rootAsChild i => Text.cat ["root node ", Text.ofInt i, " appears as a child"]
  | .destroyedAttached i => Text.cat ["destroyed node ", Text.ofInt i, " is still attached"]
  | .noParent i =>
      Text.cat ["node ", Text.ofInt i, " is listed as a child but has no parent"]
  | .occurrences i n p => Text.cat ["node ", Text.ofInt i, " appears ", Text.ofNat n,
      " times under parent ", Text.ofInt p]
  | .otherParent c n => Text.cat ["child ", Text.ofInt c, " of node ", Text.ofInt n,
      " records another parent"]
  | .repeatedId i n => Text.cat ["node id ", Text.ofInt i, " occurs ", Text.ofNat n, " times"]

namespace Forest

/-- What the parent that a node records says of the node. -/
def parentViolations (f : Forest) (h : Handle) : List Violation :=
  match f.parent h with
  | none => [.noParent (f.idOf h)]
  | some p =>
      let n := (f.children p).count h
      if n = 1 then [] else [.occurrences (f.idOf h) n (f.idOf p)]

/-- What is wrong with one visit of the walk. -/
def visitViolations (f : Forest) (h : Handle) : List Violation :=
  (if (f.node h).kind = rootKind then [.rootAsChild (f.idOf h)] else [])
    ++ (if (f.node h).destroyed then [.destroyedAttached (f.idOf h)] else [])
    ++ f.parentViolations h

/-- The entries of a list of children that record another parent. -/
def entryViolations (f : Forest) (h : Handle) : List Violation :=
  (f.children h).filterMap fun c =>
    if f.parent c = some h then none else some (.otherParent (f.idOf c) (f.idOf h))

/-- The values of a list in the order of their first occurrence. -/
def firstSeen : List Int → List Int
  | [] => []
  | i :: r => i :: (firstSeen r).filter (· ≠ i)

/-- The ids that occur more than once, in the order of their first occurrence. -/
def repeatedIds (ids : List Int) : List Violation :=
  (firstSeen ids).filterMap fun i =>
    let n := ids.count i
    if 1 < n then some (.repeatedId i n) else none

/-- Everything that is wrong with the tree below a node. -/
def violations (f : Forest) (h : Handle) : List Violation :=
  let all := f.subtree h
  (f.descendants h).flatMap f.visitViolations ++ all.flatMap f.entryViolations
    ++ repeatedIds (all.map f.idOf)

/-- Fail with everything that is wrong with the tree below a node, if anything is. -/
def assertValid (f : Forest) (h : Handle) : Except Fault Unit :=
  match f.violations h with
  | [] => .ok ()
  | vs => .error (.brokenTree (vs.map Violation.message))

end Forest

end Needlework

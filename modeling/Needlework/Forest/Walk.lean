import Needlework.Forest.Basic

/-!
# Walks

*Upwards.*  The lineage of a node is the node, its parent, the parent's parent
and so on.  A lineage without repetition is no longer than the table, so the
size of the table bounds the climb.

*Downwards.*  The descendants of a node come in preorder: each child before its
own descendants, children from left to right.  The walk goes down at most as
many levels as the table has nodes, which is more than any chain of distinct
nodes needs.  A node that is listed twice is visited twice.

*Running walks.*  The queries and the dumps walk with a stack of what is still to
visit.  A node that is taken off the stack leaves its children there, the first on
top.  The stack never gets empty if a node is below itself.  If it gets empty, it does
so within a number of steps that is known beforehand.

*Dumps.*  A dump is one line for each node of a subtree, in the same order, behind
a margin that depends on the level.
-/

namespace Needlework.Forest

/-! ## Upwards -/

/-- A node and what its parents lead to, for a bounded number of steps. -/
def climb (f : Forest) : Nat → Handle → List Handle
  | 0, _ => []
  | n + 1, h =>
      match f.parent h with
      | none => [h]
      | some p => h :: climb f n p

/-- A node, its parent, the parent of that, and so on. -/
def lineage (f : Forest) (h : Handle) : List Handle := f.climb (f.size + 1) h

/-- The number of ancestors of a node. -/
def depth (f : Forest) (h : Handle) : Nat := (f.lineage h).length - 1

/-! ## Downwards -/

/-- A node and its descendants in preorder, a bounded number of levels down. -/
def walk (f : Forest) : Nat → Handle → List Handle
  | 0, _ => []
  | n + 1, h => h :: (f.children h).flatMap (walk f n)

/-- A node and its descendants in preorder. -/
def subtree (f : Forest) (h : Handle) : List Handle := f.walk (f.size + 1) h

/-- The descendants of a node in preorder. -/
def descendants (f : Forest) (h : Handle) : List Handle := (f.subtree h).tail

/-! ## Running walks -/

/-- Visit what is on a stack and what that leads to, until the stack is empty.  What has
been seen is kept backwards.  There is no result if the steps do not suffice. -/
def drain {α : Type} (next : α → List α) : Nat → List α → List α → Option (List α)
  | _, seen, [] => some seen.reverse
  | 0, _, _ :: _ => none
  | n + 1, seen, a :: pending => drain next n (a :: seen) (next a ++ pending)

/-- Steps enough for every walk that ends.  No way down is longer than the table, and at
no node is there a choice of more entries than there are in all. -/
def steps (f : Forest) : Nat := Nat.pow (f.links + 2) (f.size + 1)

/-- The descendants of a node, one by one. -/
def descend (f : Forest) (h : Handle) : List Handle :=
  (drain f.children f.steps [] (f.children h)).getD []

/-- The descendants with a property, as they come. -/
def findMatching (f : Forest) (h : Handle) (criterion : Text) (value : Value) : List Handle :=
  (f.descend h).filter fun d => (f.node d).hasProperty criterion value

/-- The number of descendants with a property. -/
def countMatching (f : Forest) (h : Handle) (criterion : Text) (value : Value) : Nat :=
  (f.descend h).countP fun d => (f.node d).hasProperty criterion value

/-- The children of a node on a level, one level below it. -/
def childrenBelow (f : Forest) (visit : Nat × Handle) : List (Nat × Handle) :=
  (f.children visit.2).map fun c => (visit.1 + 1, c)

/-- A node and its descendants, each with its level below the node. -/
def outline (f : Forest) (h : Handle) : List (Nat × Handle) :=
  (drain f.childrenBelow f.steps [] [(0, h)]).getD []

/-- The number of levels below a node. -/
def height (f : Forest) (h : Handle) : Nat :=
  (f.outline h).foldl (fun deepest (level, _) => max deepest level) 0

/-! ## Dumps -/

/-- The line of a node behind a margin. -/
def dumpLine (f : Forest) (margin lineEnd : Text) (h : Handle) : Text :=
  margin ++ (Text.ofInt (f.idOf h) ++ (0x3A :: 0x20 :: (f.node h).describe ++ lineEnd))

/-- A subtree as text, one line for each node, with a margin for each level below
the node. -/
def dumpWith (f : Forest) (h : Handle) (margin : Nat → Text) (lineEnd : Text) : Text :=
  (f.outline h).flatMap fun (level, k) => f.dumpLine (margin level) lineEnd k

/-- A subtree as text, one line for each node.  The margins grow by one indentation
with each level, and a level below zero has none. -/
def dump (f : Forest) (h : Handle) (indent lineEnd : Text) (level : Int) : Text :=
  f.dumpWith h (fun below => indent.times (level + below).toNat) lineEnd

end Needlework.Forest

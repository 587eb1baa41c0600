import Needlework.Forest.Walk

/-!
# Editing a forest

An edit runs over a forest and either succeeds or is refused with a fault.  Both
ways there is a forest afterwards: a teardown may fail in the middle of a
destruction, and what was done before stays done.

*Insertions.*  The four insertions check first and change afterwards.  The node
must be a node, not a root, not destroyed, and neither the receiver nor one of
its ancestors.  It is then taken from its old parent and put in its new place.
The reference of an insertion beside it is looked up again after that, since
both may have been children of one parent.

*Lookup.*  A child is found in a list of children by its id, the first entry with
that id.  That the parent recorded is the right one is a comparison of nodes.

*Destruction.*  A node that has a parent is first removed from it.  Then a stack
of pending nodes is worked off.  While the node on top has children, its first
child is removed and pushed.  When it has none, it is torn down and popped.
Every step pops a pending node or uses up an entry of a list of children, so
twice the number of entries and one more are enough steps (`destroy`).  A fault
leaves the pending nodes as they are, without parents.
-/

namespace Needlework

/-- An action on a forest that may be refused. -/
abbrev TreeM := EStateM Fault Forest

/-- An argument in the place of a node. -/
inductive Arg where
  /-- A node. -/
  | node (h : Handle)
  /-- Something else. -/
  | other (v : Value)

namespace Forest

/-! ## Checks -/

/-- Refuse an edit. -/
def refuse {α : Type} (cause : EditFault) : TreeM α := throw (.edit cause)

/-- The place of a child, found by its id. -/
def indexOf? (f : Forest) (p c : Handle) : Option Nat :=
  (f.children p).findIdx? fun x => f.idOf x == f.idOf c

/-- The place of a child that must be there. -/
def requireIndex (p c : Handle) : TreeM Nat := do
  let f ← get
  match f.indexOf? p c with
  | some i => return i
  | none => refuse (.notAChild (f.idOf c) (f.idOf p))

/-- A node can become a child of another. -/
def checkInsertable (p n : Handle) : TreeM Unit := do
  let f ← get
  if (f.node n).kind = rootKind then refuse (.rootAsChild (f.idOf n))
  if (f.node n).destroyed then refuse (.destroyed (f.idOf n))
  if n ∈ f.lineage p then refuse (.belowItself (f.idOf n) (f.idOf p))

/-- A node can become a child of another beside a reference. -/
def checkBeside (p n : Handle) (reference : Arg) : TreeM Handle := do
  checkInsertable p n
  match reference with
  | .other _ => refuse .referenceNotANode
  | .node r =>
      if r = n then refuse .besideItself
      let _ ← requireIndex p r
      return r

/-! ## Removing -/

/-- Take the child at an index from its parent. -/
def removeAt (p : Handle) (index : Int) : TreeM Handle := do
  let f ← get
  let cs := f.children p
  let missing : TreeM Handle := refuse (.noSuchChild index (f.idOf p) cs.length)
  if index < 0 then missing
  else match cs[index.toNat]? with
    | none => missing
    | some c =>
        if f.parent c ≠ some p then refuse (.otherParent (f.idOf c) (f.idOf p))
        set ((f.setChildren p (cs.eraseIdx index.toNat)).setParent c none)
        return c

/-- Take a child from its parent. -/
def removeNode (p c : Handle) : TreeM Handle := do
  let i ← requireIndex p c
  removeAt p i

/-- Take a node from the parent that it records. -/
def detach (n : Handle) : TreeM Unit := do
  match (← get).parent n with
  | none => return ()
  | some p => let _ ← removeNode p n

/-! ## Inserting -/

/-- Make a node the child of another, where `place` puts it among the children. -/
def attach (p n : Handle) (place : List Handle → List Handle) : TreeM Unit :=
  modify fun f => (f.setChildren p (place (f.children p))).setParent n (some p)

/-- Make a node the last child. -/
def append (p n : Handle) : TreeM Unit := do
  checkInsertable p n
  detach n
  attach p n (· ++ [n])

/-- Make a node the first child. -/
def prepend (p n : Handle) : TreeM Unit := do
  checkInsertable p n
  detach n
  attach p n (n :: ·)

/-- Put a node before a child, or `shift` places after that. -/
def insertBeside (p n : Handle) (reference : Arg) (shift : Nat) : TreeM Unit := do
  let r ← checkBeside p n reference
  detach n
  let i ← requireIndex p r
  attach p n (·.insertIdx (i + shift) n)

/-- Put a node directly before a child. -/
def insertBefore (p n : Handle) (reference : Arg) : TreeM Unit := insertBeside p n reference 0

/-- Put a node directly after a child. -/
def insertAfter (p n : Handle) (reference : Arg) : TreeM Unit := insertBeside p n reference 1

/-! ## Destroying -/

/-- Run the teardown of a node and mark it destroyed.  A text loses its content
and flags.  A teardown that raises a fault leaves the node unmarked. -/
def tearDown (h : Handle) : TreeM Unit := do
  modify fun f => { f with torn := h :: f.torn }
  match ((← get).node h).form with
  | .text _ _ => modify fun f => f.update h fun n => { n with form := .text [] [] }
  | .custom t =>
      match t.teardown with
      | none => pure ()
      | some fault => throw fault
  | _ => pure ()
  modify fun f => f.update h fun n => { n with destroyed := true }

/-- Work off the pending nodes, the innermost first. -/
def dismantle : Nat → List Handle → TreeM Unit
  | _, [] => return ()
  | 0, _ :: _ => return ()
  | n + 1, h :: pending => do
      if ((← get).children h).isEmpty then
        tearDown h
        dismantle n pending
      else
        let c ← removeAt h 0
        dismantle n (c :: h :: pending)

/-- Destroy a node without a parent and everything below it. -/
def raze (h : Handle) : TreeM Unit := do
  dismantle (2 * (← get).links + 1) [h]

/-- Destroy a node and everything below it. -/
def destroy (h : Handle) : TreeM Unit := do
  match (← get).parent h with
  | none => raze h
  | some p =>
      let c ← removeNode p h
      raze c

/-- Take a child, given as a node or by its index, from its parent, and destroy it
if asked to. -/
def removeChild (p : Handle) (child : Arg) (andDestroy : Bool) : TreeM Handle := do
  let c ← match child with
    | .node c => removeNode p c
    | .other (.int i) => removeAt p i
    | .other _ => refuse .neitherNodeNorIndex
  if andDestroy then destroy c
  return c

/-! ## Creating -/

/-- Create a node. -/
def create (b : Blueprint) : TreeM Handle := do
  if b.isReserved then refuse (.reservedKind b.kind)
  modifyGet fun f => f.add b

/-- Append text to the trailing text child, or to a new one if the last child is
not a text. -/
def appendToLastText (p : Handle) (t : Text) (origin : Option Int) : TreeM Unit := do
  if t.isEmpty then return ()
  let f ← get
  match f.lastChild? p with
  | some c =>
      if (f.node c).isText then set (f.update c (Node.appendText t))
      else append p (← create (.text t origin))
  | none => append p (← create (.text t origin))

end Forest

/-! ## Edits as data -/

/-- The public operations on a forest. -/
inductive Edit where
  /-- Create a node. -/
  | create (b : Blueprint)
  /-- Make a node the last child. -/
  | append (p : Handle) (n : Arg)
  /-- Make a node the first child. -/
  | prepend (p : Handle) (n : Arg)
  /-- Put a node before a child. -/
  | insertBefore (p : Handle) (n reference : Arg)
  /-- Put a node after a child. -/
  | insertAfter (p : Handle) (n reference : Arg)
  /-- Remove a child, and destroy it if asked to. -/
  | remove (p : Handle) (child : Arg) (andDestroy : Bool)
  /-- Destroy a node. -/
  | destroy (h : Handle)
  /-- Append text to the trailing text child. -/
  | appendToLastText (p : Handle) (t : Text) (origin : Option Int)
  /-- Append to the content of a text node. -/
  | appendText (h : Handle) (t : Text)
  /-- Replace the content of a text node. -/
  | setContent (h : Handle) (t : Text)
  /-- Set a flag of a text node. -/
  | setFlag (h : Handle) (name : Text) (value : Value)

/-- An argument that must be a node. -/
def Arg.asChild : Arg → TreeM Handle
  | .node h => return h
  | .other _ => throw (.edit .childNotANode)

/-- Run an edit.  The result is the node that it was about. -/
def Edit.run : Edit → TreeM Handle
  | .create b => Forest.create b
  | .append p n => do
      let n ← n.asChild
      Forest.append p n
      return n
  | .prepend p n => do
      let n ← n.asChild
      Forest.prepend p n
      return n
  | .insertBefore p n reference => do
      let n ← n.asChild
      Forest.insertBefore p n reference
      return n
  | .insertAfter p n reference => do
      let n ← n.asChild
      Forest.insertAfter p n reference
      return n
  | .remove p child andDestroy => Forest.removeChild p child andDestroy
  | .destroy h => do
      Forest.destroy h
      return h
  | .appendToLastText p t origin => do
      Forest.appendToLastText p t origin
      return p
  | .appendText h t => do
      modify fun f => f.update h (Node.appendText t)
      return h
  | .setContent h t => do
      modify fun f => f.update h (Node.setContent t)
      return h
  | .setFlag h name value => do
      modify fun f => f.update h (Node.setFlag name value)
      return h

/-- Writes to the table that go past the edits. -/
inductive Tamper where
  /-- Overwrite the parent that a node records. -/
  | parent (h : Handle) (p : Option Handle)
  /-- Add an entry to a list of children. -/
  | child (h c : Handle)
  /-- Overwrite an id. -/
  | id (h : Handle) (i : Int)
  /-- Overwrite the mark of destruction. -/
  | destroyed (h : Handle) (b : Bool)
  /-- Overwrite the origin, negative or not. -/
  | origin (h : Handle) (o : Option Int)

/-- Apply a write. -/
def Tamper.apply (f : Forest) : Tamper → Forest
  | .parent h p => f.setParent h p
  | .child h c => f.setChildren h (f.children h ++ [c])
  | .id h i => f.update h fun n => { n with id := i }
  | .destroyed h b => f.update h fun n => { n with destroyed := b }
  | .origin h o => f.update h fun n => { n with origin := o }

end Needlework

import Needlework.Engine.State

/-!
# Hooks

A grammar drives the scan through hooks.  A hook is a *program*: it asks for one
operation after the other and decides by the replies how to go on, until it
returns a value or raises a fault.  An operation that fails gives the hook the
fault, and the hook may catch it.

Hooks are data, so that what a grammar does can be told from what the engine does
for it.  That a hook uses certain operations only is a statement about the
program, by recursion on it, whatever the replies may be (`Hook.Uses`).

A grammar also has a memory of its own, of any type.  It reads and writes it by
the operations `memory` and `remember`.

`Hook.run` runs a hook for any way to perform the operations.
-/

namespace Needlework

/-- The input of a parse. -/
inductive Input where
  /-- A text. -/
  | text (t : Text)
  /-- Bytes. -/
  | bytes (bs : List UInt8)
  /-- Something else. -/
  | other (v : Value)

/-- What a hook sees of the engine and the forest. -/
structure View where
  /-- The forest. -/
  forest : Forest
  /-- The text that is scanned. -/
  text : Text
  /-- The offset of the scan. -/
  cursor : Int
  /-- The open nodes, the innermost first. -/
  stack : List Handle
  /-- The status. -/
  status : Int
  /-- The needles. -/
  needles : List Text
  /-- The output so far. -/
  output : Value
  /-- The root of the tree. -/
  root : Option Handle
  /-- The nodes put aside by recovery, the newest first. -/
  detached : List Handle

/-- A direct write to the engine. -/
inductive Assignment where
  /-- Set whether to fail instead of recovering. -/
  | strict (v : Value)
  /-- Set the output. -/
  | output (v : Value)
  /-- Set the cursor. -/
  | cursor (i : Int)
  /-- Set the status. -/
  | status (n : Int)
  /-- Set the needles. -/
  | needles (ws : List Text)
  /-- Set the text. -/
  | text (t : Text)
  /-- Set the root of the tree, or set that there is none. -/
  | root (r : Option Handle)
  /-- Set the open nodes. -/
  | stack (hs : List Handle)
  /-- Open a new root and nothing else. -/
  | newRoot
  /-- Close the innermost open node without a check. -/
  | dropTop

/-- The operations of hooks. -/
inductive Op (σ : Type) where
  /-- Look at the engine and the forest. -/
  | look
  /-- Ask whether the engine is strict. -/
  | strictness
  /-- Read the memory. -/
  | memory
  /-- Write the memory. -/
  | remember (s : σ)
  /-- Switch the status through the grammar. -/
  | setStatus (n : Int)
  /-- Attach a node to the innermost open node and open it. -/
  | push (n : Arg)
  /-- Close the innermost open node. -/
  | pop
  /-- Append literal text to the innermost open node. -/
  | appendText (t : Text) (offset : Option Int)
  /-- Read the innermost open construct again as text. -/
  | recover
  /-- Close everything that is open, as the engine does by default. -/
  | closeOpen
  /-- Edit the forest. -/
  | edit (e : Edit)
  /-- Write past the edits of the forest. -/
  | tamper (t : Tamper)
  /-- Write to the engine. -/
  | assign (a : Assignment)
  /-- Apply the filters on the output. -/
  | postfilter (t : Text)
  /-- Start a parse on the same engine. -/
  | parse (input : Input) (override : Option Text)

/-- The type of the reply to an operation. -/
def Op.Reply {σ : Type} : Op σ → Type
  | .look => View
  | .strictness => Value
  | .memory => σ
  | .remember _ => Unit
  | .setStatus _ => Unit
  | .push _ => Handle
  | .pop => Handle
  | .appendText _ _ => Unit
  | .recover => Unit
  | .closeOpen => Bool
  | .edit _ => Handle
  | .tamper _ => Unit
  | .assign _ => Unit
  | .postfilter _ => Text
  | .parse _ _ => Report

/-- A program over the operations. -/
inductive Hook (σ α : Type) where
  /-- Return a value. -/
  | done (a : α)
  /-- Raise a fault. -/
  | raise (f : Fault)
  /-- Ask for an operation and go on by its reply or its fault. -/
  | call (op : Op σ) (next : Except Fault op.Reply → Hook σ α)

namespace Hook

variable {σ α β : Type}

/-- One program after the other. -/
def andThen : Hook σ α → (α → Hook σ β) → Hook σ β
  | .done a, g => g a
  | .raise f, _ => .raise f
  | .call op next, g => .call op fun r => (next r).andThen g

instance : Monad (Hook σ) where
  pure := .done
  bind := andThen

/-- Ask for an operation and pass its fault on. -/
def ask (op : Op σ) : Hook σ op.Reply :=
  .call op fun
    | .ok r => .done r
    | .error f => .raise f

/-- Run a program, for a way to perform the operations. -/
def run (perform : (op : Op σ) → Act σ op.Reply) : Hook σ α → Act σ α
  | .done a => return a
  | .raise f => throw f
  | .call op next => do
      let r ← Act.attempt (perform op)
      (next r).run perform

/-! ## The operations that a program uses -/

/-- Every operation that a program can come to ask for is allowed, whatever the
replies before it were. -/
def Uses (allowed : Op σ → Prop) : Hook σ α → Prop
  | .done _ => True
  | .raise _ => True
  | .call op next => allowed op ∧ ∀ r, (next r).Uses allowed

/-- One program after the other uses what the two of them use. -/
theorem Uses.andThen {allowed : Op σ → Prop} {g : α → Hook σ β} (hg : ∀ a, (g a).Uses allowed) :
    ∀ {p : Hook σ α}, p.Uses allowed → (p.andThen g).Uses allowed
  | .done a, _ => hg a
  | .raise _, _ => trivial
  | .call _ _, h => ⟨h.1, fun r => Uses.andThen hg (h.2 r)⟩

/-- Asking for an operation uses that operation. -/
theorem uses_ask {allowed : Op σ → Prop} {op : Op σ} (h : allowed op) : (ask op).Uses allowed :=
  ⟨h, fun r => by cases r <;> trivial⟩

/-! ## The operations as programs -/

/-- Look at the engine and the forest. -/
def look : Hook σ View := ask .look

/-- Ask whether the engine is strict. -/
def strictness : Hook σ Value := ask .strictness

/-- Read the memory. -/
def memory : Hook σ σ := ask .memory

/-- Write the memory. -/
def remember (s : σ) : Hook σ Unit := ask (.remember s)

/-- Switch the status through the grammar. -/
def setStatus (n : Int) : Hook σ Unit := ask (.setStatus n)

/-- Attach a node to the innermost open node and open it. -/
def push (n : Arg) : Hook σ Handle := ask (.push n)

/-- Close the innermost open node. -/
def pop : Hook σ Handle := ask .pop

/-- Append literal text to the innermost open node. -/
def appendText (t : Text) (offset : Option Int) : Hook σ Unit := ask (.appendText t offset)

/-- Read the innermost open construct again as text. -/
def recover : Hook σ Unit := ask .recover

/-- Close everything that is open, as the engine does by default. -/
def closeOpen : Hook σ Bool := ask .closeOpen

/-- Edit the forest. -/
def edit (e : Edit) : Hook σ Handle := ask (.edit e)

/-- Write past the edits of the forest. -/
def tamper (t : Tamper) : Hook σ Unit := ask (.tamper t)

/-- Write to the engine. -/
def assign (a : Assignment) : Hook σ Unit := ask (.assign a)

/-- Apply the filters on the output. -/
def postfilter (t : Text) : Hook σ Text := ask (.postfilter t)

/-- Start a parse on the same engine. -/
def parse (input : Input) (override : Option Text) : Hook σ Report := ask (.parse input override)

end Hook

/-- A grammar: the hooks that a parse calls.  Each reports by its result whether
it did its work. -/
structure Grammar (σ : Type) where
  /-- Prepare a parse. -/
  init : Hook σ Bool
  /-- Switch to a status and publish its needles. -/
  setStatus : Int → Hook σ Bool
  /-- React to a needle found at the cursor in a status. -/
  handleStatus : Int → Text → Hook σ Bool
  /-- Deal with what is open at the end of the text. -/
  closeRemainingBlocks : Hook σ Bool
  /-- Change the finished tree. -/
  modifyTree : Hook σ Bool
  /-- Build the output, if there is to be one. -/
  outputTree : Hook σ Bool

/-- The grammar that recognises nothing.  It knows status zero only, which has no
needles, and keeps a needle as text. -/
def Grammar.plain (σ : Type) : Grammar σ where
  init := do
    Hook.setStatus 0
    return true
  setStatus n :=
    if n = 0 then do
      Hook.assign (.needles [])
      Hook.assign (.status 0)
      return true
    else return false
  handleStatus _ needle := do
    Hook.appendText needle none
    return true
  closeRemainingBlocks := Hook.closeOpen
  modifyTree := return true
  outputTree := return true

end Needlework

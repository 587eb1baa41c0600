import Needlework.Engine.Hook

/-!
# Operations on the open nodes

The engine keeps a stack of open nodes, and every literal piece of text goes to
the innermost of them.

*Recovery.*  A construct that never closes is read again as text.  Its node is
taken out of the tree and put aside, its opening node is no longer open, the
status goes back to zero, the first code point of its marker becomes text and
the scan goes on behind it.  The node comes out before its origin is looked at,
so a recovery that fails for want of an origin has already put the node aside.

*Performing.*  `perform` gives each operation of a hook its effect.  Switching the
status calls the grammar, which is why it is an argument here, and so is the
start of a parse, which is refused inside another and runs outside of one.
-/

namespace Needlework

namespace Engine

variable {σ : Type}

open Act

/-! ## Opening, closing and text -/

/-- Attach a node to the innermost open node and open it. -/
def push (n : Arg) : Act σ Handle := do
  match (← engine).stack with
  | [] => throw (.stack .nothingToAttachTo)
  | top :: _ =>
      let h ← tree (Edit.append top n).run
      modifyEngine fun e => count (fun m => { m with pushed := m.pushed + 1 })
        { e with stack := h :: e.stack }
      return h

/-- Close the innermost open node.  The root stays open. -/
def pop : Act σ Handle := do
  match (← engine).stack with
  | top :: next :: rest =>
      modifyEngine fun e => { e with stack := next :: rest }
      return top
  | _ => throw (.stack .rootStays)

/-- Append literal text to the innermost open node.  A new text node begins at the
given offset, or else at the cursor. -/
def appendText (t : Text) (offset : Option Int) : Act σ Unit := do
  if t.isEmpty then return ()
  let e ← engine
  match e.stack with
  | [] => throw (.stack .nothingForText)
  | top :: _ => tree (Forest.appendToLastText top t (some (offset.getD e.cursor)))

/-! ## Recovery -/

/-- Whether the limit on recoveries is reached. -/
def limitReached (e : Engine) : Bool :=
  (e.config.maxRecoveries.leInt? e.metrics.recoveries).getD false

/-- Take the innermost open node out of the tree and put it aside. -/
def putAside (top parent : Handle) : Act σ Unit := do
  let _ ← tree (Forest.removeNode parent top)
  modifyEngine fun e => { e with detached := top :: e.detached, stack := e.stack.tail }

/-- The origin of a node, which must lie before the end of the text. -/
def originOf (top : Handle) : Act σ Int := do
  let node := (← get).forest.node top
  let unknown : Act σ Int := throw (.recovery (.unknownOrigin node.id node.origin))
  match node.origin with
  | none => unknown
  | some o => if (← engine).text.length ≤ o then unknown else return o

/-- Append the code point at an offset of the text as literal text. -/
def appendPoint (offset : Int) : Act σ Unit := do
  match (← engine).text.at? offset with
  | none => throw (.outside .text offset)
  | some c => appendText [c] (some offset)

/-- The first half of a recovery: take the innermost open construct out of the tree.
The result is its node and where it began. -/
def withdraw : Act σ (Handle × Int) := do
  let e ← engine
  match e.stack with
  | top :: _ :: _ => do
      if e.limitReached then throw (.recovery (.limitReached e.config.maxRecoveries))
      let f := (← get).forest
      match f.parent top with
      | none => throw (.recovery (.notAttached (f.idOf top)))
      | some parent => putAside top parent
      return (top, ← originOf top)
  | stack => throw (.recovery (.nothingOpen stack.length))

/-- The second half of a recovery: keep the first code point of the marker as text and
go on behind it. -/
def resume (top : Handle) (origin : Int) : Act σ Unit := do
  appendPoint origin
  modifyEngine fun e => count (fun m => { m with recoveries := m.recoveries + 1 })
    { e with cursor := origin + 1, rewound := true }
  let id := (← get).forest.idOf top
  log .debug "Reparsing after unterminated construct"
    [("node_id", .int id), ("offset", .int origin)]
  diagnose .warning "Unterminated construct reinterpreted as literal text" (.int origin)
    (.object [("node_id", .int id)])

/-- Read the innermost open construct again as text, with a way to switch the
status. -/
def recover (switch : Int → Act σ Unit) : Act σ Unit := do
  let (top, origin) ← withdraw
  switch 0
  resume top origin

/-! ## The end of the text -/

/-- Close everything that is open.  Strict mode does not, and says so. -/
def closeOpen : Act σ Bool := do
  let e ← engine
  let n := e.openCount
  if n ≤ 0 then return true
  if e.isStrict then return false
  modifyEngine fun e => count (fun m => { m with forceClosed := m.forceClosed + n })
    { e with stack := e.stack.getLast?.toList }
  diagnose .info
    (Text.cat ["Closed ", Text.ofInt n, " construct(s) left open at end of input"]) .null
    (.object [("open_nodes", .int n)])
  return true

/-! ## Filters -/

/-- Apply the filters of a kind.  Their records carry the engine's own correlation
id. -/
def applyFilters (k : FilterKind) (t : Text) : Act σ Text := do
  let e ← engine
  let (result, records) := e.filters.apply (Pipeline.logger e.correlation) k t
  modify fun w => { w with log := records.reverse ++ w.log }
  ofExcept result

/-! ## Performing operations -/

/-- What a hook sees. -/
def view (w : World σ) : View :=
  { forest := w.forest, text := w.engine.text, cursor := w.engine.cursor
    stack := w.engine.stack, status := w.engine.status, needles := w.engine.needles
    output := w.engine.output, root := w.engine.root, detached := w.engine.detached }

/-- Write to the engine. -/
def assign : Assignment → Act σ Unit
  | .strict v => modifyEngine fun e => { e with strict := v }
  | .output v => modifyEngine fun e => { e with output := v }
  | .cursor i => modifyEngine fun e => { e with cursor := i }
  | .status n => modifyEngine fun e => { e with status := n }
  | .needles ws => modifyEngine fun e => { e with needles := ws }
  | .text t => modifyEngine fun e => { e with text := t }
  | .root r => modifyEngine fun e => { e with root := r }
  | .stack hs => modifyEngine fun e => { e with stack := hs }
  | .newRoot => do
      let r ← tree (Forest.create .root)
      modifyEngine fun e => { e with root := some r, stack := [r] }
  | .dropTop => do
      if (← engine).stack.isEmpty then throw .emptyStack
      modifyEngine fun e => { e with stack := e.stack.tail }

/-- Perform an operation, with a way to switch the status and a way to start a
parse. -/
def perform (switch : Int → Act σ Unit) (start : Input → Option Text → Act σ Report) :
    (op : Op σ) → Act σ op.Reply
  | .look => (return view (← get) : Act σ View)
  | .strictness => (return (← engine).strict : Act σ Value)
  | .memory => (return (← get).memory : Act σ σ)
  | .remember s => (modify fun w => { w with memory := s } : Act σ Unit)
  | .setStatus n => switch n
  | .push n => push n
  | .pop => pop
  | .appendText t offset => appendText t offset
  | .recover => recover switch
  | .closeOpen => closeOpen
  | .edit e => tree e.run
  | .tamper t => (modify fun w => { w with forest := t.apply w.forest } : Act σ Unit)
  | .assign a => assign a
  | .postfilter t => applyFilters .post t
  | .parse input override => start input override

end Engine

end Needlework

import Needlework.Engine.Scan

/-!
# Parsing

A parse decodes the input, filters it, builds a tree under a new root and hands
out either the tree or the output that the grammar made of it.

*Failures.*  A parse does not raise its failures.  It reports them.  A parse fault
is reported as it is, and any other fault as an unexpected one that wraps it.
Only an interrupt leaves the parse, and so does a scan that ran out of rounds.

*Cleaning up.*  However a parse ends, the nodes put aside and the tree that is
not handed out are taken down.  A teardown may fail.  This is reported only if
nothing failed before.  Afterwards there is no root and nothing is put aside.  No
node is open and there is no output either, unless the teardown was interrupted.

*History.*  Text, cursor, status and needles stay as the scan left them, for the
reader.  The next parse sets them anew before it calls the grammar.
-/

namespace Needlework

namespace Engine

variable {σ α : Type}

open Act

/-! ## The input -/

/-- The text of an input.  No bytes decode to no text in every encoding, known or
not, but the name of the encoding must be a name. -/
def inputText (codecs : Codecs) (c : Config) : Input → Except Fault Text
  | .text t => .ok t
  | .other v => .error (.notInput v.typeName)
  | .bytes bs =>
      match c.inputEncoding with
      | .text name =>
          if name.contains 0 then .error .nullInEncoding
          else if bs.isEmpty then .ok []
          else match codecs name with
            | none => .error (.unknownEncoding name)
            | some codec =>
                match codec (c.repair?.getD .strict) bs with
                | .ok t => .ok t
                | .error flaw => .error (.undecodable name flaw)
      | v => .error (.encodingNotText v.typeName)

/-! ## Taking trees down -/

/-- Destroy the nodes that are still without a parent.  A node that was attached
again belongs to its tree. -/
def discardAll : List Handle → TreeM Unit
  | [] => return ()
  | h :: r => do
      let n := (← get).node h
      if n.parent.isNone && !n.destroyed then Forest.destroy h
      discardAll r

/-- Destroy what recovery has put aside, the oldest first. -/
def discardDetached : Act σ Unit := do
  tree (discardAll (← engine).detached.reverse)
  modifyEngine fun e => { e with detached := [] }

/-- Destroy the tree below the root, if there is one. -/
def destroyRoot : Act σ Unit := do
  match (← engine).root with
  | none => return ()
  | some r => tree (Forest.destroy r)

/-- Destroy the tree below the root, which must be there. -/
def destroyTree : Act σ Unit := do
  match (← engine).root with
  | none => throw (.noMember Value.null.typeName "destroy")
  | some r => tree (Forest.destroy r)

/-! ## The course of a parse -/

/-- Call a hook that must do its work. -/
def require (g : Grammar σ) (name : HookName) (h : Hook σ Bool) : Act σ Unit := do
  if !(← callHook g h) then throw (.hookReported name)

/-- Set the text and forget the scan before. -/
def load (input : Input) : Act σ Unit := do
  let e ← engine
  let text ← applyFilters .pre (← ofExcept (inputText e.codecs e.config input))
  modifyEngine fun e =>
    { e with text := text, cursor := 0, stack := [], status := 0, needles := [], output := .null }
  discardDetached
  destroyRoot
  assign .newRoot
  modifyEngine (count fun m => { m with characters := text.length })
  let e ← engine
  log .info "Starting parse"
    [("parser_name", e.config.name), ("text_length", .int text.length), ("strict", e.strict)]

/-- Fail because the grammar did not close what is open. -/
def reportOpen : Act σ Unit := do
  let e ← engine
  if e.isStrict then throw (.strict (.openAtEnd e.openCount))
  throw (.hookReported .closeRemainingBlocks)

/-- Close what is open at the end of the text. -/
def finish (g : Grammar σ) : Act σ Unit := do
  if !(← callHook g g.closeRemainingBlocks) then reportOpen

/-- Hand out the output, or else the root.  Behind an output there must be a tree. -/
def handOut : Act σ Unit := do
  let e ← engine
  if e.output.isNull then modifyReport fun r => { r with tree := e.root }
  else
    modifyReport fun r => { r with output := e.output }
    destroyTree
  modifyEngine fun e => { e with root := none, stack := [] }

/-- Everything that the grammar has a part in. -/
def work (g : Grammar σ) (rounds : Nat) : Act σ Unit := do
  require g .init g.init
  scan g rounds
  finish g
  require g .modifyTree g.modifyTree
  require g .outputTree g.outputTree

/-- Everything that a parse does before it settles its report. -/
def build (g : Grammar σ) (rounds : Nat) (input : Input) : Act σ Unit := do
  load input
  work g rounds
  handOut

/-! ## The report -/

/-- Report a failure. -/
def fail (f : Fault) : Act σ Unit := do
  let e ← engine
  let kind := f.kind.name
  log .warning "Parse failed"
    [("parser_name", e.config.name), ("error_type", .text kind), ("error", .text f.message)]
  modifyReport fun r =>
    { r with success := false, error := some f, tree := none, output := .null }
  diagnose .error f.message .null (.object (Fields.putAll [("error_type", .text kind)] f.details))

/-- Settle the report by how the building ended. -/
def settle : Except Fault Unit → Act σ Unit
  | .ok () => do
      let e ← engine
      let returned := !((e.report.map Report.output).getD .null).isNull
      log .info "Parse completed" [("returned_output", .bool returned),
        ("recoveries", .int e.metrics.recoveries), ("downgrades", .int e.metrics.downgrades)]
  | .error f => do
      if f.passesThrough then throw f
      if f.isParseFault then fail f
      else
        logFailure "Parse aborted by unexpected exception" f
        fail (.unexpected f)

/-- Report a failed teardown, unless a failure is already reported.  What leaves a parse
leaves its teardown as well. -/
def settleTeardown : Except Fault Unit → Act σ Unit
  | .ok () => return ()
  | .error f => do
      if f.passesThrough then throw f
      logFailure "Tree teardown failed" f
      if ((← engine).report.map Report.success).getD false then fail (.teardownFailed f)

/-- Take down what the parse does not hand out. -/
def tearDown : Act σ Unit := do
  let ended ← attempt do
    discardDetached
    destroyRoot
  let settled ← attempt (settleTeardown ended)
  modifyEngine fun e => { e with detached := [], root := none }
  ofExcept settled
  modifyEngine fun e => { e with stack := [], output := .null, rewound := false }

/-! ## A parse -/

/-- The correlation id of a call: the one given, unless it is empty, or else the
engine's own. -/
def effectiveId (e : Engine) (override : Option Text) : Option Text :=
  match override with
  | some (c :: cs) => some (c :: cs)
  | _ => e.correlation

/-- Mark the beginning of a parse. -/
def enter (override : Option Text) : Act σ Unit :=
  modifyEngine fun e =>
    let id := e.effectiveId override
    { e with parsing := true, callId := id, report := some { correlation := id }, metrics := {} }

/-- Mark the end of a parse. -/
def leave : Act σ Unit :=
  modifyEngine fun e => { e with report := none, callId := e.correlation, parsing := false }

/-- Parse an input.  The report says how it went. -/
def parse (g : Grammar σ) (rounds : Nat) (input : Input) (override : Option Text) :
    Act σ Report := do
  if (← engine).parsing then refuseParse
  else match input with
    | .other v => throw (.notInput v.typeName)
    | input => do
        enter override
        let ended ← attempt (build g rounds input)
        let settled ← attempt (settle ended)
        let closed ← attempt tearDown
        let e ← engine
        leave
        ofExcept closed
        ofExcept settled
        let report := e.report.getD {}
        if e.config.collectMetrics.truthy then return { report with metrics := e.metrics }
        return report

/-- Run a program outside of a parse, where a parse can start. -/
def runOutside (g : Grammar σ) (rounds : Nat) (h : Hook σ α) : Act σ α :=
  h.run (perform (switch g (parse g rounds) nestingLimit) (parse g rounds))

end Engine

end Needlework

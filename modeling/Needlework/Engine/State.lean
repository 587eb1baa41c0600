import Needlework.Config
import Needlework.Diagnostic
import Needlework.Filter
import Needlework.Forest.Edit

/-!
# The state of an engine

An engine scans one text at a time.  Its state is what the hooks of a grammar
can see and change while a parse runs, together with the counters, the nodes put
aside by recovery and the report that is being written.

The *world* of a parse is the forest, the engine, the memory of the grammar and
the log.  Everything a parse does is an `Act`, which changes the world and
returns a value or a fault.  A fault keeps the world that it left behind, since
a parse cleans up after its faults and goes on.

*Open nodes.*  The stack lists the open nodes from the innermost to the root.
-/

namespace Needlework

/-- What a parse hands out. -/
inductive Product where
  /-- The output that the grammar built. -/
  | output (v : Value)
  /-- The tree, by its root. -/
  | tree (root : Handle)

/-- What a parse reports. -/
structure Report where
  /-- Whether the parse succeeded. -/
  success : Bool := true
  /-- The tree, if there is no output. -/
  tree : Option Handle := none
  /-- The output that the grammar built, or nothing. -/
  output : Value := .null
  /-- Why the parse failed. -/
  error : Option Fault := none
  /-- The diagnostics, the newest first. -/
  entries : List Diagnostic := []
  /-- The counters. -/
  metrics : Metrics := {}
  /-- The correlation id. -/
  correlation : Option Text := none

namespace Report

/-- The diagnostics, in order. -/
def diagnostics (r : Report) : List Diagnostic := r.entries.reverse

/-- Add a diagnostic. -/
def add (r : Report) (severity : Severity) (message component : Text) (offset details : Value) :
    Except Fault Report :=
  (Diagnostic.check ⟨severity, message, component, offset, details, r.correlation⟩).map fun d =>
    { r with entries := d :: r.entries }

/-- The output if there is one, or else the tree. -/
def value? (r : Report) : Option Product :=
  if r.output.isNull then r.tree.map .tree else some (.output r.output)

/-- The diagnostics of repairs. -/
def warnings (r : Report) : List Diagnostic := Diagnostic.ofSeverity .warning r.diagnostics

end Report

/-- The state of an engine. -/
structure Engine where
  /-- The configuration. -/
  config : Config := {}
  /-- The engine's own correlation id. -/
  correlation : Option Text := none
  /-- The filters. -/
  filters : Pipeline := {}
  /-- The codecs for byte input. -/
  codecs : Codecs := .standard
  /-- Fail instead of recovering, if it counts as true. -/
  strict : Value := .bool false
  /-- The text that is scanned. -/
  text : Text := []
  /-- The offset of the scan. -/
  cursor : Int := 0
  /-- The open nodes, the innermost first. -/
  stack : List Handle := []
  /-- The status of the grammar.  In status zero no construct is open. -/
  status : Int := 0
  /-- The needles to look for. -/
  needles : List Text := []
  /-- The output that the grammar builds. -/
  output : Value := .null
  /-- The root of the tree that is built. -/
  root : Option Handle := none
  /-- Whether a parse runs. -/
  parsing : Bool := false
  /-- The nodes put aside by recovery, the newest first. -/
  detached : List Handle := []
  /-- Whether a recovery moved the cursor in this round of the scan. -/
  rewound : Bool := false
  /-- The counters. -/
  metrics : Metrics := {}
  /-- The correlation id of the running parse. -/
  callId : Option Text := none
  /-- The report of the running parse. -/
  report : Option Report := none

namespace Engine

/-- The name of the component in records and diagnostics. -/
def component : Text := "parse_engine"

/-- A new engine. -/
def make (config : Config) (correlation : Option Text) : Engine :=
  { config := config, correlation := correlation, callId := correlation, strict := config.strict }

/-- Whether the engine fails instead of recovering. -/
def isStrict (e : Engine) : Bool := e.strict.truthy

/-- The logger of the running parse, or of the engine between parses. -/
def logger (e : Engine) : Logger := Logger.make component e.callId component

/-- The innermost open node. -/
def top? (e : Engine) : Option Handle := e.stack.head?

/-- The number of open constructs: every open node but the root. -/
def openCount (e : Engine) : Int := e.stack.length - 1

/-- Change the counters. -/
def count (change : Metrics → Metrics) (e : Engine) : Engine := { e with metrics := change e.metrics }

end Engine

/-- The world of a parse. -/
structure World (σ : Type) where
  /-- The forest. -/
  forest : Forest := {}
  /-- The engine. -/
  engine : Engine := {}
  /-- The memory of the grammar. -/
  memory : σ
  /-- The log, the newest record first. -/
  log : List Record := []

/-- An action in the world of a parse. -/
abbrev Act (σ : Type) := EStateM Fault (World σ)

namespace Act

variable {σ α : Type}

/-- The engine. -/
def engine : Act σ Engine := return (← get).engine

/-- Change the engine. -/
def modifyEngine (change : Engine → Engine) : Act σ Unit :=
  modify fun w => { w with engine := change w.engine }

/-- Run an action on the forest. -/
def tree (x : TreeM α) : Act σ α := fun w =>
  match x w.forest with
  | .ok a f => .ok a { w with forest := f }
  | .error e f => .error e { w with forest := f }

/-- Run an action and catch its fault. -/
def attempt (x : Act σ α) : Act σ (Except Fault α) := fun w =>
  match x w with
  | .ok a w => .ok (.ok a) w
  | .error e w => .ok (.error e) w

/-- Write a record. -/
def write (r : Record) : Act σ Unit := modify fun w => { w with log := r :: w.log }

/-- Write a record under the logger of the engine. -/
def log (level : Level) (message : Text) (extra : Fields) : Act σ Unit := do
  write ((← engine).logger.record level message extra)

/-- Write a record about a fault under the logger of the engine. -/
def logFailure (message : Text) (f : Fault) : Act σ Unit := do
  let kind := f.kind.name
  write ((← engine).logger.failureRecord message [("exception_type", .text kind)] (some kind))

/-- Change the report of the running parse. -/
def modifyReport (change : Report → Report) : Act σ Unit :=
  modifyEngine fun e => { e with report := e.report.map change }

/-- Add a diagnostic to the report of the running parse, if there is one and
diagnostics are on. -/
def diagnose (severity : Severity) (message : Text) (offset details : Value) : Act σ Unit := do
  let e ← engine
  match e.report with
  | none => return ()
  | some r =>
      if e.config.enableDiagnostics.truthy then
        let r ← ofExcept (r.add severity message Engine.component offset details)
        modifyEngine fun e => { e with report := some r }

end Act

end Needlework

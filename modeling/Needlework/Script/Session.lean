import Needlework.Script.Grammar

/-!
# Sessions

A session is an engine with a scripted grammar that takes one step after the
other: filters are registered and applied, inputs are parsed, actions run between
the parses, and the trees of earlier reports are looked at again.

The outcome of a step shows what happened in it: its result or its fault, the
events, the names of the elements torn down and the log records.  Each step
starts all of these records anew.
-/

namespace Needlework.Script

/-- One step of a session. -/
inductive SessionStep where
  /-- Register a filter. -/
  | addFilter (kind : KindArg) (callback : FilterArg)
  /-- Remove filters. -/
  | clearFilters (kind : Option KindArg)
  /-- Apply filters to a text. -/
  | applyFilters (kind : KindArg) (text : Text)
  /-- Parse an input. -/
  | parse (input : Input) (override : Option Text)
  /-- Run actions outside of a parse, where the plain grammar does nothing. -/
  | run (actions : List Action)
  /-- Take a step on the tree of an earlier parse. -/
  | resultTree (index : Value) (step : Ref → Step)

/-- The result of a step. -/
inductive StepResult where
  /-- A value. -/
  | value (v : Value)
  /-- The report of a parse. -/
  | report (r : Report)

/-- A session. -/
structure Session where
  /-- The grammar. -/
  grammar : Grammar Memory
  /-- The world. -/
  world : World Memory
  /-- The trees of the parses so far, in order. -/
  trees : List (Option Handle) := []

/-- What happened in a step. -/
structure Outcome where
  /-- The result. -/
  result : Except Fault StepResult
  /-- The events. -/
  events : List Event
  /-- The names of the elements torn down. -/
  torn : List Value
  /-- The log records. -/
  records : List Record

namespace Session

/-- The number of rounds that a scan may take. -/
def roundLimit : Nat := 1000000000000

/-- A new session. -/
def make (grammar : Grammar Memory) (memory : Memory) (config : Config)
    (correlation : Option Text) : Session :=
  { grammar := grammar, world := { engine := .make config correlation, memory := memory } }

/-- What a step does. -/
def act (s : Session) : SessionStep → Act Memory StepResult
  | .addFilter kind callback => do
      let filters ← ofExcept ((← Act.engine).filters.add kind callback)
      Act.modifyEngine fun e => { e with filters := filters }
      return .value .null
  | .clearFilters kind => do
      let filters ← ofExcept ((← Act.engine).filters.clear kind)
      Act.modifyEngine fun e => { e with filters := filters }
      return .value .null
  | .applyFilters (.kind k) text => do
      return .value (.text (← Engine.applyFilters k text))
  | .applyFilters kind _ => do
      let _ ← ofExcept ((← Act.engine).filters.lookup kind)
      return .value .null
  | .parse input override => .report <$> Engine.parse s.grammar roundLimit input override
  | .run actions =>
      .value <$> Engine.runOutside s.grammar roundLimit (Action.runAll (pure .null) actions)
  | .resultTree index step =>
      match entryAt .trees s.trees index with
      | .error e => throw e
      | .ok tree =>
          let on : Ref := match tree with
            | some h => .node h
            | none => .value .null
          .value <$> Engine.runOutside s.grammar roundLimit (step on).run

/-- The tree that a step adds to those of the session. -/
def newTrees (step : SessionStep) (result : Except Fault StepResult) : List (Option Handle) :=
  match step, result with
  | .parse _ _, .ok (.report r) => [r.tree]
  | .parse _ _, _ => [none]
  | _, _ => []

/-- Take a step. -/
def step (s : Session) (t : SessionStep) : Outcome × Session :=
  let start := { s.world with
    forest := { s.world.forest with torn := [] }
    memory := { s.world.memory with events := [] }
    log := [] }
  let (result, world) := match s.act t start with
    | .ok r w => (Except.ok r, w)
    | .error f w => (Except.error f, w)
  ({ result := result
     events := world.memory.events.reverse
     torn := elementNames world.forest world.forest.torn.reverse
     records := world.log.reverse },
   { s with world := world, trees := s.trees ++ newTrees t result })

/-- Take a step on the forest alone. -/
def treeStep (s : Session) (t : Step) : Except Fault Value × Session :=
  match Engine.runOutside s.grammar roundLimit t.run s.world with
  | .ok v w => (.ok v, { s with world := w })
  | .error f w => (.error f, { s with world := w })

end Session

/-! ## Filters alone -/

/-- One step on a filter pipeline. -/
inductive PipelineStep where
  /-- Register a filter. -/
  | add (kind : KindArg) (callback : FilterArg)
  /-- Remove filters. -/
  | clear (kind : Option KindArg)
  /-- Apply filters to a text. -/
  | apply (kind : KindArg) (text : Text)
  /-- List the names of the filters. -/
  | list (kind : KindArg)

/-- Take a step on a filter pipeline.  The result comes with the records written
and the pipeline afterwards. -/
def PipelineStep.run (p : Pipeline) (logger : Logger) :
    PipelineStep → Except Fault Value × List Record × Pipeline
  | .add kind callback =>
      match p.add kind callback with
      | .ok q => (.ok .null, [], q)
      | .error f => (.error f, [], p)
  | .clear kind =>
      match p.clear kind with
      | .ok q => (.ok .null, [], q)
      | .error f => (.error f, [], p)
  | .apply kind text =>
      match p.lookup kind with
      | .error f => (.error f, [], p)
      | .ok filters =>
          let (result, records) := Pipeline.applyAll logger filters text
          (result.map .text, records, p)
  | .list kind =>
      match p.lookup kind with
      | .error f => (.error f, [], p)
      | .ok filters => (.ok (.list (filters.map fun f => .text f.name)), [], p)

end Needlework.Script

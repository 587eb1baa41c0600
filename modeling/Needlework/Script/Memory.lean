import Needlework.Engine.Hook

/-!
# The memory of a script

A script keeps the needles of its statuses, names for nodes and the events of its
run.  Names are *registers*.  They keep the order in which they were first
assigned, and a later assignment does not move them.

An event that shows a report also keeps the forest as it was then, since the tree
of the report may change afterwards.
-/

namespace Needlework.Script

/-- What a script saw and did. -/
inductive Event where
  /-- A status was asked for. -/
  | setStatus (n : Int)
  /-- A needle was found. -/
  | handleStatus (status : Int) (needle : Text) (cursor : Int) (depth : Nat)
  /-- Another hook was called. -/
  | hook (name : HookName)
  /-- A node was opened. -/
  | push (id : Int)
  /-- A node was closed. -/
  | pop (id : Int)
  /-- Everything open was to be closed. -/
  | close (done : Bool)
  /-- A step on the forest was taken. -/
  | tree (reply : Value)
  /-- The nodes put aside were listed. -/
  | detached (ids : List Int)
  /-- A parse was started. -/
  | parse (report : Report) (forest : Forest)

/-- The memory of a script. -/
structure Memory where
  /-- The needles of each status, or nothing for a script that has no statuses of
  its own. -/
  statuses : Option (List (Int × List Text)) := none
  /-- The registers. -/
  registers : List (Text × Handle) := []
  /-- The events, the newest first. -/
  events : List Event := []

namespace Memory

/-- Assign a register. -/
def assign (name : Text) (h : Handle) : List (Text × Handle) → List (Text × Handle)
  | [] => [(name, h)]
  | (n, k) :: r => if n == name then (n, h) :: r else (n, k) :: assign name h r

/-- The registered nodes, each once, in order of id.  Nodes of one id stay in the
order of their registers. -/
def tracked (f : Forest) (m : Memory) : List Handle :=
  ((m.registers.map Prod.snd).reverse.foldl (fun acc h => h :: acc.filter (· ≠ h)) []).mergeSort
    fun a b => f.idOf a ≤ f.idOf b

/-- The needles of a status. -/
def needles? (table : List (Int × List Text)) (n : Int) : Option (List Text) :=
  (table.find? fun (k, _) => k == n).map Prod.snd

/-- Define the needles of a status anew, or remove it. -/
def define (m : Memory) (n : Int) (needles : Option (List Text)) : Memory :=
  let others := (m.statuses.getD []).filter fun (k, _) => k != n
  { m with statuses := some (others ++ (needles.map fun ws => (n, ws)).toList) }

end Memory

/-- A program of a script. -/
abbrev ScriptM := Hook Memory

/-- Change the memory. -/
def modifyMemory (change : Memory → Memory) : ScriptM Unit := do
  Hook.remember (change (← Hook.memory))

/-- Note an event. -/
def emit (e : Event) : ScriptM Unit := modifyMemory fun m => { m with events := e :: m.events }

/-- Name a node. -/
def nameNode (name : Option Text) (h : Handle) : ScriptM Unit :=
  match name with
  | none => return ()
  | some n => modifyMemory fun m => { m with registers := Memory.assign n h m.registers }

end Needlework.Script

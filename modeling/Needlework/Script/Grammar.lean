import Needlework.Engine.Parse
import Needlework.Script.Step

/-!
# Scripted grammars

A rulebook is a grammar given as data.  It lists the needles of its statuses, and
rules that say which actions a needle leads to: the first rule applies whose
conditions all hold, and a needle without a rule is rejected.  The other hooks
may have actions too, and are otherwise those of the plain grammar.

Actions run in order.  They stop at a `finish`, whose value decides by whether it
counts as true, or at an `inherit`, which leaves the decision to the plain
grammar.  A list of actions that runs to its end accepts.
-/

namespace Needlework.Script

/-- One action of a script. -/
inductive Action where
  /-- Create a node and open it. -/
  | push (spec : NodeSpec)
  /-- Open a node that exists. -/
  | pushRef (node : Ref)
  /-- Close the innermost open node. -/
  | pop
  /-- Switch the status. -/
  | status (n : Int)
  /-- Define the needles of a status anew, or remove it. -/
  | define (n : Int) (needles : Option (List Text))
  /-- Write to the engine. -/
  | assign (a : Assignment)
  /-- Move the cursor. -/
  | advance (n : Int)
  /-- Append literal text. -/
  | text (t : Text) (offset : Option Int)
  /-- Read the innermost open construct again as text. -/
  | reparse
  /-- Close everything that is open. -/
  | close
  /-- Take a step on the forest. -/
  | tree (step : Step)
  /-- List the nodes put aside. -/
  | detached
  /-- Make a rendering of the tree the output. -/
  | render
  /-- Start a parse. -/
  | parse (input : Input)
  /-- Raise a fault. -/
  | raise (f : Fault)
  /-- Stop with a value. -/
  | finish (v : Value)
  /-- Stop with what the plain grammar does. -/
  | inherit

/-- A rule: conditions on a needle, and what it leads to.  A condition is any value,
and one that is neither a status nor a needle never holds. -/
structure Rule where
  /-- The status, if it matters. -/
  status : Option Value := none
  /-- The needle, if it matters. -/
  needle : Option Value := none
  /-- The least number of open nodes, if it matters. -/
  minDepth : Option Value := none
  /-- The actions. -/
  actions : List Action

/-- A grammar as data. -/
structure Rulebook where
  /-- The needles of each status, or nothing for the statuses of the plain
  grammar. -/
  statuses : Option (List (Int × List Text)) := none
  /-- The rules, in order. -/
  rules : List Rule := []
  /-- What prepares a parse. -/
  init : Option (List Action) := none
  /-- What changes the finished tree. -/
  modifyTree : Option (List Action) := none
  /-- What builds the output. -/
  outputTree : Option (List Action) := none
  /-- What deals with open constructs at the end. -/
  closeRemainingBlocks : Option (List Action) := none

/-! ## Rendering -/

/-- A node and what is below it as text, a bounded number of levels down.  A text
shows its content, and any other node its name in brackets. -/
def renderNode (f : Forest) : Nat → Handle → Text
  | 0, _ => []
  | n + 1, h =>
      let node := f.node h
      let below := node.children.flatMap (renderNode f n)
      match node.content? with
      | some c => c ++ below
      | none =>
          let name := (node.name?.map Value.plain).getD [0x3F]
          0x28 :: name ++ 0x3A :: below ++ [0x29]

/-- What is below a root, as text. -/
def renderRoot (f : Forest) (root : Handle) : Text :=
  (f.children root).flatMap (renderNode f (f.size + 1))

/-! ## Actions -/

namespace Action

/-- Run an action that does not stop its list. -/
def run : Action → ScriptM Unit
  | .push spec => do
      let h ← Hook.push (.node (← spec.create))
      emit (.push ((← forest).idOf h))
  | .pushRef node => do
      let h ← Hook.push (← node.resolve)
      emit (.push ((← forest).idOf h))
  | .pop => do
      let h ← Hook.pop
      emit (.pop ((← forest).idOf h))
  | .status n => Hook.setStatus n
  | .define n needles => modifyMemory fun m => m.define n needles
  | .assign a => Hook.assign a
  | .advance n => do
      Hook.assign (.cursor ((← Hook.look).cursor + n))
  | .text t offset => Hook.appendText t offset
  | .reparse => Hook.recover
  | .close => do
      emit (.close (← Hook.closeOpen))
  | .tree step => do
      emit (.tree (← step.run))
  | .detached => do
      let view ← Hook.look
      emit (.detached (view.detached.reverse.map view.forest.idOf))
  | .render => do
      let view ← Hook.look
      match view.root with
      | none => .raise (.noMember Value.null.typeName "children")
      | some root =>
          let t ← Hook.postfilter (renderRoot view.forest root)
          Hook.assign (.output (.text t))
  | .parse input => do
      let report ← Hook.parse input none
      emit (.parse report (← forest))
  | .raise f => .raise f
  | .finish _ => return ()
  | .inherit => return ()

/-- Run actions, where `base` is what the plain grammar does. -/
def runAll (base : ScriptM Value) : List Action → ScriptM Value
  | [] => return .bool true
  | .finish v :: _ => return v
  | .inherit :: _ => base
  | a :: rest => do
      a.run
      runAll base rest

end Action

/-! ## The grammar of a rulebook -/

/-- Whether the conditions of a rule hold.  The depth is compared only if the other
two hold, and only with a number. -/
def Rule.applies (r : Rule) (status : Int) (needle : Text) (depth : Nat) : Except Fault Bool :=
  if !(r.status.all (·.same (.int status)) && r.needle.all (·.same (.text needle))) then .ok false
  else match r.minDepth with
    | none => .ok true
    | some d =>
        match d.leInt? depth with
        | none => .error (.incomparableTo d.typeName)
        | some holds => .ok holds

/-- The actions of the first rule whose conditions hold. -/
def Rule.select (status : Int) (needle : Text) (depth : Nat) :
    List Rule → Except Fault (Option (List Action))
  | [] => .ok none
  | r :: rest =>
      match r.applies status needle depth with
      | .error f => .error f
      | .ok true => .ok (some r.actions)
      | .ok false => Rule.select status needle depth rest

/-- What a hook of the plain grammar reports, as the value of a script. -/
def asValue (base : ScriptM Bool) : ScriptM Value := return .bool (← base)

/-- A hook with actions, or else that of the plain grammar. -/
def scriptedHook (name : HookName) (actions : Option (List Action)) (base : ScriptM Bool) :
    ScriptM Bool := do
  emit (.hook name)
  match actions with
  | none => base
  | some actions => return (← Action.runAll (asValue base) actions).truthy

namespace Rulebook

/-- Switch to a status that the rulebook or the plain grammar knows. -/
def setStatus (n : Int) : ScriptM Bool := do
  emit (.setStatus n)
  match (← Hook.memory).statuses with
  | none => (Grammar.plain Memory).setStatus n
  | some table =>
      match Memory.needles? table n with
      | none => return false
      | some needles => do
          Hook.assign (.needles needles)
          Hook.assign (.status n)
          return true

/-- React to a needle by the first rule that applies. -/
def handleStatus (s : Rulebook) (status : Int) (needle : Text) : ScriptM Bool := do
  let view ← Hook.look
  emit (.handleStatus status needle view.cursor view.stack.length)
  match Rule.select status needle view.stack.length s.rules with
  | .error f => .raise f
  | .ok none => return false
  | .ok (some actions) =>
      let base := asValue ((Grammar.plain Memory).handleStatus status needle)
      return (← Action.runAll base actions).truthy

/-- The grammar of a rulebook. -/
def grammar (s : Rulebook) : Grammar Memory :=
  let plain := Grammar.plain Memory
  { init := scriptedHook .init s.init plain.init
    setStatus := setStatus
    handleStatus := s.handleStatus
    closeRemainingBlocks :=
      scriptedHook .closeRemainingBlocks s.closeRemainingBlocks plain.closeRemainingBlocks
    modifyTree := scriptedHook .modifyTree s.modifyTree plain.modifyTree
    outputTree := scriptedHook .outputTree s.outputTree plain.outputTree }

/-- The memory with which a script starts.  Of two entries for one status the later
counts. -/
def memory (s : Rulebook) : Memory :=
  match s.statuses with
  | none => {}
  | some table =>
      table.foldl (fun m (n, needles) => m.define n (some needles)) { statuses := some [] }

end Rulebook

end Needlework.Script

import Needlework.Forest.Check
import Needlework.Script.Memory

/-!
# Steps on a forest

A step is one operation on a forest as a script writes it.  It names its nodes by
registers or by their part in the running parse, or gives a value that is no node
at all.  Its reply is a value: a node is shown by its id.

The steps that only look take the forest as it is.  The others are edits or, for
scripts that break a forest on purpose, direct writes.
-/

namespace Needlework.Script

/-! ## Nodes -/

/-- How a script names a node. -/
inductive Ref where
  /-- By its register. -/
  | register (name : Text)
  /-- Not at all: a value in its place. -/
  | value (v : Value)
  /-- The root of the running parse. -/
  | root
  /-- The innermost open node. -/
  | top
  /-- The last child of the innermost open node. -/
  | last
  /-- The node put aside last. -/
  | detached
  /-- A node itself. -/
  | node (h : Handle)

/-- A node that may be missing, as an argument. -/
def argOf : Option Handle → Arg
  | none => .other .null
  | some h => .node h

/-- What a name stands for. -/
def Ref.resolve : Ref → ScriptM Arg
  | .value v => return .other v
  | .node h => return .node h
  | .root => return argOf (← Hook.look).root
  | .top => return argOf (← Hook.look).stack.head?
  | .last => do
      let view ← Hook.look
      match view.stack with
      | [] => .raise (.noMember Value.null.typeName "last_child")
      | h :: _ => return argOf (view.forest.lastChild? h)
  | .detached => do
      match (← Hook.look).detached.head? with
      | none => .raise (.outside .nodes (-1))
      | some h => return .node h
  | .register name => do
      match (← Hook.memory).registers.lookup name with
      | none => .raise (.missingKey (.text name))
      | some h => return .node h

/-- The node that a step is about, which must have the member that it uses. -/
def Ref.target (r : Ref) (member : Text) : ScriptM Handle := do
  match ← r.resolve with
  | .node h => return h
  | .other v => .raise (.noMember v.typeName member)

/-- A node to create. -/
structure NodeSpec where
  /-- What it is. -/
  blueprint : Blueprint
  /-- Whether it begins at the cursor. -/
  atCursor : Bool := false
  /-- The register for it. -/
  nameAs : Option Text := none

namespace NodeSpec

/-- A root, of a kind of its own if one is given. -/
def root (kind : Option Int) : Blueprint :=
  match kind with
  | none => .root
  | some k => { typeName := "KindRootNode", kind := k, form := .root }

/-- A text node, of a kind of its own if one is given. -/
def text (kind : Option Int) (content : Text) (origin : Option Int) : Blueprint :=
  match kind with
  | none => .text content origin
  | some k =>
      { typeName := "KindTextNode", kind := k, form := .ofText content, origin := origin }

/-- Whether an element has a property: its name or its kind. -/
def elementHas (kind : Int) (name : Value) (criterion : Text) (value : Value) : Bool :=
  if criterion == Text.ofString "name" then name.same value
  else if criterion == Text.ofString "kind" then (Value.int kind).same value
  else false

/-- An element: a custom node with a name.  The teardown of a fragile one fails. -/
def element (kind : Int) (name : Value) (label : Option Value) (fragile : Bool)
    (origin : Option Int) : Blueprint :=
  let traits : Traits :=
    { name := some name, label := label
      teardown := if fragile then some (.exploded name) else none
      hasProperty := elementHas kind name }
  { typeName := "ElementNode", kind := kind, form := .custom traits, origin := origin }

/-- Create the node. -/
def create (s : NodeSpec) : ScriptM Handle := do
  let origin ← if s.atCursor then some <$> (View.cursor <$> Hook.look) else pure s.blueprint.origin
  let h ← Hook.edit (.create { s.blueprint with origin := origin })
  nameNode s.nameAs h
  return h

end NodeSpec

/-! ## Casts -/

/-- How to convert a flag. -/
inductive Cast where
  /-- Put it into a list. -/
  | wrap
  /-- Replace it by nothing. -/
  | null
  /-- Fail. -/
  | fail
  /-- Make it an integer. -/
  | int
deriving DecidableEq, Repr

/-- A value as an integer.  A number loses its fraction, and a text must denote an
integer. -/
def toInteger : Value → Except Fault Int
  | .int i => .ok i
  | .bool b => .ok (if b then 1 else 0)
  | .double (.finite s m e) =>
      let (n, d) := Double.ratio m e
      .ok (if s then -((n / d : Nat) : Int) else ((n / d : Nat) : Int))
  | .double (.infinite _) => .error .infiniteInteger
  | .double .nan => .error .nanInteger
  | .text t =>
      match Text.readInt t with
      | .ok i => .ok i
      | .error .malformed => .error (.notAnInteger t)
      | .error (.tooLong n) => .error (.numeralTooLong n)
  | v => .error (.notConvertible v.typeName)

/-- Convert a flag. -/
def Cast.apply : Cast → Value → Except Fault Value
  | .wrap, v => .ok (.list [v])
  | .null, _ => .ok .null
  | .fail, _ => .error (.raised .value "cast failed" [])
  | .int, v => (toInteger v).map .int

/-! ## Steps -/

/-- One step on a forest. -/
inductive Step where
  /-- Create a node. -/
  | new (spec : NodeSpec)
  /-- Make a node the last child. -/
  | appendChild (on node : Ref)
  /-- Make a node the first child. -/
  | prependChild (on node : Ref)
  /-- Put a node before a child. -/
  | insertBefore (on node reference : Ref)
  /-- Put a node after a child. -/
  | insertAfter (on node reference : Ref)
  /-- Remove a child, and destroy it if asked to. -/
  | removeChild (on child : Ref) (andDestroy : Bool)
  /-- Destroy a node. -/
  | destroy (on : Ref)
  /-- Append text to the trailing text child, and name the last child. -/
  | appendToLastText (on : Ref) (text : Text) (origin : Option Int) (name : Option Text)
  /-- The first child. -/
  | firstChild (on : Ref)
  /-- The last child. -/
  | lastChild (on : Ref)
  /-- Name the child at an index. -/
  | get (on : Ref) (index : Value) (name : Option Text)
  /-- Whether two nodes have one id. -/
  | equals (on other : Ref)
  /-- Whether a node has a property. -/
  | hasProperty (on : Ref) (criterion : Text) (value : Value)
  /-- The descendants with a property. -/
  | find (on : Ref) (criterion : Text) (value : Value)
  /-- The number of descendants with a property. -/
  | count (on : Ref) (criterion : Text) (value : Value)
  /-- The descendants. -/
  | descendants (on : Ref)
  /-- The tree as text. -/
  | dump (on : Ref) (indent lineEnd level : Value)
  /-- Everything about a node. -/
  | info (on : Ref)
  /-- Append to the content of a text node. -/
  | appendText (on : Ref) (text : Value)
  /-- Replace the content of a text node. -/
  | setContent (on : Ref) (text : Text)
  /-- Set the origin of a node. -/
  | setOrigin (on : Ref) (origin : Option Int)
  /-- Set a flag. -/
  | setFlag (on : Ref) (name : Text) (value : Value)
  /-- Read a flag. -/
  | getFlag (on : Ref) (name : Text) (cast : Option Cast) (default : Value)
  /-- Whether a flag is set. -/
  | hasFlag (on : Ref) (name : Text)
  /-- The names of the flags. -/
  | flagNames (on : Ref)
  /-- What is wrong with a tree. -/
  | check (on : Ref)
  /-- Fail if something is wrong with a tree. -/
  | assertValid (on : Ref)
  /-- Append a chain of elements with the given names in turn. -/
  | chain (on : Ref) (length : Nat) (names : List Value) (name : Option Text)
  /-- Overwrite the parent that a node records. -/
  | corruptParent (on : Ref) (parent : Option Ref)
  /-- Add an entry to a list of children. -/
  | corruptChildren (on child : Ref)
  /-- Overwrite an id. -/
  | corruptId (on : Ref) (id : Int)
  /-- Overwrite the mark of destruction. -/
  | corruptDestroyed (on : Ref) (value : Bool)
  /-- The names of the elements torn down so far. -/
  | teardowns

/-- The id of a node, as a value. -/
def idValue (f : Forest) (h : Handle) : Value := .int (f.idOf h)

/-- The id of a node that may be missing, as a value. -/
def idValue? (f : Forest) (h : Option Handle) : Value := Value.ofOption (h.map (idValue f))

/-- The ids of nodes, as a value. -/
def idValues (f : Forest) (hs : List Handle) : Value := .list (hs.map (idValue f))

/-- The names of the elements among torn nodes. -/
def elementNames (f : Forest) (torn : List Handle) : List Value :=
  torn.filterMap fun h => (f.node h).name?

/-- Everything about a node, as an object. -/
def infoValue (f : Forest) (h : Handle) : Value :=
  let n := f.node h
  .object [("id", .int n.id), ("kind", .int n.kind), ("parent", idValue? f n.parent),
    ("children", idValues f n.children), ("destroyed", .bool n.destroyed),
    ("depth", .int (f.depth h)), ("at", Value.ofInt? n.origin), ("repr", .text n.brief)]

/-- The forest. -/
def forest : ScriptM Forest := View.forest <$> Hook.look

/-- An edit whose reply is the id of the node that it was about. -/
def editId (e : Edit) : ScriptM Value := do
  let h ← Hook.edit e
  return idValue (← forest) h

/-- What a step finds out about a node, from the forest as it is. -/
def query (on : Ref) (member : Text) (answer : Forest → Handle → Value) : ScriptM Value := do
  let h ← on.target member
  return answer (← forest) h

/-- The text node that a step is about, which must have the member that it uses. -/
def textTarget (on : Ref) (member : Text) : ScriptM Handle := do
  let h ← on.target member
  let n := (← forest).node h
  if n.isText then return h else .raise (.noMember n.typeName member)

/-- The entry of a list at an index.  A negative index counts from the end. -/
def entry? {α : Type} (entries : List α) (index : Int) : Option α :=
  let i := if index < 0 then entries.length + index else index
  if i < 0 then none else entries[i.toNat]?

/-- The entry at an index that a script gives. -/
def entryAt {α : Type} (sequence : Indexed) (entries : List α) (index : Value) : Except Fault α :=
  match index.asInt? with
  | none => .error (.notAnIndex sequence index.typeName)
  | some i =>
      match entry? entries i with
      | none => .error (.outside sequence i)
      | some a => .ok a

/-- The margins of a dump: that of a level, and those of so many levels below it. -/
def margins (indent : Value) : Nat → Value → Except ArithmeticFault (List Text)
  | 0, level => do return [← (← indent.product level).shown]
  | n + 1, level => do
      let margin ← (← indent.product level).shown
      return margin :: (← margins indent n (← level.successor))

/-- A chain of elements below a node, numbered from `i` on.  The names are used in
turn, so there must be one. -/
def growChain (names : Array Value) : Nat → Nat → Handle → ScriptM Handle
  | 0, _, h => return h
  | n + 1, i, h => do
      if names.isEmpty then Hook.raise .noNames
      let name := names.getD (i % names.size) .null
      let c ← Hook.edit (.create (NodeSpec.element customKindMin name none false (some i)))
      let _ ← Hook.edit (.append h (.node c))
      growChain names n (i + 1) c

/-- Take a step. -/
def Step.run : Step → ScriptM Value
  | .new spec => do
      let h ← spec.create
      return idValue (← forest) h
  | .appendChild on node => do
      let p ← on.target "append_child"
      editId (.append p (← node.resolve))
  | .prependChild on node => do
      let p ← on.target "prepend_child"
      editId (.prepend p (← node.resolve))
  | .insertBefore on node reference => do
      let p ← on.target "insert_before"
      let n ← node.resolve
      editId (.insertBefore p n (← reference.resolve))
  | .insertAfter on node reference => do
      let p ← on.target "insert_after"
      let n ← node.resolve
      editId (.insertAfter p n (← reference.resolve))
  | .removeChild on child andDestroy => do
      let p ← on.target "remove_child"
      editId (.remove p (← child.resolve) andDestroy)
  | .destroy on => do
      let _ ← Hook.edit (.destroy (← on.target "_parent"))
      return .null
  | .appendToLastText on text origin name => do
      let h ← on.target "append_to_last_text_child"
      let _ ← Hook.edit (.appendToLastText h text origin)
      let f ← forest
      match f.lastChild? h with
      | none => return .null
      | some c => do
          nameNode name c
          return idValue f c
  | .firstChild on => query on "first_child" fun f h => idValue? f (f.firstChild? h)
  | .lastChild on => query on "last_child" fun f h => idValue? f (f.lastChild? h)
  | .get on index name => do
      let h ← on.target "children"
      let f ← forest
      match entryAt .nodes (f.children h) index with
      | .error e => .raise e
      | .ok c => do
          nameNode name c
          return idValue f c
  | .equals on other => do
      let h ← on.target "equals"
      match ← other.resolve with
      | .other _ => return .bool false
      | .node k => return .bool ((← forest).idOf h == (← forest).idOf k)
  | .hasProperty on criterion value =>
      query on "matches" fun f h => .bool ((f.node h).hasProperty criterion value)
  | .find on criterion value =>
      query on "find_matching" fun f h => idValues f (f.findMatching h criterion value)
  | .count on criterion value =>
      query on "count_matching" fun f h => .int (f.countMatching h criterion value)
  | .descendants on => query on "iter_descendants" fun f h => idValues f (f.descend h)
  | .dump on indent lineEnd level => do
      let h ← on.target "dump"
      let f ← forest
      match margins indent (f.height h) level with
      | .error e => .raise (.arithmetic e)
      | .ok ms =>
          let margin := ms.toArray
          return .text (f.dumpWith h (fun below => margin.getD below []) lineEnd.plain)
  | .info on => query on "id" infoValue
  | .appendText on text => do
      let h ← textTarget on "append_text"
      match text with
      | .text t => do
          let _ ← Hook.edit (.appendText h t)
          return .text (((← forest).node h).content?.getD [])
      | v => .raise (.arithmetic (.notJoinable (Value.text []).typeName v.typeName))
  | .setContent on text => do
      let _ ← Hook.edit (.setContent (← on.target "content") text)
      return .text text
  | .setOrigin on origin => do
      Hook.tamper (.origin (← on.target "occurred_at") origin)
      return .null
  | .setFlag on name value => do
      let _ ← Hook.edit (.setFlag (← textTarget on "set_flag") name value)
      return .null
  | .getFlag on name cast default => do
      let h ← textTarget on "get_flag"
      match Fields.find? name ((← forest).node h).flags, cast with
      | none, _ => return default
      | some v, none => return v
      | some v, some c =>
          match c.apply v with
          | .ok w => return w
          | .error e => .raise e
  | .hasFlag on name => do
      let h ← textTarget on "has_flag"
      return .bool (Fields.has name ((← forest).node h).flags)
  | .flagNames on => do
      let h ← textTarget on "flag_names"
      return .list (((← forest).node h).flagNames.map .text)
  | .check on =>
      query on "id" fun f h => .list ((f.violations h).map fun v => .text v.message)
  | .assertValid on => do
      let h ← on.target "id"
      match (← forest).assertValid h with
      | .ok () => return .null
      | .error e => .raise e
  | .chain on length names name => do
      let h ← growChain names.toArray length 0 (← on.target "append_child")
      nameNode name h
      return idValue (← forest) h
  | .corruptParent on parent => do
      let h ← on.target "_parent"
      match parent with
      | none => Hook.tamper (.parent h none)
      | some r => Hook.tamper (.parent h (some (← r.target "_children")))
      return .null
  | .corruptChildren on child => do
      let h ← on.target "_children"
      Hook.tamper (.child h (← child.target "_parent"))
      return .null
  | .corruptId on id => do
      Hook.tamper (.id (← on.target "_id") id)
      return .null
  | .corruptDestroyed on value => do
      Hook.tamper (.destroyed (← on.target "_destroyed") value)
      return .null
  | .teardowns => do
      let f ← forest
      return .list (elementNames f f.torn.reverse)

end Needlework.Script

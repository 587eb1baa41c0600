import Needlework.Fault
import Needlework.Text.Blank

/-!
# Forests

A forest is a table of nodes.  A *handle* is a place in the table and stands for
the node itself: two handles are the same node exactly when they are equal.  The
*id* of a node is what it shows to the outside, given out in order of creation.
The two are kept apart because ids are data and may be tampered with, and some
operations look nodes up by id and others compare the nodes themselves.

A node records its children in order and its parent, if it has one.  The table
does not force the two to agree.  That they do is a property of a forest, kept
by the edits, and not part of the type.

*Forms.*  A node is a root, a text, a plain node or a custom one.  A text node
holds its content and its flags.  A scan appends to a text far more often than it
reads it, so the content is kept backwards, and appending takes time in the length
of what is appended only.  A custom node may have a name and a description of
its own.  Which properties it has and how its teardown ends is up to whoever makes
it.  Kinds below `customKindMin` are reserved for the first three forms, and a
custom node of such a kind is refused and takes no id.

Reading is total: a handle outside the table reads as `Node.vacant`, which has
neither parent nor children, and writing there does nothing.
-/

namespace Needlework

/-- A place in the table of a forest. -/
abbrev Handle := Nat

/-- The kind of roots. -/
def rootKind : Int := 1

/-- The kind of texts. -/
def textKind : Int := 2

/-- The kind of plain nodes. -/
def unknownKind : Int := 0

/-- The least kind of a custom node. -/
def customKindMin : Int := 32

/-- What a custom node adds to a plain one. -/
structure Traits where
  /-- The name.  Only a node with a name slot is torn down on record, under it. -/
  name : Option Value := none
  /-- The description, instead of the number of the kind. -/
  label : Option Value := none
  /-- The fault that the teardown raises, if it does not come to its end. -/
  teardown : Option Fault := none
  /-- Whether the node has a property that a query asks for. -/
  hasProperty : Text → Value → Bool := fun _ _ => false

/-- The forms of nodes. -/
inductive Form where
  /-- A node without content of its own. -/
  | plain
  /-- The top of a tree. -/
  | root
  /-- Literal text, the last code point first, with flags. -/
  | text (backwards : Text) (flags : Fields)
  /-- A node of a grammar. -/
  | custom (traits : Traits)

/-- The fault that the teardown of a form raises, if it raises one. -/
def Form.teardown? : Form → Option Fault
  | .custom t => t.teardown
  | _ => none

/-- Literal text without flags. -/
def Form.ofText (content : Text) : Form := .text content.reverse []

/-- A node of a forest. -/
structure Node where
  /-- The number that it shows. -/
  id : Int
  /-- The kind. -/
  kind : Int
  /-- The name of its type. -/
  typeName : Text
  /-- The form. -/
  form : Form
  /-- The offset in the text where it began. -/
  origin : Option Int := none
  /-- The parent that it records. -/
  parent : Option Handle := none
  /-- The children, in document order. -/
  children : List Handle := []
  /-- Whether it has been destroyed. -/
  destroyed : Bool := false

namespace Node

/-- What stands outside the table. -/
def vacant : Node := { id := -1, kind := unknownKind, typeName := [], form := .plain }

instance : Inhabited Node := ⟨vacant⟩

/-- Whether a node is a text. -/
def isText (n : Node) : Bool :=
  match n.form with
  | .text _ _ => true
  | _ => false

/-- The content of a text node. -/
def content? (n : Node) : Option Text :=
  match n.form with
  | .text b _ => some b.reverse
  | _ => none

/-- The flags of a text node.  Other nodes have none. -/
def flags (n : Node) : Fields :=
  match n.form with
  | .text _ fs => fs
  | _ => []

/-- The name slot of a custom node. -/
def name? (n : Node) : Option Value :=
  match n.form with
  | .custom t => t.name
  | _ => none

/-- Replace the content of a text node. -/
def setContent (t : Text) (n : Node) : Node :=
  match n.form with
  | .text _ fs => { n with form := .text t.reverse fs }
  | _ => n

/-- Append to the content of a text node. -/
def appendText (t : Text) (n : Node) : Node :=
  match n.form with
  | .text b fs => { n with form := .text (t.reverse ++ b) fs }
  | _ => n

/-- Set a flag of a text node. -/
def setFlag (name : Text) (value : Value) (n : Node) : Node :=
  match n.form with
  | .text b fs => { n with form := .text b (Fields.put name value fs) }
  | _ => n

/-- Texts are the nodes that have a content. -/
theorem isText_eq_isSome (n : Node) : n.isText = n.content?.isSome := by
  cases h : n.form <;> simp [isText, content?, h]

/-- Appending puts the text behind the content. -/
theorem content?_appendText (t : Text) (n : Node) :
    (n.appendText t).content? = n.content?.map (· ++ t) := by
  cases h : n.form <;> simp [appendText, content?, h]

/-- The names of the flags, sorted by code point. -/
def flagNames (n : Node) : List Text := (n.flags.map Prod.fst).mergeSort Text.le

/-- The length to which a description cuts the content of a text node. -/
def previewLength : Nat := 40

/-- What a dump says of a node.  A text shows the start of its content and the
names of its flags, with every run of blanks as one space. -/
def describe (n : Node) : Text :=
  match n.form with
  | .plain => Text.ofInt n.kind
  | .root => "root"
  | .text b _ => Text.cat ["text \"", (Text.collapse b.reverse).take previewLength, "\" [f:",
      Text.collapse (Text.joinWith ":" n.flagNames), "]"]
  | .custom t => (t.label.map Value.plain).getD (Text.ofInt n.kind)

/-- A node in short: the name of its type, its id and its kind. -/
def brief (n : Node) : Text :=
  Text.cat ["<", n.typeName, " id=", Text.ofInt n.id, " kind=", Text.ofInt n.kind, ">"]

/-- Whether a node has a property that a query asks for.  Only custom nodes have
any. -/
def hasProperty (criterion : Text) (value : Value) (n : Node) : Bool :=
  match n.form with
  | .custom t => t.hasProperty criterion value
  | _ => false

/-- The fault that the teardown of a node raises, if it raises one. -/
def teardown? (n : Node) : Option Fault := n.form.teardown?

end Node

/-- What a new node is to be. -/
structure Blueprint where
  /-- The name of its type. -/
  typeName : Text
  /-- The kind. -/
  kind : Int
  /-- The form. -/
  form : Form
  /-- The offset where it begins. -/
  origin : Option Int := none

namespace Blueprint

/-- A root. -/
def root : Blueprint := { typeName := "RootNode", kind := rootKind, form := .root }

/-- A text node. -/
def text (content : Text) (origin : Option Int) : Blueprint :=
  { typeName := "TextNode", kind := textKind, form := .ofText content, origin := origin }

/-- A plain node. -/
def plain (origin : Option Int) : Blueprint :=
  { typeName := "Node", kind := unknownKind, form := .plain, origin := origin }

/-- Whether the kind is reserved for forms other than this one. -/
def isReserved (b : Blueprint) : Bool :=
  match b.form with
  | .custom _ => b.kind < customKindMin
  | _ => false

/-- The node of a blueprint.  A negative origin counts as none. -/
def build (b : Blueprint) (id : Int) : Node :=
  { id := id, kind := b.kind, typeName := b.typeName, form := b.form,
    origin := b.origin.filter (0 ≤ ·) }

end Blueprint

/-- A forest: the table of its nodes, the next id to give out, and the nodes whose
teardown has run. -/
structure Forest where
  /-- The table. -/
  nodes : Array Node := #[]
  /-- The next id. -/
  nextId : Nat := 0
  /-- The nodes torn down so far, the newest first. -/
  torn : List Handle := []

namespace Forest

/-- The number of nodes. -/
def size (f : Forest) : Nat := f.nodes.size

/-- The node of a handle. -/
def node (f : Forest) (h : Handle) : Node := (f.nodes[h]?).getD .vacant

/-- The id of a node. -/
def idOf (f : Forest) (h : Handle) : Int := (f.node h).id

/-- The parent of a node. -/
def parent (f : Forest) (h : Handle) : Option Handle := (f.node h).parent

/-- The children of a node. -/
def children (f : Forest) (h : Handle) : List Handle := (f.node h).children

/-- Change the node of a handle. -/
def update (f : Forest) (h : Handle) (change : Node → Node) : Forest :=
  { f with nodes := f.nodes.modify h change }

/-- Set the children of a node. -/
def setChildren (f : Forest) (h : Handle) (cs : List Handle) : Forest :=
  f.update h fun n => { n with children := cs }

/-- Set the parent of a node. -/
def setParent (f : Forest) (h : Handle) (p : Option Handle) : Forest :=
  f.update h fun n => { n with parent := p }

/-- Add a node and give it the next id. -/
def add (f : Forest) (b : Blueprint) : Handle × Forest :=
  (f.size, { f with nodes := f.nodes.push (b.build f.nextId), nextId := f.nextId + 1 })

/-- The first child. -/
def firstChild? (f : Forest) (h : Handle) : Option Handle := (f.children h).head?

/-- The last child. -/
def lastChild? (f : Forest) (h : Handle) : Option Handle := (f.children h).getLast?

/-- The number of entries in all lists of children. -/
def links (f : Forest) : Nat := f.nodes.foldl (fun k n => k + n.children.length) 0

@[simp] theorem size_update (f : Forest) (h : Handle) (change : Node → Node) :
    (f.update h change).size = f.size := by
  simp [size, update]

theorem node_update (f : Forest) (h k : Handle) (change : Node → Node) :
    (f.update h change).node k
      = if k = h ∧ k < f.size then change (f.node k) else f.node k := by
  simp only [node, update, size, Array.getElem?_modify]
  by_cases hk : h = k
  · subst hk
    by_cases hs : h < f.nodes.size <;> simp [hs]
  · simp [hk, Ne.symm hk]

/-- Changing a node leaves every other node as it is. -/
theorem node_update_of_ne (f : Forest) {h k : Handle} (hk : k ≠ h) (change : Node → Node) :
    (f.update h change).node k = f.node k := by
  simp [node_update, hk]

@[simp] theorem size_add (f : Forest) (b : Blueprint) : (f.add b).2.size = f.size + 1 := by
  simp [size, add]

theorem node_add (f : Forest) (b : Blueprint) (k : Handle) :
    (f.add b).2.node k = if k = f.size then b.build f.nextId else f.node k := by
  simp only [node, add, size, Array.getElem?_push]
  by_cases hk : k = f.nodes.size <;> simp [hk]

end Forest

end Needlework

import Needlework.Text.Quoted
import Needlework.Value.Double

/-!
# Values

Some things the scanner carries without looking inside: the settings of a
configuration, the flags of a text node, the output that a grammar builds, the
details of an error.  They are *values*, the data of JSON with integers of any
size kept apart from doubles.

An object is a list of fields in the order of their first insertion.  `put`
keeps the place of a key that is already there.

Two values can be *the same* without being equal: `true` counts as one and
`false` as zero, an integer may be the same as a double, and the order of an
object's fields does not matter (`Value.same`).
-/

namespace Needlework

/-- A dynamic value. -/
inductive Value where
  /-- No value. -/
  | null
  /-- A truth value. -/
  | bool (b : Bool)
  /-- An integer of any size. -/
  | int (i : Int)
  /-- A number with a fraction or an exponent. -/
  | double (x : Double)
  /-- A text. -/
  | text (t : Text)
  /-- A list of values. -/
  | list (items : List Value)
  /-- An object: fields in insertion order. -/
  | object (fields : List (Text × Value))
deriving Inhabited, Repr

/-- The fields of an object, in insertion order. -/
abbrev Fields := List (Text × Value)

namespace Fields

/-- The value of a key. -/
def find? (key : Text) : Fields → Option Value
  | [] => none
  | (k, v) :: r => if k == key then some v else find? key r

/-- Set a key.  A key that is present keeps its place. -/
def put (key : Text) (value : Value) : Fields → Fields
  | [] => [(key, value)]
  | (k, v) :: r => if k == key then (k, value) :: r else (k, v) :: put key value r

/-- Set keys in order. -/
def putAll (fields : Fields) (more : Fields) : Fields :=
  more.foldl (fun acc (k, v) => put k v acc) fields

/-- Whether a key is present. -/
def has (key : Text) (fields : Fields) : Bool := (find? key fields).isSome

end Fields

namespace Value

instance : Coe Text Value := ⟨.text⟩
instance : Coe Int Value := ⟨.int⟩
instance : Coe Bool Value := ⟨.bool⟩

/-- The text of a string literal as a value. -/
def ofString (s : String) : Value := .text (Text.ofString s)

/-- A value that may be missing. -/
def ofOption : Option Value → Value
  | none => .null
  | some v => v

/-- A text that may be missing. -/
def ofText? (t : Option Text) : Value := ofOption (t.map .text)

/-- An integer that may be missing. -/
def ofInt? (i : Option Int) : Value := ofOption (i.map .int)

/-- Whether there is no value. -/
def isNull : Value → Bool
  | .null => true
  | _ => false

/-- The name of a value's type in messages. -/
def typeName : Value → Text
  | .null => "NoneType"
  | .bool _ => "bool"
  | .int _ => "int"
  | .double _ => "float"
  | .text _ => "str"
  | .list _ => "list"
  | .object _ => "dict"

/-- Whether a value counts as true.  Nothing, zero and what is empty do not. -/
def truthy : Value → Bool
  | .null => false
  | .bool b => b
  | .int i => i != 0
  | .double x => !x.eqInt 0
  | .text t => !t.isEmpty
  | .list items => !items.isEmpty
  | .object fields => !fields.isEmpty

/-! ## Numbers -/

/-- The integer that a value is.  A truth value is one or zero. -/
def asInt? : Value → Option Int
  | .int i => some i
  | .bool b => some (if b then 1 else 0)
  | _ => none

/-- Whether a number is less than an integer.  What is not a number does not
compare. -/
def ltInt? (v : Value) (n : Int) : Option Bool :=
  match v with
  | .bool b => some ((if b then 1 else 0 : Int) < n)
  | .int i => some (i < n)
  | .double x => some (x.ltInt n)
  | _ => none

/-- Whether a number is at most an integer.  What is not a number does not
compare. -/
def leInt? (v : Value) (n : Int) : Option Bool :=
  match v with
  | .bool b => some ((if b then 1 else 0 : Int) ≤ n)
  | .int i => some (i ≤ n)
  | .double x => some (x.leInt n)
  | _ => none

/-- Whether two values that are neither lists nor objects are the same. -/
def sameAtom : Value → Value → Bool
  | .null, .null => true
  | .text s, .text t => s == t
  | .bool a, .bool b => a == b
  | .bool a, .int j => (if a then 1 else 0 : Int) == j
  | .bool a, .double y => y.eqInt (if a then 1 else 0)
  | .int i, .bool b => i == (if b then 1 else 0 : Int)
  | .int i, .int j => i == j
  | .int i, .double y => y.eqInt i
  | .double x, .bool b => x.eqInt (if b then 1 else 0)
  | .double x, .int j => x.eqInt j
  | .double x, .double y => x.same y
  | _, _ => false

mutual

/-- Whether two values are the same. -/
def same : Value → Value → Bool
  | .list xs, w =>
      match w with
      | .list ys => sameItems xs ys
      | _ => false
  | .object xs, w =>
      match w with
      | .object ys => xs.length == ys.length && sameFields xs ys
      | _ => false
  | .null, w => sameAtom .null w
  | .bool b, w => sameAtom (.bool b) w
  | .int i, w => sameAtom (.int i) w
  | .double x, w => sameAtom (.double x) w
  | .text t, w => sameAtom (.text t) w
termination_by structural v => v

/-- Whether two lists are the same, item by item. -/
def sameItems : List Value → List Value → Bool
  | [], ys => ys.isEmpty
  | x :: xs, ys =>
      match ys with
      | [] => false
      | y :: ys => same x y && sameItems xs ys
termination_by structural xs => xs

/-- Whether every field has a field of the same key and value. -/
def sameFields : List (Text × Value) → List (Text × Value) → Bool
  | [], _ => true
  | f :: xs, ys => sameField f ys && sameFields xs ys
termination_by structural xs => xs

/-- Whether a field has a field of the same key and value. -/
def sameField : Text × Value → List (Text × Value) → Bool
  | (k, v), ys =>
      match Fields.find? k ys with
      | none => false
      | some w => same v w
termination_by structural f => f

end

/-! ## Text -/

mutual

/-- A value in quoted form: texts between quotation marks. -/
def quoted : Value → Text
  | .null => "None"
  | .bool true => "True"
  | .bool false => "False"
  | .int i => Text.ofInt i
  | .double x => x.toText
  | .text t => t.quoted
  | .list items => 0x5B :: Text.joinWith ", " (quotedItems items) ++ [0x5D]
  | .object fields => 0x7B :: Text.joinWith ", " (quotedFields fields) ++ [0x7D]
termination_by structural v => v

/-- The items of a list in quoted form. -/
def quotedItems : List Value → List Text
  | [] => []
  | v :: r => quoted v :: quotedItems r
termination_by structural items => items

/-- The fields of an object in quoted form. -/
def quotedFields : List (Text × Value) → List Text
  | [] => []
  | f :: r => quotedField f :: quotedFields r
termination_by structural fields => fields

/-- A field of an object in quoted form. -/
def quotedField : Text × Value → Text
  | (k, v) => k.quoted ++ (Text.ofString ": " ++ quoted v)
termination_by structural f => f

end

/-- A value as it reads in a message: a text as it is, all else in quoted form. -/
def plain : Value → Text
  | .text t => t
  | v => v.quoted

end Value

end Needlework

import Needlework.Fault
import Needlework.Log

/-!
# Filters

A filter is a named function on texts.  Filters before the scan change the
input, and filters after it are for the output that a grammar builds.  Each kind
is a list, applied in the order of registration.

A filter may return something that is not a text.  Then the text before it is
kept and a record says so.  A filter may also fail, which ends the application.
The lists never change by being applied.
-/

namespace Needlework

/-- A filter. -/
structure Filter where
  /-- The name. -/
  name : Text
  /-- What it does. -/
  run : Text → Except Fault Value

/-- When filters are applied. -/
inductive FilterKind where
  /-- Before the scan. -/
  | pre
  /-- On the output. -/
  | post
deriving DecidableEq, Repr

/-- The value of a filter kind. -/
def FilterKind.value : FilterKind → Text
  | .pre => "pre"
  | .post => "post"

/-- An argument in the place of a filter kind. -/
inductive KindArg where
  /-- A filter kind. -/
  | kind (k : FilterKind)
  /-- Something else. -/
  | other (v : Value)

/-- An argument in the place of a filter. -/
inductive FilterArg where
  /-- A filter. -/
  | filter (f : Filter)
  /-- Something that cannot be called. -/
  | other (v : Value)

/-- The registered filters. -/
structure Pipeline where
  /-- The filters before the scan. -/
  pre : List Filter := []
  /-- The filters on the output. -/
  post : List Filter := []

namespace Pipeline

/-- The filters of a kind. -/
def get (p : Pipeline) : FilterKind → List Filter
  | .pre => p.pre
  | .post => p.post

/-- Replace the filters of a kind. -/
def set (p : Pipeline) (k : FilterKind) (fs : List Filter) : Pipeline :=
  match k with
  | .pre => { p with pre := fs }
  | .post => { p with post := fs }

/-- Register a filter at the end of its kind. -/
def add (p : Pipeline) (kind : KindArg) (callback : FilterArg) : Except Fault Pipeline :=
  match callback, kind with
  | .other _, _ => .error .notCallable
  | .filter _, .other v => .error (.unknownFilterKind v)
  | .filter f, .kind k => .ok (p.set k (p.get k ++ [f]))

/-- Remove the filters of one kind, or of both when no kind is given. -/
def clear (p : Pipeline) (kind : Option KindArg) : Except Fault Pipeline :=
  match kind with
  | none => .ok {}
  | some (.other .null) => .ok {}
  | some (.other v) => .error (.unknownFilterKind v)
  | some (.kind k) => .ok (p.set k [])

/-- The filters of a kind that is looked up. -/
def lookup (p : Pipeline) : KindArg → Except Fault (List Filter)
  | .kind k => .ok (p.get k)
  | .other (.list vs) => .error (.unhashable (Value.list vs).typeName)
  | .other (.object fs) => .error (.unhashable (Value.object fs).typeName)
  | .other v => .error (.missingKey v)

/-- The record of a filter that did not return a text. -/
def skipRecord (logger : Logger) (f : Filter) (v : Value) : Record :=
  logger.record .debug "Filter returned non-string value; keeping previous text"
    [("filter", .text f.name), ("returned_type", .text v.typeName)]

/-- Apply filters in order.  The result comes with the records written on the
way. -/
def applyAll (logger : Logger) : List Filter → Text → Except Fault Text × List Record
  | [], t => (.ok t, [])
  | f :: r, t =>
      match f.run t with
      | .error e => (.error e, [])
      | .ok (.text u) => applyAll logger r u
      | .ok v =>
          let (result, records) := applyAll logger r t
          (result, skipRecord logger f v :: records)

/-- Apply the filters of a kind. -/
def apply (p : Pipeline) (logger : Logger) (k : FilterKind) (t : Text) :
    Except Fault Text × List Record :=
  applyAll logger (p.get k) t

/-- The name of the logger of filter pipelines. -/
def component : Text := "filter_pipeline"

/-- The logger of a pipeline. -/
def logger (correlation : Option Text) : Logger :=
  Logger.make component correlation component

end Pipeline

end Needlework

import Needlework.Value.Basic

/-!
# Log records

A logger writes records under the name of a component and a correlation id, so
that the records of one parse can be told from the others.  Both stand among the
extra fields of every record, before those of the call, which may overwrite
them.

Some names belong to a record itself.  A call that uses one of them as an extra
field is refused, and nothing is written.  It is refused only if the record
would have been written at all.
-/

namespace Needlework

/-- The levels of records. -/
inductive Level where
  /-- Of interest while debugging. -/
  | debug
  /-- The normal course of things. -/
  | info
  /-- Something to look at. -/
  | warning
  /-- Something failed. -/
  | error
  /-- Everything failed. -/
  | critical
deriving DecidableEq, Repr

namespace Level

/-- Every level, from the lowest on. -/
def all : List Level := [.debug, .info, .warning, .error, .critical]

/-- The name of a level. -/
def name : Level → Text
  | .debug => "DEBUG"
  | .info => "INFO"
  | .warning => "WARNING"
  | .error => "ERROR"
  | .critical => "CRITICAL"

/-- The rank of a level. -/
def rank : Level → Nat
  | .debug => 10
  | .info => 20
  | .warning => 30
  | .error => 40
  | .critical => 50

/-- The level of a name. -/
def ofName? (t : Text) : Option Level := all.find? fun l => l.name == t

end Level

/-- A log record. -/
structure Record where
  /-- The level. -/
  level : Level
  /-- The message. -/
  message : Text
  /-- The extra fields. -/
  extras : Fields
  /-- For a record about a failure, the name of the kind of fault that was being
  handled, if there was one. -/
  failure : Option (Option Text) := none

/-- A logger. -/
structure Logger where
  /-- The name. -/
  name : Text
  /-- The correlation id. -/
  correlation : Option Text
  /-- The component. -/
  component : Text

namespace Logger

/-- The part of a name after its last full stop. -/
def lastPart (name : Text) : Text := (name.reverse.takeWhile (· ≠ 0x2E)).reverse

/-- A logger of the given name.  Without a component it takes the last part of the
name.  The logger without a name is the root of all. -/
def make (name : Text) (correlation : Option Text) (component : Text) : Logger :=
  { name := if name.isEmpty then Text.ofString "root" else name
    correlation := correlation
    component := if component.isEmpty then lastPart name else component }

/-- The logger of the same component with another correlation id. -/
def bind (l : Logger) (correlation : Option Text) : Logger :=
  make l.name correlation l.component

/-- The extra fields of a record. -/
def extras (l : Logger) (extra : Fields) : Fields :=
  Fields.putAll
    [("component", .text l.component), ("correlation_id", Value.ofText? l.correlation)] extra

/-- A record. -/
def record (l : Logger) (level : Level) (message : Text) (extra : Fields) : Record :=
  { level := level, message := message, extras := l.extras extra }

/-- A record about a failure, written while a fault of the given kind is handled. -/
def failureRecord (l : Logger) (message : Text) (extra : Fields) (kind : Option Text) : Record :=
  { level := .error, message := message, extras := l.extras extra, failure := some kind }

/-- The names that belong to a record. -/
def reserved : List Text :=
  ["message", "asctime", "name", "msg", "args", "levelname", "levelno", "pathname", "filename",
   "module", "exc_info", "exc_text", "stack_info", "lineno", "funcName", "created", "msecs",
   "relativeCreated", "thread", "threadName", "processName", "process"]

/-- The first extra field of a record whose name belongs to the record. -/
def clash? (r : Record) : Option Text := (r.extras.map Prod.fst).find? reserved.contains

/-- The wording for a field whose name belongs to the record. -/
def clashMessage (key : Text) : Text :=
  Text.quoted (Text.cat ["Attempt to overwrite ", key.quoted, " in LogRecord"])

/-- Write a record if its level reaches the threshold. -/
def emit (threshold : Level) (r : Record) : Except Text (List Record) :=
  if r.level.rank < threshold.rank then .ok []
  else match clash? r with
    | some key => .error key
    | none => .ok [r]

end Logger

end Needlework

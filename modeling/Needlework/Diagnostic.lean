import Needlework.Fault

/-!
# Diagnostics and counters

A result tells its reader which repairs a parse made.  Each repair is a
*diagnostic*, an entry with a severity, a message, the component that wrote it
and, where there is one, the offset in the text.  The *metrics* count the same
events.

An entry must have a message and a component, and its offset must not be
negative.  The checks run in this order.
-/

namespace Needlework

/-- How serious a diagnostic is. -/
inductive Severity where
  /-- Of interest while debugging. -/
  | debug
  /-- Of interest to the reader. -/
  | info
  /-- A repair was made. -/
  | warning
  /-- The parse was given up. -/
  | error
deriving DecidableEq, Repr

namespace Severity

/-- Every severity, from the least serious on. -/
def all : List Severity := [.debug, .info, .warning, .error]

/-- The name of a severity. -/
def name : Severity → Text
  | .debug => "DEBUG"
  | .info => "INFO"
  | .warning => "WARNING"
  | .error => "ERROR"

/-- The number of a severity. -/
def rank : Severity → Nat
  | .debug => 1
  | .info => 2
  | .warning => 3
  | .error => 4

/-- The severity of a name. -/
def ofName? (t : Text) : Option Severity := all.find? fun s => s.name == t

end Severity

/-- An entry of a result. -/
structure Diagnostic where
  /-- The severity. -/
  severity : Severity
  /-- The message. -/
  message : Text
  /-- The component that wrote it. -/
  component : Text
  /-- The offset in the text, or nothing. -/
  offset : Value := .null
  /-- Further details, or nothing. -/
  details : Value := .null
  /-- The correlation id of the parse. -/
  correlation : Option Text := none

namespace Diagnostic

/-- Check an offset. -/
def checkOffset (offset : Value) : Except Fault Unit :=
  if offset.isNull then .ok ()
  else match offset.ltInt? 0 with
    | none => .error (.incomparable offset.typeName)
    | some true => .error (.diagnostic .negativeOffset)
    | some false => .ok ()

/-- Check an entry. -/
def check (d : Diagnostic) : Except Fault Diagnostic :=
  if d.message.isEmpty then .error (.diagnostic .noMessage)
  else if d.component.isEmpty then .error (.diagnostic .noComponent)
  else (checkOffset d.offset).map fun _ => d

/-- The entries of one severity, in order. -/
def ofSeverity (s : Severity) (ds : List Diagnostic) : List Diagnostic :=
  ds.filter fun d => d.severity = s

end Diagnostic

/-! ## Counters -/

/-- The counters of a parse. -/
structure Metrics where
  /-- The length of the text. -/
  characters : Int := 0
  /-- The needles found. -/
  needles : Int := 0
  /-- The constructs read again as text. -/
  recoveries : Int := 0
  /-- The needles kept as text. -/
  downgrades : Int := 0
  /-- The constructs closed at the end. -/
  forceClosed : Int := 0
  /-- The nodes opened. -/
  pushed : Int := 0
deriving DecidableEq, Repr

namespace Metrics

/-- The number of repairs. -/
def repairs (m : Metrics) : Int := m.recoveries + m.downgrades + m.forceClosed

/-- The characters of a second, for a time in milliseconds.  It is zero for a time
that is not positive, and nothing when the count is too large for a double. -/
def charactersPerSecond? (characters : Int) (milliseconds : Double) : Option Double :=
  if milliseconds.leInt 0 then some .zero
  else (Double.ofInt? characters).map fun c => (c.mul (.ofInt 1000)).div milliseconds

end Metrics

end Needlework

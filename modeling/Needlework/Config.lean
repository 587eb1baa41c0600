import Needlework.Fault
import Needlework.Value.Json.Reader

/-!
# Configurations

A configuration has seven settings.  Each keeps whatever value it was given, and
the whole is checked once, when it is made.  Three settings are restricted.

* The input encoding must count as true.  Whether it names an encoding is found
  out when bytes arrive.
* The rule for encoding errors must be the name of a `Repair`.
* The limit on recoveries must be nothing, or a number that is not negative.

The checks run in this order, and the first that fails is reported.  Reading
fields ignores keys that are no settings (`ofFields`), while an override refuses
them (`override`).
-/

namespace Needlework

/-- The settings of a configuration. -/
inductive Setting where
  /-- Fail instead of recovering. -/
  | strict
  /-- The encoding of byte input. -/
  | inputEncoding
  /-- What to do with bytes that do not decode. -/
  | encodingErrors
  /-- Whether a parse records diagnostics. -/
  | enableDiagnostics
  /-- Whether a result carries the counters. -/
  | collectMetrics
  /-- The limit on recoveries of one parse. -/
  | maxRecoveries
  /-- A label for log records. -/
  | name
deriving DecidableEq, Repr

namespace Setting

/-- Every setting, in the order in which they are written. -/
def all : List Setting :=
  [.strict, .inputEncoding, .encodingErrors, .enableDiagnostics, .collectMetrics, .maxRecoveries,
   .name]

/-- The key of a setting. -/
def key : Setting → Text
  | .strict => "strict"
  | .inputEncoding => "input_encoding"
  | .encodingErrors => "encoding_errors"
  | .enableDiagnostics => "enable_diagnostics"
  | .collectMetrics => "collect_metrics"
  | .maxRecoveries => "max_recoveries"
  | .name => "name"

/-- The setting of a key. -/
def ofKey? (key : Text) : Option Setting := all.find? fun s => s.key == key

end Setting

/-- A configuration. -/
structure Config where
  /-- Fail instead of recovering. -/
  strict : Value := .bool false
  /-- The encoding of byte input. -/
  inputEncoding : Value := .ofString "utf-8"
  /-- What to do with bytes that do not decode. -/
  encodingErrors : Value := .ofString "replace"
  /-- Whether a parse records diagnostics. -/
  enableDiagnostics : Value := .bool true
  /-- Whether a result carries the counters. -/
  collectMetrics : Value := .bool true
  /-- The limit on recoveries of one parse. -/
  maxRecoveries : Value := .null
  /-- A label for log records. -/
  name : Value := .null

/-- Why a configuration is refused. -/
inductive ConfigFault where
  /-- There is no input encoding. -/
  | emptyEncoding
  /-- The rule for encoding errors is not known. -/
  | unknownRepair
  /-- The limit on recoveries is negative. -/
  | negativeLimit
  /-- The limit on recoveries is not a number. -/
  | incomparableLimit (typeName : Text)
  /-- An override names fields that are no settings. -/
  | unknownFields (keys : List Text)
  /-- An override names a field as the configuration itself is named. -/
  | namesItself
  /-- The text is not read as JSON. -/
  | unreadable (cause : Json.ReadFault)
  /-- What should be a JSON text is no text. -/
  | notAText (typeName : Text)
  /-- A value is no indentation. -/
  | indent (cause : ArithmeticFault)
  /-- The value is not an object. -/
  | notAnObject (typeName : Text)
  /-- A setting of a finished configuration cannot be assigned. -/
  | frozen (field : Text)

namespace Config

/-- The value of a setting. -/
def get (c : Config) : Setting → Value
  | .strict => c.strict
  | .inputEncoding => c.inputEncoding
  | .encodingErrors => c.encodingErrors
  | .enableDiagnostics => c.enableDiagnostics
  | .collectMetrics => c.collectMetrics
  | .maxRecoveries => c.maxRecoveries
  | .name => c.name

/-- Set a setting, without a check. -/
def set (c : Config) (s : Setting) (v : Value) : Config :=
  match s with
  | .strict => { c with strict := v }
  | .inputEncoding => { c with inputEncoding := v }
  | .encodingErrors => { c with encodingErrors := v }
  | .enableDiagnostics => { c with enableDiagnostics := v }
  | .collectMetrics => { c with collectMetrics := v }
  | .maxRecoveries => { c with maxRecoveries := v }
  | .name => { c with name := v }

/-- The rule for encoding errors, if the setting names one. -/
def repair? (c : Config) : Option Repair :=
  match c.encodingErrors with
  | .text t => Repair.ofName? t
  | _ => none

/-- Check a configuration. -/
def check (c : Config) : Except ConfigFault Config :=
  if !c.inputEncoding.truthy then .error .emptyEncoding
  else if c.repair?.isNone then .error .unknownRepair
  else if c.maxRecoveries.isNull then .ok c
  else match c.maxRecoveries.ltInt? 0 with
    | none => .error (.incomparableLimit c.maxRecoveries.typeName)
    | some true => .error .negativeLimit
    | some false => .ok c

/-- Set the settings that have fields, and pass over the other fields. -/
def setFields (c : Config) (fields : Fields) : Config :=
  fields.foldl (fun c (k, v) =>
    match Setting.ofKey? k with
    | some s => c.set s v
    | none => c) c

/-- The configuration of an object's fields. -/
def ofFields (fields : Fields) : Except ConfigFault Config := (setFields {} fields).check

/-- The configuration of a value, which must be an object. -/
def ofValue : Value → Except ConfigFault Config
  | .object fields => ofFields fields
  | v => .error (.notAnObject v.typeName)

/-- The configuration of a JSON text. -/
def ofJson (t : Text) (limits : Json.Limits := .standard) : Except ConfigFault Config :=
  match Json.read limits t with
  | .error f => .error (.unreadable f)
  | .ok v => ofValue v

/-- The configuration of a value that should be a JSON text. -/
def ofJsonValue : Value → Except ConfigFault Config
  | .text t => ofJson t
  | v => .error (.notAText v.typeName)

/-- Every setting as a field. -/
def toFields (c : Config) : Fields := Setting.all.map fun s => (s.key, c.get s)

/-- The configuration as JSON, with a unit of indentation or on one line. -/
def toJson (c : Config) (indent : Option Text) : Text := Json.print indent (.object c.toFields)

/-- The default indentation of a configuration in JSON. -/
def defaultIndent : Text := [0x20, 0x20]

/-- The unit of indentation that a value gives: so many spaces, a text, or nothing
for a configuration on one line. -/
def indentOf : Value → Except ConfigFault (Option Text)
  | .null => .ok none
  | .text t => .ok (some t)
  | v =>
      match Value.repeatText [0x20] v with
      | .ok t => .ok (some t)
      | .error e => .error (.indent e)

/-- The name of the configuration among the arguments of an override. -/
def selfKey : Text := "self"

/-- A configuration with some settings replaced.  Fields that are no settings are
refused, and before them one with the name of the configuration itself. -/
def override (c : Config) (fields : Fields) : Except ConfigFault Config :=
  if Fields.has selfKey fields then .error .namesItself
  else match (fields.map Prod.fst).filter fun k => (Setting.ofKey? k).isNone with
  | [] => (c.setFields fields).check
  | unknown => .error (.unknownFields (unknown.mergeSort Text.le))

/-- Whether all settings of two configurations are the same. -/
def same (c d : Config) : Bool := Setting.all.all fun s => (c.get s).same (d.get s)

/-- Recover from every unmatched construct. -/
def lenient : Config := {}

/-- Fail on the first unmatched or unknown construct. -/
def strictMode : Config := { strict := .bool true, encodingErrors := .ofString "strict" }

end Config

namespace ConfigFault

/-- The name under which a refusal is reported. -/
def kindName : ConfigFault → Text
  | .incomparableLimit _ => "TypeError"
  | .unreadable .malformed => "JSONDecodeError"
  | .unreadable (.tooLong _) => "ValueError"
  | .unreadable (.tooDeep _) => "RecursionError"
  | .notAText _ => "TypeError"
  | .indent c => c.kind.name
  | .namesItself => "TypeError"
  | .notAnObject _ => "AttributeError"
  | .frozen _ => "FrozenInstanceError"
  | _ => "ConfigValidationError"

/-- Whether a refusal comes from the checks of a configuration. -/
def isValidation : ConfigFault → Bool
  | .emptyEncoding | .unknownRepair | .negativeLimit | .unknownFields _ => true
  | _ => false

/-- The wording of a refusal. -/
def message : ConfigFault → Text
  | .emptyEncoding => "input_encoding cannot be empty"
  | .unknownRepair => Text.cat ["encoding_errors must be one of ",
      (Value.list (Repair.all.map fun r => .text r.label)).quoted]
  | .negativeLimit => "max_recoveries must be >= 0 or None"
  | .incomparableLimit t =>
      Text.cat ["'<' not supported between instances of ", t.quoted, " and 'int'"]
  | .unknownFields ks =>
      Text.cat ["Unknown configuration fields: ", Text.joinWith ", " ks]
  | .namesItself => Text.cat ["ParserConfig.override() got multiple values for argument ",
      Config.selfKey.quoted]
  | .unreadable f => f.message
  | .indent c => c.message
  | .notAText t => Text.cat ["the JSON object must be str, bytes or bytearray, not ", t]
  | .notAnObject t => Text.cat [t.quoted, " object has no attribute 'items'"]
  | .frozen field => Text.cat ["cannot assign to field ", field.quoted]

/-- The field that a refusal is about. -/
def field? : ConfigFault → Option Text
  | .emptyEncoding => some Setting.inputEncoding.key
  | .unknownRepair => some Setting.encodingErrors.key
  | .negativeLimit => some Setting.maxRecoveries.key
  | .unknownFields ks => ks.head?
  | _ => none

/-- What the user may do about a refusal. -/
def suggestions : ConfigFault → List Text
  | .unknownRepair => ["Use 'replace' to keep undecodable bytes visible"]
  | _ => []

end ConfigFault

end Needlework

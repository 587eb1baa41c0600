import Mathlib.Data.List.Basic
import Needlework.Config
import Needlework.Proofs.Value.Json
import Needlework.Proofs.Value.Spaces

/-!
# Configurations written and read

A configuration whose settings have the types they are declared with (`Config.Typed`) comes back from its
fields and from its JSON text.

Every key is the key of one setting, so the fields of a configuration determine it, whatever it is read
into (`setFields_toFields`).  Fields under other keys are passed over (`setFields_putAll`).  The JSON text
keeps the fields, since the values of a typed configuration are atoms that JSON keeps (`Typed.lossless`),
and one level of nesting holds them.  The checks depend on the configuration alone, so they pass again.
-/

namespace Needlework

open Json (IsScalar IsGap IsIndent Limits Lossless)

namespace Setting

theorem ofKey?_key (s : Setting) : ofKey? s.key = some s := by
  cases s <;> decide

theorem keys_distinct : (all.map key).Nodup := by decide

theorem mem_all (s : Setting) : s ∈ all := by
  cases s <;> decide

/-- Keys are ASCII. -/
theorem isScalar_of_mem_key {s : Setting} {c : CodePoint} (h : c ∈ s.key) : IsScalar c := by
  have ascii : ∀ s ∈ all, ∀ c ∈ s.key, c < 0x110000 ∧ Text.isSurrogate c = false := by decide
  exact ascii s (mem_all s) c h

end Setting

namespace Config

variable {c : Config}

/-! ## Fields -/

theorem setFields_toFields (d c : Config) : d.setFields c.toFields = c := by
  simp [setFields, toFields, Setting.all, Setting.ofKey?_key, set, get]

/-- A field that is no setting is passed over. -/
theorem setFields_put {k : Text} (unknown : Setting.ofKey? k = none) (v : Value) (fields : Fields)
    (c : Config) : c.setFields (Fields.put k v fields) = c.setFields fields := by
  induction fields generalizing c with
  | nil => simp [Fields.put, setFields, unknown]
  | cons f r ih =>
      rw [Fields.put]
      split
      next same =>
        obtain rfl := beq_iff_eq.1 same
        simp [setFields, unknown]
      next => exact ih _

theorem setFields_putAll {more : Fields} (unknown : ∀ f ∈ more, Setting.ofKey? f.1 = none) (fields : Fields) :
    c.setFields (Fields.putAll fields more) = c.setFields fields := by
  induction more generalizing fields with
  | nil => rfl
  | cons f r ih =>
      obtain ⟨first, later⟩ := List.forall_mem_cons.1 unknown
      exact (ih later _).trans (setFields_put first f.2 fields c)

/-! ## Types -/

/-- A truth value. -/
def IsBool (v : Value) : Prop := ∃ b, v = .bool b

/-- A text of Unicode scalar values. -/
def IsText (v : Value) : Prop := ∃ t, v = .text t ∧ ∀ c ∈ t, IsScalar c

/-- A configuration whose settings have the types they are declared with. -/
structure Typed (c : Config) : Prop where
  /-- Whether to fail is a truth value. -/
  strict : IsBool c.strict
  /-- The encoding of byte input has a name. -/
  inputEncoding : IsText c.inputEncoding
  /-- The rule for bytes that do not decode has a name. -/
  encodingErrors : IsText c.encodingErrors
  /-- Whether to record diagnostics is a truth value. -/
  enableDiagnostics : IsBool c.enableDiagnostics
  /-- Whether to record the counters is a truth value. -/
  collectMetrics : IsBool c.collectMetrics
  /-- The limit on recoveries may be missing and is an integer otherwise. -/
  maxRecoveries : c.maxRecoveries = .null ∨ ∃ i, c.maxRecoveries = .int i
  /-- The label may be missing and is a text otherwise. -/
  name : c.name = .null ∨ IsText c.name

variable {limits : Limits} {indent : Option Text}

/-- A reader takes the limit on recoveries, if there is one. -/
def LimitAdmitted (limits : Limits) (c : Config) : Prop :=
  ∀ i, c.maxRecoveries = .int i → limits.Admits i

theorem Typed.lossless (typed : c.Typed) (admitted : c.LimitAdmitted limits) (n : Nat) (s : Setting) :
    Lossless limits n (c.get s) := by
  have bool : ∀ {v}, IsBool v → Lossless limits n v := by
    rintro _ ⟨b, rfl⟩
    exact .bool n b
  have text : ∀ {v}, IsText v → Lossless limits n v := by
    rintro _ ⟨t, rfl, scalar⟩
    exact .text n t scalar
  cases s with
  | strict => exact bool typed.strict
  | inputEncoding => exact text typed.inputEncoding
  | encodingErrors => exact text typed.encodingErrors
  | enableDiagnostics => exact bool typed.enableDiagnostics
  | collectMetrics => exact bool typed.collectMetrics
  | maxRecoveries =>
      rcases typed.maxRecoveries with absent | ⟨i, present⟩
      · rw [get, absent]
        exact .null n
      · rw [get, present]
        exact .int n i (admitted i present)
  | name =>
      rcases typed.name with absent | label
      · rw [get, absent]
        exact .null n
      · exact text label

/-! ## JSON -/

/-- A configuration is one object of atoms. -/
theorem Typed.lossless_object (typed : c.Typed) (admitted : c.LimitAdmitted limits) (n : Nat) :
    Lossless limits (n + 1) (.object c.toFields) := by
  have keys : c.toFields.map Prod.fst = Setting.all.map Setting.key := by
    rw [toFields, List.map_map]
    rfl
  refine .object n _ (keys ▸ Setting.keys_distinct) ?_ ?_
  · intro f hf
    obtain ⟨s, -, rfl⟩ := List.mem_map.1 hf
    exact fun _ => Setting.isScalar_of_mem_key
  · intro f hf
    obtain ⟨s, -, rfl⟩ := List.mem_map.1 hf
    exact typed.lossless admitted n s

/-- A reader that takes objects at all takes a configuration. -/
theorem ofJson_toJson (typed : c.Typed) (valid : c.check = .ok c) (nested : limits.levels ≠ some 0)
    (admitted : c.LimitAdmitted limits) (blank : IsIndent indent) :
    ofJson (c.toJson indent) limits = .ok c := by
  obtain ⟨n, levels⟩ : ∃ n, limits.levels.getD (c.toJson indent).length = n + 1 := by
    cases given : limits.levels with
    | none => exact ⟨_, rfl⟩
    | some k =>
        cases k with
        | zero => exact absurd given nested
        | succ n => exact ⟨n, rfl⟩
  have lossless := typed.lossless_object admitted n
  rw [← levels] at lossless
  rw [ofJson, toJson, Json.read_print blank lossless]
  change (setFields {} c.toFields).check = .ok c
  rw [setFields_toFields, valid]

theorem isIndent_spaces (n : Nat) : IsIndent (some (Text.times [0x20] n)) := by
  rintro _ ⟨⟩
  exact IsGap.times (by simp [IsGap, Json.isSpace]) n

/-- A number of spaces for which there is room is an indentation. -/
theorem indentOf_int {n : Nat} (room : n ≤ roomLimit) :
    indentOf (.int n) = .ok (some (Text.times [0x20] n)) := by
  rw [indentOf, Value.repeatText_space room]
  · nofun
  · nofun

/-- **A configuration comes back from what was written of it**, if its settings have the types they are
declared with and it passes the checks.

* It comes back from its fields, also with more fields under keys that are no settings.
* It comes back from its JSON text with any number of spaces as the indentation, if the reader takes
  objects and has no limit on the digits of an integer.  The standard reader has one, and then the limit on
  recoveries must keep it.
* A number of spaces is the indentation that is asked for by that number, if there is room for it. -/
theorem serialization_round_trips (typed : c.Typed) (valid : c.check = .ok c) :
    ofFields c.toFields = .ok c
      ∧ (∀ more : Fields, (∀ f ∈ more, Setting.ofKey? f.1 = none) →
          ofFields (Fields.putAll c.toFields more) = .ok c)
      ∧ (∀ limits : Limits, limits.digits = none → limits.levels ≠ some 0 →
          ∀ n, ofJson (c.toJson (some (Text.times [0x20] n))) limits = .ok c)
      ∧ (c.LimitAdmitted .standard → ∀ n, ofJson (c.toJson (some (Text.times [0x20] n))) = .ok c)
      ∧ (∀ n ≤ roomLimit, indentOf (.int n) = .ok (some (Text.times [0x20] n))) := by
  have fields : ofFields c.toFields = .ok c := by rw [ofFields, setFields_toFields, valid]
  refine ⟨fields, fun more unknown => ?_, fun limits unlimited nested n => ?_, fun admitted n => ?_,
    fun n room => indentOf_int room⟩
  · rw [ofFields, setFields_putAll unknown]
    exact fields
  · have admitted : c.LimitAdmitted limits := fun i _ => Limits.admits_of_unlimited unlimited i
    exact ofJson_toJson typed valid nested admitted (isIndent_spaces n)
  · exact ofJson_toJson typed valid (by decide) admitted (isIndent_spaces n)

/-- A configuration whose texts need every kind of escape, with a limit of more digits than the standard
reader takes. -/
def awkward : Config where
  strict := .bool true
  inputEncoding := .text [0x22, 0x5C, 0x0A, 0x1F, 0x7F, 0x1F600]
  encodingErrors := .ofString "surrogateescape"
  maxRecoveries := .int (.ofNat (Nat.pow 10 5000))
  name := .text []

theorem serialization_round_trips_awkward :
    awkward.Typed ∧ awkward.check = .ok awkward
      ∧ ofFields (Fields.putAll awkward.toFields [("Strict", .double .nan), ([0xD800], .list [])])
        = .ok awkward
      ∧ ofJson (awkward.toJson (some (Text.times [0x20] 3))) { levels := some 1 } = .ok awkward := by
  have typed : awkward.Typed :=
    { strict := ⟨_, rfl⟩
      inputEncoding := ⟨_, rfl, by simp [IsScalar, Text.isSurrogate]⟩
      encodingErrors := ⟨_, rfl, by simp [IsScalar, Text.isSurrogate, Text.ofString]⟩
      enableDiagnostics := ⟨_, rfl⟩
      collectMetrics := ⟨_, rfl⟩
      maxRecoveries := .inr ⟨_, rfl⟩
      name := .inr ⟨_, rfl, nofun⟩ }
  have notNegative : Value.ltInt? awkward.maxRecoveries 0 = some false :=
    congrArg some (decide_eq_false (Int.not_lt.2 (Int.natCast_nonneg _)))
  have valid : awkward.check = .ok awkward := by
    rw [check, notNegative]
    rfl
  have whole := serialization_round_trips typed valid
  exact ⟨typed, valid, whole.2.1 _ (by decide), whole.2.2.1 _ rfl (by decide) 3⟩

end Config

end Needlework

import Mathlib.Data.List.Basic
import Needlework.Proofs.Text.Numerals
import Needlework.Value.Json.Reader

/-!
# Reading what was written

Printing loses nothing of a value that consists of truth values, integers, texts of Unicode scalar
values, and lists and objects of these (`Lossless`).  A reader whose limits the value keeps gets it back,
with any indentation of blanks (`read_print`).

* *Texts.*  Each scalar value is read off its own escape, in front of whatever follows
  (`readText_escape`).  Above the sixteen-bit range this takes both surrogates, which the reader joins.
* *Numbers.*  A numeral ends where the text does not go on with a number (`Delimited`).  That is so at
  the end of a text, before a comma or a closing bracket, and before a gap in front of one.
* *Nesting.*  A list or an object takes one level.  The fuel for a value is twice the length of what was
  written, and every item leaves enough of it for those after it.

Doubles are left out: what is written of one denotes a number that was rounded.  A lone surrogate is
left out as well, since two of them may be joined when they are read.
-/

namespace Needlework

theorem Fields.put_of_not_mem {k : Text} {fields : Fields} (h : k ∉ fields.map Prod.fst) (v : Value) :
    put k v fields = fields ++ [(k, v)] := by
  induction fields with
  | nil => rfl
  | cons f r ih =>
      obtain ⟨ne, absent⟩ := not_or.1 (mt List.mem_cons.2 h)
      rw [put, if_neg (by simpa using Ne.symm ne), ih absent, List.cons_append]

namespace Json

variable {c u n : Nat} {r s t rest : Text} {v : Value}

/-! ## Texts -/

/-- A Unicode scalar value: a code point that is no surrogate. -/
def IsScalar (c : CodePoint) : Prop := c < 0x110000 ∧ Text.isSurrogate c = false

theorem hexValue?_hexDigit : ∀ d < 16, hexValue? (Text.hexDigit d) = some d := by decide

theorem readText_escapeUnit (h : u < 0x10000) (t : Text) :
    readText (escapeUnit u ++ t)
      = (readText t).map fun read => (joinUnit u (startsUnit t) read.1, read.2) := by
  have digit : ∀ k, hexValue? (Text.hexDigit (k % 16)) = some (k % 16) := fun k =>
    hexValue?_hexDigit _ (Nat.mod_lt k (by decide))
  have unit : unit? (Text.hexDigit (u / 16 / 16 / 16 % 16)) (Text.hexDigit (u / 16 / 16 % 16))
      (Text.hexDigit (u / 16 % 16)) (Text.hexDigit (u % 16)) = some u := by
    simp only [unit?, digit, Option.bind_eq_bind, Option.bind_some, Option.pure_def]
    congr 1
    omega
  change readText (0x5C :: 0x75 :: _ :: _ :: _ :: _ :: t) = _
  rw [readText, unit]
  cases readText t <;> rfl

/-- A unit that is no high surrogate stands for itself. -/
theorem joinUnit_of_not_high (h : ¬ (0xD800 ≤ u ∧ u ≤ 0xDBFF)) (escaped : Bool) (t : Text) :
    joinUnit u escaped t = u :: t := by
  rw [joinUnit.eq_def]
  split
  next v r =>
    rw [if_neg]
    simp only [Bool.and_eq_true, decide_eq_true_eq]
    exact fun high => h ⟨high.1.1.1.2, high.1.1.2⟩
  next => rfl

/-- Two escaped surrogates that belong together are one code point. -/
theorem joinUnit_pair (bound : c < 0x110000) (large : 0x10000 ≤ c) (t : Text) :
    joinUnit (0xD800 + (c - 0x10000) / 0x400) true ((0xDC00 + (c - 0x10000) % 0x400) :: t) = c :: t := by
  have whole : 0x10000 + (0xD800 + (c - 0x10000) / 0x400 - 0xD800) * 0x400
      + (0xDC00 + (c - 0x10000) % 0x400 - 0xDC00) = c := by omega
  have high : (c - 0x10000) / 0x400 ≤ 0x3FF := by omega
  have low : (c - 0x10000) % 0x400 ≤ 0x3FF := by omega
  rw [joinUnit, if_pos, whole]
  simp only [Bool.and_eq_true, decide_eq_true_eq, true_and]
  exact ⟨⟨⟨Nat.le_add_right _ _, Nat.add_le_add_left high _⟩, Nat.le_add_right _ _⟩,
    Nat.add_le_add_left low _⟩

/-- A scalar value is read off its escape. -/
theorem readText_escape (scalar : IsScalar c) (t : Text) :
    readText (escape c ++ t) = (readText t).map fun read => (c :: read.1, read.2) := by
  obtain ⟨bound, notSurrogate⟩ : c < 0x110000 ∧ Text.isSurrogate c = false := scalar
  have lone : ¬ (0xD800 ≤ c ∧ c ≤ 0xDFFF) := by simpa [Text.isSurrogate] using notSurrogate
  rw [escape.eq_def]
  split
  next mark =>
    rcases (by simpa using mark : c = 0x22 ∨ c = 0x5C) with rfl | rfl <;> rfl
  next notMark =>
  obtain ⟨quote, slash⟩ : c ≠ 0x22 ∧ c ≠ 0x5C := by simpa using notMark
  split
  next same => rw [beq_iff_eq.1 same]; rfl
  split
  next same => rw [beq_iff_eq.1 same]; rfl
  split
  next same => rw [beq_iff_eq.1 same]; rfl
  split
  next same => rw [beq_iff_eq.1 same]; rfl
  split
  next same => rw [beq_iff_eq.1 same]; rfl
  split
  next verbatim =>
    have printable : 0x20 ≤ c ∧ c ≤ 0x7E := by simpa using verbatim
    rw [List.singleton_append, readText, if_neg]
    · simpa [slash] using printable.1
    · exact quote
    · exact fun _ _ _ _ _ same => absurd same slash
    · exact fun _ _ same => absurd same slash
  split
  next small =>
    rw [readText_escapeUnit small]
    simp only [joinUnit_of_not_high fun high => lone ⟨high.1, Nat.le_trans high.2 (by decide)⟩]
  next large =>
    have above : 0x10000 ≤ c := Nat.le_of_not_lt large
    have high : 0xD800 + (c - 0x10000) / 0x400 < 0x10000 := by omega
    have low : 0xDC00 + (c - 0x10000) % 0x400 < 0x10000 := by omega
    have inner : ∀ u : Text, joinUnit (0xDC00 + (c - 0x10000) % 0x400) (startsUnit t) u
        = (0xDC00 + (c - 0x10000) % 0x400) :: u := joinUnit_of_not_high (by omega) _
    rw [List.append_assoc, readText_escapeUnit high, readText_escapeUnit low, Option.map_map]
    refine congrArg (Option.map · _) (funext fun read => ?_)
    change (joinUnit _ true (joinUnit _ _ read.1), read.2) = (c :: read.1, read.2)
    rw [inner, joinUnit_pair bound above]

/-- A text of scalar values is read off what is written between its quotes. -/
theorem readText_escaped (scalar : ∀ c ∈ t, IsScalar c) (rest : Text) :
    readText (t.flatMap escape ++ 0x22 :: rest) = some (t, rest) := by
  induction t with
  | nil => rfl
  | cons c t ih =>
      obtain ⟨first, more⟩ := List.forall_mem_cons.1 scalar
      rw [List.flatMap_cons, List.append_assoc, readText_escape first, ih more]
      rfl

/-! ## Numbers -/

/-- A text that does not go on with a number. -/
def Delimited (t : Text) : Prop :=
  ∀ c ∈ t.head?, isDigit c = false ∧ c ≠ 0x2E ∧ c ≠ 0x65 ∧ c ≠ 0x45

theorem isDigit_of_mem_ofNat (h : c ∈ Text.ofNat n) : isDigit c = true := by
  obtain ⟨low, high⟩ := Text.bounds_of_mem_ofNat h
  rw [isDigit, decide_eq_true low, decide_eq_true high, Bool.and_self]

theorem Delimited.takeWhile (h : Delimited rest) : rest.takeWhile isDigit = [] := by
  cases rest with
  | nil => rfl
  | cons c r => rw [List.takeWhile_cons_of_neg (by simp [(h c rfl).1])]

theorem Delimited.dropWhile (h : Delimited rest) : rest.dropWhile isDigit = rest := by
  cases rest with
  | nil => rfl
  | cons c r => rw [List.dropWhile_cons_of_neg (by simp [(h c rfl).1])]

theorem digitsValue_ofNat (n : Nat) : digitsValue (Text.ofNat n) = n := by
  have digits := Nat.ofDigitChars_ten_toDigits (n := n)
  simp only [Nat.ofDigitChars_eq_foldl, Nat.mul_comm 10] at digits
  rw [digitsValue, Text.ofNat, List.foldl_map]
  exact digits

theorem readWhole_ofNat (h : Delimited rest) :
    readWhole (Text.ofNat n ++ rest) = some (Text.ofNat n, rest) := by
  rcases Text.ofNat_head n with zero | ⟨c, r, first, ne⟩
  · rw [zero]
    rfl
  · have digits : ∀ c ∈ Text.ofNat n, isDigit c = true := fun _ => isDigit_of_mem_ofNat
    rw [readWhole, List.takeWhile_append_of_pos digits, List.dropWhile_append_of_pos digits, h.takeWhile,
      h.dropWhile, List.append_nil, first]
    · rfl
    · intro r' zero
      rw [first] at zero
      exact ne (List.cons.inj zero).1

theorem readFraction_delimited (h : Delimited rest) : readFraction rest = ([], rest) := by
  rw [readFraction.eq_def]
  split
  next => exact absurd rfl (h _ rfl).2.1
  next => rfl

theorem readExponent_delimited (h : Delimited rest) : readExponent rest = none := by
  rw [readExponent.eq_def]
  split
  next => exact absurd rfl (h _ rfl).2.2.1
  next => exact absurd rfl (h _ rfl).2.2.2
  next => rfl

theorem readNumber_ofNat {limits : Limits} (fits : limits.exceeds (Text.ofNat n).length = false)
    (negative : Bool) (h : Delimited rest) :
    readNumber limits negative (Text.ofNat n ++ rest) = .ok (.int (if negative then -n else n), rest) := by
  rw [readNumber, readWhole_ofNat h]
  simp only [readFraction_delimited h, readExponent_delimited h, List.isEmpty_nil, fits, digitsValue_ofNat,
    Bool.false_eq_true, if_false]

/-- No word has a digit among its first two letters. -/
theorem readWord_of_digit (h : c ∈ t.take 2) (digit : isDigit c = true) : readWord t = none := by
  have letters : ∀ w ∈ words, 2 ≤ w.1.length ∧ ∀ c ∈ w.1.take 2, isDigit c = false := by decide
  refine List.findSome?_eq_none_iff.2 fun w hw => if_neg fun starts => ?_
  obtain ⟨long, noDigit⟩ := letters w hw
  obtain ⟨r, rfl⟩ := Text.startsWith_iff.1 starts
  rw [List.take_append_of_le_length long] at h
  rw [noDigit c h] at digit
  exact absurd digit (by decide)

/-- Whether a reader takes an integer, which depends on the number of its digits. -/
def Limits.Admits (limits : Limits) (i : Int) : Prop := limits.exceeds (Text.ofNat i.natAbs).length = false

theorem Limits.admits_of_unlimited {limits : Limits} (h : limits.digits = none) (i : Int) :
    limits.Admits i := by
  rw [Limits.Admits, Limits.exceeds, h, Option.any_none]

theorem readAtom_ofInt {limits : Limits} {i : Int} (admits : limits.Admits i) (h : Delimited rest) :
    readAtom limits (Text.ofInt i ++ rest) = .ok (.int i, rest) := by
  have digits : ∀ n, ∃ c r, Text.ofNat n = c :: r ∧ isDigit c = true := fun n => by
    obtain ⟨c, r, first⟩ := List.exists_cons_of_ne_nil (Text.ofNat_ne_nil n)
    exact ⟨c, r, first, isDigit_of_mem_ofNat (n := n) (first ▸ List.mem_cons_self)⟩
  cases i with
  | ofNat n =>
      obtain ⟨c, r, first, digit⟩ := digits n
      have number := readNumber_ofNat admits false h (n := n)
      change readAtom limits (Text.ofNat n ++ rest) = _
      rw [first] at number ⊢
      rw [readAtom, readWord_of_digit (c := c) (by simp) digit]
      · exact number
      · intro r' minus
        rw [(List.cons.inj minus).1] at digit
        exact absurd digit (by decide)
  | negSucc n =>
      obtain ⟨c, r, first, digit⟩ := digits (n + 1)
      have number := readNumber_ofNat admits true h (n := n + 1)
      change readAtom limits (0x2D :: (Text.ofNat (n + 1) ++ rest)) = _
      rw [readAtom, readWord_of_digit (c := c) (by simp [first]) digit]
      exact number

/-! ## Words -/

theorem readAtom_word {limits : Limits} (h : (s, v) ∈ words) (rest : Text) :
    readAtom limits (s ++ rest) = .ok (v, rest) := by
  have word : readWord (s ++ rest) = some (v, rest) := by
    simp only [words, List.mem_cons, Prod.mk.injEq, List.not_mem_nil, or_false] at h
    rcases h with ⟨rfl, rfl⟩ | ⟨rfl, rfl⟩ | ⟨rfl, rfl⟩ | ⟨rfl, rfl⟩ | ⟨rfl, rfl⟩ | ⟨rfl, rfl⟩ <;>
      simp [readWord, words, Text.ofString, Text.startsWith]
  rw [readAtom.eq_def, word]

/-! ## Blanks -/

/-- A text of blanks between tokens. -/
def IsGap (t : Text) : Prop := ∀ c ∈ t, isSpace c = true

theorem IsGap.skipSpace (gap : IsGap t) (h : isSpace c = false) (r : Text) :
    skipSpace (t ++ c :: r) = c :: r := by
  rw [Json.skipSpace, List.dropWhile_append_of_pos gap, List.dropWhile_cons_of_neg (by simp [h])]

theorem skipSpace_cons (h : isSpace c = false) (r : Text) : skipSpace (c :: r) = c :: r :=
  IsGap.skipSpace (t := []) (fun _ hc => absurd hc List.not_mem_nil) h r

/-- A gap before something else ends a number. -/
theorem IsGap.delimited (gap : IsGap t) (h : Delimited rest) : Delimited (t ++ rest) := by
  have blank : ∀ c, isSpace c = true → isDigit c = false ∧ c ≠ 0x2E ∧ c ≠ 0x65 ∧ c ≠ 0x45 := by
    intro c hc
    simp only [isSpace, Bool.or_eq_true, beq_iff_eq] at hc
    rcases hc with ((rfl | rfl) | rfl) | rfl <;> decide
  cases t with
  | nil => exact h
  | cons c t =>
      rintro _ ⟨⟩
      exact blank c (gap c List.mem_cons_self)

theorem IsGap.times (gap : IsGap t) (n : Nat) : IsGap (t.times n) := by
  intro c hc
  obtain ⟨copy, same, hc⟩ := List.mem_flatten.1 hc
  rw [List.eq_of_mem_replicate same] at hc
  exact gap c hc

theorem IsGap.newline (gap : IsGap t) : IsGap (0x0A :: t) := List.forall_mem_cons.2 ⟨rfl, gap⟩

/-- An indentation of blanks. -/
def IsIndent (indent : Option Text) : Prop := ∀ unit ∈ indent, IsGap unit

theorem IsIndent.lineBreak {indent : Option Text} (h : IsIndent indent) (level : Nat) :
    IsGap (lineBreak indent level) := by
  cases indent with
  | none => exact fun _ hc => absurd hc List.not_mem_nil
  | some unit => exact ((h unit rfl).times level).newline

/-- Items are separated by a comma and a gap. -/
theorem IsIndent.separator {indent : Option Text} (h : IsIndent indent) (level : Nat) :
    ∃ gap, separator indent level = 0x2C :: gap ∧ IsGap gap := by
  cases indent with
  | none => exact ⟨[0x20], rfl, by simp [IsGap, isSpace]⟩
  | some unit => exact ⟨_, rfl, ((h unit rfl).times level).newline⟩

/-! ## Values -/

/-- A value that JSON keeps for a reader, with so many levels of nesting.  It holds no doubles, the
reader takes its integers, its texts are of scalar values, and the keys of an object are distinct. -/
inductive Lossless (limits : Limits) : Nat → Value → Prop where
  /-- No value. -/
  | null (n : Nat) : Lossless limits n .null
  /-- A truth value. -/
  | bool (n : Nat) (b : Bool) : Lossless limits n (.bool b)
  /-- An integer. -/
  | int (n : Nat) (i : Int) (admits : limits.Admits i) : Lossless limits n (.int i)
  /-- A text of scalar values. -/
  | text (n : Nat) (t : Text) (scalar : ∀ c ∈ t, IsScalar c) : Lossless limits n (.text t)
  /-- A list uses up a level. -/
  | list (n : Nat) (items : List Value) (inside : ∀ v ∈ items, Lossless limits n v) :
      Lossless limits (n + 1) (.list items)
  /-- An object uses up a level. -/
  | object (n : Nat) (fields : Fields) (distinct : (fields.map Prod.fst).Nodup)
      (scalar : ∀ f ∈ fields, ∀ c ∈ f.1, IsScalar c) (inside : ∀ f ∈ fields, Lossless limits n f.2) :
      Lossless limits (n + 1) (.object fields)

variable {limits : Limits} {indent : Option Text} {fuel level : Nat}

/-- What is written starts a value: with neither a blank nor a closing bracket. -/
theorem write_head (indent : Option Text) (level : Nat) (h : Lossless limits n v) :
    ∃ c r, write indent level v = c :: r ∧ isSpace c = false ∧ c ≠ 0x5D := by
  cases h with
  | null => exact ⟨_, _, rfl, by decide, by decide⟩
  | bool _ b => cases b <;> exact ⟨_, _, rfl, by decide, by decide⟩
  | int _ i admits =>
      have noBlank : ∀ c ∈ Text.numeralPoints, isSpace c = false ∧ c ≠ 0x5D := by decide
      obtain ⟨c, r, first, numeral⟩ := Text.exists_ofInt_cons i
      exact ⟨c, r, first, noBlank c numeral⟩
  | text => exact ⟨_, _, rfl, by decide, by decide⟩
  | list => exact ⟨_, _, rfl, by decide, by decide⟩
  | object => exact ⟨_, _, rfl, by decide, by decide⟩

/-- A value is read off what was written, if what comes after it ends a number. -/
def Reads (limits : Limits) (indent : Option Text) (n : Nat) (v : Value) : Prop :=
  ∀ fuel level rest, 2 * (write indent level v).length ≤ fuel → Delimited rest →
    readValue limits (fuel + 1) n (write indent level v ++ rest) = .ok (v, rest)

theorem readValue_atom (text : c ≠ 0x22) (list : c ≠ 0x5B) (object : c ≠ 0x7B) (fuel levels : Nat)
    (r : Text) : readValue limits (fuel + 1) levels (c :: r) = readAtom limits (c :: r) := by
  rw [readValue]
  · exact fun _ same => text (List.cons.inj same).1
  · exact fun _ same => list (List.cons.inj same).1
  · exact fun _ same => object (List.cons.inj same).1

theorem Reads.null : Reads limits indent n .null := by
  intro fuel level rest _ _
  rw [← readAtom_word (s := "null") (by simp [words])]
  exact readValue_atom (by decide) (by decide) (by decide) fuel n _

theorem Reads.bool (b : Bool) : Reads limits indent n (.bool b) := by
  intro fuel level rest _ _
  cases b with
  | false =>
      rw [← readAtom_word (s := "false") (by simp [words])]
      exact readValue_atom (by decide) (by decide) (by decide) fuel n _
  | true =>
      rw [← readAtom_word (s := "true") (by simp [words])]
      exact readValue_atom (by decide) (by decide) (by decide) fuel n _

theorem Reads.int {i : Int} (admits : limits.Admits i) : Reads limits indent n (.int i) := by
  intro fuel level rest _ ends
  have noBracket : ∀ c ∈ Text.numeralPoints, c ≠ 0x22 ∧ c ≠ 0x5B ∧ c ≠ 0x7B := by decide
  obtain ⟨c, r, first, numeral⟩ := Text.exists_ofInt_cons i
  obtain ⟨text, list, object⟩ := noBracket c numeral
  have atom := readAtom_ofInt admits ends
  change readValue limits _ n (Text.ofInt i ++ rest) = _
  rw [first] at atom ⊢
  rw [← atom]
  exact readValue_atom text list object _ _ _

theorem Reads.text (scalar : ∀ c ∈ t, IsScalar c) : Reads limits indent n (.text t) := by
  intro fuel level rest _ _
  change readValue limits (fuel + 1) n (0x22 :: (t.flatMap escape ++ [0x22] ++ rest)) = _
  rw [readValue, List.append_assoc, List.singleton_append, readText_escaped scalar]
  rfl

theorem readItems_write (blank : IsIndent indent) (level : Nat) (items : List Value) {gap : Text}
    (last : IsGap gap) (rest : Text) : ∀ v fuel, (∀ w ∈ v :: items, Lossless limits n w ∧ Reads limits indent n w) →
      2 * (write indent level v ++ writeMoreItems indent level items).length ≤ fuel →
      readItems limits (fuel + 2) n
          (write indent level v ++ (writeMoreItems indent level items ++ (gap ++ 0x5D :: rest)))
        = .ok (v :: items, rest) := by
  induction items with
  | nil =>
      intro v fuel inside enough
      have first := (inside v List.mem_cons_self).2
      have ends : Delimited (gap ++ 0x5D :: rest) := last.delimited (by rintro _ ⟨⟩; decide)
      rw [writeMoreItems, List.append_nil] at enough
      rw [writeMoreItems, List.nil_append, readItems, first fuel level _ enough ends]
      dsimp only
      rw [last.skipSpace (by decide)]
      rfl
  | cons w items ih =>
      intro v fuel inside enough
      have first := (inside v List.mem_cons_self).2
      obtain ⟨between, comma, between_blank⟩ := blank.separator level
      obtain ⟨c, r, head, notBlank, -⟩ := write_head indent level (inside w (by simp)).1
      rw [writeMoreItems, comma] at enough ⊢
      simp only [List.length_append, List.length_cons] at enough
      obtain ⟨k, rfl⟩ : ∃ k, fuel = k + 1 := ⟨fuel - 1, by omega⟩
      have more := ih w k (fun u hu => inside u (List.mem_cons_of_mem _ hu))
        (by rw [List.length_append]; omega)
      rw [head] at more
      simp only [List.append_assoc, List.cons_append] at more ⊢
      rw [readItems, first (k + 1) level _ (by omega) (by rintro _ ⟨⟩; decide)]
      dsimp only
      rw [skipSpace_cons (by decide)]
      change (readItems limits (k + 2) n (skipSpace _)).map _ = _
      rw [head, List.cons_append, between_blank.skipSpace notBlank, more]
      rfl

/-- A list that is not empty is read item by item. -/
theorem readValue_list (h : skipSpace r = c :: t) (ne : c ≠ 0x5D) (fuel : Nat) :
    readValue limits (fuel + 1) (n + 1) (0x5B :: r)
      = (readItems limits fuel n (c :: t)).map fun read => (.list read.1, read.2) := by
  rw [readValue]
  dsimp only
  rw [h]
  split
  next same => exact absurd (List.cons.inj same).1 ne
  next => rfl

theorem Reads.list (blank : IsIndent indent) {items : List Value} (lossless : ∀ v ∈ items, Lossless limits n v)
    (reads : ∀ v ∈ items, Reads limits indent n v) : Reads limits indent (n + 1) (.list items) := by
  intro fuel level rest enough _
  cases items with
  | nil =>
      change readValue limits (fuel + 1) (n + 1) (0x5B :: 0x5D :: rest) = _
      rw [readValue]
      rfl
  | cons v items =>
      obtain ⟨c, r, head, notBlank, ne⟩ := write_head indent (level + 1) (lossless v List.mem_cons_self)
      rw [write, writeItems] at enough ⊢
      simp only [List.length_append, List.length_cons] at enough
      obtain ⟨k, rfl⟩ : ∃ k, fuel = k + 2 := ⟨fuel - 2, by omega⟩
      have inside := readItems_write blank (level + 1) items (blank.lineBreak level) rest v k
        (fun w hw => ⟨lossless w hw, reads w hw⟩) (by rw [List.length_append]; omega)
      have skip := (blank.lineBreak (level + 1)).skipSpace notBlank
      rw [head] at inside ⊢
      simp only [List.append_assoc, List.cons_append, List.nil_append] at inside ⊢
      rw [readValue_list (skip _) ne, inside]
      rfl

/-! ## Objects -/

theorem writeField_append (indent : Option Text) (level : Nat) (f : Text × Value) (t : Text) :
    writeField indent level f ++ t
      = 0x22 :: (f.1.flatMap escape ++ 0x22 :: 0x3A :: 0x20 :: (write indent level f.2 ++ t)) := by
  obtain ⟨k, v⟩ := f
  simp only [writeField, writeText, List.cons_append, List.append_assoc, List.nil_append]

/-- What reading a field needs: it can be read itself, and the text and the value of it as well. -/
structure ReadsField (limits : Limits) (indent : Option Text) (n : Nat) (f : Text × Value) : Prop where
  /-- The key is a text of scalar values. -/
  scalar : ∀ c ∈ f.1, IsScalar c
  /-- The value is kept. -/
  lossless : Lossless limits n f.2
  /-- The value is read. -/
  value : Reads limits indent n f.2

/-- A field is read up to what ends it, which is the closing bracket or a comma before more fields. -/
theorem ReadsField.readFields {f : Text × Value} (h : ReadsField limits indent n f)
    (enough : 2 * (writeField indent level f).length ≤ fuel) (ends : Delimited t) {seen : Fields}
    (absent : f.1 ∉ seen.map Prod.fst) :
    (∀ rest, skipSpace t = 0x7D :: rest →
        Json.readFields limits (fuel + 2) n seen (writeField indent level f ++ t)
          = .ok (seen ++ [f], rest))
      ∧ ∀ r, skipSpace t = 0x2C :: r →
        Json.readFields limits (fuel + 2) n seen (writeField indent level f ++ t)
          = Json.readFields limits (fuel + 1) n (seen ++ [f]) (skipSpace r) := by
  obtain ⟨c, r, head, notBlank, -⟩ := write_head indent level h.lossless
  have put : Fields.put f.1 f.2 seen = seen ++ [f] := Fields.put_of_not_mem absent f.2
  have colon : ∀ r, skipSpace (0x3A :: r) = 0x3A :: r := skipSpace_cons (by decide)
  have skip : skipSpace (0x20 :: (write indent level f.2 ++ t)) = write indent level f.2 ++ t := by
    rw [head]
    exact IsGap.skipSpace (t := [0x20]) (by simp [IsGap, isSpace]) notBlank _
  have shorter : (write indent level f.2).length ≤ (writeField indent level f).length := by
    have whole := writeField_append indent level f []
    rw [List.append_nil, List.append_nil] at whole
    rw [whole]
    simp only [List.length_cons, List.length_append]
    omega
  have read := h.value fuel level t (by omega) ends
  refine ⟨fun rest last => ?_, fun r more => ?_⟩
  · simp only [writeField_append, Json.readFields, readText_escaped h.scalar, colon, skip, read, last, put]
  · simp only [writeField_append, Json.readFields, readText_escaped h.scalar, colon, skip, read, more, put]

theorem readFields_write (blank : IsIndent indent) (level : Nat) (fields : Fields) {gap : Text}
    (last : IsGap gap) (rest : Text) : ∀ f seen fuel, ((seen ++ f :: fields).map Prod.fst).Nodup →
      (∀ g ∈ f :: fields, ReadsField limits indent n g) →
      2 * (writeField indent level f ++ writeMoreFields indent level fields).length ≤ fuel →
      readFields limits (fuel + 2) n seen
          (writeField indent level f ++ (writeMoreFields indent level fields ++ (gap ++ 0x7D :: rest)))
        = .ok (seen ++ f :: fields, rest) := by
  -- the keys before a field are not its own
  have new : ∀ {f : Text × Value} {seen after : Fields},
      ((seen ++ f :: after).map Prod.fst).Nodup → f.1 ∉ seen.map Prod.fst := fun distinct hf => by
    rw [List.map_append, List.map_cons] at distinct
    exact (List.nodup_append.1 distinct).2.2 _ hf _ List.mem_cons_self rfl
  induction fields with
  | nil =>
      intro f seen fuel distinct inside enough
      have ends : Delimited (gap ++ 0x7D :: rest) := last.delimited (by rintro _ ⟨⟩; decide)
      rw [writeMoreFields, List.append_nil] at enough
      rw [writeMoreFields, List.nil_append]
      exact ((inside f List.mem_cons_self).readFields enough ends (new distinct)).1 rest
        (last.skipSpace (by decide) rest)
  | cons g fields ih =>
      intro f seen fuel distinct inside enough
      obtain ⟨between, comma, between_blank⟩ := blank.separator level
      rw [writeMoreFields, comma] at enough ⊢
      simp only [List.length_append, List.length_cons] at enough
      obtain ⟨k, rfl⟩ : ∃ k, fuel = k + 1 := ⟨fuel - 1, by omega⟩
      have more := ih g (seen ++ [f]) k (by rwa [List.append_assoc])
        (fun u hu => inside u (List.mem_cons_of_mem _ hu)) (by rw [List.length_append]; omega)
      rw [writeField_append] at more
      simp only [List.append_assoc, List.cons_append, List.nil_append] at more ⊢
      rw [((inside f List.mem_cons_self).readFields (by omega) (by rintro _ ⟨⟩; decide)
          (new distinct)).2 _ (skipSpace_cons (by decide) _), writeField_append,
        between_blank.skipSpace (by decide), more]

/-- An object that is not empty is read field by field. -/
theorem readValue_object (h : skipSpace r = c :: t) (ne : c ≠ 0x7D) (fuel : Nat) :
    readValue limits (fuel + 1) (n + 1) (0x7B :: r)
      = (readFields limits fuel n [] (c :: t)).map fun read => (.object read.1, read.2) := by
  rw [readValue]
  dsimp only
  rw [h]
  split
  next same => exact absurd (List.cons.inj same).1 ne
  next => rfl

theorem Reads.object (blank : IsIndent indent) {fields : Fields} (distinct : (fields.map Prod.fst).Nodup)
    (inside : ∀ f ∈ fields, ReadsField limits indent n f) :
    Reads limits indent (n + 1) (.object fields) := by
  intro fuel level rest enough _
  cases fields with
  | nil =>
      change readValue limits (fuel + 1) (n + 1) (0x7B :: 0x7D :: rest) = _
      rw [readValue]
      rfl
  | cons f fields =>
      rw [write, writeFields] at enough ⊢
      simp only [List.length_append, List.length_cons] at enough
      obtain ⟨k, rfl⟩ : ∃ k, fuel = k + 2 := ⟨fuel - 2, by omega⟩
      have read := readFields_write blank (level + 1) fields (blank.lineBreak level) rest f [] k distinct
        inside (by rw [List.length_append]; omega)
      have skip := (blank.lineBreak (level + 1)).skipSpace (c := 0x22) (by decide)
      rw [writeField_append] at read
      simp only [List.append_assoc, List.cons_append, List.nil_append] at read ⊢
      rw [writeField_append, readValue_object (skip _) (by decide), read]
      rfl

/-! ## Whole texts -/

/-- A value that JSON keeps is read off what was written. -/
theorem Lossless.reads (blank : IsIndent indent) (h : Lossless limits n v) :
    Reads limits indent n v := by
  induction h with
  | null => exact .null
  | bool n b => exact .bool b
  | int n i admits => exact .int admits
  | text n t scalar => exact .text scalar
  | list n items inside ih => exact .list blank inside ih
  | object n fields distinct scalar inside ih =>
      exact .object blank distinct fun f hf => ⟨scalar f hf, inside f hf, ih f hf⟩

/-- **What was printed is read back**, by a reader that takes integers as long and nesting as deep as the
value's. -/
theorem read_print (blank : IsIndent indent)
    (h : Lossless limits (limits.levels.getD (print indent v).length) v) : read limits (print indent v) = .ok v := by
  obtain ⟨c, r, head, notBlank, -⟩ := write_head indent 0 h
  have reads := h.reads blank (2 * (print indent v).length) 0 [] (Nat.le_refl _) nofun
  have start : skipSpace (print indent v) = print indent v := by
    rw [print, head, skipSpace_cons notBlank]
  rw [List.append_nil] at reads
  change readValue _ _ _ (print indent v) = _ at reads
  rw [read, start, reads]
  rfl

end Json

end Needlework

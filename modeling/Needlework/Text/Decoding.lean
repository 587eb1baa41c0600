import Needlework.Text.Quoted

/-!
# Decoding bytes

Bytes become text by an encoding and a rule for what does not decode.

*Codecs.*  What an encoding does with bytes is a `Codec`, and which names stand for
which codecs is a table (`Codecs`).  The five encodings here and their names make
up `Codecs.standard`.  Users of bytes may have other tables.

*Names.*  The names of encodings are compared by `Encoding.nameKey`, which keeps
letters, digits and full stops.  So `UTF-8`, ` utf 8` and `utf_8` are one name.

*Steps.*  `Encoding.step` reads the head of the remaining bytes.  It finds
either one code point and its width in bytes, or a flaw: a reason and the
number of bytes that it covers.  In UTF-8 a flaw covers the longest start of a
well-formed sequence, or one byte where there is none.  No byte order mark is
treated specially.

*Repair.*  `Repair.mend?` says what a flaw turns into and how many bytes that
uses up.  Under `strict` nothing does, and decoding stops with a `Flaw`.  The
surrogate escape carries a byte as a code point from `DC80` on.  It never
escapes an ASCII byte, so it may use up only the first bytes of a flaw, and
where the first byte is ASCII the flaw stands.

*The walk.*  `decodeFrom` is structural in the bytes.  It reads a step at each
byte that the step before has not used up, and a counter says how many bytes
of that step are still to pass.  Widths are at least one, so the walk never
stands still.
-/

namespace Needlework

/-- The encodings that come with the library. -/
inductive Encoding where
  /-- UTF-8. -/
  | utf8
  /-- Seven-bit ASCII. -/
  | ascii
  /-- ISO 8859-1: every byte is its own code point. -/
  | latin1
  /-- UTF-16, least significant byte first. -/
  | utf16le
  /-- UTF-16, most significant byte first. -/
  | utf16be
deriving DecidableEq, Repr

/-- What to do with bytes that do not decode. -/
inductive Repair where
  /-- Stop. -/
  | strict
  /-- Write one replacement character for the flaw. -/
  | replace
  /-- Leave the bytes out. -/
  | ignore
  /-- Carry each byte as a lone surrogate. -/
  | surrogateEscape
  /-- Write each byte as an escape. -/
  | backslashReplace
deriving DecidableEq, Repr

/-- Why bytes do not decode. -/
inductive FlawReason where
  /-- A byte above the ASCII range. -/
  | notAscii
  /-- A byte that starts no sequence. -/
  | invalidStart
  /-- A byte that cannot continue the sequence before it. -/
  | invalidContinuation
  /-- The bytes end inside a sequence. -/
  | unexpectedEnd
  /-- Half of a two-byte unit is left over. -/
  | truncated
  /-- A low surrogate without a high one before it. -/
  | illegalEncoding
  /-- A high surrogate without a low one after it. -/
  | illegalSurrogate
deriving DecidableEq, Repr

/-- The wording of a reason. -/
def FlawReason.message : FlawReason → Text
  | .notAscii => "ordinal not in range(128)"
  | .invalidStart => "invalid start byte"
  | .invalidContinuation => "invalid continuation byte"
  | .unexpectedEnd => "unexpected end of data"
  | .truncated => "truncated data"
  | .illegalEncoding => "illegal encoding"
  | .illegalSurrogate => "illegal UTF-16 surrogate"

/-- Bytes that do not decode, with their position and the reason. -/
structure Flaw where
  /-- The name of the encoding in messages. -/
  encoding : Text
  /-- The position of the first byte. -/
  position : Nat
  /-- The bytes. -/
  bytes : List UInt8
  /-- The reason, in words. -/
  reason : Text
deriving DecidableEq, Repr

/-- What an encoding does with bytes under a rule for those that do not decode. -/
abbrev Codec := Repair → List UInt8 → Except Flaw Text

/-- The codecs of the names that are known. -/
abbrev Codecs := Text → Option Codec

/-- What stands at the head of the remaining bytes. -/
inductive ByteStep where
  /-- A code point and the number of its bytes. -/
  | point (c : CodePoint) (width : Nat)
  /-- A flaw and the number of its bytes. -/
  | flaw (width : Nat) (reason : FlawReason)
deriving DecidableEq, Repr

/-! ## Names -/

namespace Encoding

/-- A letter of an encoding name as names are compared: letters in lower case,
digits and full stops.  Every other code point separates. -/
def nameLetter? (c : CodePoint) : Option CodePoint :=
  if 0x41 ≤ c && c ≤ 0x5A then some (c + 0x20)
  else if (0x61 ≤ c && c ≤ 0x7A) || (0x30 ≤ c && c ≤ 0x39) || c == 0x2E then some c
  else none

/-- A name as names are compared, after its first letter.  The flag says that
separators were read since the last letter.  They are written as one underscore
before the next, and not at all if there is none. -/
def nameKeyFrom : Bool → Text → Text
  | _, [] => []
  | separated, c :: r =>
      match nameLetter? c with
      | none => nameKeyFrom true r
      | some l => if separated then 0x5F :: l :: nameKeyFrom false r else l :: nameKeyFrom false r

/-- A name as names are compared: letters in lower case, one underscore for every
run of separators between them, and none at the ends. -/
def nameKey (name : Text) : Text :=
  nameKeyFrom false (name.dropWhile fun c => (nameLetter? c).isNone)

/-- The proper name of an encoding, as names are compared. -/
def properName : Encoding → Text
  | .utf8 => "utf_8"
  | .ascii => "ascii"
  | .latin1 => "latin_1"
  | .utf16le => "utf_16_le"
  | .utf16be => "utf_16_be"

/-- The other names of an encoding, as names are compared. -/
def aliases : Encoding → List Text
  | .utf8 => ["u8", "utf", "utf8", "utf8_ucs2", "utf8_ucs4", "cp65001"]
  | .ascii => ["646", "ansi_x3.4_1968", "ansi_x3_4_1968", "ansi_x3.4_1986", "cp367", "csascii",
      "ibm367", "iso646_us", "iso_646.irv_1991", "iso_ir_6", "us", "us_ascii"]
  | .latin1 => ["8859", "cp819", "csisolatin1", "ibm819", "iso8859", "iso8859_1", "iso_8859_1",
      "iso_8859_1_1987", "iso_ir_100", "l1", "latin", "latin1"]
  | .utf16le => ["unicodelittleunmarked", "utf_16le"]
  | .utf16be => ["unicodebigunmarked", "utf_16be"]

/-- Whether a name, as names are compared, is one of an encoding.  An alias may be
written with full stops for its underscores, a proper name may not. -/
def hasName (e : Encoding) (key : Text) : Bool :=
  key == e.properName || e.aliases.contains key
    || e.aliases.contains (key.map fun c => if c == 0x2E then 0x5F else c)

/-- The encoding of a name. -/
def ofName? (name : Text) : Option Encoding :=
  [utf8, ascii, latin1, utf16le, utf16be].find? fun e => e.hasName (nameKey name)

/-- The name of an encoding in messages. -/
def label : Encoding → Text
  | .utf8 => "utf-8"
  | .ascii => "ascii"
  | .latin1 => "latin-1"
  | .utf16le => "utf-16-le"
  | .utf16be => "utf-16-be"

end Encoding

namespace Repair

/-- The name of a rule in a configuration. -/
def label : Repair → Text
  | .strict => "strict"
  | .replace => "replace"
  | .ignore => "ignore"
  | .surrogateEscape => "surrogateescape"
  | .backslashReplace => "backslashreplace"

/-- Every rule, in the order in which they are listed to the user. -/
def all : List Repair := [.strict, .replace, .ignore, .surrogateEscape, .backslashReplace]

/-- The rule of a name. -/
def ofName? (name : Text) : Option Repair := all.find? fun r => r.label == name

end Repair

/-! ## Steps -/

namespace Encoding

/-- Whether a byte lies in a range. -/
def within (lo hi : Nat) (b : UInt8) : Bool := lo ≤ b.toNat && b.toNat ≤ hi

/-- The low six bits of a continuation byte. -/
def low6 (b : UInt8) : Nat := b.toNat % 64

/-- The continuation bytes after the second byte.  `seen` is the number of bytes
read so far and `acc` the bits they hold. -/
def utf8Tail : Nat → Nat → Nat → List UInt8 → ByteStep
  | 0, seen, acc, _ => .point acc seen
  | _ + 1, seen, _, [] => .flaw seen .unexpectedEnd
  | need + 1, seen, acc, b :: r =>
      if within 0x80 0xBF b then utf8Tail need (seen + 1) (acc * 64 + low6 b) r
      else .flaw seen .invalidContinuation

/-- A sequence with a second byte from `lo` to `hi` and `need` bytes after it. -/
def utf8Multi (lo hi need acc : Nat) : List UInt8 → ByteStep
  | [] => .flaw 1 .unexpectedEnd
  | b :: r =>
      if within lo hi b then utf8Tail need 2 (acc * 64 + low6 b) r
      else .flaw 1 .invalidContinuation

/-- One step of UTF-8.  The range of the second byte excludes overlong forms,
surrogates and what lies beyond `10FFFF`. -/
def utf8Step (b : UInt8) (rest : List UInt8) : ByteStep :=
  let n := b.toNat
  if n < 0x80 then .point n 1
  else if n < 0xC2 then .flaw 1 .invalidStart
  else if n < 0xE0 then utf8Multi 0x80 0xBF 0 (n % 32) rest
  else if n == 0xE0 then utf8Multi 0xA0 0xBF 1 (n % 16) rest
  else if n == 0xED then utf8Multi 0x80 0x9F 1 (n % 16) rest
  else if n < 0xF0 then utf8Multi 0x80 0xBF 1 (n % 16) rest
  else if n == 0xF0 then utf8Multi 0x90 0xBF 2 (n % 8) rest
  else if n < 0xF4 then utf8Multi 0x80 0xBF 2 (n % 8) rest
  else if n == 0xF4 then utf8Multi 0x80 0x8F 2 (n % 8) rest
  else .flaw 1 .invalidStart

/-- One step of UTF-16, where `unit` joins the two bytes of a unit. -/
def utf16Step (unit : UInt8 → UInt8 → Nat) (a : UInt8) : List UInt8 → ByteStep
  | [] => .flaw 1 .truncated
  | b :: rest =>
      let u := unit a b
      if u < 0xD800 || 0xDFFF < u then .point u 2
      else if 0xDC00 ≤ u then .flaw 2 .illegalEncoding
      else match rest with
        | c :: d :: _ =>
            let v := unit c d
            if 0xDC00 ≤ v && v ≤ 0xDFFF then
              .point (0x10000 + (u - 0xD800) * 0x400 + (v - 0xDC00)) 4
            else .flaw 2 .illegalSurrogate
        | short => .flaw (2 + short.length) .unexpectedEnd

/-- One step of decoding, at a byte and those that follow it. -/
def step : Encoding → UInt8 → List UInt8 → ByteStep
  | .utf8, b, rest => utf8Step b rest
  | .ascii, b, _ => if b.toNat < 0x80 then .point b.toNat 1 else .flaw 1 .notAscii
  | .latin1, b, _ => .point b.toNat 1
  | .utf16le, b, rest => utf16Step (fun a b => a.toNat + b.toNat * 256) b rest
  | .utf16be, b, rest => utf16Step (fun a b => a.toNat * 256 + b.toNat) b rest

end Encoding

/-! ## Repair -/

/-- What a flaw turns into and how many bytes that uses up, or nothing where
decoding has to stop. -/
def Repair.mend? : Repair → List UInt8 → Option (Text × Nat)
  | .strict, _ => none
  | .replace, bad => some ([0xFFFD], bad.length)
  | .ignore, bad => some ([], bad.length)
  | .surrogateEscape, bad =>
      match bad.takeWhile fun b => 0x80 ≤ b.toNat with
      | [] => none
      | high => some (high.map fun b => 0xDC00 + b.toNat, high.length)
  | .backslashReplace, bad =>
      some (bad.flatMap fun b => 0x5C :: 0x78 :: Text.hex 2 b.toNat, bad.length)

/-! ## The walk -/

/-- Decode the bytes from a position on.  The first number is how many bytes the
step before still covers, the second the position. -/
def decodeFrom (e : Encoding) (repair : Repair) : Nat → Nat → List UInt8 → Except Flaw Text
  | _, _, [] => .ok []
  | k + 1, p, _ :: r => decodeFrom e repair k (p + 1) r
  | 0, p, b :: r =>
      match e.step b r with
      | .point c width => (c :: ·) <$> decodeFrom e repair (width - 1) (p + 1) r
      | .flaw width reason =>
          let bad := (b :: r).take width
          match repair.mend? bad with
          | none => .error ⟨e.label, p, bad, reason.message⟩
          | some (t, used) => (t ++ ·) <$> decodeFrom e repair (used - 1) (p + 1) r

/-- The text of the bytes. -/
def decode (e : Encoding) : Codec := fun repair bytes => decodeFrom e repair 0 0 bytes

/-- The codecs that come with the library. -/
def Codecs.standard : Codecs := fun name => (Encoding.ofName? name).map decode

/-! ## Messages -/

/-- A flaw of one byte shows the byte, and one of several their positions. -/
def Flaw.message (f : Flaw) : Text :=
  let codec := f.encoding.quoted
  match f.bytes with
  | [b] => Text.cat [codec, " codec can't decode byte 0x", Text.hex 2 b.toNat, " in position ",
      Text.ofNat f.position, ": ", f.reason]
  | bytes => Text.cat [codec, " codec can't decode bytes in position ", Text.ofNat f.position,
      "-", Text.ofNat (f.position + bytes.length - 1), ": ", f.reason]

example : (decode .utf8 .replace [0x61, 0xE2, 0x82, 0x62]).toOption = some [0x61, 0xFFFD, 0x62] := by
  decide
example : (decode .utf16le .strict [0x3D, 0xD8, 0x00, 0xDE]).toOption = some [0x1F600] := by
  decide
example : Encoding.nameKey [0x28, 0x55, 0x2D, 0x2D, 0x38, 0x29] = [0x75, 0x5F, 0x38] := by decide

end Needlework

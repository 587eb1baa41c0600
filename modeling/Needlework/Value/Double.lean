import Needlework.Text.Basic

/-!
# Doubles

A double is an IEEE 754 binary64 number, kept as sign, significand and exponent
so that every operation on it is exact integer arithmetic and one rounding.

*Rounding.*  `Double.round` takes a quotient of natural numbers to the nearest
double, ties to the even significand.  The exponent is the least one at which
the significand stays below `2 ^ 53`, and never below `-1074`, where the numbers
become subnormal.  Addition, multiplication and division are the exact result,
rounded.

*Decimal text.*  `Double.shortest` finds the fewest significant digits that read
back as the same double.  At each count it tries the two decimals next to the
value, and of two that read back takes the nearer.  `Double.toText` writes the
digits positionally when the decimal exponent is from `-4` to `15`, and with an
exponent of at least two digits otherwise.
-/

namespace Needlework

/-- An IEEE 754 binary64 number.  A finite one is `significand * 2 ^ exponent`,
with a significand below `2 ^ 53` that is at least `2 ^ 52` unless the exponent
is `-1074`. -/
inductive Double where
  /-- A finite number. -/
  | finite (negative : Bool) (significand : Nat) (exponent : Int)
  /-- An infinity. -/
  | infinite (negative : Bool)
  /-- Not a number. -/
  | nan
deriving DecidableEq, Repr

namespace Double

/-! ## Powers -/

/-- A power of two. -/
def pow2 (k : Nat) : Nat := Nat.pow 2 k

/-- A power of ten. -/
def pow10 (k : Nat) : Nat := Nat.pow 10 k

/-! ## Rounding -/

/-- `num / den / 2 ^ e` as a quotient of natural numbers. -/
def scaled (num den : Nat) (e : Int) : Nat × Nat :=
  if 0 ≤ e then (num, den * pow2 e.toNat) else (num * pow2 (-e).toNat, den)

/-- A quotient to the nearest natural number, ties to even. -/
def nearest (num den : Nat) : Nat :=
  let q := num / den
  let r := num % den
  if 2 * r < den then q
  else if den < 2 * r then q + 1
  else if q % 2 == 0 then q else q + 1

/-- The exponent at which the significand of a quotient has 53 bits. -/
def exponentOf (num den : Nat) : Int :=
  let e := (num.log2 : Int) - den.log2 - 53
  let (n, d) := scaled num den e
  max (if n / d < pow2 53 then e else e + 1) (-1074)

/-- The double nearest to a quotient of natural numbers, ties to even. -/
def round (negative : Bool) (num den : Nat) : Double :=
  if num == 0 then .finite negative 0 (-1074)
  else
    let e := exponentOf num den
    let (n, d) := scaled num den e
    let m := nearest n d
    let (m, e) := if m == pow2 53 then (pow2 52, e + 1) else (m, e)
    if 971 < e then .infinite negative else .finite negative m e

/-- Zero. -/
def zero : Double := .finite false 0 (-1074)

/-- An integer to the nearest double. -/
def ofInt (i : Int) : Double := round (i < 0) i.natAbs 1

/-- An integer to the nearest double, unless it is too large for one. -/
def ofInt? (i : Int) : Option Double :=
  match ofInt i with
  | .finite s m e => some (.finite s m e)
  | _ => none

/-- `digits * 10 ^ exponent` to the nearest double.  A number with so many or so
few places that it lies outside the range needs no power of ten. -/
def ofDecimal (negative : Bool) (digits : Nat) (exponent : Int) : Double :=
  let places := (Nat.toDigits 10 digits).length + exponent
  if digits == 0 || places < -330 then .finite negative 0 (-1074)
  else if 310 < places then .infinite negative
  else if 0 ≤ exponent then round negative (digits * pow10 exponent.toNat) 1
  else round negative digits (pow10 (-exponent).toNat)

/-! ## Arithmetic -/

/-- The size of a finite double as a quotient. -/
def ratio (m : Nat) (e : Int) : Nat × Nat :=
  if 0 ≤ e then (m * pow2 e.toNat, 1) else (m, pow2 (-e).toNat)

/-- The sign of a double. -/
def isNegative : Double → Bool
  | .finite s _ _ => s
  | .infinite s => s
  | .nan => false

/-- A natural number with a sign. -/
def signed (negative : Bool) (n : Nat) : Int := if negative then -(n : Int) else n

/-- Addition.  A sum of zero is positive unless both terms have a minus sign. -/
def add : Double → Double → Double
  | .nan, _ => .nan
  | _, .nan => .nan
  | .finite s m e, .finite s' m' e' =>
      let (n, d) := ratio m e
      let (n', d') := ratio m' e'
      let sum := signed s (n * d') + signed s' (n' * d)
      round (if sum == 0 then s && s' else sum < 0) sum.natAbs (d * d')
  | .infinite s, .infinite s' => if s == s' then .infinite s else .nan
  | .infinite s, .finite _ _ _ => .infinite s
  | .finite _ _ _, .infinite s' => .infinite s'

/-- Multiplication. -/
def mul : Double → Double → Double
  | .nan, _ => .nan
  | _, .nan => .nan
  | .finite s m e, .finite s' m' e' =>
      let (n, d) := ratio m e
      let (n', d') := ratio m' e'
      round (s != s') (n * n') (d * d')
  | .infinite s, .infinite s' => .infinite (s != s')
  | .infinite s, .finite s' m _ => if m == 0 then .nan else .infinite (s != s')
  | .finite s m _, .infinite s' => if m == 0 then .nan else .infinite (s != s')

/-- Division by a number that is not zero. -/
def div : Double → Double → Double
  | .nan, _ => .nan
  | _, .nan => .nan
  | .finite s m e, .finite s' m' e' =>
      let (n, d) := ratio m e
      let (n', d') := ratio m' e'
      round (s != s') (n * d') (d * n')
  | .infinite _, .infinite _ => .nan
  | .infinite s, .finite s' _ _ => .infinite (s != s')
  | .finite s _ _, .infinite s' => .finite (s != s') 0 (-1074)

/-- Whether a double is at most an integer.  Nothing compares with what is not a
number. -/
def leInt (x : Double) (i : Int) : Bool :=
  match x with
  | .nan => false
  | .infinite s => s
  | .finite s m e =>
      let (n, d) := ratio m e
      signed s n ≤ i * d

/-- Whether a double is less than an integer. -/
def ltInt (x : Double) (i : Int) : Bool :=
  match x with
  | .nan => false
  | .infinite s => s
  | .finite s m e =>
      let (n, d) := ratio m e
      signed s n < i * d

/-- Whether a double is equal to an integer. -/
def eqInt (x : Double) (i : Int) : Bool := x.leInt i && !x.ltInt i

/-- Whether two doubles are equal as numbers: the zeros are, and what is not a
number is not even equal to itself. -/
def same : Double → Double → Bool
  | .nan, _ => false
  | .finite _ 0 _, .finite _ 0 _ => true
  | x, y => x == y

/-! ## Bits -/

/-- The 64 bits of a double. -/
def toBits : Double → Nat
  | .nan => 0x7FF8000000000000
  | .infinite s => (if s then pow2 63 else 0) + 0x7FF0000000000000
  | .finite s m e =>
      (if s then pow2 63 else 0)
        + (if m < pow2 52 then m else (e + 1075).toNat * pow2 52 + (m - pow2 52))

/-! ## Decimal text -/

/-- The decimal exponent of a positive quotient: the greatest `k` with
`10 ^ k ≤ num / den`, sought downwards from an upper bound. -/
def decimalExponent (num den : Nat) : Nat → Int → Int
  | 0, k => k
  | n + 1, k =>
      let reached := if 0 ≤ k then den * pow10 k.toNat ≤ num else den ≤ num * pow10 (-k).toNat
      if reached then k else decimalExponent num den n (k - 1)

/-- The decimals of `count` digits next to a quotient, and the one of them that
reads back.  The result is the digits and the exponent of the last one. -/
def tryDigits (num den : Nat) (k : Int) (x : Double) (count : Nat) : Option (Nat × Int) :=
  let unit := k - count + 1
  let (n, d) :=
    if 0 ≤ unit then (num, den * pow10 unit.toNat) else (num * pow10 (-unit).toNat, den)
  let lo := n / d
  let hit (q : Nat) : Bool := ofDecimal false q unit == x
  match hit lo, hit (lo + 1) with
  | true, true =>
      let r := n % d
      if 2 * r < d then some (lo, unit)
      else if d < 2 * r then some (lo + 1, unit)
      else if lo % 2 == 0 then some (lo, unit) else some (lo + 1, unit)
  | true, false => some (lo, unit)
  | false, true => some (lo + 1, unit)
  | false, false => none

/-- The fewest significant digits that read back as a positive double, with the
exponent of the last digit.  Seventeen always do. -/
def shortest (m : Nat) (e : Int) : Nat × Int :=
  let (num, den) := ratio m e
  let k := decimalExponent num den 700 309
  ((List.range 17).findSome? fun n => tryDigits num den k (.finite false m e) (n + 1)).getD (0, 0)

/-- Digits without zeros at the end, and the exponent of the last one. -/
def strip : Nat → Nat → Int → Nat × Int
  | 0, d, u => (d, u)
  | n + 1, d, u => if d != 0 && d % 10 == 0 then strip n (d / 10) (u + 1) else (d, u)

/-- The sign of a number in text. -/
def signText (negative : Bool) : Text := if negative then [0x2D] else []

/-- A decimal exponent, with its sign and at least two digits. -/
def exponentText (x : Int) : Text :=
  let digits := Text.ofNat x.natAbs
  (if x < 0 then [0x65, 0x2D] else [0x65, 0x2B])
    ++ (if digits.length < 2 then 0x30 :: digits else digits)

/-- Digits and the exponent of the last one, written positionally or with an
exponent. -/
def layout (d : Nat) (u : Int) : Text :=
  let digits := Text.ofNat d
  let x := u + digits.length - 1
  if -4 ≤ x && x < 16 then
    if 0 ≤ u then digits ++ List.replicate u.toNat 0x30 ++ [0x2E, 0x30]
    else if 0 ≤ x then digits.take (x.toNat + 1) ++ [0x2E] ++ digits.drop (x.toNat + 1)
    else [0x30, 0x2E] ++ List.replicate ((-x).toNat - 1) 0x30 ++ digits
  else
    digits.take 1 ++ (if digits.length == 1 then [] else 0x2E :: digits.drop 1) ++ exponentText x

/-- The shortest text that reads back as the double. -/
def toText : Double → Text
  | .nan => "nan"
  | .infinite s => signText s ++ Text.ofString "inf"
  | .finite s 0 _ => signText s ++ Text.ofString "0.0"
  | .finite s m e =>
      let (d, u) := shortest m e
      let (d, u) := strip 20 d u
      signText s ++ layout d u

example : (ofInt 1000).toBits = 0x408F400000000000 := by decide +kernel
example : (ofDecimal false 1 (-1)).toBits = 0x3FB999999999999A := by decide +kernel
example : (ofDecimal false 5 (-324)).toBits = 1 := by decide +kernel

end Double

end Needlework

import Toolchain.Octets

/-!
# Binary floating point numbers

A double precision number is kept as its bits, so two constants are the same exactly if their bits
are. A decimal is read by rounding its exact value to the nearest number, a tie to the even one.

## Main definitions

* `Binary64`: the numbers
* `Binary64.ofRatio?`: the number nearest to a fraction
* `Binary64.ofDecimal?`: the number that a decimal writes
* `Binary64.isFiniteDecimal`: whether there is a number for a decimal with an exponent
-/

namespace Toolchain

/-- A double precision number: a sign, eleven bits of exponent and fifty-two of fraction. -/
structure Binary64 where
  bits : UInt64
  deriving DecidableEq, Repr

/-- A fraction rounded to the nearest integer, a tie to the even one. -/
def roundDiv (n d : Nat) : Nat :=
  let q := n / d
  let r := n % d
  if 2 * r < d then q
  else if d < 2 * r then q + 1
  else if q % 2 = 0 then q else q + 1

namespace Binary64

/-- Whether the sign bit is set. -/
def isNegative (x : Binary64) : Bool := x.bits.toNat / twoPow 63 = 1

/-- The eleven bits of exponent. -/
def exponentBits (x : Binary64) : Nat := x.bits.toNat / twoPow 52 % twoPow 11

/-- The fifty-two bits of fraction. -/
def fractionBits (x : Binary64) : Nat := x.bits.toNat % twoPow 52

/-- Whether the number is an infinity. -/
def isInfinite (x : Binary64) : Bool := x.exponentBits = 2047 && x.fractionBits = 0

/-- Whether the number is no number. -/
def isNaN (x : Binary64) : Bool := x.exponentBits = 2047 && x.fractionBits ≠ 0

/-- The integer that a finite number is a multiple of a power of two by. -/
def significand (x : Binary64) : Nat :=
  if x.exponentBits = 0 then x.fractionBits else twoPow 52 + x.fractionBits

/-- The exponent of that power of two. -/
def exponent (x : Binary64) : Int :=
  if x.exponentBits = 0 then -1074 else (x.exponentBits : Int) - 1075

/-- Whether the numbers below a finite number lie closer than those above it: it is a power of two
and not the least of its kind. -/
def isBoundary (x : Binary64) : Bool := x.fractionBits = 0 && x.exponentBits > 1

/-- A fraction as an integer times a power of two: `n / d` divided by `2 ^ e`. -/
def scaled (n d : Nat) (e : Int) : Nat × Nat :=
  if e < 0 then (n * twoPow (-e).toNat, d) else (n, d * twoPow e.toNat)

/-- The number `q · 2 ^ e`, where `q` has at most fifty-three bits, all of them unless `e` is the
least exponent. -/
def assemble? (q : Nat) (e : Int) : Option Binary64 :=
  if q < twoPow 52 then some ⟨UInt64.ofNat q⟩
  else
    let (q, e) := if q = twoPow 53 then (twoPow 52, e + 1) else (q, e)
    let biased := (e + 1075).toNat
    if biased ≥ 2047 then none else some ⟨UInt64.ofNat (biased * twoPow 52 + (q - twoPow 52))⟩

/-- The exponent at which a fraction is rounded: its quotient has fifty-three bits there, unless the
exponent is the least one. The sizes of the two parts tell it up to one. -/
def ratioExponent (n d : Nat) : Int :=
  let guess : Int := (n.log2 : Int) - d.log2 - 52
  let q := scaled n d guess
  max (-1074) (if q.1 < q.2 * twoPow 52 then guess - 1 else guess)

/-- The number nearest to the fraction `n / d`, if it is not too large. -/
def ofRatio? (n d : Nat) : Option Binary64 :=
  if n = 0 then some ⟨0⟩
  else
    let e := ratioExponent n d
    let q := scaled n d e
    assemble? (roundDiv q.1 q.2) e

/-- The number of a list of decimal digits. -/
def digitsValue (ds : List Char) : Nat :=
  ds.foldl (fun n c => n * 10 + (c.toNat - '0'.toNat)) 0

/-- The number that decimal digits with at most one point write, if it is not too large. -/
def ofDecimal? (cs : List Char) : Option Binary64 :=
  let whole := cs.takeWhile (· != '.')
  let fraction := (cs.dropWhile (· != '.')).drop 1
  ofRatio? (digitsValue (whole ++ fraction)) (tenPow fraction.length)

/-- The least value that is too large: it lies in the middle between the largest number and the
power of two above it. -/
def limit : Nat := (twoPow 54 - 1) * twoPow 970

/-- Whether the decimal `n · 10 ^ e` is not too large. Only one with as many digits as the limit has
to be compared with it. -/
def isFiniteDecimal (n : Nat) (e : Int) : Bool :=
  let digits : Int := (Nat.toDigits 10 n).length
  n = 0 || digits + e ≤ 308 ||
    (digits + e ≤ 309 &&
      if e < 0 then n < limit * tenPow (-e).toNat else n * tenPow e.toNat < limit)

end Binary64

end Toolchain

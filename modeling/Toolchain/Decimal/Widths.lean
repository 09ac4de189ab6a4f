import Toolchain.Decimal.Binary64
import Toolchain.Octets

/-!
# Shorter floating point numbers

Half and single precision numbers, as which a double precision number is written where that loses
nothing.

## Main definitions

* `BinaryFormat`: the widths of the parts of a number
* `BinaryFormat.widen`: the double precision number of the same value
* `BinaryFormat.narrow?`: the shorter number of the same value, if there is one
-/

namespace Toolchain

/-- The widths of the parts of a binary floating point number: a sign, then exponent and
fraction. -/
structure BinaryFormat where
  exponentWidth : Nat
  fractionWidth : Nat
  deriving DecidableEq, Repr

namespace BinaryFormat

/-- Half precision. -/
def half : BinaryFormat := ⟨5, 10⟩

/-- Single precision. -/
def single : BinaryFormat := ⟨8, 23⟩

/-- What is added to an exponent to write it without a sign. -/
def bias (f : BinaryFormat) : Nat := twoPow (f.exponentWidth - 1) - 1

/-- The exponent bits of infinities and of what is no number. -/
def special (f : BinaryFormat) : Nat := twoPow f.exponentWidth - 1

/-- The bits of a number with the given parts. -/
def compose (f : BinaryFormat) (negative : Bool) (exponent fraction : Nat) : Nat :=
  (if negative then twoPow (f.exponentWidth + f.fractionWidth) else 0) +
    exponent * twoPow f.fractionWidth + fraction

/-- Double precision. -/
def double : BinaryFormat := ⟨11, 52⟩

/-- The bits of the double precision number `m · 2 ^ e` for `m` of at most fifty-three bits. -/
def exactBits (negative : Bool) (m : Nat) (e : Int) : Nat :=
  if m = 0 then double.compose negative 0 0
  else
    let k := m.log2
    double.compose negative (e + k + 1023).toNat (m * twoPow (52 - k) - twoPow 52)

/-- The double precision number with the same value as shorter bits; what is no number stays so. -/
def widen (f : BinaryFormat) (bits : Nat) : Binary64 :=
  let negative : Bool := bits / twoPow (f.exponentWidth + f.fractionWidth) % 2 = 1
  let e := bits / twoPow f.fractionWidth % twoPow f.exponentWidth
  let m := bits % twoPow f.fractionWidth
  ⟨UInt64.ofNat <|
    if e = f.special then
      let fraction := m * twoPow (52 - f.fractionWidth)
      double.compose negative 2047 (if m = 0 then 0 else twoPow 51 + fraction % twoPow 51)
    else if e = 0 then exactBits negative m (1 - f.bias - f.fractionWidth)
    else exactBits negative (twoPow f.fractionWidth + m) (e - f.bias - f.fractionWidth)⟩

/-- The integer `m · 2 ^ shift`, if it is one. -/
def exactShift? (m : Nat) (shift : Int) : Option Nat :=
  if 0 ≤ shift then some (m * twoPow shift.toNat)
  else if m % twoPow (-shift).toNat = 0 then some (m / twoPow (-shift).toNat)
  else none

/-- The shorter bits with the same value as a number, if there are any. -/
def narrow? (f : BinaryFormat) (x : Binary64) : Option Nat :=
  if x.isNaN then none
  else if x.isInfinite then some (f.compose x.isNegative f.special 0)
  else if x.significand = 0 then some (f.compose x.isNegative 0 0)
  else
    let top := x.exponent + x.significand.log2
    let least : Int := 1 - f.bias
    let e := max top least
    if (f.bias : Int) < e then none
    else
      (exactShift? x.significand (x.exponent - e + f.fractionWidth)).map fun q =>
        if q < twoPow f.fractionWidth then f.compose x.isNegative 0 q
        else f.compose x.isNegative (e + f.bias).toNat (q - twoPow f.fractionWidth)

end BinaryFormat

namespace Binary64

/-- The number nearest to an integer below `2 ^ 64`. -/
def ofInt (n : Int) : Binary64 :=
  let x := (ofRatio? n.natAbs 1).getD ⟨0⟩
  if n < 0 then ⟨x.bits + 0x8000000000000000⟩ else x

end Binary64

end Toolchain

import Toolchain.Decimal.Binary64
import Toolchain.Octets
import Toolchain.Text.Basic

/-!
# Shortest decimals

A finite number is shown by the fewest decimal digits that read back as the number, and of the
decimals with that many digits by the one nearest to it; of two equally near ones the one whose
last digit is even.

For each number of digits the two decimals around the exact value are tested against the interval
of the values that round to the number; the arithmetic is exact.

## Main definitions

* `Digits`: decimal digits with a decimal point
* `Binary64.shortest`: the shortest digits of a number
* `Binary64.general`, `Binary64.positional`, `Binary64.jsonLiteral`: the written forms
-/

namespace Toolchain

/-- The decimal `0.d₁d₂…dₙ · 10 ^ point`. -/
structure Digits where
  digits : List Char
  point : Int
  deriving DecidableEq, Repr

namespace Digits

/-- The digits of `n · 10 ^ k` without zeros at the end; zero has the one digit `0`. -/
def ofNat (n : Nat) (k : Int) : Digits :=
  let ds := Nat.toDigits 10 n
  let trimmed := (ds.reverse.dropWhile (· == '0')).reverse
  if n = 0 then ⟨['0'], 1⟩ else ⟨trimmed, ds.length + k⟩

/-- Digits in positional notation, without an exponent. -/
def positional (d : Digits) : String :=
  let n := d.digits.length
  String.ofList <|
    if d.point ≤ 0 then
      '0' :: '.' :: (List.replicate (-d.point).toNat '0' ++ d.digits)
    else if n ≤ d.point.toNat then
      d.digits ++ List.replicate (d.point.toNat - n) '0'
    else d.digits.take d.point.toNat ++ '.' :: d.digits.drop d.point.toNat

/-- The exponent of the first digit. -/
def exponent (d : Digits) : Int := d.point - 1

/-- Digits with one digit before the point and an exponent of at least `width` digits. -/
def scientific (d : Digits) (width : Nat) : String :=
  let e := Nat.toDigits 10 d.exponent.natAbs
  let mantissa := match d.digits with
    | [] => ['0']
    | [c] => [c]
    | c :: rest => c :: '.' :: rest
  String.ofList (mantissa ++ 'e' :: (if d.exponent < 0 then '-' else '+') ::
    (List.replicate (width - e.length) '0' ++ e))

end Digits

namespace Binary64

/-- Whether `n₁ / d₁ ≤ n₂ / d₂`, strictly unless `closed`. -/
def below (closed : Bool) (a b : Nat × Nat) : Bool :=
  if closed then a.1 * b.2 ≤ b.1 * a.2 else a.1 * b.2 < b.1 * a.2

/-- The fraction `n · 2 ^ e`. -/
def dyadic (n : Nat) (e : Int) : Nat × Nat :=
  if e < 0 then (n, twoPow (-e).toNat) else (n * twoPow e.toNat, 1)

/-- The fraction `n · 10 ^ k`. -/
def decadic (n : Nat) (k : Int) : Nat × Nat :=
  if k < 0 then (n, tenPow (-k).toNat) else (n * tenPow k.toNat, 1)

/-- The integral part of `v / 10 ^ k`. -/
def gridFloor (v : Nat × Nat) (k : Int) : Nat :=
  if k < 0 then v.1 * tenPow (-k).toNat / v.2 else v.1 / (v.2 * tenPow k.toNat)

/-- The exponent of the first decimal digit of a positive fraction. -/
def decimalExponent (v : Nat × Nat) : Int :=
  if v.2 ≤ v.1 then (Nat.toDigits 10 (v.1 / v.2)).length - 1
  else
    let c := (Nat.toDigits 10 (v.2 / v.1)).length
    if v.2 ≤ v.1 * tenPow (c - 1) then -((c : Int) - 1) else -(c : Int)

/-- How the distance from a fraction down to its lower neighbour compares with the distance up to
its upper one. -/
def compareNeighbours (v lower upper : Nat × Nat) : Ordering :=
  -- `v - lower` against `upper - v`, that is `2 · v` against `lower + upper`
  compare (2 * v.1 * lower.2 * upper.2) (lower.1 * v.2 * upper.2 + upper.1 * v.2 * lower.2)

/-- The interval of values that round to a positive finite number. -/
structure Interval where
  low : Nat × Nat
  value : Nat × Nat
  high : Nat × Nat
  /-- Whether the ends belong to it. -/
  closed : Bool

/-- The interval of values that round to the magnitude of a finite number. -/
def interval (x : Binary64) : Interval :=
  let m := 4 * x.significand
  let e := x.exponent - 2
  { low := dyadic (m - (if x.isBoundary then 1 else 2)) e
    value := dyadic m e
    high := dyadic (m + 2) e
    closed := x.significand % 2 = 0 }

namespace Interval

/-- Whether a fraction lies in the interval. -/
def contains (i : Interval) (v : Nat × Nat) : Bool :=
  below i.closed i.low v && below i.closed v i.high

/-- The decimal with digits down to `10 ^ k` that lies in the interval, the nearer one of two, and
the even one if both are equally near. -/
def onGrid? (i : Interval) (k : Int) : Option Nat :=
  let lower := gridFloor i.value k
  let upper := lower + 1
  match i.contains (decadic lower k), i.contains (decadic upper k) with
  | true, true =>
    match compareNeighbours i.value (decadic lower k) (decadic upper k) with
    | .lt => some lower
    | .eq => some (if lower % 2 = 0 then lower else upper)
    | .gt => some upper
  | true, false => some lower
  | false, true => some upper
  | false, false => none

/-- The first grid with a decimal in the interval, trying `n` grids from `10 ^ k` down. -/
def search (i : Interval) : Nat → Int → Digits
  | 0, k => Digits.ofNat (gridFloor i.value k) k
  | n + 1, k =>
    match i.onGrid? k with
    | some d => Digits.ofNat d k
    | none => search i n (k - 1)

end Interval

/-- The fewest digits that read back as the magnitude of a finite number, the nearest of those. -/
def shortest (x : Binary64) : Digits :=
  if x.significand = 0 then ⟨['0'], 1⟩
  else
    let i := x.interval
    i.search 17 (decimalExponent i.value)

/-- A written magnitude with its sign. -/
def signed (x : Binary64) (s : String) : String := if x.isNegative then "-" ++ s else s

/-- How the numbers are written that have no digits. -/
def special? (x : Binary64) : Option String :=
  if x.isNaN then some "NaN"
  else if x.isInfinite then some (if x.isNegative then "-Inf" else "+Inf")
  else none

/-- The general form: positional while the exponent of the first digit is at least -4 and below 6,
and otherwise with an exponent of at least two digits. -/
def general (x : Binary64) : String :=
  match x.special? with
  | some s => s
  | none =>
    let d := x.shortest
    x.signed (if d.exponent < -4 ∨ d.exponent ≥ 6 then d.scientific 2 else d.positional)

/-- The positional form, never with an exponent. -/
def positional (x : Binary64) : String :=
  match x.special? with
  | some s => s
  | none => x.signed x.shortest.positional

/-- The form of a JSON number: positional from 10⁻⁶ up to 10²¹, otherwise with an exponent. -/
def jsonLiteral (x : Binary64) : String :=
  match x.special? with
  | some s => s
  | none =>
    let d := x.shortest
    x.signed <|
      if x.significand = 0 then d.positional
      else if d.exponent < -6 then d.scientific 1
      else if d.exponent ≥ 21 then d.scientific 2
      else d.positional

end Binary64

end Toolchain

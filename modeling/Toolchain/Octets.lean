/-!
# Words and octets

The sizes of words, the units of decimal digits, and fixed-width numbers as they stand in files, the
most or the least significant octet first.

## Main definitions

* `twoPow`, `tenPow`: powers of two and of ten
* `isInt64`, `wrapInt64`: signed words of 64 bits
* `bigEndian`, `littleEndian`: the octets of a number in a given width
* `ofBigEndian`: the number that octets write
-/

namespace Toolchain

/-- A power of two: the number of values of a word with `n` bits. -/
def twoPow (n : Nat) : Nat := Nat.pow 2 n

/-- A power of ten. -/
def tenPow (n : Nat) : Nat := Nat.pow 10 n

/-- Whether an integer is a signed word of 64 bits. -/
def isInt64 (n : Int) : Bool := -(twoPow 63 : Int) ≤ n && n < (twoPow 63 : Int)

theorem isInt64_iff {n : Int} : isInt64 n = true ↔ -(twoPow 63 : Int) ≤ n ∧ n < twoPow 63 := by
  simp [isInt64]

theorem isInt64_toInt (n : Int64) : isInt64 n.toInt = true := by
  rw [isInt64_iff]
  exact ⟨n.le_toInt, n.toInt_lt⟩

/-- The signed word of 64 bits that an integer leaves. -/
def wrapInt64 (n : Int) : Int := n.bmod (twoPow 64)

/-- The lowest `width` octets of a number, the least significant first. -/
def littleEndian : (width : Nat) → Nat → List UInt8
  | 0, _ => []
  | width + 1, n => UInt8.ofNat n :: littleEndian width (n / 256)

/-- The lowest `width` octets of a number, the most significant first. -/
def bigEndian (width n : Nat) : List UInt8 := (littleEndian width n).reverse

/-- The number that octets write, the least significant first. -/
def ofLittleEndian : List UInt8 → Nat
  | [] => 0
  | b :: rest => b.toNat + 256 * ofLittleEndian rest

/-- The number that octets write, the most significant first. -/
def ofBigEndian (bytes : List UInt8) : Nat := bytes.foldl (fun n b => n * 256 + b.toNat) 0

/-- A number in `width` octets takes that many. -/
@[simp] theorem length_littleEndian (width n : Nat) : (littleEndian width n).length = width := by
  induction width generalizing n with
  | zero => rfl
  | succ width ih => simp [littleEndian, ih]

/-- A number in `width` octets takes that many. -/
@[simp] theorem length_bigEndian (width n : Nat) : (bigEndian width n).length = width := by
  simp [bigEndian]

end Toolchain

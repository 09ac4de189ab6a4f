import Toolchain.Decimal.Widths
import Toolchain.Octets
import Toolchain.Text.Basic

/-!
# CBOR

The values of the Concise Binary Object Representation and their canonical encoding: every length
and number in the fewest octets, and no indefinite lengths.

## Main definitions

* `Cbor`: the values
* `Cbor.encode`: the canonical encoding
-/

namespace Toolchain

/-- A value. -/
inductive Cbor where
  /-- A natural number. -/
  | unsigned (n : Nat)
  /-- The integer `-1 - n`. -/
  | negative (n : Nat)
  | bytes (b : List UInt8)
  /-- A text comes in chunks, each of which has to be valid by itself. -/
  | text (chunks : List Text)
  | array (items : List Cbor)
  | map (entries : List (Cbor × Cbor))
  | tag (number : Nat) (content : Cbor)
  /-- A simple value, known by its number. -/
  | simple (number : Nat)
  | float (x : Binary64)

namespace Cbor

/-- The value that stands for nothing. -/
def null : Cbor := simple 22

/-- The value of an integer. -/
def ofInt (n : Int) : Cbor := if n < 0 then negative (-1 - n).toNat else unsigned n.toNat

/-- The value of a text. -/
def ofText (t : Text) : Cbor := text [t]

/-- The head of an encoded value: its major type, and a number in the fewest octets. -/
def head (major n : Nat) : List UInt8 :=
  let lead (info : Nat) : UInt8 := UInt8.ofNat (major * 32 + info)
  if n < 24 then [lead n]
  else if n < twoPow 8 then lead 24 :: bigEndian 1 n
  else if n < twoPow 16 then lead 25 :: bigEndian 2 n
  else if n < twoPow 32 then lead 26 :: bigEndian 4 n
  else lead 27 :: bigEndian 8 n

/-- The encoding of a floating point number, in the shortest format that keeps its value. -/
def encodeFloat (x : Binary64) : List UInt8 :=
  if x.isNaN then [0xF9, 0x7E, 0x00]
  else match BinaryFormat.half.narrow? x with
    | some bits => 0xF9 :: bigEndian 2 bits
    | none => match BinaryFormat.single.narrow? x with
      | some bits => 0xFA :: bigEndian 4 bits
      | none => 0xFB :: bigEndian 8 x.bits.toNat

mutual

/-- The canonical encoding of a value. -/
def encode : Cbor → List UInt8
  | unsigned n => head 0 n
  | negative n => head 1 n
  | bytes b => head 2 b.length ++ b
  | text chunks => head 3 chunks.flatten.length ++ chunks.flatten
  | array items => head 4 items.length ++ encodeItems items
  | map entries => head 5 entries.length ++ encodeEntries entries
  | tag number content => head 6 number ++ encode content
  | simple number => head 7 number
  | float x => encodeFloat x

/-- The encodings of values, one after the other. -/
def encodeItems : List Cbor → List UInt8
  | [] => []
  | v :: rest => encode v ++ encodeItems rest

/-- The encodings of keys and values, one after the other. -/
def encodeEntries : List (Cbor × Cbor) → List UInt8
  | [] => []
  | (k, v) :: rest => encode k ++ encode v ++ encodeEntries rest

end

end Cbor

end Toolchain

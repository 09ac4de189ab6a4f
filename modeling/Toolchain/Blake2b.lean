import Toolchain.Octets

/-!
# The BLAKE2b checksum

The BLAKE2b function without a key, with a digest of thirty-two octets. The message is
cut into blocks of 128 octets, and each block is mixed into a state of eight words.

## Main definitions

* `Blake2b.compress`: mixes one block into the state
* `Blake2b.absorb`: mixes in a whole message
* `Blake2b.digest`: the checksum of a message

## Main results

* `Blake2b.length_digest`: a checksum has thirty-two octets
-/

namespace Toolchain

namespace Blake2b

/-- The words that a state starts from. -/
def initial : Vector UInt64 8 :=
  #v[0x6A09E667F3BCC908, 0xBB67AE8584CAA73B, 0x3C6EF372FE94F82B, 0xA54FF53A5F1D36F1,
    0x510E527FADE682D1, 0x9B05688C2B3E6C1F, 0x1F83D9ABFB41BD6B, 0x5BE0CD19137E2179]

/-- The order in which each of the first ten rounds takes the words of a block. -/
def schedule : List (Vector (Fin 16) 16) := [
  #v[0, 1, 2, 3, 4, 5, 6, 7, 8, 9, 10, 11, 12, 13, 14, 15],
  #v[14, 10, 4, 8, 9, 15, 13, 6, 1, 12, 0, 2, 11, 7, 5, 3],
  #v[11, 8, 12, 0, 5, 2, 15, 13, 10, 14, 3, 6, 7, 1, 9, 4],
  #v[7, 9, 3, 1, 13, 12, 11, 14, 2, 6, 5, 10, 4, 0, 15, 8],
  #v[9, 0, 5, 7, 2, 4, 10, 15, 14, 1, 11, 12, 6, 8, 3, 13],
  #v[2, 12, 6, 10, 0, 11, 8, 3, 4, 13, 7, 5, 15, 14, 1, 9],
  #v[12, 5, 1, 15, 14, 13, 4, 10, 0, 7, 6, 3, 9, 2, 8, 11],
  #v[13, 11, 7, 14, 12, 1, 3, 9, 5, 0, 15, 4, 8, 6, 2, 10],
  #v[6, 15, 14, 9, 11, 3, 0, 8, 12, 2, 13, 7, 1, 4, 10, 5],
  #v[10, 2, 8, 4, 7, 6, 1, 5, 15, 11, 9, 14, 3, 12, 13, 0]]

/-- A word rotated to the right. -/
def rotateRight (x : UInt64) (n : UInt64) : UInt64 := (x >>> n) ||| (x <<< (64 - n))

/-- Mixes two words of a block into four words of the state. -/
def mix (v : Vector UInt64 16) (a b c d : Fin 16) (x y : UInt64) : Vector UInt64 16 :=
  let va := v.get a + v.get b + x
  let vd := rotateRight (v.get d ^^^ va) 32
  let vc := v.get c + vd
  let vb := rotateRight (v.get b ^^^ vc) 24
  let va := va + vb + y
  let vd := rotateRight (vd ^^^ va) 16
  let vc := vc + vd
  let vb := rotateRight (vb ^^^ vc) 63
  (((v.set a va).set b vb).set c vc).set d vd

/-- One round: the columns of the state, then its diagonals. -/
def round (block : Vector UInt64 16) (v : Vector UInt64 16) (order : Vector (Fin 16) 16) :
    Vector UInt64 16 :=
  let m (i : Fin 16) : UInt64 := block.get (order.get i)
  let v := mix v 0 4 8 12 (m 0) (m 1)
  let v := mix v 1 5 9 13 (m 2) (m 3)
  let v := mix v 2 6 10 14 (m 4) (m 5)
  let v := mix v 3 7 11 15 (m 6) (m 7)
  let v := mix v 0 5 10 15 (m 8) (m 9)
  let v := mix v 1 6 11 12 (m 10) (m 11)
  let v := mix v 2 7 8 13 (m 12) (m 13)
  mix v 3 4 9 14 (m 14) (m 15)

/-- The sixteen words of a block; octets that are missing are zero. -/
def blockWords (block : List UInt8) : Vector UInt64 16 :=
  Vector.ofFn fun i => UInt64.ofNat (ofLittleEndian ((block.drop (8 * i.val)).take 8))

/-- Mixes a block into the state; `count` is the number of octets up to its end, and `last` tells
whether the message ends with it. -/
def compress (h : Vector UInt64 8) (block : List UInt8) (count : Nat) (last : Bool) :
    Vector UInt64 8 :=
  let v : Vector UInt64 16 := h ++ initial
  let v := v.set 12 (v.get 12 ^^^ UInt64.ofNat count)
  let v := v.set 13 (v.get 13 ^^^ UInt64.ofNat (count / twoPow 64))
  let v := if last then v.set 14 (v.get 14 ^^^ 0xFFFFFFFFFFFFFFFF) else v
  let v := (schedule ++ schedule.take 2).foldl (round (blockWords block)) v
  Vector.ofFn fun (i : Fin 8) =>
    h.get i ^^^ v.get (i.castLE (by decide)) ^^^ v.get (i.natAdd 8)

/-- Mixes the rest of a message into the state, `count` octets of which came before. -/
def absorb (h : Vector UInt64 8) (count : Nat) (rest : List UInt8) : Vector UInt64 8 :=
  if rest.length ≤ 128 then compress h rest (count + rest.length) true
  else absorb (compress h (rest.take 128) (count + 128) false) (count + 128) (rest.drop 128)
termination_by rest.length
decreasing_by simp; omega

/-- The checksum of a message. The first word of the state tells the size of the digest. -/
def digest (message : List UInt8) : List UInt8 :=
  let h := absorb (initial.set 0 (initial.get 0 ^^^ 0x01010020)) 0 message
  (h.toList.flatMap fun w => littleEndian 8 w.toNat).take 32

/-- A checksum has thirty-two octets. -/
@[simp] theorem length_digest (message : List UInt8) : (digest message).length = 32 := by
  simp [digest, List.length_flatMap, List.map_const']

end Blake2b

end Toolchain

import Toolchain.Cbor.Basic

/-!
# Reading CBOR

Reads one value that takes up all of the input. Lengths may be indefinite, and numbers need not be
in the fewest octets. Lists and maps are limited in size and in how deep they are nested; of tags
that follow each other directly, all but the first count as a level.

## Main definitions

* `Cbor.maxLevels`, `Cbor.maxItems`: the limits
* `Cbor.parse?`: the value of an input
-/

namespace Toolchain

namespace Cbor

/-- How deep lists and maps may be nested. -/
def maxLevels : Nat := 32

/-- How many items a list, and how many entries a map, may have. -/
def maxItems : Nat := 131072

/-- A step that reads from the octets that are left. -/
abbrev Read := StateT (List UInt8) Option

/-- Reads some octets. -/
def takeBytes (n : Nat) : Read (List UInt8) := fun rest =>
  let taken := rest.take n
  if taken.length = n then some (taken, rest.drop n) else none

/-- The head of a value: its major type, how its number is written, and the number. -/
structure Head where
  major : Nat
  info : Nat
  number : Nat

/-- Whether a head starts a value of indefinite length. -/
def Head.isIndefinite (h : Head) : Bool := h.info = 31

/-- Reads a head. -/
def readHead : Read Head := fun
  | [] => none
  | b :: rest =>
    let major := b.toNat / 32
    let info := b.toNat % 32
    let wide (width : Nat) : Option (Head × List UInt8) := do
      let (number, rest) ← takeBytes width rest
      return (⟨major, info, ofBigEndian number⟩, rest)
    if info < 24 then some (⟨major, info, info⟩, rest)
    else match info with
      | 24 => wide 1
      | 25 => wide 2
      | 26 => wide 4
      | 27 => wide 8
      | 31 => some (⟨major, info, 0⟩, rest)
      | _ => none

/-- Whether the octets that are left start with the end of an indefinite length; if so, it is
read. -/
def readBreak : Read Bool := fun
  | 0xFF :: rest => some (true, rest)
  | rest => some (false, rest)

/-- Runs a step some times. -/
def readMany {α : Type} (step : Read α) : Nat → Read (List α)
  | 0 => pure []
  | n + 1 => do
    let a ← step
    return a :: (← readMany step n)

/-- Runs a step until the end of an indefinite length, at most `bound` times. -/
def readUntilBreak {α : Type} (step : Read α) : (bound : Nat) → Read (List α)
  | 0 => failure
  | bound + 1 => do
    if ← readBreak then return []
    let a ← step
    return a :: (← readUntilBreak step bound)

/-- Runs a step as often as a head tells, but not more often than the limit on sizes admits. -/
def readCounted {α : Type} (h : Head) (step : Read α) : Read (List α) := do
  let items ←
    if h.isIndefinite then readUntilBreak step ((← get).length + 1)
    else if maxItems < h.number then failure
    else readMany step h.number
  if maxItems < items.length then failure
  return items

/-- Reads a chunk of a string, which has a definite length. -/
def readChunk (major : Nat) : Read (List UInt8) := do
  let h ← readHead
  if h.major ≠ major || h.isIndefinite then failure
  takeBytes h.number

/-- Reads the chunks of a string after its head. -/
def readChunks (h : Head) : Read (List (List UInt8)) := do
  if h.isIndefinite then readUntilBreak (readChunk h.major) ((← get).length + 1)
  else return [← takeBytes h.number]

/-- Reads the heads of the tags in front of a value, at most `bound`, and the head of the value. -/
def readTags : (bound : Nat) → Read (List Nat × Head)
  | 0 => failure
  | bound + 1 => do
    let h ← readHead
    if h.major ≠ 6 then return ([], h)
    if h.isIndefinite then failure
    let (tags, h') ← readTags bound
    return (h.number :: tags, h')

/-- The value of a head that needs nothing else: a simple value or a floating point number. -/
def ofHead7? (h : Head) : Option Cbor :=
  match h.info with
  | 25 => some (float (BinaryFormat.half.widen h.number))
  | 26 => some (float (BinaryFormat.single.widen h.number))
  | 27 => some (float ⟨UInt64.ofNat h.number⟩)
  | 24 => if h.number < 32 then none else some (simple h.number)
  | 31 => none
  | n => some (simple n)

/-- Reads a value in which lists and maps are nested at most `levels` deep, less the levels that
tags around it have `spent`. -/
def readValue (levels spent : Nat) : Read Cbor := do
  let (tags, h) ← readTags ((← get).length + 1)
  let spent := spent + (tags.length - 1)
  if levels < spent then failure
  let value ←
    match h.major with
    | 0 => if h.isIndefinite then failure else pure (unsigned h.number)
    | 1 => if h.isIndefinite then failure else pure (negative h.number)
    | 2 => do pure (bytes (← readChunks h).flatten)
    | 3 => do pure (text (← readChunks h))
    | 4 =>
      match levels with
      | 0 => failure
      | levels + 1 => do
        if levels + 1 ≤ spent then failure
        pure (array (← readCounted h (readValue levels spent)))
    | 5 =>
      match levels with
      | 0 => failure
      | levels + 1 => do
        if levels + 1 ≤ spent then failure
        pure (map (← readCounted h do
          let key ← readValue levels spent
          return (key, ← readValue levels spent)))
    | _ => fun rest => (ofHead7? h).map (·, rest)
  return tags.foldr tag value

/-- The value that an input holds, which nothing may follow. -/
def parse? (input : List UInt8) : Option Cbor :=
  match readValue maxLevels 0 input with
  | some (v, []) => some v
  | _ => none

end Cbor

end Toolchain

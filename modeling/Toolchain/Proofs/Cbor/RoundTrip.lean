import Toolchain.Cbor.Parser
import Toolchain.Proofs.Bytecode.Image
import Toolchain.Proofs.Decimal.Widths

/-!
# Reading back CBOR

A value that is encoded is read back exactly if it keeps to the limits of the reader: its lists and
maps are not nested too deep, and none of them is too large. The writer knows no such limits.

## Main definitions

* `Cbor.levels`, `Cbor.largest`: how deep a value is nested, and the size of its largest list or map
* `Cbor.Plain`: the values that are written as they are

## Main results

* `Cbor.parse?_encode`: **an encoded value is read back exactly if it keeps to the limits**
-/

namespace Toolchain

namespace Cbor

/-! ## Sizes of values -/

mutual

/-- How deep lists and maps are nested in a value. -/
def levels : Cbor → Nat
  | array items => levelsOfItems items + 1
  | map entries => levelsOfEntries entries + 1
  | unsigned _ => 0
  | negative _ => 0
  | bytes _ => 0
  | text _ => 0
  | tag _ _ => 0
  | simple _ => 0
  | float _ => 0

/-- How deep lists and maps are nested in some values. -/
def levelsOfItems : List Cbor → Nat
  | [] => 0
  | v :: rest => max (levels v) (levelsOfItems rest)

/-- How deep lists and maps are nested in the entries of a map. -/
def levelsOfEntries : List (Cbor × Cbor) → Nat
  | [] => 0
  | (k, v) :: rest => max (max (levels k) (levels v)) (levelsOfEntries rest)

end

mutual

/-- The size of the largest list or map in a value. -/
def largest : Cbor → Nat
  | array items => max items.length (largestOfItems items)
  | map entries => max entries.length (largestOfEntries entries)
  | unsigned _ => 0
  | negative _ => 0
  | bytes _ => 0
  | text _ => 0
  | tag _ _ => 0
  | simple _ => 0
  | float _ => 0

/-- The size of the largest list or map in some values. -/
def largestOfItems : List Cbor → Nat
  | [] => 0
  | v :: rest => max (largest v) (largestOfItems rest)

/-- The size of the largest list or map in the entries of a map. -/
def largestOfEntries : List (Cbor × Cbor) → Nat
  | [] => 0
  | (k, v) :: rest => max (max (largest k) (largest v)) (largestOfEntries rest)

end

/-- What is no number, as it is read. -/
def nan : Binary64 := ⟨0x7FF8000000000000⟩

mutual

/-- The values that are written as they are: their numbers and lengths fit into a head, their texts
have one chunk, they have no tags, and what is no number in them is always the same. -/
def Plain : Cbor → Prop
  | unsigned n => n < twoPow 64
  | negative n => n < twoPow 64
  | bytes b => b.length < twoPow 64
  | text chunks => ∃ t : Text, chunks = [t] ∧ t.length < twoPow 64
  | array items => items.length < twoPow 64 ∧ AllPlain items
  | map entries => entries.length < twoPow 64 ∧ EntriesPlain entries
  | tag _ _ => False
  | simple n => n < 24
  | float x => x.isNaN = true → x = nan

/-- Values that are written as they are. -/
def AllPlain : List Cbor → Prop
  | [] => True
  | v :: rest => Plain v ∧ AllPlain rest

/-- The entries of a map that are written as they are. -/
def EntriesPlain : List (Cbor × Cbor) → Prop
  | [] => True
  | (k, v) :: rest => Plain k ∧ Plain v ∧ EntriesPlain rest

end

/-! ## Heads -/

/-- Octets that are taken are those in front. -/
theorem takeBytes_append {n : Nat} {u : List UInt8} (h : u.length = n) (rest : List UInt8) :
    takeBytes n (u ++ rest) = some (u, rest) := by
  subst h
  simp [takeBytes]

/-- The first octet of a head says the major type and how the number is written. -/
theorem lead_parts {major info : Nat} (hmajor : major < 8) (hinfo : info < 32) :
    (UInt8.ofNat (major * 32 + info)).toNat / 32 = major ∧
      (UInt8.ofNat (major * 32 + info)).toNat % 32 = info := by
  rw [UInt8.toNat_ofNat']
  omega

/-- A small number stands in the first octet. -/
theorem readHead_small {major n : Nat} (hmajor : major < 8) (hn : n < 24) (rest : List UInt8) :
    readHead (UInt8.ofNat (major * 32 + n) :: rest) = some (⟨major, n, n⟩, rest) := by
  obtain ⟨hdiv, hmod⟩ := lead_parts hmajor (show n < 32 by omega)
  unfold readHead
  simp only [hdiv, hmod, if_pos hn]

/-- A number behind the first octet of a head is read back. -/
theorem readHead_wide {major info width n : Nat} (hmajor : major < 8)
    (hwidth : (info, width) ∈ [(24, 1), (25, 2), (26, 4), (27, 8)]) (hn : n < 256 ^ width)
    (rest : List UInt8) :
    readHead (UInt8.ofNat (major * 32 + info) :: bigEndian width n ++ rest) =
      some (⟨major, info, n⟩, rest) := by
  have hinfo : info < 32 ∧ ¬ info < 24 := by
    simp only [List.mem_cons, Prod.mk.injEq, List.not_mem_nil, or_false] at hwidth
    omega
  obtain ⟨hdiv, hmod⟩ := lead_parts hmajor hinfo.1
  have htake := takeBytes_append (length_bigEndian width n) rest
  have hread := ofBigEndian_bigEndian hn
  unfold readHead
  simp only [List.cons_append, hdiv, hmod, if_neg hinfo.2]
  simp only [List.mem_cons, Prod.mk.injEq, List.not_mem_nil, or_false] at hwidth
  rcases hwidth with ⟨rfl, rfl⟩ | ⟨rfl, rfl⟩ | ⟨rfl, rfl⟩ | ⟨rfl, rfl⟩ <;>
    · rw [htake]
      simp only [Option.bind_eq_bind, Option.bind_some, hread, pure]

/-- A head is read back: its number, and that its length is definite. -/
theorem readHead_head {major n : Nat} (hmajor : major < 8) (hn : n < twoPow 64)
    (rest : List UInt8) :
    ∃ info, info ≠ 31 ∧ readHead (head major n ++ rest) = some (⟨major, info, n⟩, rest) := by
  unfold head
  split
  · next h =>
    refine ⟨n, by omega, ?_⟩
    exact readHead_small hmajor h rest
  · split
    · next h => exact ⟨24, by decide, readHead_wide hmajor (by simp) h rest⟩
    · split
      · next h => exact ⟨25, by decide, readHead_wide hmajor (by simp) h rest⟩
      · split
        · next h => exact ⟨26, by decide, readHead_wide hmajor (by simp) h rest⟩
        · exact ⟨27, by decide, readHead_wide hmajor (by simp) hn rest⟩

/-! ## Values after their heads -/

/-- Reads a key and a value. -/
def readEntry (levels : Nat) : Read (Cbor × Cbor) := do
  let key ← readValue levels 0
  return (key, ← readValue levels 0)

/-- Reads what follows the head of a value that stands in no tag. -/
def readBody (levels : Nat) (h : Head) : Read Cbor :=
  match h.major, levels with
  | 0, _ => if h.isIndefinite then failure else pure (unsigned h.number)
  | 1, _ => if h.isIndefinite then failure else pure (negative h.number)
  | 2, _ => do pure (bytes (← readChunks h).flatten)
  | 3, _ => do pure (text (← readChunks h))
  | 4, 0 | 5, 0 => failure
  | 4, levels + 1 => do pure (array (← readCounted h (readValue levels 0)))
  | 5, levels + 1 => do pure (map (← readCounted h (readEntry levels)))
  | _, _ => fun rest => (ofHead7? h).map (·, rest)

section Head

variable {info n : Nat} {input rest : List UInt8} {levels : Nat}

/-- A head that starts no tag is the head of a value. -/
theorem readTags_of_head {major : Nat} (hread : readHead input = some (⟨major, info, n⟩, rest))
    (hmajor : major ≠ 6) :
    readTags (input.length + 1) input = some (([], ⟨major, info, n⟩), rest) := by
  rw [readTags]
  simp only [bind, StateT.bind, hread, Option.bind_some, if_pos hmajor]
  rfl

/-- The length of a head with a number is definite. -/
theorem not_isIndefinite {major info n : Nat} (hinfo : info ≠ 31) :
    (⟨major, info, n⟩ : Head).isIndefinite = false := by
  simp [Head.isIndefinite, hinfo]

/-- A value is its head and what follows it. -/
theorem readValue_of_head {major : Nat} (hread : readHead input = some (⟨major, info, n⟩, rest))
    (hmajor : major ≠ 6) : readValue levels 0 input = readBody levels ⟨major, info, n⟩ rest := by
  have htags := readTags_of_head hread hmajor
  have hlevels : ¬ levels < 0 + (0 - 1) := by omega
  rw [readValue.eq_def]
  simp only [bind, StateT.bind, get, getThe, MonadStateOf.get, StateT.get, pure, htags,
    Option.bind_some, List.length_nil, if_neg hlevels, List.foldr_nil]
  unfold readBody readEntry
  -- both sides branch on the major type, and on the levels that are left
  rcases major with _ | _ | _ | _ | _ | _ | major <;> rcases levels with _ | levels <;>
    first | (split <;> rfl) | (cases ofHead7? _ <;> rfl)

theorem readChunks_append {h : Head} (hdefinite : h.isIndefinite = false) {u : List UInt8}
    (hu : u.length = h.number) : readChunks h (u ++ rest) = some ([u], rest) := by
  unfold readChunks
  rw [if_neg (by simp [hdefinite])]
  change (takeBytes h.number (u ++ rest)).bind (fun p => some ([p.1], p.2)) = _
  rw [takeBytes_append hu]
  rfl

theorem readValue_unsigned (hinfo : info ≠ 31)
    (hread : readHead input = some (⟨0, info, n⟩, rest)) :
    readValue levels 0 input = some (unsigned n, rest) := by
  rw [readValue_of_head hread (by decide)]
  change (if Head.isIndefinite ⟨0, info, n⟩ then failure else pure (unsigned n) : Read Cbor) rest =
    _
  rw [not_isIndefinite hinfo]
  rfl

theorem readValue_negative (hinfo : info ≠ 31)
    (hread : readHead input = some (⟨1, info, n⟩, rest)) :
    readValue levels 0 input = some (negative n, rest) := by
  rw [readValue_of_head hread (by decide)]
  change (if Head.isIndefinite ⟨1, info, n⟩ then failure else pure (negative n) : Read Cbor) rest =
    _
  rw [not_isIndefinite hinfo]
  rfl

theorem readValue_bytes (hinfo : info ≠ 31) {u : List UInt8} (hu : u.length = n)
    (hread : readHead input = some (⟨2, info, n⟩, u ++ rest)) :
    readValue levels 0 input = some (bytes u, rest) := by
  rw [readValue_of_head hread (by decide)]
  change ((readChunks ⟨2, info, n⟩ (u ++ rest)).bind fun r => some (bytes r.1.flatten, r.2)) = _
  rw [readChunks_append (not_isIndefinite hinfo) hu]
  simp

theorem readValue_text (hinfo : info ≠ 31) {u : List UInt8} (hu : u.length = n)
    (hread : readHead input = some (⟨3, info, n⟩, u ++ rest)) :
    readValue levels 0 input = some (text [u], rest) := by
  rw [readValue_of_head hread (by decide)]
  change ((readChunks ⟨3, info, n⟩ (u ++ rest)).bind fun r => some (text r.1, r.2)) = _
  rw [readChunks_append (not_isIndefinite hinfo) hu]
  rfl

theorem readValue_simple (hread : readHead input = some (⟨7, info, n⟩, rest)) :
    readValue levels 0 input = (ofHead7? ⟨7, info, n⟩).map (·, rest) :=
  readValue_of_head hread (by decide)

/-- A list whose items are read, or not. -/
theorem readValue_array (hread : readHead input = some (⟨4, info, n⟩, rest)) :
    readValue (levels + 1) 0 input =
      (readCounted ⟨4, info, n⟩ (readValue levels 0) rest).map fun r => (array r.1, r.2) := by
  rw [readValue_of_head hread (by decide), Option.map_eq_bind]
  rfl

theorem readValue_array_zero (hread : readHead input = some (⟨4, info, n⟩, rest)) :
    readValue 0 0 input = none :=
  readValue_of_head hread (by decide)

/-- A map whose entries are read, or not. -/
theorem readValue_map (hread : readHead input = some (⟨5, info, n⟩, rest)) :
    readValue (levels + 1) 0 input =
      (readCounted ⟨5, info, n⟩ (readEntry levels) rest).map fun r => (map r.1, r.2) := by
  rw [readValue_of_head hread (by decide), Option.map_eq_bind]
  rfl

theorem readValue_map_zero (hread : readHead input = some (⟨5, info, n⟩, rest)) :
    readValue 0 0 input = none :=
  readValue_of_head hread (by decide)

end Head

/-! ## Values that are read back -/

section Many

variable {α : Type} {step : Read α} {u v : List UInt8}

theorem length_of_readMany {n : Nat} {as : List α} (h : readMany step n u = some (as, v)) :
    as.length = n := by
  induction n generalizing u as with
  | zero =>
    cases h
    rfl
  | succ n ih =>
    rw [readMany] at h
    simp only [bind, StateT.bind, Option.bind_eq_some_iff] at h
    obtain ⟨⟨a, u'⟩, -, ⟨bs, u''⟩, hbs, h⟩ := h
    cases h
    rw [List.length_cons, ih hbs]

/-- Of a definite length, not more is read than the limit admits. -/
theorem readCounted_eq {h : Head} (hdefinite : h.isIndefinite = false) :
    readCounted h step u = if h.number ≤ maxItems then readMany step h.number u else none := by
  unfold readCounted
  rw [hdefinite]
  by_cases hlimit : maxItems < h.number
  · rw [if_neg (Nat.not_le.mpr hlimit)]
    simp [hlimit, bind, StateT.bind, failure, StateT.failure]
  · rw [if_pos (Nat.not_lt.mp hlimit)]
    simp only [Bool.false_eq_true, if_false, if_neg hlimit]
    cases hmany : readMany step h.number u with
    | none => simp only [bind, StateT.bind, hmany, Option.bind_none]
    | some r =>
      obtain ⟨as, v⟩ := r
      have hlength : ¬ maxItems < as.length := length_of_readMany hmany ▸ hlimit
      simp only [bind, StateT.bind, hmany, Option.bind_some, if_neg hlength]
      rfl

/-- What is read one after the other: each has to be read. -/
theorem readMany_succ_of_some {n : Nat} {a : α} (h : step u = some (a, v)) :
    readMany step (n + 1) u = (readMany step n v).map fun r => (a :: r.1, r.2) := by
  rw [readMany]
  simp only [bind, StateT.bind, h, Option.bind_some]
  cases readMany step n v <;> rfl

theorem readMany_succ_of_none {n : Nat} (h : step u = none) : readMany step (n + 1) u = none := by
  rw [readMany]
  simp only [bind, StateT.bind, h, Option.bind_none]

end Many

/-- A number is read back, in whichever format it was written. -/
theorem readValue_float (levels : Nat) {x : Binary64} (hx : x.isNaN = true → x = nan)
    (rest : List UInt8) : readValue levels 0 (encodeFloat x ++ rest) = some (float x, rest) := by
  by_cases hnan : x.isNaN = true
  · obtain rfl := hx hnan
    have hencoded : encodeFloat nan = 0xF9 :: bigEndian 2 0x7E00 := by decide +kernel
    have hwiden : BinaryFormat.half.widen 0x7E00 = nan := by decide +kernel
    have hread := readHead_wide (show 7 < 8 by decide) (show (25, 2) ∈ _ by simp)
      (show 0x7E00 < 256 ^ 2 by decide) rest
    rw [hencoded]
    refine (readValue_simple hread).trans ?_
    simp only [ofHead7?, Option.map_some, hwiden]
  unfold encodeFloat
  rw [if_neg hnan]
  split
  · next bits h =>
    obtain ⟨hlt, hwiden⟩ := BinaryFormat.widen_of_narrow? BinaryFormat.shorter_half h
    have hread := readHead_wide (show 7 < 8 by decide) (show (25, 2) ∈ _ by simp) hlt rest
    refine (readValue_simple hread).trans ?_
    simp only [ofHead7?, Option.map_some, hwiden]
  · split
    · next bits h =>
      obtain ⟨hlt, hwiden⟩ := BinaryFormat.widen_of_narrow? BinaryFormat.shorter_single h
      have hread := readHead_wide (show 7 < 8 by decide) (show (26, 4) ∈ _ by simp) hlt rest
      refine (readValue_simple hread).trans ?_
      simp only [ofHead7?, Option.map_some, hwiden]
    · have hread :=
        readHead_wide (show 7 < 8 by decide) (show (27, 8) ∈ _ by simp) x.bits.toNat_lt rest
      refine (readValue_simple hread).trans ?_
      simp only [ofHead7?, Option.map_some, UInt64.ofNat_toNat]

mutual

/-- A value is read back exactly if it keeps to the limits. -/
theorem readValue_encode : ∀ v : Cbor, v.Plain → ∀ (n : Nat) (rest : List UInt8),
    readValue n 0 (v.encode ++ rest) =
      if v.levels ≤ n ∧ v.largest ≤ maxItems then some (v, rest) else none
  | unsigned m, h, n, rest => by
    obtain ⟨info, hinfo, hread⟩ := readHead_head (show 0 < 8 by decide) h rest
    rw [encode, readValue_unsigned hinfo hread, if_pos (by simp [levels, largest])]
  | negative m, h, n, rest => by
    obtain ⟨info, hinfo, hread⟩ := readHead_head (show 1 < 8 by decide) h rest
    rw [encode, readValue_negative hinfo hread, if_pos (by simp [levels, largest])]
  | bytes b, h, n, rest => by
    obtain ⟨info, hinfo, hread⟩ := readHead_head (show 2 < 8 by decide) h (b ++ rest)
    rw [encode, List.append_assoc, readValue_bytes hinfo rfl hread,
      if_pos (by simp [levels, largest])]
  | text chunks, ⟨t, hchunks, h⟩, n, rest => by
    subst hchunks
    have ht : [t].flatten = t := by simp
    obtain ⟨info, hinfo, hread⟩ := readHead_head (show 3 < 8 by decide) h (t ++ rest)
    rw [encode, ht, List.append_assoc, readValue_text hinfo rfl hread,
      if_pos (by simp [levels, largest])]
  | array items, ⟨hlength, h⟩, n, rest => by
    obtain ⟨info, hinfo, hread⟩ := readHead_head (show 4 < 8 by decide) hlength
      (encodeItems items ++ rest)
    rw [encode, List.append_assoc, levels, largest]
    cases n with
    | zero => rw [readValue_array_zero hread, if_neg (by omega)]
    | succ n =>
      rw [readValue_array hread, readCounted_eq (not_isIndefinite hinfo)]
      by_cases hlimit : items.length ≤ maxItems
      · rw [if_pos hlimit, readMany_encodeItems items h n rest]
        by_cases hfits : levelsOfItems items ≤ n ∧ largestOfItems items ≤ maxItems
        · rw [if_pos hfits, if_pos (by omega)]
          rfl
        · rw [if_neg hfits, if_neg (by omega)]
          rfl
      · rw [if_neg hlimit, if_neg (by omega)]
        rfl
  | map entries, ⟨hlength, h⟩, n, rest => by
    obtain ⟨info, hinfo, hread⟩ := readHead_head (show 5 < 8 by decide) hlength
      (encodeEntries entries ++ rest)
    rw [encode, List.append_assoc, levels, largest]
    cases n with
    | zero => rw [readValue_map_zero hread, if_neg (by omega)]
    | succ n =>
      rw [readValue_map hread, readCounted_eq (not_isIndefinite hinfo)]
      by_cases hlimit : entries.length ≤ maxItems
      · rw [if_pos hlimit, readMany_encodeEntries entries h n rest]
        by_cases hfits : levelsOfEntries entries ≤ n ∧ largestOfEntries entries ≤ maxItems
        · rw [if_pos hfits, if_pos (by omega)]
          rfl
        · rw [if_neg hfits, if_neg (by omega)]
          rfl
      · rw [if_neg hlimit, if_neg (by omega)]
        rfl
  | tag _ _, h, _, _ => h.elim
  | simple m, h, n, rest => by
    have hm : m < 24 := h
    have hread : readHead (head 7 m ++ rest) = some (⟨7, m, m⟩, rest) := by
      unfold head
      rw [if_pos hm, List.singleton_append]
      exact readHead_small (by decide) hm rest
    have hvalue : ofHead7? ⟨7, m, m⟩ = some (simple m) := by
      unfold ofHead7?
      split
      case h_6 => rfl
      all_goals next hinfo => exact absurd hinfo (by dsimp only; omega)
    rw [encode, readValue_simple hread, hvalue, if_pos (by simp [levels, largest])]
    rfl
  | float x, h, n, rest => by
    rw [encode, readValue_float n h rest, if_pos (by simp [levels, largest])]

theorem readMany_encodeItems :
    ∀ items : List Cbor, AllPlain items → ∀ (n : Nat) (rest : List UInt8),
    readMany (readValue n 0) items.length (encodeItems items ++ rest) =
      if levelsOfItems items ≤ n ∧ largestOfItems items ≤ maxItems then some (items, rest) else none
  | [], _, n, rest => by
    rw [if_pos (by simp [levelsOfItems, largestOfItems])]
    rfl
  | v :: items, h, n, rest => by
    have hv := readValue_encode v h.1 n (encodeItems items ++ rest)
    rw [encodeItems, List.append_assoc, levelsOfItems, largestOfItems, List.length_cons]
    by_cases hfits : v.levels ≤ n ∧ v.largest ≤ maxItems
    · rw [if_pos hfits] at hv
      rw [readMany_succ_of_some hv, readMany_encodeItems items h.2 n rest]
      by_cases hrest : levelsOfItems items ≤ n ∧ largestOfItems items ≤ maxItems
      · rw [if_pos hrest, if_pos (by omega)]
        rfl
      · rw [if_neg hrest, if_neg (by omega)]
        rfl
    · rw [if_neg hfits] at hv
      rw [readMany_succ_of_none hv, if_neg (by omega)]

theorem readMany_encodeEntries : ∀ entries : List (Cbor × Cbor), EntriesPlain entries →
    ∀ (n : Nat) (rest : List UInt8),
    readMany (readEntry n) entries.length (encodeEntries entries ++ rest) =
      if levelsOfEntries entries ≤ n ∧ largestOfEntries entries ≤ maxItems then some (entries, rest)
      else none
  | [], _, n, rest => by
    rw [if_pos (by simp [levelsOfEntries, largestOfEntries])]
    rfl
  | (k, v) :: entries, h, n, rest => by
    have hk := readValue_encode k h.1 n (v.encode ++ (encodeEntries entries ++ rest))
    have hv := readValue_encode v h.2.1 n (encodeEntries entries ++ rest)
    rw [encodeEntries, List.append_assoc, List.append_assoc, levelsOfEntries, largestOfEntries,
      List.length_cons]
    by_cases hfits : (k.levels ≤ n ∧ k.largest ≤ maxItems) ∧ v.levels ≤ n ∧ v.largest ≤ maxItems
    · rw [if_pos hfits.1] at hk
      rw [if_pos hfits.2] at hv
      have hentry : readEntry n (k.encode ++ (v.encode ++ (encodeEntries entries ++ rest))) =
          some ((k, v), encodeEntries entries ++ rest) := by
        simp only [readEntry, bind, StateT.bind, hk, hv, Option.bind_some]
        rfl
      rw [readMany_succ_of_some hentry, readMany_encodeEntries entries h.2.2 n rest]
      by_cases hrest : levelsOfEntries entries ≤ n ∧ largestOfEntries entries ≤ maxItems
      · rw [if_pos hrest, if_pos (by omega)]
        rfl
      · rw [if_neg hrest, if_neg (by omega)]
        rfl
    · have hentry : readEntry n
          (k.encode ++ (v.encode ++ (encodeEntries entries ++ rest))) = none := by
        by_cases hkey : k.levels ≤ n ∧ k.largest ≤ maxItems
        · rw [if_pos hkey] at hk
          rw [if_neg fun hvalue => hfits ⟨hkey, hvalue⟩] at hv
          simp only [readEntry, bind, StateT.bind, hk, hv, Option.bind_some, Option.bind_none]
        · rw [if_neg hkey] at hk
          simp only [readEntry, bind, StateT.bind, hk, Option.bind_none]
      rw [readMany_succ_of_none hentry, if_neg (by omega)]

end

/-- **An encoded value is read back exactly if it keeps to the limits**: it is nested at most as
deep as the reader goes, and none of its lists and maps has more items than the reader takes. -/
theorem parse?_encode {v : Cbor} (h : v.Plain) :
    parse? v.encode = if v.levels ≤ maxLevels ∧ v.largest ≤ maxItems then some v else none := by
  have hread := readValue_encode v h maxLevels []
  rw [List.append_nil] at hread
  unfold parse?
  rw [hread]
  by_cases hfits : v.levels ≤ maxLevels ∧ v.largest ≤ maxItems
  · rw [if_pos hfits, if_pos hfits]
  · rw [if_neg hfits, if_neg hfits]

end Cbor

end Toolchain

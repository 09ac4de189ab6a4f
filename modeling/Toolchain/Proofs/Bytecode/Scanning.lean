import Toolchain.Proofs.Bytecode.Intake
import Toolchain.Proofs.Bytecode.Lookup

/-!
# A compiled file, read by position

The reader as a program that knows its position in the octets of the file and looks things up: some
octets from its position on, a string of the pool, what the verifier looks up. A look-up outside of
what there is stops the program. All counts, lengths and indices stand in the file itself, so any of
them may be wrong; each is compared with what is left, or with the size of the pool, before it is
used, and so the program never stops that way.

A file that is read is sound, and its code object can be written and read again.

## Main definitions

* `Image.Scan`: a step of the program
* `Image.decodeByPosition`: the program
* `Image.FollowsAt`: a step of the program does what a step on the octets that are left does

## Main results

* `Image.follows_scanCode`: a code object is read without a stop, whatever the octets are
* `Image.decodeByPosition_eq`: the program gives the answer of the reader
* `Image.decode_safe`: **reading a file is safe, and what is read is sound, valid and can be written
  and read again**
-/

namespace Toolchain

namespace Image

/-! ## The program -/

/-- A step of a reader that knows its position. -/
abbrev Scan := StateT Nat (Except (Stop FileError))

section Program

variable {α : Type} (data : List UInt8)

/-- Looks something up. -/
def lookUp (x : Except (Stop FileError) α) : Scan α := fun p => do return (← x, p)

/-- How many octets are left. -/
def remaining : Scan Nat := fun p => .ok (data.length - p, p)

/-- The next octets, without a question whether there are that many. -/
def scanNext (n : Nat) : Scan (List UInt8) := fun p => do return (← slice data p (p + n), p + n)

/-- A number of some octets. -/
def scanNat (width : Nat) : Scan Nat := do
  if (← remaining data) < width then throw (.fault .unexpectedEnd)
  return ofBigEndian (← scanNext data width)

/-- Does a step some times, and gives all that was read. -/
def scanMany (step : Scan α) : Nat → Scan (List α)
  | 0 => pure []
  | n + 1 => do
    let a ← step
    return a :: (← scanMany step n)

/-- One string of the pool. -/
def scanPooled : Scan Text := do
  let length ← scanNat data 4
  if (← remaining data) < length then throw (.fault .stringPool)
  scanNext data length

/-- The pool. -/
def scanPool : Scan (Array Text) := do
  let count ← scanNat data 4
  if (← remaining data) < count then throw (.fault .stringPool)
  return (← scanMany (scanPooled data) count).toArray

/-- The string at an index of the pool. -/
def scanIndex (pool : Array Text) (index : Nat) : Scan Text := do
  if pool.size ≤ index then throw (.fault (.stringIndex index))
  lookUp (entry pool.toList index)

/-- A string. -/
def scanString (pool : Array Text) : Scan Text := do
  scanIndex pool (← scanNat data 4)

/-- A string that may be missing. -/
def scanOptional (pool : Array Text) : Scan Text := do
  let index ← scanNat data 4
  if index = noString then return []
  scanIndex pool index

/-- A line number. -/
def scanLine : Scan Int := do
  return ((← scanNat data 4 : Nat) : Int)

/-- A constant, with a step for a code object. -/
def scanConstant (pool : Array Text) (nested : Scan Code) : Scan Constant := do
  let tag ← scanNat data 1
  match tag with
  | 0 => return .name (← scanString data pool)
  | 1 => return .string (← scanString data pool)
  | 2 => return .int (UInt64.ofNat (← scanNat data 8)).toInt64
  | 3 => return .float ⟨UInt64.ofNat (← scanNat data 8)⟩
  | 4 => return .code (← nested)
  | _ => throw (.fault (.constantTag tag))

/-- A code object in which at most `levels - 1` levels of others are nested. -/
def scanCode (bare : Bool) (pool : Array Text) : (levels : Nat) → Scan Code
  | 0 => throw (.fault .nesting)
  | levels + 1 => do
    let name ← scanString data pool
    let filename ← scanString data pool
    let number ← scanNat data 1
    let some kind := CodeKind.ofNumber? (UInt8.ofNat number) | throw (.fault (.codeKind number))
    let firstLine ← scanLine data
    let params ← scanMany (scanString data pool) (← scanNat data 2)
    let vararg ← scanOptional data pool
    let kwarg ← scanOptional data pool
    let count ← scanNat data 4
    if (← remaining data) / 2 < count then throw (.fault .instructions)
    let instructions ← scanNext data (count * 2)
    let lines ← if bare then pure (List.replicate count 0) else scanMany (scanLine data) count
    let size ← scanNat data 4
    if (← remaining data) < size then throw (.fault .constantPool)
    let constants ← scanMany (scanConstant data pool (scanCode bare pool levels)) size
    return { name, filename, kind, firstLine, params, vararg, kwarg, instructions,
             lineTable := some lines, constants }

/-- Checks the header of a file; gives the flags. -/
def scanHeader (file : List UInt8) : Except (Stop FileError) UInt16 := do
  if file.length < headerSize then throw (.fault .tooSmall)
  if (← slice file 0 4) ≠ magic then throw (.fault .badMagic)
  let major ← entry file 4
  if major ≠ majorVersion then
    throw (.fault (.version major.toNat (← entry file 5).toNat))
  let flags ← slice file 6 8
  let length := ofBigEndian (← slice file 8 12)
  if length ≠ file.length - headerSize then throw (.fault (.payloadLength length))
  let checksum ← slice file 12 headerSize
  if Blake2b.digest (← slice file headerSize file.length) ≠ checksum then throw (.fault .checksum)
  return UInt16.ofNat (ofBigEndian flags)

/-- Reads what stands behind the header, all of it. -/
def scanPayload (bare : Bool) (file : List UInt8) : Except (Stop FileError) Code := do
  let (pool, p) ← scanPool file headerSize
  let (code, p) ← scanCode file bare pool (maxNesting + 1) p
  if p ≠ file.length then throw (.fault (.trailing (file.length - p)))
  return code

/-- The code object of a file, if the file is sound and the code valid. -/
def decodeByPosition (file : List UInt8) : Except (Stop FileError) Code := do
  let flags ← scanHeader file
  let code ← scanPayload (withoutLines flags) file
  code.verifyByPosition.mapError (Stop.map .rejected)
  return code

end Program

/-! ## The program follows the reader -/

section Follows

variable {α β : Type} {data : List UInt8} {p : Nat}

/-- At a position a step does what a step on the octets that are left does: it fails with the same
error, or gives the same value and goes to a position where the same octets are left. -/
def FollowsAt (data : List UInt8) (p : Nat) (scan : Scan α) (step : Decode α) : Prop :=
  match step (data.drop p) with
  | .error e => scan p = .error (.fault e)
  | .ok (a, rest) => ∃ q ≤ data.length, data.drop q = rest ∧ scan p = .ok (a, q)

/-- A step does at every position what a step on the octets that are left does. -/
def Follows (data : List UInt8) (scan : Scan α) (step : Decode α) : Prop :=
  ∀ p ≤ data.length, FollowsAt data p scan step

theorem follows_pure (a : α) : Follows data (pure a) (pure a) :=
  fun p hp => ⟨p, hp, rfl, rfl⟩

theorem followsAt_throw (e : FileError) :
    FollowsAt data p (throw (.fault e) : Scan α) (throw e : Decode α) := rfl

theorem FollowsAt.bind {scan : Scan α} {step : Decode α} {next : α → Scan β} {next' : α → Decode β}
    (h : FollowsAt data p scan step) (hnext : ∀ a, Follows data (next a) (next' a)) :
    FollowsAt data p (scan >>= next) (step >>= next') := by
  unfold FollowsAt at h ⊢
  change match step (data.drop p) >>= fun r => next' r.1 r.2 with
    | .error e => (scan p >>= fun r => next r.1 r.2) = .error (.fault e)
    | .ok (a, rest) => ∃ q ≤ data.length, data.drop q = rest ∧
        (scan p >>= fun r => next r.1 r.2) = .ok (a, q)
  rcases hstep : step (data.drop p) with e | ⟨a, rest⟩
  · rw [hstep] at h
    dsimp only at h
    rw [h]
    rfl
  · rw [hstep] at h
    obtain ⟨q, hq, hrest, hscan⟩ := h
    subst hrest
    rw [hscan]
    exact hnext a q hq

theorem Follows.bind {scan : Scan α} {step : Decode α} {next : α → Scan β} {next' : α → Decode β}
    (h : Follows data scan step) (hnext : ∀ a, Follows data (next a) (next' a)) :
    Follows data (scan >>= next) (step >>= next') :=
  fun p hp => (h p hp).bind hnext

/-- What follows a look at how much is left. -/
theorem followsAt_remaining {next : Nat → Scan β} {next' : List UInt8 → Decode β}
    (h : FollowsAt data p (next (data.length - p)) (next' (data.drop p))) :
    FollowsAt data p (remaining data >>= next) (get >>= next') := h

/-- A check that fails, or lets the next step go on, which may then use that it has passed. -/
theorem followsAt_unless {c c' : Prop} [Decidable c] [Decidable c'] {fail next : Scan α}
    {fail' next' : Decode α} (hc : c ↔ c') (hfail : FollowsAt data p fail fail')
    (hnext : ¬ c → FollowsAt data p next next') :
    FollowsAt data p (if c then fail else next) (if c' then fail' else next') := by
  by_cases h : c
  · rw [if_pos h, if_pos (hc.mp h)]
    exact hfail
  · rw [if_neg h, if_neg fun h' => h (hc.mpr h')]
    exact hnext h

/-- The next octets are there if as many are left. -/
theorem followsAt_scanNext {n : Nat} (h : p + n ≤ data.length) :
    FollowsAt data p (scanNext data n) (takeBytes n) := by
  have htaken : ((data.drop p).take n).length = n := by
    rw [List.length_take, List.length_drop]
    omega
  have hslice : slice data p (p + n) =
      (.ok ((data.drop p).take n) : Except (Stop FileError) _) := by
    rw [slice, if_pos ⟨Nat.le_add_right p n, h⟩, List.take_drop]
  unfold FollowsAt takeBytes
  simp only
  rw [if_pos htaken]
  refine ⟨p + n, h, ?_, ?_⟩
  · rw [List.drop_drop]
  · rw [scanNext, hslice]
    rfl

theorem takeBytes_of_length_lt {n : Nat} {octets : List UInt8} (h : octets.length < n) :
    takeBytes n octets = .error .unexpectedEnd := by
  unfold takeBytes
  simp only
  rw [if_neg]
  rw [List.length_take]
  omega

theorem follows_scanNat (width : Nat) : Follows data (scanNat data width) (readNat width) := by
  intro p hp
  by_cases hleft : data.length - p < width
  · -- too few octets are left, which both say
    have hread : takeBytes width (data.drop p) = .error .unexpectedEnd :=
      takeBytes_of_length_lt (by rw [List.length_drop]; exact hleft)
    have hstep : readNat width (data.drop p) = .error .unexpectedEnd := by
      change (takeBytes width (data.drop p) >>= _) = _
      rw [hread]
      rfl
    have hscan : scanNat data width p = .error (.fault .unexpectedEnd) := by
      change ((if data.length - p < width then _ else _ : Scan Nat) p) = _
      rw [if_pos hleft]
      rfl
    unfold FollowsAt
    rw [hstep]
    exact hscan
  · have hscan : scanNat data width p =
        (scanNext data width >>= fun octets => pure (ofBigEndian octets)) p := by
      change ((if data.length - p < width then _ else _ : Scan Nat) p) = _
      rw [if_neg hleft]
    have hnext : FollowsAt data p (scanNext data width >>= fun octets => pure (ofBigEndian octets))
        (readNat width) :=
      (followsAt_scanNext (by omega)).bind fun octets => follows_pure _
    unfold FollowsAt at hnext ⊢
    rw [hscan]
    exact hnext

theorem follows_scanMany {scan : Scan α} {step : Decode α} (h : Follows data scan step) (n : Nat) :
    Follows data (scanMany scan n) (readMany step n) := by
  induction n with
  | zero => exact follows_pure []
  | succ n ih => exact h.bind fun a => ih.bind fun as => follows_pure (a :: as)

/-- A string is looked up after its index was compared with the size of the pool. -/
theorem follows_scanIndex (pool : Array Text) (index : Nat) :
    Follows data (scanIndex pool index) (lookup pool index) := by
  intro p hp
  unfold FollowsAt lookup
  by_cases hindex : index < pool.size
  · have hget := Array.getElem?_eq_getElem hindex
    have hentry : pool.toList[index]? = some pool[index] := by
      rw [Array.getElem?_toList, hget]
    rw [hget]
    refine ⟨p, hp, rfl, ?_⟩
    change ((if pool.size ≤ index then _ else _ : Scan Text) p) = _
    rw [if_neg (Nat.not_le_of_lt hindex), lookUp, entry_of_eq_some hentry]
    rfl
  · have hnone : pool[index]? = none := Array.getElem?_eq_none (Nat.le_of_not_lt hindex)
    rw [hnone]
    change ((if pool.size ≤ index then _ else _ : Scan Text) p) = _
    rw [if_pos (Nat.le_of_not_lt hindex)]
    rfl

theorem follows_scanString (pool : Array Text) :
    Follows data (scanString data pool) (readString pool) :=
  (follows_scanNat 4).bind (follows_scanIndex pool)

theorem follows_scanOptional (pool : Array Text) :
    Follows data (scanOptional data pool) (readOptional pool) := by
  refine (follows_scanNat 4).bind fun index p hp => ?_
  refine followsAt_unless Iff.rfl (follows_pure [] p hp) fun _ => ?_
  exact follows_scanIndex pool index p hp

theorem follows_scanLine : Follows data (scanLine data) readLine :=
  (follows_scanNat 4).bind fun n => follows_pure (n : Int)

theorem follows_scanPooled : Follows data (scanPooled data) readPooled := by
  refine (follows_scanNat 4).bind fun length p hp => followsAt_remaining ?_
  refine followsAt_unless (by rw [List.length_drop]) (followsAt_throw _) fun hleft => ?_
  exact followsAt_scanNext (by omega)

theorem follows_scanPool : Follows data (scanPool data) readPool := by
  refine (follows_scanNat 4).bind fun count p hp => followsAt_remaining ?_
  refine followsAt_unless (by rw [List.length_drop]) (followsAt_throw _) fun _ => ?_
  exact (follows_scanMany follows_scanPooled count).bind
    (fun pool => follows_pure pool.toArray) p hp

theorem follows_scanConstant (pool : Array Text) {scan : Scan Code} {step : Decode Code}
    (h : Follows data scan step) :
    Follows data (scanConstant data pool scan) (readConstant pool step) := by
  refine (follows_scanNat 1).bind fun tag => ?_
  match tag with
  | 0 => exact (follows_scanString pool).bind fun s => follows_pure (Constant.name s)
  | 1 => exact (follows_scanString pool).bind fun s => follows_pure (Constant.string s)
  | 2 => exact (follows_scanNat 8).bind fun n => follows_pure _
  | 3 => exact (follows_scanNat 8).bind fun n => follows_pure _
  | 4 => exact h.bind fun c => follows_pure (Constant.code c)
  | _ + 5 => exact fun p _ => followsAt_throw _

/-- A code object is read without a stop, whatever the octets are. -/
theorem follows_scanCode (bare : Bool) (pool : Array Text) (levels : Nat) :
    Follows data (scanCode data bare pool levels) (readCode bare pool levels) := by
  induction levels with
  | zero => exact fun p _ => followsAt_throw _
  | succ levels ih =>
    refine (follows_scanString pool).bind fun name => ?_
    refine (follows_scanString pool).bind fun filename => ?_
    refine (follows_scanNat 1).bind fun number => ?_
    cases CodeKind.ofNumber? (UInt8.ofNat number) with
    | none => exact fun p _ => followsAt_throw _
    | some kind =>
      refine follows_scanLine.bind fun firstLine => ?_
      refine (follows_scanNat 2).bind fun count => ?_
      refine (follows_scanMany (follows_scanString pool) count).bind fun params => ?_
      refine (follows_scanOptional pool).bind fun vararg => ?_
      refine (follows_scanOptional pool).bind fun kwarg => ?_
      -- the instructions are there: their number was compared with what is left
      refine (follows_scanNat 4).bind fun count p hp => followsAt_remaining ?_
      refine followsAt_unless (by rw [List.length_drop]) (followsAt_throw _) fun hleft => ?_
      refine (followsAt_scanNext (by omega)).bind fun instructions => ?_
      -- the table of lines is made or read, and then the constants are read
      have hfinish (lines : List Int) : Follows data (do
            let size ← scanNat data 4
            if (← remaining data) < size then throw (.fault .constantPool)
            let constants ← scanMany (scanConstant data pool (scanCode data bare pool levels)) size
            return { name, filename, kind, firstLine, params, vararg, kwarg, instructions,
                     lineTable := some lines, constants : Code } : Scan Code) (do
            let size ← readNat 4
            if (← get).length < size then throw .constantPool
            let constants ← readMany (readConstant pool (readCode bare pool levels)) size
            return { name, filename, kind, firstLine, params, vararg, kwarg, instructions,
                     lineTable := some lines, constants : Code } : Decode Code) := by
        refine (follows_scanNat 4).bind fun size p hp => followsAt_remaining ?_
        refine followsAt_unless (by rw [List.length_drop]) (followsAt_throw _) fun _ => ?_
        exact (follows_scanMany (follows_scanConstant pool ih) size).bind
          (fun constants => follows_pure _) p hp
      intro p hp
      refine followsAt_unless Iff.rfl ?_ fun _ => ?_
      · exact (follows_pure _).bind hfinish p hp
      · exact (follows_scanMany follows_scanLine count).bind hfinish p hp

end Follows

/-! ## Files -/

variable {file : List UInt8}

theorem slice_eq {start stop : Nat} (h : start ≤ stop) (hstop : stop ≤ file.length) :
    slice file start stop = (.ok ((file.drop start).take (stop - start)) :
      Except (Stop FileError) (List UInt8)) := by
  rw [slice, if_pos ⟨h, hstop⟩, List.drop_take]

theorem entry_eq_getD {p : Nat} (h : p < file.length) (b : UInt8) :
    entry file p = (.ok (file.getD p b) : Except (Stop FileError) UInt8) := by
  have hget := List.getElem?_eq_getElem h
  rw [entry_of_eq_some hget, List.getD_eq_getElem?_getD, hget, Option.getD_some]

/-- The checks of a header as one step, which gives the flags. -/
def readHeader (file : List UInt8) : Except FileError UInt16 := do
  checkHeader file
  if ofBigEndian ((file.drop 8).take 4) ≠ (file.drop headerSize).length then
    throw (.payloadLength (ofBigEndian ((file.drop 8).take 4)))
  if Blake2b.digest (file.drop headerSize) ≠ (file.drop 12).take 32 then throw .checksum
  return fileFlags file

/-- A file is read in two steps. -/
theorem decode_eq_bind (file : List UInt8) : decode file = readHeader file >>= fun flags =>
    readPayload (withoutLines flags) (file.drop headerSize) >>= fun code =>
      code.verify.mapError .rejected >>= fun _ => pure code := by
  unfold decode readHeader
  rcases hheader : checkHeader file with e | u
  · rfl
  simp only [Stop.ok_bind]
  by_cases hlength : ofBigEndian ((file.drop 8).take 4) ≠ (file.drop headerSize).length
  · rw [if_pos hlength, if_pos hlength]
    rfl
  rw [if_neg hlength, if_neg hlength]
  by_cases hchecksum : Blake2b.digest (file.drop headerSize) ≠ (file.drop 12).take 32
  · rw [if_pos hchecksum, if_pos hchecksum]
    rfl
  rw [if_neg hchecksum, if_neg hchecksum, pure_bind]
  refine bind_congr fun code => ?_
  cases code.verify with
  | error e => rfl
  | ok u => rfl

theorem headerSize_le_of_readHeader {flags : UInt16} (h : readHeader file = .ok flags) :
    headerSize ≤ file.length := by
  obtain ⟨_, hcheck, -⟩ := Outcome.bind_eq_ok_iff.mp h
  by_contra hsize
  unfold checkHeader at hcheck
  rw [if_pos (Nat.lt_of_not_le hsize)] at hcheck
  cases hcheck

/-- The header of a file is checked without a stop: all its fields are there once the file has the
size of a header. -/
theorem scanHeader_eq (file : List UInt8) : scanHeader file = Stop.lift (readHeader file) := by
  unfold scanHeader readHeader checkHeader
  by_cases hsize : file.length < headerSize
  · rw [if_pos hsize, if_pos hsize]
    rfl
  have hsize' : headerSize ≤ file.length := Nat.le_of_not_lt hsize
  have h44 : headerSize = 44 := rfl
  have hmagic : slice file 0 4 = (.ok (file.take 4) : Except (Stop FileError) _) :=
    slice_eq (by decide) (by omega)
  have hmajor : entry file 4 = (.ok (file.getD 4 0) : Except (Stop FileError) _) :=
    entry_eq_getD (by omega) 0
  have hminor : entry file 5 = (.ok (file.getD 5 0) : Except (Stop FileError) _) :=
    entry_eq_getD (by omega) 0
  have hflags : slice file 6 8 = (.ok ((file.drop 6).take 2) : Except (Stop FileError) _) :=
    slice_eq (by decide) (by omega)
  have hlength : slice file 8 12 = (.ok ((file.drop 8).take 4) : Except (Stop FileError) _) :=
    slice_eq (by decide) (by omega)
  have hchecksum : slice file 12 headerSize =
      (.ok ((file.drop 12).take 32) : Except (Stop FileError) _) :=
    slice_eq (by decide) hsize'
  have hpayload : slice file headerSize file.length =
      (.ok (file.drop headerSize) : Except (Stop FileError) _) := by
    rw [slice_eq hsize' le_rfl, List.take_of_length_le]
    rw [List.length_drop]
  rw [if_neg hsize, if_neg hsize, hmagic, hmajor, hminor, hflags, hlength, hchecksum, hpayload]
  simp only [Stop.ok_bind]
  by_cases hformat : file.take 4 ≠ magic
  · rw [if_pos hformat, if_pos hformat]
    rfl
  rw [if_neg hformat, if_neg hformat]
  by_cases hversion : file.getD 4 0 ≠ majorVersion
  · rw [if_pos hversion, if_pos hversion]
    rfl
  rw [if_neg hversion, if_neg hversion]
  rw [pure_bind, List.length_drop]
  split
  · rfl
  · split <;> rfl

/-- The payload is read without a stop. -/
theorem scanPayload_eq (hsize : headerSize ≤ file.length) (bare : Bool) :
    scanPayload bare file = Stop.lift (readPayload bare (file.drop headerSize)) := by
  have hpool : FollowsAt file headerSize (scanPool file) readPool :=
    follows_scanPool headerSize hsize
  unfold FollowsAt at hpool
  unfold scanPayload readPayload
  rcases hread : readPool (file.drop headerSize) with e | ⟨pool, rest⟩
  · rw [hread] at hpool
    dsimp only at hpool
    rw [hpool]
    rfl
  rw [hread] at hpool
  obtain ⟨p, hp, rfl, hscan⟩ := hpool
  have hcode : FollowsAt file p (scanCode file bare pool (maxNesting + 1))
      (readCode bare pool (maxNesting + 1)) := follows_scanCode bare pool (maxNesting + 1) p hp
  unfold FollowsAt at hcode
  rw [hscan]
  simp only [Stop.ok_bind]
  rcases hread : readCode bare pool (maxNesting + 1) (file.drop p) with e | ⟨code, rest⟩
  · rw [hread] at hcode
    dsimp only at hcode
    rw [hcode]
    rfl
  rw [hread] at hcode
  obtain ⟨q, hq, rfl, hscan⟩ := hcode
  rw [hscan]
  simp only [Stop.ok_bind]
  -- nothing is left exactly if the position is the end
  have hend : (file.drop q).isEmpty = true ↔ q = file.length := by
    rw [List.isEmpty_iff, List.drop_eq_nil_iff]
    omega
  by_cases hq' : q = file.length
  · rw [if_neg (not_not.mpr hq'), if_pos (hend.mpr hq')]
    rfl
  · rw [if_pos hq', if_neg fun h => hq' (hend.mp h), List.length_drop]
    rfl

/-- The program gives the answer of the reader. -/
theorem decodeByPosition_eq (file : List UInt8) :
    decodeByPosition file = Stop.lift (decode file) := by
  rw [decode_eq_bind]
  unfold decodeByPosition
  rw [scanHeader_eq]
  rcases hheader : readHeader file with e | flags
  · rfl
  rw [Stop.lift_ok, Stop.ok_bind, Stop.ok_bind,
    scanPayload_eq (headerSize_le_of_readHeader hheader)]
  rcases readPayload (withoutLines flags) (file.drop headerSize) with e | code
  · rfl
  rw [Stop.lift_ok, Stop.ok_bind, Stop.ok_bind, Code.verifyByPosition_eq, Stop.lift_mapError]
  cases code.verify with
  | error e => rfl
  | ok u => rfl

/-! ## Written again -/

/-- A code object with tables of lines is kept whole, by a file with lines, and by one without if
the tables are of zeros. -/
theorem stored_of_hasTable {flags : UInt16} {bare : Bool}
    (hflags : withoutLines flags = true → bare = true) (c : Code)
    (htables : ∀ o ∈ c.nested, HasTable bare o) : c.stored flags = c := by
  induction c using Code.inductionOnConstants with
  | step c ih =>
    obtain ⟨table, htable, hzeros⟩ := htables c (by rw [Code.nested_eq]; exact List.mem_cons_self)
    have hconstants : Code.storedAll flags c.constants = c.constants := by
      rw [Code.storedAll_eq_map]
      refine (List.map_congr_left fun k hk => ?_).trans (List.map_id _)
      cases k with
      | code o =>
        have ho := ih o hk fun o' ho' => htables o' (by
          rw [Code.nested_eq]
          exact List.mem_cons_of_mem _ (Code.nested_subset_of_mem hk ho'))
        simp only [Code.storedConstant, ho, id]
      | _ => rfl
    have hlines : some (if withoutLines flags = true then List.replicate c.size 0 else c.lines) =
        c.lineTable := by
      rw [htable]
      split
      · next h => rw [hzeros (hflags h)]
      · rw [CodeObject.lines, htable, Option.getD_some]
    rw [Code.stored_eq, hconstants, hlines]

/-- The number of a kind that exists. -/
theorem number_lt_of_fieldsFit {c : Code} (h : FieldsFit c) : c.kind.number < 5 := by
  cases hkind : c.kind with
  | other n => exact absurd hkind (h.kind n)
  | _ => decide

/-- A valid code object that was read is written, and read again from what was written. -/
theorem exists_written {file : List UInt8} {c : Code} (h : Sealed file c)
    (hv : c.verify = .ok ()) {flags : UInt16}
    (hflags : withoutLines flags = true → withoutLines (fileFlags file) = true)
    (hpayload : (payload flags c).length < twoPow 32) :
    ∃ file', encode flags c = .ok file' ∧ decode file' = .ok c := by
  have htaken := h.taken
  have hfit := fits_of_payload htaken.objects (Nat.le_of_lt_succ htaken.depth) hpayload
  refine ⟨write flags c, encode_of_verify hv, ?_⟩
  rw [decode_write hv hfit, stored_of_hasTable hflags c htaken.tables]

/-- **Reading a file is safe.** Whatever the octets, the reader that looks things up by position
gives the answer of the reader: it looks nothing up outside of the octets, the pool, the
instructions or the constants, and its loops end in time. What is read is valid, its kinds exist,
and it is nested no deeper than the limit; its file is sound and was read to its end; and if it is
not too long it is written again, with lines unless its own file has none, as a file that holds the
same. -/
theorem decode_safe (file : List UInt8) :
    decodeByPosition file = Stop.lift (decode file) ∧
      ∀ c, decode file = .ok c →
        c.verify = .ok () ∧ (∀ o ∈ c.nested, o.kind.number < 5) ∧ c.depth ≤ maxNesting ∧
          Sealed file c ∧
          ∀ flags, (withoutLines flags = true → withoutLines (fileFlags file) = true) →
            (payload flags c).length < twoPow 32 →
            ∃ file', encode flags c = .ok file' ∧ decode file' = .ok c := by
  refine ⟨decodeByPosition_eq file, fun c hc => ?_⟩
  obtain ⟨hsealed, hv⟩ := decode_eq_ok hc
  have htaken := hsealed.taken
  refine ⟨hv, fun o ho => ?_, Nat.le_of_lt_succ htaken.depth, hsealed,
    fun flags hflags hpayload => ?_⟩
  · exact number_lt_of_fieldsFit (htaken.objects o ho)
  · exact exists_written hsealed hv hflags hpayload

/-- The file of a code object with a nested one is read, and written and read again. -/
theorem decode_safe_maker :
    ∃ file, decode file = .ok maker ∧ decodeByPosition file = .ok maker ∧
      maker.verify = .ok () ∧ maker.depth ≤ maxNesting ∧ Sealed file maker ∧
      withoutLines 0 = false ∧ (payload 0 maker).length < twoPow 32 ∧
      ∃ file', encode 0 maker = .ok file' ∧ decode file' = .ok maker := by
  have htables : ∀ o ∈ maker.nested, HasTable false o := by
    rw [nested_maker]
    simp only [List.forall_mem_cons, List.not_mem_nil, false_implies, implies_true, and_true]
    exact ⟨⟨[1, 1, 2], rfl, nofun⟩, ⟨[1, 1], rfl, nofun⟩⟩
  have hlined : withoutLines 0 = false := rfl
  have hread : decode (write 0 maker) = .ok maker := by
    rw [decode_write verify_maker fits_maker, stored_of_hasTable (by simp [hlined]) maker htables]
  obtain ⟨hposition, hsafe⟩ := decode_safe (write 0 maker)
  rw [hread] at hposition
  obtain ⟨hv, -, hdepth, hsealed, hagain⟩ := hsafe maker hread
  exact ⟨write 0 maker, hread, hposition, hv, hdepth, hsealed, hlined, fits_maker.payload,
    hagain 0 (by simp [hlined]) fits_maker.payload⟩

end Image

end Toolchain

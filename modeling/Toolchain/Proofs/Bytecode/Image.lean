import Mathlib.Algebra.Order.Group.Nat
import Toolchain.Proofs.Bytecode.Stored

/-!
# Reading back a compiled file

Each step that reads a file takes exactly the octets that the matching step wrote, and gives what
was written; so the steps can be put together as the writing steps are. The pool of strings is
collected in one pass and indexed in another, which needs no more than that the second pass asks
only for strings that the first one met.

## Main definitions

* `Image.Reads`: a step takes some octets and gives a value, whatever follows
* `Image.Fits`: the values of a code object fit the fields of a file

## Main results

* `Image.reads_readCode`: a code object is read back, by induction on the levels of its nesting
* `Image.decode_encode`: **a file is read back as what it keeps of its code object, and written
  again the same**
-/

namespace Toolchain

/-! ## Numbers -/

theorem ofBigEndian_append (bytes : List UInt8) (b : UInt8) :
    ofBigEndian (bytes ++ [b]) = ofBigEndian bytes * 256 + b.toNat := by
  simp [ofBigEndian]

/-- What is read back from some octets is what the octets can hold of a number. -/
theorem ofBigEndian_bigEndian_mod (width n : Nat) :
    ofBigEndian (bigEndian width n) = n % 256 ^ width := by
  induction width generalizing n with
  | zero =>
    rw [Nat.pow_zero, Nat.mod_one]
    rfl
  | succ width ih =>
    have hstep : bigEndian (width + 1) n = bigEndian width (n / 256) ++ [UInt8.ofNat n] := by
      simp [bigEndian, littleEndian]
    rw [hstep, ofBigEndian_append, ih, Nat.pow_succ', Nat.mod_mul, UInt8.toNat_ofNat']
    omega

/-- A number that fits into some octets is read back from them. -/
theorem ofBigEndian_bigEndian {width n : Nat} (h : n < 256 ^ width) :
    ofBigEndian (bigEndian width n) = n := by
  rw [ofBigEndian_bigEndian_mod, Nat.mod_eq_of_lt h]

namespace Image

open Outcome

/-! ## Steps that read -/

variable {α β : Type}

/-- A step takes some octets and gives a value, whatever follows the octets. -/
def Reads (step : Decode α) (octets : List UInt8) (a : α) : Prop :=
  ∀ rest, step (octets ++ rest) = .ok (a, rest)

theorem reads_pure (a : α) : Reads (pure a) [] a := fun _ => rfl

theorem Reads.bind {step : Decode α} {next : α → Decode β} {u v : List UInt8} {a : α} {b : β}
    (h : Reads step u a) (hnext : Reads (next a) v b) : Reads (step >>= next) (u ++ v) b := by
  intro rest
  change (step (u ++ v ++ rest) >>= fun p => next p.1 p.2) = _
  rw [List.append_assoc, h]
  exact hnext rest

/-- A step after which nothing more is taken. -/
theorem Reads.last {step : Decode α} {next : α → Decode β} {u : List UInt8} {a : α} {b : β}
    (h : Reads step u a) (hnext : Reads (next a) [] b) : Reads (step >>= next) u b := by
  have hbind := h.bind hnext
  rwa [List.append_nil] at hbind

theorem Reads.map {step : Decode α} {u : List UInt8} {a : α} (h : Reads step u a) (f : α → β) :
    Reads (step >>= fun a => pure (f a)) u (f a) :=
  h.last (reads_pure (f a))

/-- A check that there are octets enough passes if the octets to come are enough. -/
theorem reads_guard {next : Decode β} {v : List UInt8} {b : β} {short : List UInt8 → Prop}
    [DecidablePred short] {fail : Decode β} (hnext : Reads next v b)
    (henough : ∀ rest, ¬ short (v ++ rest)) :
    Reads (get >>= fun s : List UInt8 => if short s then fail else next) v b := by
  intro rest
  change (if short (v ++ rest) then fail else next) (v ++ rest) = _
  rw [if_neg (henough rest)]
  exact hnext rest

theorem reads_takeBytes {n : Nat} {u : List UInt8} (h : u.length = n) :
    Reads (takeBytes n) u u := by
  intro rest
  subst h
  simp [takeBytes]

theorem reads_readNat {width n : Nat} (h : n < 256 ^ width) :
    Reads (readNat width) (bigEndian width n) n := by
  have hread := (reads_takeBytes (length_bigEndian width n)).map ofBigEndian
  rwa [ofBigEndian_bigEndian h] at hread

/-- Some things are read back one by one. -/
theorem reads_readMany {γ : Type} {step : Decode β} {octets : γ → List UInt8} {value : γ → β}
    {xs : List γ} (h : ∀ x ∈ xs, Reads step (octets x) (value x)) :
    Reads (readMany step xs.length) (xs.flatMap octets) (xs.map value) := by
  induction xs with
  | nil => exact reads_pure []
  | cons x xs ih =>
    rw [List.forall_mem_cons] at h
    exact h.1.bind ((ih h.2).map (value x :: ·))

/-! ## The pool -/

theorem reads_readPooled {s : Text} (h : s.length < twoPow 32) :
    Reads readPooled (bigEndian 4 s.length ++ s) s := by
  refine (reads_readNat h).bind (reads_guard (reads_takeBytes rfl) fun rest => ?_)
  rw [List.length_append]
  omega

theorem length_le_flatMap {γ : Type} (octets : γ → List UInt8) (xs : List γ)
    (h : ∀ x ∈ xs, 0 < (octets x).length) : xs.length ≤ (xs.flatMap octets).length := by
  induction xs with
  | nil => simp
  | cons x xs ih =>
    rw [List.forall_mem_cons] at h
    rw [List.flatMap_cons, List.length_append, List.length_cons]
    have := ih h.2
    omega

theorem reads_readPool {pool : List Text} (hsize : pool.length < twoPow 32)
    (hstrings : ∀ s ∈ pool, s.length < twoPow 32) :
    Reads readPool (writePool pool) pool.toArray := by
  have hmany : Reads (readMany readPooled pool.length)
      (pool.flatMap fun s => bigEndian 4 s.length ++ s) pool := by
    have h := reads_readMany fun s hs => reads_readPooled (hstrings s hs)
    rwa [List.map_id'] at h
  refine (reads_readNat hsize).bind (reads_guard (hmany.map List.toArray) fun rest => ?_)
  have hle := length_le_flatMap (fun s : Text => bigEndian 4 s.length ++ s) pool
    fun s _ => by simp
  rw [List.length_append]
  omega

theorem reads_lookup {pool : List Text} {s : Text} (hs : s ∈ pool) :
    Reads (lookup pool.toArray (pool.idxOf s)) [] s := by
  intro rest
  unfold lookup
  rw [List.getElem?_toArray, List.getElem?_idxOf hs]
  rfl

section Strings

variable {pool : List Text} (hsize : pool.length < noString)
include hsize

theorem idxOf_lt_noString {s : Text} (hs : s ∈ pool) : pool.idxOf s < noString :=
  (List.idxOf_lt_length_of_mem hs).trans hsize

theorem reads_readString {s : Text} (hs : s ∈ pool) :
    Reads (readString pool.toArray) (writeString pool s) s := by
  have hlt : pool.idxOf s < 256 ^ 4 := (idxOf_lt_noString hsize hs).trans (by decide)
  exact (reads_readNat hlt).last (reads_lookup hs)

theorem reads_readOptional {s : Text} (hs : optionalText s ⊆ pool) :
    Reads (readOptional pool.toArray) (writeOptional pool s) s := by
  unfold writeOptional
  by_cases hempty : s.isEmpty = true
  · rw [if_pos hempty, List.isEmpty_iff.mp hempty]
    have hlt : noString < 256 ^ 4 := by decide
    refine (reads_readNat hlt).last ?_
    rw [if_pos rfl]
    exact reads_pure _
  · rw [if_neg hempty]
    have hmem : s ∈ pool := hs (by simp [optionalText, hempty])
    have hlt := idxOf_lt_noString hsize hmem
    have hlt' : pool.idxOf s < 256 ^ 4 := hlt.trans (by decide)
    refine (reads_readNat hlt').last ?_
    rw [if_neg hlt.ne]
    exact reads_lookup hmem

end Strings

theorem reads_readLine {n : Int} (h : 0 ≤ n ∧ n < twoPow 32) : Reads readLine (writeLine n) n := by
  have h32 : ((twoPow 32 : Nat) : Int) = 4294967296 := rfl
  rw [h32] at h
  have hmod : (n.emod (twoPow 32)).toNat = n.toNat := by
    rw [h32]
    exact congrArg Int.toNat (Int.emod_eq_of_lt h.1 h.2)
  have hlt : n.toNat < 256 ^ 4 := by
    have h4 : 256 ^ 4 = 4294967296 := rfl
    omega
  unfold writeLine
  rw [hmod]
  have hread := (reads_readNat hlt).map fun k : Nat => (k : Int)
  rwa [Int.toNat_of_nonneg h.1] at hread

theorem reads_octet (b : UInt8) : Reads (readNat 1) [b] b.toNat := by
  have hread := reads_readNat (show b.toNat < 256 ^ 1 from b.toNat_lt)
  have hoctet : bigEndian 1 b.toNat = [b] := by simp [bigEndian, littleEndian]
  rwa [hoctet] at hread

/-! ## Code objects -/

theorem writeCode_eq (flags : UInt16) (pool : List Text) (c : Code) :
    writeCode flags pool c =
      writeString pool c.name ++ (writeString pool c.filename ++ ([c.kind.number] ++
        (writeLine c.firstLine ++ (bigEndian 2 c.params.length ++
        (c.params.flatMap (writeString pool) ++ (writeOptional pool c.vararg ++
        (writeOptional pool c.kwarg ++ (bigEndian 4 c.size ++ (c.instructions ++
        ((if withoutLines flags then [] else c.lines.flatMap writeLine) ++
        (bigEndian 4 c.constants.length ++ writeConstants flags pool c.constants))))))))))) := by
  cases c
  rw [writeCode]
  simp only [List.append_assoc, CodeObject.size, CodeObject.lines]

/-- The octets of one constant. -/
def writeConstant (flags : UInt16) (pool : List Text) (k : Constant) : List UInt8 :=
  writeConstants flags pool [k]

theorem writeConstants_eq_flatMap (flags : UInt16) (pool : List Text) (ks : List Constant) :
    writeConstants flags pool ks = ks.flatMap (writeConstant flags pool) := by
  induction ks with
  | nil => simp [writeConstants]
  | cons k ks ih => cases k <;> simp [writeConstants, writeConstant, ih]

theorem writeConstant_pos (flags : UInt16) (pool : List Text) (k : Constant) :
    0 < (writeConstant flags pool k).length := by
  cases k <;> simp [writeConstant, writeConstants]

theorem length_writeCode_le (flags : UInt16) (pool : List Text) {c : Code} {ks : List Constant}
    (h : .code c ∈ ks) :
    (writeCode flags pool c).length ≤ (writeConstants flags pool ks).length := by
  obtain ⟨before, after, rfl⟩ := List.append_of_mem h
  have hone : (writeConstant flags pool (.code c)).length =
      (writeCode flags pool c).length + 1 := by
    simp only [writeConstant, writeConstants, List.append_nil, List.length_cons]
  rw [writeConstants_eq_flatMap]
  simp only [List.flatMap_append, List.flatMap_cons, List.length_append, hone]
  omega

/-- The values of a code object fit their fields, those of nested code objects apart. -/
structure FieldsFit (c : Code) : Prop where
  kind : ∀ n, c.kind ≠ .other n
  firstLine : 0 ≤ c.firstLine ∧ c.firstLine < twoPow 32
  lines : ∀ line ∈ c.lines, 0 ≤ line ∧ line < twoPow 32
  params : c.params.length ≤ 65535

/-- The values of a code object and of those nested in it fit the fields of a file. -/
structure Fits (flags : UInt16) (c : Code) : Prop where
  objects : ∀ o ∈ c.nested, FieldsFit o
  depth : c.depth ≤ maxNesting
  pool : (pool c).length < noString
  strings : ∀ s ∈ c.strings, s.length < twoPow 32
  payload : (payload flags c).length < twoPow 32

theorem ofNumber?_number {k : CodeKind} (h : ∀ n, k ≠ .other n) :
    CodeKind.ofNumber? (UInt8.ofNat k.number.toNat) = some k := by
  cases k with
  | other n => exact absurd rfl (h n)
  | _ => rfl

section Code

variable {flags : UInt16} {pool : List Text} (hpool : pool.length < noString)
include hpool

theorem reads_readConstant {nested : Decode Code} {k : Constant}
    (hnested : ∀ c : Code, k = .code c → Reads nested (writeCode flags pool c) (c.stored flags))
    (hkind : k ≠ .noCode ∧ ∀ tag, k ≠ .unknown tag) (hstrings : Code.stringsOf [k] ⊆ pool) :
    Reads (readConstant pool.toArray nested) (writeConstant flags pool k)
      (Code.storedConstant flags k) := by
  cases k with
  | name s =>
    have hs : s ∈ pool := hstrings (by simp [Code.stringsOf])
    simp only [writeConstant, writeConstants, List.append_nil]
    exact (reads_octet 0).bind ((reads_readString hpool hs).map Constant.name)
  | string s =>
    have hs : s ∈ pool := hstrings (by simp [Code.stringsOf])
    simp only [writeConstant, writeConstants, List.append_nil]
    exact (reads_octet 1).bind ((reads_readString hpool hs).map Constant.string)
  | int n =>
    have hread := (reads_readNat (show n.toUInt64.toNat < 256 ^ 8 from n.toUInt64.toNat_lt)).map
      fun m => Constant.int (UInt64.ofNat m).toInt64
    rw [UInt64.ofNat_toNat] at hread
    simp only [writeConstant, writeConstants, List.append_nil]
    exact (reads_octet 2).bind hread
  | float x =>
    have hread := (reads_readNat (show x.bits.toNat < 256 ^ 8 from x.bits.toNat_lt)).map
      fun m => Constant.float ⟨UInt64.ofNat m⟩
    rw [UInt64.ofNat_toNat] at hread
    simp only [writeConstant, writeConstants, List.append_nil]
    exact (reads_octet 3).bind hread
  | code c =>
    simp only [writeConstant, writeConstants, List.append_nil]
    exact (reads_octet 4).bind ((hnested c rfl).map Constant.code)
  | noCode => exact absurd rfl hkind.1
  | unknown tag => exact absurd rfl (hkind.2 tag)

/-- A code object is read back from what was written of it. -/
theorem reads_readCode {levels : Nat} {c : Code} (hdepth : c.depth < levels)
    (hobjects : ∀ o ∈ c.nested, FieldsFit o ∧ o.WellEncoded) (hstrings : c.strings ⊆ pool)
    (hlength : (writeCode flags pool c).length < twoPow 32) :
    Reads (readCode (withoutLines flags) pool.toArray levels) (writeCode flags pool c)
      (c.stored flags) := by
  induction levels generalizing c with
  | zero => exact absurd hdepth (Nat.not_lt_zero _)
  | succ levels ih =>
    obtain ⟨hfit, hwell⟩ := hobjects c (by rw [Code.nested_eq]; exact List.mem_cons_self)
    have hnested : ∀ o : Code, .code o ∈ c.constants →
        ∀ o' ∈ o.nested, FieldsFit o' ∧ o'.WellEncoded := by
      intro o ho o' ho'
      refine hobjects o' ?_
      rw [Code.nested_eq]
      exact List.mem_cons_of_mem _ (Code.nested_subset_of_mem ho ho')
    rw [Code.strings_eq] at hstrings
    have hname : c.name ∈ pool := hstrings (by simp)
    have hfilename : c.filename ∈ pool := hstrings (by simp)
    have hparams : ∀ s ∈ c.params, s ∈ pool := fun s hs => hstrings (by simp [hs])
    have hvararg : optionalText c.vararg ⊆ pool := fun s hs => hstrings (by simp [hs])
    have hkwarg : optionalText c.kwarg ⊆ pool := fun s hs => hstrings (by simp [hs])
    have hconstants : Code.stringsOf c.constants ⊆ pool := fun s hs => hstrings (by simp [hs])
    rw [Code.depth_eq] at hdepth
    have heven : c.instructions.length = c.size * 2 := by
      have := hwell.even
      unfold CodeObject.size
      omega
    -- every constant takes an octet at least, so the count fits since the whole does
    have hcount : c.constants.length ≤ (writeConstants flags pool c.constants).length := by
      rw [writeConstants_eq_flatMap]
      exact length_le_flatMap _ _ fun k _ => writeConstant_pos flags pool k
    rw [writeCode_eq] at hlength ⊢
    have hparts : c.size < twoPow 32 ∧
        (writeConstants flags pool c.constants).length < twoPow 32 := by
      simp only [List.length_append, heven] at hlength
      omega
    have hkinds := hfit.params
    have hmany : Reads
        (readMany (readConstant pool.toArray (readCode (withoutLines flags) pool.toArray levels))
          c.constants.length)
        (writeConstants flags pool c.constants) (Code.storedAll flags c.constants) := by
      rw [writeConstants_eq_flatMap, Code.storedAll_eq_map]
      refine reads_readMany fun k hk => reads_readConstant hpool ?_ (hwell.constants k hk)
        (List.Subset.trans (Code.stringsOf_subset_of_mem hk) hconstants)
      rintro o rfl
      have hdeep := Code.depth_lt_of_mem hk
      refine ih (by omega) (hnested o hk)
        (List.Subset.trans (Code.strings_subset_of_mem hk) hconstants) ?_
      have hpart := length_writeCode_le flags pool hk
      omega
    rw [Code.stored_eq]
    refine (reads_readString hpool hname).bind ?_
    refine (reads_readString hpool hfilename).bind ?_
    refine (reads_octet c.kind.number).bind ?_
    simp only [ofNumber?_number hfit.kind]
    refine (reads_readLine hfit.firstLine).bind ?_
    refine (reads_readNat (by omega)).bind ?_
    have hread := reads_readMany fun s hs => reads_readString hpool (hparams s hs)
    rw [List.map_id'] at hread
    refine hread.bind ?_
    refine (reads_readOptional hpool hvararg).bind ?_
    refine (reads_readOptional hpool hkwarg).bind ?_
    refine (reads_readNat hparts.1).bind ?_
    refine reads_guard ((reads_takeBytes heven).bind ?_) fun rest => ?_
    · have hfinish (lines : List Int) : Reads (do
          let size ← readNat 4
          if (← get).length < size then throw .constantPool
          let constants ← readMany
            (readConstant pool.toArray (readCode (withoutLines flags) pool.toArray levels)) size
          return { c with lineTable := some lines, constants : Code } : Decode Code)
          (bigEndian 4 c.constants.length ++ writeConstants flags pool c.constants)
          { c with lineTable := some lines, constants := Code.storedAll flags c.constants } := by
        refine (reads_readNat (hcount.trans_lt hparts.2)).bind ?_
        refine reads_guard (hmany.map _) fun rest => ?_
        rw [List.length_append]
        omega
      generalize withoutLines flags = bare at hfinish ⊢
      cases bare
      · have hlines := reads_readMany fun n hn => reads_readLine (hfit.lines n hn)
        rw [List.map_id', hwell.lines] at hlines
        exact hlines.bind (hfinish c.lines)
      · exact (reads_pure _).bind (hfinish _)
    · simp only [List.length_append, heven]
      omega

end Code

/-! ## The file -/

/-- A payload is read back. -/
theorem readPayload_payload {flags : UInt16} {c : Code} (hfit : Fits flags c)
    (hwell : ∀ o ∈ c.nested, o.WellEncoded) :
    readPayload (withoutLines flags) (payload flags c) = .ok (c.stored flags) := by
  have hmem : ∀ s ∈ pool c, s ∈ c.strings := fun s hs => List.mem_eraseDups.mp hs
  have hsub : c.strings ⊆ pool c := fun s hs => List.mem_eraseDups.mpr hs
  have hpool := reads_readPool (hfit.pool.trans (by decide)) fun s hs => hfit.strings s (hmem s hs)
  have hlength : (writeCode flags (pool c) c).length < twoPow 32 := by
    have := hfit.payload
    simp only [payload, List.length_append] at this
    omega
  have hcode := reads_readCode hfit.pool (Nat.lt_succ_of_le hfit.depth)
    (fun o ho => ⟨hfit.objects o ho, hwell o ho⟩) hsub hlength []
  rw [List.append_nil] at hcode
  unfold readPayload payload
  rw [hpool]
  simp only [bind, Except.bind]
  rw [hcode]
  rfl

theorem length_magic : magic.length = 4 := by decide +kernel

/-- The parts of a file: each stands where the header says. -/
theorem write_parts (flags : UInt16) (payload : List UInt8) :
    let file := header flags payload ++ payload
    file.length = headerSize + payload.length ∧ file.take 4 = magic ∧
      file.getD 4 0 = majorVersion ∧ (file.drop 6).take 2 = bigEndian 2 flags.toNat ∧
      (file.drop 8).take 4 = bigEndian 4 payload.length ∧
      (file.drop 12).take 32 = Blake2b.digest payload ∧ file.drop headerSize = payload := by
  have hmagic := length_magic
  simp only [header, List.append_assoc]
  generalize magic = m at hmagic
  obtain ⟨a, b, c, d, rfl⟩ : ∃ a b c d, m = [a, b, c, d] := by
    rcases m with _ | ⟨a, _ | ⟨b, _ | ⟨c, _ | ⟨d, _ | ⟨e, m⟩⟩⟩⟩⟩ <;> simp at hmagic
    exact ⟨a, b, c, d, rfl⟩
  have hflags := length_bigEndian 2 flags.toNat
  have hlength := length_bigEndian 4 payload.length
  have hdigest := Blake2b.length_digest payload
  generalize bigEndian 2 flags.toNat = f at hflags
  generalize bigEndian 4 payload.length = l at hlength
  generalize Blake2b.digest payload = s at hdigest
  have hdrop₂ (rest : List UInt8) : (f ++ rest).drop 2 = rest := List.drop_left' hflags
  have hdrop₄ (rest : List UInt8) : (l ++ rest).drop 4 = rest := List.drop_left' hlength
  refine ⟨?_, rfl, rfl, ?_, ?_, ?_, ?_⟩
  · simp only [List.length_append, List.length_cons, List.length_nil, hflags, hlength, hdigest,
      headerSize]
    omega
  · exact List.take_left' hflags
  · change (((f ++ (l ++ (s ++ payload))).drop 2).take 4) = l
    rw [hdrop₂]
    exact List.take_left' hlength
  · change (((f ++ (l ++ (s ++ payload))).drop (2 + 4)).take 32) = s
    rw [← List.drop_drop, hdrop₂, hdrop₄]
    exact List.take_left' hdigest
  · change (f ++ (l ++ (s ++ payload))).drop (2 + (4 + 32)) = payload
    rw [← List.drop_drop, hdrop₂, ← List.drop_drop, hdrop₄]
    exact List.drop_left' hdigest

/-- A file is read back as what it keeps of its code object. -/
theorem decode_write {flags : UInt16} {c : Code} (hv : c.verify = .ok ()) (hfit : Fits flags c) :
    decode (write flags c) = .ok (c.stored flags) := by
  have hwell : ∀ o ∈ c.nested, o.WellEncoded := by
    intro o ho
    obtain ⟨deepest, hok⟩ := Code.verify_of_mem_nested hv ho
    exact (Code.checkAlone_eq_ok_iff.mp hok).1
  obtain ⟨hlength, hmagic, hmajor, hflags, hpayload, hdigest, hrest⟩ :=
    write_parts flags (payload flags c)
  have hheader : checkHeader (write flags c) = .ok () := by
    unfold checkHeader write
    simp only [hlength, hmagic, hmajor]
    rw [if_neg (by omega), if_neg (not_not_intro rfl), if_neg (not_not_intro rfl)]
    rfl
  unfold decode
  rw [hheader]
  simp only [write, hflags, hpayload, hdigest, hrest]
  rw [ofBigEndian_bigEndian hfit.payload, ofBigEndian_bigEndian flags.toNat_lt,
    UInt16.ofNat_toNat]
  simp only [ne_eq, not_true_eq_false, if_false, readPayload_payload hfit hwell,
    Code.verify_stored flags hv, bind, Except.bind, pure, Except.pure]

/-! ## Writing again -/

mutual

theorem writeCode_stored (flags : UInt16) (pool : List Text) :
    ∀ c : Code, writeCode flags pool (c.stored flags) = writeCode flags pool c
  | ⟨name, filename, kind, firstLine, params, vararg, kwarg, instructions, lineTable,
    constants⟩ => by
    rw [Code.stored, writeCode, writeCode, writeConstants_storedAll flags pool constants,
      Code.storedAll_eq_map, List.length_map]
    split
    · rfl
    · rfl

theorem writeConstants_storedAll (flags : UInt16) (pool : List Text) :
    ∀ ks : List Constant,
      writeConstants flags pool (Code.storedAll flags ks) = writeConstants flags pool ks
  | [] => by rw [Code.storedAll]
  | .code c :: rest => by
    rw [Code.storedAll, writeConstants, writeConstants, writeCode_stored flags pool c,
      writeConstants_storedAll flags pool rest]
  | .name _ :: rest | .string _ :: rest | .int _ :: rest | .float _ :: rest | .noCode :: rest
  | .unknown _ :: rest => by
    simp only [Code.storedAll, writeConstants, writeConstants_storedAll flags pool rest]

end

/-- What a file keeps of a code object has the same file. -/
theorem write_stored (flags : UInt16) (c : Code) :
    write flags (c.stored flags) = write flags c := by
  simp only [write, payload, pool, Code.strings_stored, writeCode_stored]

theorem encode_of_verify {flags : UInt16} {c : Code} (hv : c.verify = .ok ()) :
    encode flags c = .ok (write flags c) := by
  unfold encode
  rw [hv]

/-- **A compiled file is read back.** A valid code object whose values fit the fields of a file is
written, the file is read as the same code object, with a line table of zeros if the flags leave the
lines out, and this is written as the same file. -/
theorem decode_encode (flags : UInt16) (c : Code) (hv : c.verify = .ok ()) (hfit : Fits flags c) :
    ∃ file, encode flags c = .ok file ∧ decode file = .ok (c.stored flags) ∧
      encode flags (c.stored flags) = .ok file := by
  refine ⟨write flags c, encode_of_verify hv, decode_write hv hfit, ?_⟩
  rw [encode_of_verify (Code.verify_stored flags hv), write_stored]

/-- A function without parameters that returns `None`. -/
def thunk : Code :=
  { name := [102], filename := [109], kind := .lambda, firstLine := 1,
    instructions := [0xE8, 0, 0x68, 0], lineTable := some [1, 1] }

/-- A code object that makes the function and returns it. -/
def maker : Code :=
  { name := [109], filename := [109], kind := .module, firstLine := 1, vararg := [102],
    instructions := [0, 0, 0xC8, 0, 0x68, 0], lineTable := some [1, 1, 2],
    constants := [.code thunk, .int (-1), .string []] }

theorem nested_maker : maker.nested = [maker, thunk] := by
  simp [maker, thunk, Code.nested, Code.nestedIn]

theorem verify_maker : maker.verify = .ok () := by
  rw [Code.verify_eq_ok_iff, nested_maker]
  simp only [List.forall_mem_cons, List.not_mem_nil, false_implies, implies_true, and_true]
  exact ⟨⟨1, rfl⟩, ⟨1, rfl⟩⟩

theorem fits_maker : Fits 0 maker := by
  have hstrings : maker.strings = [[109], [109], [102], [102], [109], []] := by
    simp [maker, thunk, Code.strings, Code.stringsOf, optionalText]
  have hpool : pool maker = [[109], [102], []] := by
    unfold pool
    rw [hstrings]
    decide
  refine ⟨?_, ?_, ?_, ?_, ?_⟩
  · rw [nested_maker]
    simp only [List.forall_mem_cons, List.not_mem_nil, false_implies, implies_true, and_true]
    exact ⟨⟨nofun, by decide, by decide, by decide⟩, ⟨nofun, by decide, by decide, by decide⟩⟩
  · simp [maker, thunk, Code.depth, Code.depthOf, maxNesting]
  · rw [hpool]
    decide
  · rw [hstrings]
    decide
  · unfold payload
    rw [hpool]
    simp [maker, thunk, writePool, writeCode, writeConstants, writeString, writeOptional,
      writeLine, withoutLines, twoPow]

theorem decode_encode_maker :
    maker.verify = .ok () ∧ Fits 0 maker ∧
      ∃ file, encode 0 maker = .ok file ∧ decode file = .ok (maker.stored 0) ∧
        encode 0 (maker.stored 0) = .ok file :=
  ⟨verify_maker, fits_maker, decode_encode 0 maker verify_maker fits_maker⟩

end Image

end Toolchain

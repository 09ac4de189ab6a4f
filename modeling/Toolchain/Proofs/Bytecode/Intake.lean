import Mathlib.Data.List.Induction
import Toolchain.Proofs.Bytecode.Image

/-!
# What is read from a compiled file

Whatever the octets of a file are, the code object that is read from it fits the fields of a file:
its numbers come from fields of fixed widths, its kind is one that exists, and the steps that read
it go no deeper than the limit. A file that is read again after it was written is not too long for
its header, and then none of its parts is.

## Main definitions

* `Image.Gives`: what is true of all that a step gives
* `Image.Taken`: what is true of a code object that is read
* `Image.Sealed`: a file is sound, and holds a code object and nothing else

## Main results

* `Image.decode_eq_ok`: what is read fits, and its file is sound
* `Image.fits_of_payload`: a code object fits if its own fields do and its file is not too long
* `Image.decode_write_iff`: a file with lines is read back exactly if it fits
-/

namespace Toolchain

theorem ofBigEndian_lt (bytes : List UInt8) : ofBigEndian bytes < 256 ^ bytes.length := by
  induction bytes using List.reverseRecOn with
  | nil => decide
  | append_singleton bytes b ih =>
    rw [ofBigEndian_append, List.length_append, List.length_singleton, Nat.pow_succ]
    have := b.toNat_lt
    omega

namespace Image

/-! ## What steps give -/

section Gives

variable {α β : Type} {p : α → Prop} {q : β → Prop}

/-- What is true of all that a step gives, whatever the octets are that it reads from. -/
def Gives (step : Decode α) (p : α → Prop) : Prop :=
  ∀ octets a rest, step octets = .ok (a, rest) → p a

theorem gives_pure {a : α} (h : p a) : Gives (pure a) p := by
  rintro octets _ rest ⟨⟩
  exact h

theorem gives_throw (e : FileError) : Gives (throw e : Decode α) p := nofun

theorem gives_throw_bind (e : FileError) (next : α → Decode β) : Gives (throw e >>= next) q := nofun

theorem Gives.bind {step : Decode α} {next : α → Decode β} (h : Gives step p)
    (hnext : ∀ a, p a → Gives (next a) q) : Gives (step >>= next) q := by
  intro octets b rest hb
  change (step octets >>= fun r => next r.1 r.2) = .ok (b, rest) at hb
  obtain ⟨⟨a, octets'⟩, ha, hb⟩ := Outcome.bind_eq_ok_iff.mp hb
  exact hnext a (h octets a octets' ha) octets' b rest hb

theorem gives_trivial (step : Decode α) : Gives step fun _ => True := fun _ _ _ _ => trivial

/-- A step whose value does not matter. -/
theorem Gives.after {step : Decode α} {next : α → Decode β} (hnext : ∀ a, Gives (next a) q) :
    Gives (step >>= next) q :=
  (gives_trivial step).bind fun a _ => hnext a

/-- A check that fails, or lets the next step go on. -/
theorem gives_unless {c : Prop} [Decidable c] {next fail : Decode α} (hfail : Gives fail p)
    (hnext : ¬ c → Gives next p) : Gives (if c then fail else next) p := by
  by_cases hc : c
  · rw [if_pos hc]
    exact hfail
  · rw [if_neg hc]
    exact hnext hc

theorem gives_takeBytes (n : Nat) : Gives (takeBytes n) fun b => b.length = n := by
  intro octets b rest h
  unfold takeBytes at h
  by_cases hlength : (octets.take n).length = n
  · rw [if_pos hlength] at h
    cases h
    exact hlength
  · rw [if_neg hlength] at h
    cases h

theorem gives_readNat (width : Nat) : Gives (readNat width) fun n => n < 256 ^ width := by
  refine (gives_takeBytes width).bind fun b hb => gives_pure ?_
  rw [← hb]
  exact ofBigEndian_lt b

theorem gives_readMany {step : Decode α} (h : Gives step p) (n : Nat) :
    Gives (readMany step n) fun as => as.length = n ∧ ∀ a ∈ as, p a := by
  induction n with
  | zero => exact gives_pure ⟨rfl, nofun⟩
  | succ n ih =>
    refine h.bind fun a ha => ih.bind fun as has => gives_pure ⟨?_, ?_⟩
    · rw [List.length_cons, has.1]
    · rw [List.forall_mem_cons]
      exact ⟨ha, has.2⟩

end Gives

/-! ## What is read fits -/

theorem gives_readLine : Gives readLine fun line => 0 ≤ line ∧ line < twoPow 32 := by
  refine (gives_readNat 4).bind fun n hn => gives_pure ⟨by omega, ?_⟩
  have h32 : (twoPow 32 : Nat) = 256 ^ 4 := rfl
  omega

/-- A code object has a table of lines, of zeros if it is from a file without lines. -/
def HasTable (bare : Bool) (c : Code) : Prop :=
  ∃ table, c.lineTable = some table ∧ (bare = true → table = List.replicate c.size 0)

/-- What is true of a code object that is read, from a file without lines or with them. -/
structure Taken (bare : Bool) (levels : Nat) (c : Code) : Prop where
  objects : ∀ o ∈ c.nested, FieldsFit o
  tables : ∀ o ∈ c.nested, HasTable bare o
  depth : c.depth < levels

theorem gives_readConstant (pool : Array Text) {bare : Bool} {levels : Nat} {nested : Decode Code}
    (h : Gives nested (Taken bare levels)) :
    Gives (readConstant pool nested) fun k => ∀ c : Code, k = .code c → Taken bare levels c := by
  refine Gives.after fun tag => ?_
  split
  · exact Gives.after fun s => gives_pure nofun
  · exact Gives.after fun s => gives_pure nofun
  · exact Gives.after fun n => gives_pure nofun
  · exact Gives.after fun n => gives_pure nofun
  · refine h.bind fun c hc => gives_pure ?_
    rintro _ ⟨⟩
    exact hc
  · exact gives_throw _

theorem depthOf_le {n : Nat} {ks : List Constant} (h : ∀ c : Code, .code c ∈ ks → c.depth < n) :
    Code.depthOf ks ≤ n := by
  rcases Nat.eq_zero_or_pos (Code.depthOf ks) with hzero | hpos
  · omega
  · obtain ⟨c, hc, hdepth⟩ := Code.exists_depth_of_depthOf hpos
    have := h c hc
    omega

/-- The parts of a code object fit if those that are read last do. -/
theorem taken_of_parts {bare : Bool} {levels : Nat} {c : Code} (hfit : FieldsFit c)
    (htable : HasTable bare c)
    (hconstants : ∀ k ∈ c.constants, ∀ o : Code, k = .code o → Taken bare levels o) :
    Taken bare (levels + 1) c where
  objects o ho := by
    rw [Code.nested_eq, List.mem_cons] at ho
    rcases ho with rfl | ho
    · exact hfit
    · obtain ⟨o', ho', ho⟩ := Code.exists_of_mem_nestedIn ho
      exact (hconstants _ ho' o' rfl).objects o ho
  tables o ho := by
    rw [Code.nested_eq, List.mem_cons] at ho
    rcases ho with rfl | ho
    · exact htable
    · obtain ⟨o', ho', ho⟩ := Code.exists_of_mem_nestedIn ho
      exact (hconstants _ ho' o' rfl).tables o ho
  depth := by
    rw [Code.depth_eq]
    exact Nat.lt_succ_of_le (depthOf_le fun o ho => (hconstants _ ho o rfl).depth)

theorem exists_of_ofNumber? {n : UInt8} {kind : CodeKind} (h : CodeKind.ofNumber? n = some kind) :
    ∀ m, kind ≠ .other m := by
  rintro m rfl
  unfold CodeKind.ofNumber? at h
  split at h
  · cases h
  · next hother => exact hother m (Option.some.inj h)

theorem gives_readCode (bare : Bool) (pool : Array Text) (levels : Nat) :
    Gives (readCode bare pool levels) (Taken bare levels) := by
  induction levels with
  | zero =>
    exact gives_throw _
  | succ levels ih =>
    refine Gives.after fun name => Gives.after fun filename => Gives.after fun number => ?_
    split
    case h_2 => exact gives_throw _
    case h_1 kind hkind =>
      refine gives_readLine.bind fun firstLine hfirst => ?_
      refine (gives_readNat 2).bind fun count hcount => ?_
      refine (gives_readMany (gives_trivial _) count).bind fun params hparams => ?_
      refine Gives.after fun vararg => Gives.after fun kwarg => Gives.after fun size => ?_
      refine Gives.after fun octets => gives_unless (gives_throw_bind _ _) fun _ => ?_
      refine (gives_takeBytes (size * 2)).bind fun instructions hinstructions => ?_
      -- the table of lines is made or read, and then the constants are read
      have hfinish {lines : List Int} (hlines : ∀ line ∈ lines, 0 ≤ line ∧ line < twoPow 32)
          (htable : bare = true → lines = List.replicate size 0) :
          Gives (do
            let size ← readNat 4
            if (← get).length < size then throw .constantPool
            let constants ← readMany (readConstant pool (readCode bare pool levels)) size
            return { name, filename, kind, firstLine, params, vararg, kwarg, instructions,
                     lineTable := some lines, constants : Code } : Decode Code)
            (Taken bare (levels + 1)) := by
        refine Gives.after fun count => Gives.after fun octets => ?_
        refine gives_unless (gives_throw_bind _ _) fun _ => ?_
        refine (gives_readMany (gives_readConstant pool ih) count).bind fun ks hks => ?_
        refine gives_pure (taken_of_parts ?_ ⟨lines, rfl, fun hbare => ?_⟩ hks.2)
        · have h16 : 256 ^ 2 = 65536 := rfl
          exact ⟨exists_of_ofNumber? hkind, hfirst, hlines, by rw [hparams.1]; omega⟩
        · rw [htable hbare, CodeObject.size, hinstructions, Nat.mul_div_cancel size (by decide)]
      refine gives_unless ?_ fun hlined => ?_
      · refine Gives.bind (p := fun lines : List Int => lines = List.replicate size 0)
          (gives_pure rfl) fun lines hlines => hfinish ?_ fun _ => hlines
        intro line hline
        rw [hlines] at hline
        rw [List.eq_of_mem_replicate hline]
        decide
      · exact (gives_readMany gives_readLine size).bind fun lines hlines =>
          hfinish hlines.2 fun hbare => absurd hbare hlined

/-- The flags in the header of a file. -/
def fileFlags (file : List UInt8) : UInt16 := UInt16.ofNat (ofBigEndian ((file.drop 6).take 2))

/-- A file is sound: its header has the format and the version, and the length and the checksum of
the payload, which is a pool and a code object, with nothing after it. -/
structure Sealed (file : List UInt8) (c : Code) : Prop where
  header : checkHeader file = .ok ()
  length : ofBigEndian ((file.drop 8).take 4) = (file.drop headerSize).length
  checksum : Blake2b.digest (file.drop headerSize) = (file.drop 12).take 32
  payload : ∃ pool rest, readPool (file.drop headerSize) = .ok (pool, rest) ∧
    readCode (withoutLines (fileFlags file)) pool (maxNesting + 1) rest = .ok (c, [])

theorem readPayload_eq_ok {bare : Bool} {octets : List UInt8} {c : Code}
    (h : readPayload bare octets = .ok c) :
    ∃ pool rest, readPool octets = .ok (pool, rest) ∧
      readCode bare pool (maxNesting + 1) rest = .ok (c, []) := by
  obtain ⟨⟨pool, rest⟩, hpool, h⟩ := Outcome.bind_eq_ok_iff.mp h
  obtain ⟨⟨code, rest'⟩, hcode, h⟩ := Outcome.bind_eq_ok_iff.mp h
  dsimp only at h
  split at h
  · next hempty =>
    cases h
    rw [List.isEmpty_iff.mp hempty] at hcode
    exact ⟨pool, rest, hpool, hcode⟩
  · cases h

theorem Sealed.taken {file : List UInt8} {c : Code} (h : Sealed file c) :
    Taken (withoutLines (fileFlags file)) (maxNesting + 1) c := by
  obtain ⟨pool, rest, -, hcode⟩ := h.payload
  exact gives_readCode _ pool (maxNesting + 1) rest c [] hcode

/-- What is read is valid, and its file is sound. -/
theorem decode_eq_ok {file : List UInt8} {c : Code} (h : decode file = .ok c) :
    Sealed file c ∧ c.verify = .ok () := by
  obtain ⟨_, hheader, h⟩ := Outcome.bind_eq_ok_iff.mp h
  dsimp only at h
  split at h <;> rename_i hlength
  · cases h
  split at h <;> rename_i hchecksum
  · cases h
  obtain ⟨code, hcode, h⟩ := Outcome.bind_eq_ok_iff.mp h
  split at h <;> rename_i hv
  · cases h
  · cases h
    exact ⟨⟨hheader, not_not.mp hlength, not_not.mp hchecksum, readPayload_eq_ok hcode⟩, hv⟩

/-- A code object whose file is not too long for its header fits if its own fields do. -/
theorem fits_of_payload {flags : UInt16} {c : Code} (hobjects : ∀ o ∈ c.nested, FieldsFit o)
    (hdepth : c.depth ≤ maxNesting) (hpayload : (payload flags c).length < twoPow 32) :
    Fits flags c := by
  have h32 : twoPow 32 = 4294967296 := rfl
  have hpool : 4 + ((pool c).flatMap fun s => bigEndian 4 s.length ++ s).length < twoPow 32 := by
    have hparts := hpayload
    unfold payload writePool at hparts
    simp only [List.length_append, length_bigEndian] at hparts
    omega
  refine ⟨hobjects, hdepth, ?_, ?_, hpayload⟩
  · have hle := length_le_flatMap (fun s : Text => bigEndian 4 s.length ++ s) (pool c) fun s _ => by
      simp
    unfold noString
    omega
  · intro s hs
    have hmem : s ∈ pool c := List.mem_eraseDups.mpr hs
    obtain ⟨before, after, hsplit⟩ := List.append_of_mem hmem
    rw [hsplit] at hpool
    simp only [List.flatMap_append, List.flatMap_cons, List.length_append] at hpool
    omega

/-- A file that is read is not too long for its header. -/
theorem length_payload_of_decode {flags : UInt16} {c a : Code}
    (h : decode (write flags c) = .ok a) : (payload flags c).length < twoPow 32 := by
  obtain ⟨-, -, -, -, hfour, -, hrest⟩ := write_parts flags (payload flags c)
  have hlength := (decode_eq_ok h).1.length
  unfold write at hlength
  rw [hfour, hrest, ofBigEndian_bigEndian_mod] at hlength
  have h32 : twoPow 32 = 256 ^ 4 := rfl
  have := Nat.mod_lt (payload flags c).length (show 0 < 256 ^ 4 by decide)
  omega

theorem depth_stored (flags : UInt16) (c : Code) : (c.stored flags).depth = c.depth := by
  induction c using Code.inductionOnConstants with
  | step c ih =>
    have hdepth (ks : List Constant)
      (h : ∀ o : Code, .code o ∈ ks → (o.stored flags).depth = o.depth) :
        Code.depthOf (Code.storedAll flags ks) = Code.depthOf ks := by
      induction ks with
      | nil => rw [Code.storedAll]
      | cons k ks ihks =>
        have htail := ihks fun o ho => h o (List.mem_cons_of_mem _ ho)
        cases k with
        | code o => simp only [Code.storedAll, Code.depthOf, htail, h o List.mem_cons_self]
        | _ => simpa only [Code.storedAll, Code.depthOf] using htail
    rw [Code.depth_eq, Code.depth_eq, Code.stored_eq]
    exact hdepth c.constants ih

theorem fieldsFit_stored_iff {flags : UInt16} (hlines : withoutLines flags = false) (c : Code) :
    FieldsFit (c.stored flags) ↔ FieldsFit c := by
  have hc := Code.stored_eq flags c
  rw [hlines] at hc
  rw [hc]
  constructor
  · rintro ⟨hkind, hfirst, hline, hparams⟩
    exact ⟨hkind, hfirst, hline, hparams⟩
  · rintro ⟨hkind, hfirst, hline, hparams⟩
    exact ⟨hkind, hfirst, hline, hparams⟩

/-- **A file with lines is read back exactly if it fits.** -/
theorem decode_write_iff {flags : UInt16} (hlines : withoutLines flags = false) {c : Code}
    (hv : c.verify = .ok ()) : decode (write flags c) = .ok (c.stored flags) ↔ Fits flags c := by
  constructor
  · intro h
    obtain ⟨hobjects, -, hdepth⟩ := (decode_eq_ok h).1.taken
    rw [Code.nested_stored, List.forall_mem_map] at hobjects
    rw [depth_stored] at hdepth
    exact fits_of_payload (fun o ho => (fieldsFit_stored_iff hlines o).mp (hobjects o ho))
      (Nat.le_of_lt_succ hdepth) (length_payload_of_decode h)
  · exact decode_write hv

end Image

end Toolchain

import Toolchain.Proofs.Bytecode.Intake
import Toolchain.Proofs.Bytecode.Interchange

/-!
# The two forms of a code object

The compiled file keeps every number and cuts lines to thirty-two bits. The interchange form keeps
every line, and of a number neither the sign of zero nor which of the many things that are no number
it is. So the two forms of a code object are read as the same code object exactly if there is
nothing of the kind to lose.

## Main results

* `forms_agree_iff`: **when the two forms of a code object are read as the same**
* `not_forms_agree_minusZero`: a code object whose two forms are not
-/

namespace Toolchain

namespace Code

theorem float_mem_stored_iff (flags : UInt16) (c : Code) (x : Binary64) :
    .float x ∈ (c.stored flags).constants ↔ .float x ∈ c.constants := by
  rw [stored_eq, storedAll_eq_map, List.mem_map]
  constructor
  · rintro ⟨k, hk, hx⟩
    cases k with
    | float y =>
      cases hx
      exact hk
    | _ => cases hx
  · intro hx
    exact ⟨.float x, hx, rfl⟩

theorem floatsKept_stored_iff (flags : UInt16) (c : Code) :
    (c.stored flags).FloatsKept ↔ c.FloatsKept := by
  unfold FloatsKept
  rw [nested_stored, List.forall_mem_map]
  simp only [float_mem_stored_iff]

theorem fieldsFit_exchanged_iff (c : Code) :
    Image.FieldsFit c.exchanged ↔ Image.FieldsFit c := by
  rw [exchanged_eq]
  constructor
  · rintro ⟨hkind, hfirst, hline, hparams⟩
    exact ⟨hkind, hfirst, hline, hparams⟩
  · rintro ⟨hkind, hfirst, hline, hparams⟩
    exact ⟨hkind, hfirst, hline, hparams⟩

end Code

/-- **When the two forms agree.** If the file and the interchange form of a code object are both
read, then what is read is the same, but for an empty line table in the place of none, exactly if
the lines of the code object fit the fields of a file and its numbers are such as the interchange
form keeps. -/
theorem forms_agree_iff {c a b : Code} {file form : List UInt8} (hheld : c.Held)
    (hfile : Image.encode 0 c = .ok file) (hform : Interchange.encode c = .ok form)
    (ha : Image.decode file = .ok a) (hb : Interchange.decode form = .ok b) :
    a = b.stored 0 ↔ (∀ o ∈ c.nested, Image.FieldsFit o) ∧ c.FloatsKept := by
  obtain ⟨hv, rfl⟩ := Interchange.encode_eq_ok_iff.mp hform
  rw [Image.encode_of_verify hv] at hfile
  cases hfile
  obtain ⟨hfits, rfl⟩ := (Interchange.decode_ofCode_iff hv hheld b).mp hb
  have hlines : Image.withoutLines 0 = false := by decide
  have hdepth : c.depth ≤ Image.maxNesting := by
    have hlevels := hfits.levels
    have := Interchange.depth_lt_levels c
    have hlimits : Cbor.maxLevels ≤ Image.maxNesting := by decide
    omega
  -- a code object whose lines fit is read from its file as it is
  have hread (hobjects : ∀ o ∈ c.nested, Image.FieldsFit o) : a = c.stored 0 := by
    have hfile := Image.fits_of_payload hobjects hdepth (Image.length_payload_of_decode ha)
    rw [Image.decode_write hv hfile] at ha
    exact (Except.ok.inj ha).symm
  constructor
  · rintro rfl
    have hobjects := (Image.decode_eq_ok ha).1.taken.objects
    have hobjects : ∀ o ∈ c.nested, Image.FieldsFit o := by
      rw [Code.nested_stored, Code.nested_exchanged, List.map_map, List.forall_mem_map] at hobjects
      intro o ho
      rw [← Code.fieldsFit_exchanged_iff, ← Image.fieldsFit_stored_iff hlines]
      exact hobjects o ho
    refine ⟨hobjects, ?_⟩
    rw [← Code.floatsKept_stored_iff 0, ← hread hobjects, Code.floatsKept_stored_iff]
    exact Interchange.floatsKept_exchanged c
  · rintro ⟨hobjects, hfloats⟩
    rw [(Code.exchanged_eq_self_iff c).mpr hfloats]
    exact hread hobjects

/-! ## One number -/

/-- A code object that returns a number. -/
def returning (x : Binary64) : Code :=
  { name := [109], filename := [116], kind := .module, firstLine := 1,
    instructions := [0, 0, 0x68, 0], lineTable := some [1, 1], constants := [.float x] }

section Returning

variable (x : Binary64)

theorem nested_returning : (returning x).nested = [returning x] := by
  simp [returning, Code.nested, Code.nestedIn]

theorem strings_returning : (returning x).strings = [[109], [116]] := by
  simp [returning, Code.strings, Code.stringsOf, optionalText]

theorem verify_returning : (returning x).verify = .ok () := by
  have hzero : (returning ⟨0⟩).verify = .ok () := by
    rw [Code.verify_eq_ok_iff, nested_returning, List.forall_mem_singleton]
    exact ⟨1, rfl⟩
  have hx : (returning ⟨0⟩).mapFloats (fun _ => x) = returning x := by
    simp only [returning, Code.mapFloats, Code.mapFloatsIn]
  exact hx ▸ Code.verify_mapFloats (fun _ => x) hzero

theorem held_returning : (returning x).Held := by
  constructor
  · rw [nested_returning, List.forall_mem_singleton]
    constructor <;> simp [returning, CodeObject.lines, isInt64, twoPow]
  · rw [strings_returning]
    decide

theorem fieldsFit_returning : ∀ o ∈ (returning x).nested, Image.FieldsFit o := by
  rw [nested_returning, List.forall_mem_singleton]
  constructor <;> simp [returning, CodeObject.lines, twoPow]

theorem file_returning : Image.Fits 0 (returning x) := by
  refine Image.fits_of_payload (fieldsFit_returning x) ?_ ?_
  · simp [returning, Code.depth, Code.depthOf]
  · have hpool : Image.pool (returning x) = [[109], [116]] := by
      unfold Image.pool
      rw [strings_returning]
      decide
    unfold Image.payload
    rw [hpool]
    simp [returning, Image.writePool, Image.writeCode, Image.writeConstants, Image.writeString,
      Image.writeOptional, Image.writeLine, Image.withoutLines, twoPow]

theorem form_returning : Interchange.Fits (returning x) := by
  refine ⟨⟨?_, ?_⟩, ?_, ?_⟩
  · rw [nested_returning, List.forall_mem_singleton]
    nofun
  · rw [strings_returning]
    decide
  · by_cases hzero : Interchange.isZero x = true <;>
      simp [returning, hzero, Interchange.ofCode, Code.record, Code.recordsOf, heldList,
        Interchange.ofRecord_eq, Interchange.ofOne, Interchange.partsOf, Interchange.constantParts,
        ConstantRecord.fields, ConstantOf.map, ConstantOf.body?, RecordOf.map, codeTag,
        Interchange.listEntry, Interchange.orNull, Interchange.textEntry, Interchange.entry,
        Cbor.ofText, Cbor.ofInt, Cbor.levels, Cbor.levelsOfEntries, Cbor.levelsOfItems,
        Cbor.maxLevels]
  · by_cases hzero : Interchange.isZero x = true <;>
      simp [returning, hzero, Interchange.ofCode, Code.record, Code.recordsOf, heldList,
        Interchange.ofRecord_eq, Interchange.ofOne, Interchange.partsOf, Interchange.constantParts,
        ConstantRecord.fields, ConstantOf.map, ConstantOf.body?, RecordOf.map, codeTag,
        Interchange.listEntry, Interchange.orNull, Interchange.textEntry, Interchange.entry,
        Cbor.ofText, Cbor.ofInt, Cbor.largest, Cbor.largestOfEntries, Cbor.largestOfItems,
        Cbor.maxItems]

/-- Both forms of the code object are read: the file as it is, the interchange form as what it
keeps. -/
theorem decode_returning :
    Image.encode 0 (returning x) = .ok (Image.write 0 (returning x)) ∧
      Interchange.encode (returning x) = .ok (Interchange.ofCode (returning x)).encode ∧
      Image.decode (Image.write 0 (returning x)) = .ok ((returning x).stored 0) ∧
      Interchange.decode (Interchange.ofCode (returning x)).encode =
        .ok (returning x).exchanged := by
  have hv := verify_returning x
  refine ⟨Image.encode_of_verify hv, Interchange.encode_eq_ok_iff.mpr ⟨hv, rfl⟩,
    Image.decode_write hv (file_returning x), ?_⟩
  exact (Interchange.decode_ofCode_iff hv (held_returning x) _).mpr ⟨form_returning x, rfl⟩

end Returning

/-- A half is read the same from both forms. -/
theorem forms_agree_iff_half :
    (returning ⟨0x3FE0000000000000⟩).Held ∧
      (((returning ⟨0x3FE0000000000000⟩).stored 0 =
          (returning ⟨0x3FE0000000000000⟩).exchanged.stored 0) ↔
        (∀ o ∈ (returning ⟨0x3FE0000000000000⟩).nested, Image.FieldsFit o) ∧
          (returning ⟨0x3FE0000000000000⟩).FloatsKept) ∧
      (returning ⟨0x3FE0000000000000⟩).FloatsKept ∧
      (returning ⟨0x3FE0000000000000⟩).stored 0 =
        (returning ⟨0x3FE0000000000000⟩).exchanged.stored 0 := by
  obtain ⟨hfile, hform, ha, hb⟩ := decode_returning ⟨0x3FE0000000000000⟩
  have hheld := held_returning ⟨0x3FE0000000000000⟩
  have hkept : (returning ⟨0x3FE0000000000000⟩).FloatsKept := by
    unfold Code.FloatsKept
    rw [nested_returning, List.forall_mem_singleton]
    intro x hx
    obtain rfl : x = ⟨0x3FE0000000000000⟩ := by simpa [returning] using hx
    decide
  have hiff := forms_agree_iff hheld hfile hform ha hb
  exact ⟨hheld, hiff, hkept, hiff.mpr ⟨fieldsFit_returning _, hkept⟩⟩

/-- Negative zero is not: its sign is in the file only. -/
theorem not_forms_agree_minusZero :
    ∃ (c a b : Code) (file form : List UInt8), c.Held ∧ Image.encode 0 c = .ok file ∧
      Interchange.encode c = .ok form ∧ Image.decode file = .ok a ∧
        Interchange.decode form = .ok b ∧
      a = returning ⟨0x8000000000000000⟩ ∧ b = returning ⟨0⟩ ∧ a ≠ b := by
  obtain ⟨hfile, hform, ha, hb⟩ := decode_returning ⟨0x8000000000000000⟩
  have hstored : (returning ⟨0x8000000000000000⟩).stored 0 = returning ⟨0x8000000000000000⟩ := by
    simp [returning, Code.stored, Code.storedAll, Image.withoutLines]
  have hexchanged : (returning ⟨0x8000000000000000⟩).exchanged = returning ⟨0⟩ := by
    have hzero : Interchange.keptFloat ⟨0x8000000000000000⟩ = ⟨0⟩ := by decide
    simp only [returning, Code.exchanged, Code.mapFloats, Code.mapFloatsIn, hzero]
  have hdifferent : returning ⟨0x8000000000000000⟩ ≠ returning ⟨0⟩ := by
    simp [returning]
  rw [hstored] at ha
  rw [hexchanged] at hb
  exact ⟨_, _, _, _, _, held_returning _, hfile, hform, ha, hb, rfl, rfl, hdifferent⟩

end Toolchain

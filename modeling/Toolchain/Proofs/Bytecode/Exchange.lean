import Mathlib.Data.List.Forall2
import Toolchain.Bytecode.Interchange
import Toolchain.Proofs.Bytecode.Record
import Toolchain.Proofs.Cbor.RoundTrip

/-!
# What the interchange form keeps

Some things are lost when a code object is written in the interchange form: the sign of zero,
because a part that is zero is left out, which of the many things that are no number a number was,
and whether parameters or constants that are empty are missing. What is lost does not show in the
form.

## Main definitions

* `CodeRecord.kept`: what the form keeps of a code object as it is held
* `CodeRecord.Held`: code objects as a machine with words of sixty-four bits holds them
* `Code.exchanged`, `Code.Held`: the same for what code objects mean

## Main results

* `CodeRecord.code_kept`: what is kept of a record is for what is kept of its code object
* `CodeRecord.normal_kept_iff`: a code object is kept exactly if its numbers are
* `Interchange.alike_ofRecord`: what is lost does not show
* `Interchange.plain_ofRecord`: the value of what is kept is written as it is
-/

namespace Toolchain

/-! ## What the form keeps -/

namespace Interchange

/-- What the form keeps of a number: zero loses its sign, and what is no number is always the
same. -/
def keptFloat (x : Binary64) : Binary64 :=
  if isZero x then ⟨0⟩ else if x.isNaN then Cbor.nan else x

theorem keptFloat_keptFloat (x : Binary64) : keptFloat (keptFloat x) = keptFloat x := by
  have hzero : keptFloat ⟨0⟩ = ⟨0⟩ := by decide
  have hnan : keptFloat Cbor.nan = Cbor.nan := by decide
  by_cases h : isZero x = true
  · rw [keptFloat.eq_1 x, if_pos h, hzero]
  · by_cases h' : x.isNaN = true
    · rw [keptFloat.eq_1 x, if_neg h, if_pos h', hnan]
    · have hx : keptFloat x = x := by rw [keptFloat, if_neg h, if_neg h']
      rw [hx, hx]

end Interchange

namespace Code

mutual

/-- A code object with the numbers among its constants, and in those nested in it, changed. -/
def mapFloats (f : Binary64 → Binary64) : Code → Code
  | ⟨name, filename, kind, firstLine, params, vararg, kwarg, instructions, lineTable, constants⟩ =>
    ⟨name, filename, kind, firstLine, params, vararg, kwarg, instructions, lineTable,
      mapFloatsIn f constants⟩

/-- Constants with the numbers among them changed. -/
def mapFloatsIn (f : Binary64 → Binary64) : List Constant → List Constant
  | [] => []
  | .code c :: rest => .code (mapFloats f c) :: mapFloatsIn f rest
  | .float x :: rest => .float (f x) :: mapFloatsIn f rest
  | k :: rest => k :: mapFloatsIn f rest

end

/-- A constant with its number changed, or the numbers in its code object. -/
def mapFloatsConstant (f : Binary64 → Binary64) : Constant → Constant
  | .code c => .code (mapFloats f c)
  | .float x => .float (f x)
  | k => k

/-- What the interchange form keeps of a code object. -/
def exchanged (c : Code) : Code := c.mapFloats Interchange.keptFloat

variable (f : Binary64 → Binary64)

theorem mapFloatsIn_eq_map (ks : List Constant) :
    mapFloatsIn f ks = ks.map (mapFloatsConstant f) := by
  induction ks with
  | nil => simp [mapFloatsIn]
  | cons k ks ih => cases k <;> simp [mapFloatsIn, mapFloatsConstant, ih]

theorem mapFloats_eq (c : Code) :
    c.mapFloats f = c.remade c.lineTable (mapFloatsConstant f) := by
  cases c
  rw [mapFloats, mapFloatsIn_eq_map]
  rfl

mutual

theorem nested_mapFloats : ∀ c : Code, (c.mapFloats f).nested = c.nested.map (mapFloats f)
  | ⟨name, filename, kind, firstLine, params, vararg, kwarg, instructions, lineTable,
    constants⟩ => by
    simp only [mapFloats, nested, List.map_cons, nestedIn_mapFloatsIn constants]

theorem nestedIn_mapFloatsIn :
    ∀ ks : List Constant, nestedIn (mapFloatsIn f ks) = (nestedIn ks).map (mapFloats f)
  | [] => by simp only [mapFloatsIn, nestedIn, List.map_nil]
  | .code c :: rest => by
    simp only [mapFloatsIn, nestedIn, List.map_append, nested_mapFloats c,
      nestedIn_mapFloatsIn rest]
  | .float _ :: rest => by simp only [mapFloatsIn, nestedIn, nestedIn_mapFloatsIn rest]
  | .name _ :: rest | .string _ :: rest | .int _ :: rest | .noCode :: rest
  | .unknown _ :: rest => by
    simp only [mapFloatsIn, nestedIn, nestedIn_mapFloatsIn rest]

end

mutual

/-- Nothing is changed if no number is. -/
theorem mapFloats_eq_self_iff : ∀ c : Code,
    c.mapFloats f = c ↔ ∀ o ∈ c.nested, ∀ x, .float x ∈ o.constants → f x = x
  | ⟨name, filename, kind, firstLine, params, vararg, kwarg, instructions, lineTable,
    constants⟩ => by
    simp only [mapFloats, nested, List.forall_mem_cons, CodeObject.mk.injEq, true_and,
      mapFloatsIn_eq_self_iff constants]

theorem mapFloatsIn_eq_self_iff : ∀ ks : List Constant,
    mapFloatsIn f ks = ks ↔ (∀ x, .float x ∈ ks → f x = x) ∧
      ∀ o ∈ nestedIn ks, ∀ x, .float x ∈ o.constants → f x = x
  | [] => by simp [mapFloatsIn, nestedIn]
  | .code c :: rest => by
    simp only [mapFloatsIn, nestedIn, List.cons.injEq, Constant.code.injEq, mapFloats_eq_self_iff c,
      mapFloatsIn_eq_self_iff rest, List.mem_cons, reduceCtorEq, false_or, List.forall_mem_append]
    exact and_left_comm
  | .float y :: rest => by
    simp [mapFloatsIn, nestedIn, mapFloatsIn_eq_self_iff rest, and_assoc]
  | .name _ :: rest | .string _ :: rest | .int _ :: rest | .noCode :: rest
  | .unknown _ :: rest => by
    simp [mapFloatsIn, nestedIn, mapFloatsIn_eq_self_iff rest]

end

/-- A valid code object is valid with other numbers. -/
theorem verify_mapFloats {c : Code} (hv : c.verify = .ok ()) : (c.mapFloats f).verify = .ok () := by
  apply verify_remade (nested_mapFloats f c) _ hv
  intro o
  refine ⟨_, _, ⟨fun _ => rfl, ?_, ?_⟩, mapFloats_eq f o, fun hlines => hlines⟩
  · intro k
    cases k <;> rfl
  · intro k hk
    cases k with
    | code c => exact ⟨nofun, nofun⟩
    | float x => exact ⟨nofun, nofun⟩
    | _ => exact hk

/-- One code object, without those in its pool, as a machine with words of sixty-four bits holds it:
lines are words, lengths are too, and a kind that has a name is not held as a number. -/
structure ObjectHeld (c : Code) : Prop where
  kind : ∀ n, c.kind = .other n → CodeKind.ofNumber? n = none
  firstLine : isInt64 c.firstLine = true
  lines : ∀ line ∈ c.lines, isInt64 line = true
  params : c.params.length < twoPow 64
  instructions : c.instructions.length < twoPow 64
  lineTable : c.lines.length < twoPow 64
  constants : c.constants.length < twoPow 64

/-- A code object as a machine with words of sixty-four bits holds it. -/
structure Held (c : Code) : Prop where
  objects : ∀ o ∈ c.nested, o.ObjectHeld
  strings : ∀ t ∈ c.strings, t.length < twoPow 64

/-- All numbers in a code object are such as the form keeps. -/
def FloatsKept (c : Code) : Prop :=
  ∀ o ∈ c.nested, ∀ x, .float x ∈ o.constants → Interchange.keptFloat x = x

theorem exchanged_eq_self_iff (c : Code) : c.exchanged = c ↔ c.FloatsKept :=
  mapFloats_eq_self_iff Interchange.keptFloat c

theorem Held.self {c : Code} (h : c.Held) : c.ObjectHeld :=
  h.objects c (by rw [nested_eq]; exact List.mem_cons_self)

theorem mem_nested_of_mem {c o o' : Code} (ho : .code o ∈ c.constants) (ho' : o' ∈ o.nested) :
    o' ∈ c.nested := by
  rw [nested_eq]
  exact List.mem_cons_of_mem _ (nested_subset_of_mem ho ho')

theorem mem_strings_of_mem {c : Code} {k : Constant} {t : Text} (hk : k ∈ c.constants)
    (ht : t ∈ stringsOf [k]) : t ∈ c.strings := by
  have := stringsOf_subset_of_mem hk ht
  simp [strings_eq, this]

theorem stringsOf_eq_flatMap (ks : List Constant) :
    stringsOf ks = ks.flatMap fun k => stringsOf [k] := by
  induction ks with
  | nil => simp [stringsOf]
  | cons k ks ih => cases k <;> simp [stringsOf, ih]

theorem stringsOf_code (c : Code) : stringsOf [.code c] = c.strings := by
  simp [stringsOf]

theorem exchanged_eq (c : Code) :
    c.exchanged =
      { c with constants := c.constants.map (mapFloatsConstant Interchange.keptFloat) } := by
  unfold exchanged
  rw [mapFloats_eq]
  rfl

theorem nested_exchanged (c : Code) : c.exchanged.nested = c.nested.map exchanged :=
  nested_mapFloats Interchange.keptFloat c

theorem Held.of_mem {c o : Code} (h : c.Held) (ho : .code o ∈ c.constants) : o.Held where
  objects o' ho' := h.objects o' (mem_nested_of_mem ho ho')
  strings t ht := h.strings t (mem_strings_of_mem ho (by rwa [stringsOf_code]))

end Code

/-! ## Values that look alike from outside -/

namespace Cbor

/-- Two values have the same encoding and keep to the same limits. -/
structure Alike (v w : Cbor) : Prop where
  encode : v.encode = w.encode
  levels : v.levels = w.levels
  largest : v.largest = w.largest

theorem Alike.refl (v : Cbor) : Alike v v := ⟨rfl, rfl, rfl⟩

theorem Alike.array {vs ws : List Cbor} (h : List.Forall₂ Alike vs ws) :
    Alike (array vs) (array ws) := by
  have hlength : vs.length = ws.length := h.length_eq
  have hitems : encodeItems vs = encodeItems ws ∧ levelsOfItems vs = levelsOfItems ws ∧
      largestOfItems vs = largestOfItems ws := by
    clear hlength
    induction h with
    | nil => exact ⟨rfl, rfl, rfl⟩
    | cons hv _ ih =>
      obtain ⟨hencode, hlevels, hlargest⟩ := ih
      refine ⟨?_, ?_, ?_⟩
      · rw [encodeItems, encodeItems, hv.encode, hencode]
      · rw [levelsOfItems, levelsOfItems, hv.levels, hlevels]
      · rw [largestOfItems, largestOfItems, hv.largest, hlargest]
  obtain ⟨hencode, hlevels, hlargest⟩ := hitems
  constructor
  · rw [Cbor.encode, Cbor.encode, hlength, hencode]
  · rw [Cbor.levels, Cbor.levels, hlevels]
  · rw [Cbor.largest, Cbor.largest, hlength, hlargest]

/-- Entries with the same key and values that look alike. -/
def AlikeEntries (e e' : Cbor × Cbor) : Prop := e.1 = e'.1 ∧ Alike e.2 e'.2

theorem AlikeEntries.refl (e : Cbor × Cbor) : AlikeEntries e e := ⟨rfl, .refl e.2⟩

theorem Alike.map {es es' : List (Cbor × Cbor)} (h : List.Forall₂ AlikeEntries es es') :
    Alike (map es) (map es') := by
  have hlength : es.length = es'.length := h.length_eq
  have hentries : encodeEntries es = encodeEntries es' ∧
      levelsOfEntries es = levelsOfEntries es' ∧ largestOfEntries es = largestOfEntries es' := by
    clear hlength
    induction h with
    | nil => exact ⟨rfl, rfl, rfl⟩
    | @cons e e' _ _ he _ ih =>
      obtain ⟨hencode, hlevels, hlargest⟩ := ih
      obtain ⟨k, v⟩ := e
      obtain ⟨k', v'⟩ := e'
      obtain ⟨rfl, hv⟩ : k = k' ∧ Alike v v' := he
      refine ⟨?_, ?_, ?_⟩
      · rw [encodeEntries, encodeEntries, hv.encode, hencode]
      · rw [levelsOfEntries, levelsOfEntries, hv.levels, hlevels]
      · rw [largestOfEntries, largestOfEntries, hv.largest, hlargest]
  obtain ⟨hencode, hlevels, hlargest⟩ := hentries
  constructor
  · rw [Cbor.encode, Cbor.encode, hlength, hencode]
  · rw [Cbor.levels, Cbor.levels, hlevels]
  · rw [Cbor.largest, Cbor.largest, hlength, hlargest]

/-! ## Parts of values -/

theorem levels_le_of_mem_items {v : Cbor} {items : List Cbor} (h : v ∈ items) :
    v.levels ≤ levelsOfItems items := by
  induction items with
  | nil => cases h
  | cons w items ih =>
    rcases List.mem_cons.mp h with rfl | h
    · exact Nat.le_max_left _ _
    · exact (ih h).trans (Nat.le_max_right _ _)

theorem levels_le_of_mem_entries {k v : Cbor} {entries : List (Cbor × Cbor)}
    (h : (k, v) ∈ entries) : v.levels ≤ levelsOfEntries entries := by
  induction entries with
  | nil => cases h
  | cons e entries ih =>
    obtain ⟨k', v'⟩ := e
    rw [levelsOfEntries]
    rcases List.mem_cons.mp h with heq | h
    · cases heq
      omega
    · exact (ih h).trans (Nat.le_max_right _ _)

theorem allPlain_iff (items : List Cbor) : AllPlain items ↔ ∀ v ∈ items, v.Plain := by
  induction items with
  | nil => simp [AllPlain]
  | cons v items ih => simp [AllPlain, ih]

theorem entriesPlain_iff (entries : List (Cbor × Cbor)) :
    EntriesPlain entries ↔ ∀ e ∈ entries, e.1.Plain ∧ e.2.Plain := by
  induction entries with
  | nil => simp [EntriesPlain]
  | cons e entries ih => simp [EntriesPlain, ih, and_assoc]

end Cbor

/-! ## What the form keeps of a record -/

namespace CodeRecord

open Interchange

/-- What the form keeps of a code object as it is held. -/
def kept : CodeRecord → CodeRecord :=
  fold (fun r => { r with params := heldList (r.params.getD []), constants := heldList r.pool })
    fun k => ⟨{ k with float := keptFloat k.float, code := k.body? }⟩

/-- What the form keeps of a constant as it is held. -/
def keptConstant (k : ConstantRecord) : ConstantRecord :=
  ⟨{ k.fields with float := keptFloat k.fields.float, code := k.fields.body?.map kept }⟩

theorem kept_eq (r : CodeRecord) : r.kept =
    { r with params := heldList (r.params.getD [])
             constants := heldList (r.pool.map keptConstant) } := by
  rw [kept, fold_eq]
  simp only [RecordOf.pool_map]
  refine congrArg (fun ks => ({ r with
    params := heldList (r.params.getD []), constants := heldList ks } : CodeRecord))
    (List.map_congr_left fun k _ => ?_)
  rw [foldOne_eq, ConstantOf.body?_map]
  rfl

@[simp] theorem pool_kept (r : CodeRecord) : r.kept.pool = r.pool.map keptConstant := by
  rw [kept_eq, RecordOf.pool, getD_heldList]

theorem body?_keptConstant (k : ConstantRecord) :
    (keptConstant k).fields.body? = k.fields.body?.map kept := by
  by_cases htag : k.fields.tag = codeTag
  · exact if_pos htag
  · have hbody : k.fields.body? = none := if_neg htag
    rw [hbody]
    exact if_neg htag

theorem meaning_of_not_codeTag {k : ConstantRecord} (h : k.fields.tag ≠ codeTag) :
    meaning (keptConstant k) = Code.mapFloatsConstant keptFloat (meaning k) := by
  have htag : (keptConstant k).fields.tag = k.fields.tag := rfl
  unfold meaning ConstantOf.meaning ConstantOf.map
  dsimp only
  rw [htag]
  split
  · rfl
  · rfl
  · rfl
  · rfl
  · rename_i hfour
    exact absurd (UInt8.toNat_inj.mp (hfour : _ = codeTag.toNat)) h
  · rfl

/-- What the form keeps of a record is for what it keeps of the code object. -/
theorem code_kept (r : CodeRecord) : r.kept.code = r.code.exchanged := by
  induction r using inductionOnPool with
  | step r ih =>
    have hconstants : r.kept.pool.map meaning =
        (r.pool.map meaning).map (Code.mapFloatsConstant keptFloat) := by
      rw [pool_kept, List.map_map, List.map_map]
      refine List.map_congr_left fun k hk => ?_
      -- only a constant that is a code object changes further inside
      by_cases htag : k.fields.tag = codeTag
      · cases hcode : k.fields.code with
        | none =>
          have hbody : k.fields.body? = none := by rw [ConstantOf.body?, hcode, ite_self]
          have hkept : (keptConstant k).fields.code = none := by
            show k.fields.body?.map kept = none
            rw [hbody]
            rfl
          rw [Function.comp_apply, Function.comp_apply, meaning_of_none htag hcode,
            meaning_of_none (k := keptConstant k) htag hkept]
          rfl
        | some o =>
          have hbody : k.fields.body? = some o := by rw [ConstantOf.body?, if_pos htag, hcode]
          have hkept : (keptConstant k).fields.body? = some o.kept := by
            rw [body?_keptConstant, hbody]
            rfl
          rw [Function.comp_apply, Function.comp_apply, meaning_of_body? hbody,
            meaning_of_body? hkept, ih k hk o hbody]
          rfl
      · exact meaning_of_not_codeTag htag
    rw [code_eq r.kept, hconstants, Code.exchanged_eq, code_eq r, kept_eq]
    simp only [getD_heldList]

/-- The texts of one code object, with those of its constants. -/
def texts (r : CodeRecord) : List Text :=
  [r.name, r.filename, r.vararg, r.kwarg] ++ r.params.getD [] ++ r.pool.map fun k => k.fields.string

theorem texts_kept (r : CodeRecord) : r.kept.texts = r.texts := by
  unfold texts
  rw [pool_kept, List.map_map, kept_eq, getD_heldList]
  rfl

/-- One code object, without those in its pool, as a machine with words of sixty-four bits holds
it: lines are words, and lengths are too. -/
structure ObjectHeld (r : CodeRecord) : Prop where
  firstLine : isInt64 r.firstLine = true
  lines : ∀ line ∈ r.lines.getD [], isInt64 line = true
  texts : ∀ t ∈ r.texts, t.length < twoPow 64
  params : (r.params.getD []).length < twoPow 64
  instructions : (r.instructions.getD []).length < twoPow 64
  lineTable : (r.lines.getD []).length < twoPow 64
  constants : r.pool.length < twoPow 64

theorem ObjectHeld.kept {r : CodeRecord} (h : r.ObjectHeld) : r.kept.ObjectHeld := by
  have htexts := h.texts
  have hconstants := h.constants
  rw [← texts_kept] at htexts
  rw [← List.length_map keptConstant, ← pool_kept] at hconstants
  rw [kept_eq] at htexts hconstants ⊢
  refine ⟨h.firstLine, h.lines, htexts, ?_, h.instructions, h.lineTable, hconstants⟩
  rw [getD_heldList]
  exact h.params

/-- A code object as a machine with words of sixty-four bits holds it. -/
def Held (r : CodeRecord) : Prop := ∀ o, r.Holds o → o.ObjectHeld

/-- All numbers in a code object are such as the form keeps, also those in constants of other
kinds. -/
def FloatsKept (r : CodeRecord) : Prop :=
  ∀ o, r.Holds o → ∀ k ∈ o.pool, keptFloat k.fields.float = k.fields.float

/-- What holds of all constants in a record holds of those of the outermost code object, and in
those that they use. -/
theorem floatsKept_iff (r : CodeRecord) : r.FloatsKept ↔ ∀ k ∈ r.pool,
    keptFloat k.fields.float = k.fields.float ∧ ∀ o, k.fields.body? = some o → o.FloatsKept := by
  unfold FloatsKept
  rw [forall_holds_iff]
  exact ⟨fun h k hk => ⟨h.1 k hk, h.2 k hk⟩,
    fun h => ⟨fun k hk => (h k hk).1, fun k hk => (h k hk).2⟩⟩

/-- The form keeps a code object exactly if it keeps the numbers in it. -/
theorem normal_kept_iff (r : CodeRecord) : r.kept.normal = r.normal ↔ r.FloatsKept := by
  induction r using inductionOnPool with
  | step r ih =>
    have hpool : r.kept.normal = r.normal ↔ ∀ k ∈ r.pool,
        ({ (keptConstant k).fields with code := (keptConstant k).fields.body?.map normal } :
          ConstantOf CodeRecord) = { k.fields with code := k.fields.body?.map normal } := by
      rw [normal_eq, normal_eq, pool_kept, kept_eq]
      simp only [getD_heldList, RecordOf.mk.injEq, List.map_map, Option.some.injEq, true_and,
        List.map_inj_left, Function.comp_apply, ConstantRecord.mk.injEq]
    rw [hpool, floatsKept_iff]
    -- constant by constant, the numbers and the code objects inside have to agree
    refine forall₂_congr fun k hk => ?_
    have hfields : (keptConstant k).fields =
        { k.fields with float := keptFloat k.fields.float, code := k.fields.body?.map kept } := rfl
    rw [body?_keptConstant, hfields]
    simp only [ConstantOf.mk.injEq, true_and, Option.map_map]
    refine and_congr_right fun _ => ?_
    cases hbody : k.fields.body? with
    | none =>
      exact ⟨fun _ => nofun, fun _ => rfl⟩
    | some o =>
      simp only [Option.map_some, Option.some.injEq, Function.comp_apply, ih k hk o hbody,
        forall_eq']

end CodeRecord


/-! ## The value of a code object -/

namespace Interchange

open Cbor CodeRecord

/-- The value of one constant. -/
def ofOne (k : ConstantRecord) : Cbor := .map (constantParts (k.fields.map ofRecord))

theorem ofRecord_eq (r : CodeRecord) : ofRecord r = .map (partsOf (r.map ofOne)) := by
  have hone : foldOne (fun r => .map (partsOf r)) (fun k => .map (constantParts k)) = ofOne :=
    funext fun k => foldOne_eq _ _ k
  rw [ofRecord, fold_eq, hone]

/-! ### What is lost does not show -/

theorem alike_float (key : Nat) (x : Binary64) : List.Forall₂ AlikeEntries
    (if isZero (keptFloat x) then [] else [entry key (.float (keptFloat x))])
    (if isZero x then [] else [entry key (.float x)]) := by
  unfold keptFloat
  by_cases hzero : isZero x = true
  · rw [if_pos hzero, if_pos hzero]
    exact .nil
  by_cases hnan : x.isNaN = true
  · rw [if_neg hzero, if_pos hnan, if_neg (by decide), if_neg hzero]
    have hkept : Cbor.nan.isNaN = true := by decide
    have halike : Alike (.float Cbor.nan) (.float x) := by
      constructor
      · rw [Cbor.encode, Cbor.encode, encodeFloat, encodeFloat, if_pos hkept, if_pos hnan]
      · rw [Cbor.levels, Cbor.levels]
      · rw [Cbor.largest, Cbor.largest]
    exact .cons ⟨rfl, halike⟩ .nil
  · rw [if_neg hzero, if_neg hnan, if_neg hzero]
    exact List.forall₂_same.mpr fun e _ => .refl e

theorem alike_ofOne {k : ConstantRecord}
    (h : ∀ o, k.fields.body? = some o → Alike (ofRecord o.kept) (ofRecord o)) :
    Alike (ofOne (keptConstant k)) (ofOne k) := by
  apply Alike.map
  unfold constantParts
  rw [ConstantOf.body?_map, ConstantOf.body?_map, body?_keptConstant]
  refine .cons (.refl _) (List.rel_append (List.rel_append ?_ (alike_float 4 _)) ?_)
  · exact List.forall₂_same.mpr fun e _ => .refl e
  · cases hbody : k.fields.body? with
    | none => exact .nil
    | some o => exact .cons ⟨rfl, h o hbody⟩ .nil

theorem getD_constants_map (r : CodeRecord) :
    (r.map ofOne).constants.getD [] = r.pool.map ofOne := RecordOf.pool_map ofOne r

/-- What is lost of a code object does not show in its form. -/
theorem alike_ofRecord (r : CodeRecord) : Alike (ofRecord r.kept) (ofRecord r) := by
  induction r using inductionOnPool with
  | step r ih =>
    -- the induction is on the pool, so that the constants are alike already
    have hitems : List.Forall₂ Alike ((r.pool.map keptConstant).map ofOne) (r.pool.map ofOne) := by
      rw [List.map_map, List.forall₂_map_left_iff, List.forall₂_map_right_iff, List.forall₂_same]
      exact fun k hk => alike_ofOne (ih k hk)
    have hparams : listEntry 6 Cbor.ofText r.kept.params = listEntry 6 Cbor.ofText r.params := by
      rw [kept_eq, listEntry, listEntry, getD_heldList]
    have hconstants : List.Forall₂ AlikeEntries (listEntry 11 id (r.kept.map ofOne).constants)
        (listEntry 11 id (r.map ofOne).constants) := by
      rw [listEntry, listEntry, getD_constants_map, getD_constants_map, pool_kept]
      simp only [List.map_id, List.isEmpty_map]
      by_cases hnone : r.pool.isEmpty = true
      · rw [if_pos hnone, if_pos hnone]
        exact .nil
      · rw [if_neg hnone, if_neg hnone]
        exact .cons ⟨rfl, .array hitems⟩ .nil
    rw [ofRecord_eq, ofRecord_eq]
    apply Alike.map
    refine List.rel_append ?_ hconstants
    show List.Forall₂ AlikeEntries (_ ++ listEntry 6 Cbor.ofText r.kept.params ++ _ ++ _ ++ _) _
    rw [hparams, kept_eq]
    exact List.forall₂_same.mpr fun e _ => .refl e

/-! ### Levels -/

/-- The value of a code object that a constant uses has fewer levels. -/
theorem levels_lt_of_body? {r o : CodeRecord} {k : ConstantRecord} (hk : k ∈ r.pool)
    (ho : k.fields.body? = some o) : (ofRecord o).levels + 3 ≤ (ofRecord r).levels := by
  have hone : (ofRecord o).levels < (ofOne k).levels := by
    have hmem : (Cbor.unsigned 5, ofRecord o) ∈ constantParts (k.fields.map ofRecord) := by
      simp [constantParts, ConstantOf.body?_map, ho, entry]
    exact Nat.lt_succ_of_le (levels_le_of_mem_entries hmem)
  -- one level for the constant, one for the pool and one for the code object
  have hlist : (ofOne k).levels < (Cbor.array (r.pool.map ofOne)).levels := by
    exact Nat.lt_succ_of_le (levels_le_of_mem_items (List.mem_map_of_mem hk))
  have hpart : (Cbor.unsigned 11, Cbor.array (r.pool.map ofOne)) ∈ partsOf (r.map ofOne) := by
    have hsome : (r.pool.map ofOne).isEmpty = false := by
      rw [List.isEmpty_map, List.isEmpty_eq_false_iff]
      exact List.ne_nil_of_mem hk
    have hentry : listEntry 11 id (r.map ofOne).constants =
        [entry 11 (.array (r.pool.map ofOne))] := by
      rw [listEntry, getD_constants_map, hsome, List.map_id]
      rfl
    unfold partsOf
    rw [hentry, List.mem_append]
    exact .inr List.mem_cons_self
  have := levels_le_of_mem_entries hpart
  rw [ofRecord_eq r, Cbor.levels]
  omega

theorem levels_pos (r : CodeRecord) : 0 < (ofRecord r).levels := by
  rw [ofRecord_eq, Cbor.levels]
  exact Nat.succ_pos _

/-! ### Values that are written as they are -/

-- The equations are derived once, and not by each of the proofs that rewrite with them.
attribute [local grind =] Plain

theorem plain_entry {key : Nat} {v : Cbor} (hkey : key < twoPow 64) (hv : v.Plain) :
    (entry key v).1.Plain ∧ (entry key v).2.Plain := ⟨by simpa [entry, Plain] using hkey, hv⟩

theorem plain_ofText {t : Text} (h : t.length < twoPow 64) : (Cbor.ofText t).Plain := by
  exact ⟨t, rfl, h⟩

theorem plain_octet (b : UInt8) : (Cbor.unsigned b.toNat).Plain := by
  exact b.toNat_lt.trans (by decide)

theorem plain_ofInt {n : Int} (h : isInt64 n = true) : (Cbor.ofInt n).Plain := by
  have h63 : ((twoPow 63 : Nat) : Int) = 9223372036854775808 := rfl
  have h64 : twoPow 64 = 18446744073709551616 := rfl
  rw [isInt64_iff, h63] at h
  unfold Cbor.ofInt
  split <;> rw [Plain] <;> omega

theorem plain_null : Cbor.null.Plain := by
  unfold Cbor.null
  rw [Plain]
  decide

theorem plain_array {vs : List Cbor} (hlength : vs.length < twoPow 64) (h : ∀ v ∈ vs, v.Plain) :
    (Cbor.array vs).Plain := by
  rw [Plain, allPlain_iff]
  exact ⟨hlength, h⟩

theorem isNaN_keptFloat {x : Binary64} (h : (keptFloat x).isNaN = true) :
    keptFloat x = Cbor.nan := by
  unfold keptFloat at h ⊢
  split at h <;> rename_i hzero
  · exact absurd h (by decide)
  · rw [if_neg hzero]
    split at h <;> rename_i hnan
    · rw [if_pos hnan]
    · exact absurd h hnan

theorem plain_textEntry {key : Nat} {t : Text} (hkey : key < twoPow 64) (h : t.length < twoPow 64) :
    ∀ e ∈ textEntry key t, e.1.Plain ∧ e.2.Plain := by
  unfold textEntry
  split
  · nofun
  · rw [List.forall_mem_singleton]
    exact plain_entry hkey (plain_ofText h)

theorem plain_optional {key : Nat} {v : Cbor} {b : Bool} (hkey : key < twoPow 64)
    (hv : b = false → v.Plain) :
    ∀ e ∈ (if b then [] else [entry key v]), e.1.Plain ∧ e.2.Plain := by
  cases b with
  | true => nofun
  | false =>
    rw [if_neg Bool.false_ne_true, List.forall_mem_singleton]
    exact plain_entry hkey (hv rfl)

theorem plain_listEntry {α : Type} {key : Nat} {value : α → Cbor} {items : Option (List α)}
    (hkey : key < twoPow 64) (hlength : (items.getD []).length < twoPow 64)
    (h : ∀ a ∈ items.getD [], (value a).Plain) :
    ∀ e ∈ listEntry key value items, e.1.Plain ∧ e.2.Plain := by
  refine plain_optional hkey fun _ => plain_array ?_ ?_
  · rwa [List.length_map]
  · rwa [List.forall_mem_map]

theorem plain_orNull {α : Type} {value : α → Cbor} {a : Option α}
    (h : ∀ b, a = some b → (value b).Plain) : (orNull value a).Plain := by
  cases a with
  | none => exact plain_null
  | some b => exact h b rfl

theorem length_constantParts_le (k : ConstantOf Cbor) : (constantParts k).length ≤ 5 := by
  unfold constantParts textEntry
  cases k.body? <;> repeat' split
  all_goals simp

theorem plain_ofOne {k : ConstantRecord} (hstring : k.fields.string.length < twoPow 64)
    (h : ∀ o, k.fields.body? = some o → (ofRecord o.kept).Plain) :
    (ofOne (keptConstant k)).Plain := by
  have hbody : ∀ e ∈ (((keptConstant k).fields.map ofRecord).body?.map (entry 5)).toList,
      e.1.Plain ∧ e.2.Plain := by
    rw [ConstantOf.body?_map, body?_keptConstant]
    cases hk : k.fields.body? with
    | none => nofun
    | some o =>
      simp only [Option.map_some, Option.toList_some, List.forall_mem_singleton]
      exact plain_entry (by decide) (h o hk)
  have hfloat : ∀ e ∈ (if isZero (keptFloat k.fields.float) then []
      else [entry 4 (.float (keptFloat k.fields.float))]), e.1.Plain ∧ e.2.Plain := by
    refine plain_optional (by decide) fun _ => ?_
    exact isNaN_keptFloat
  have hint : ∀ e ∈ (if k.fields.int = 0 then [] else [entry 3 (.ofInt k.fields.int.toInt)]),
      e.1.Plain ∧ e.2.Plain := by
    split
    · nofun
    · rw [List.forall_mem_singleton]
      exact plain_entry (by decide) (plain_ofInt (isInt64_toInt _))
  have hlength := length_constantParts_le ((keptConstant k).fields.map ofRecord)
  have h64 : twoPow 64 = 18446744073709551616 := rfl
  rw [ofOne, Plain, entriesPlain_iff]
  refine ⟨by omega, ?_⟩
  unfold constantParts
  rw [List.forall_mem_cons, List.forall_mem_append, List.forall_mem_append, List.forall_mem_append]
  exact ⟨plain_entry (by decide) (plain_octet _),
    ⟨⟨plain_textEntry (by decide) hstring, hint⟩, hfloat⟩, hbody⟩

theorem plain_partsOf {r : CodeRecord} (h : r.ObjectHeld)
    (hconstants : ∀ k ∈ r.pool, (ofOne k).Plain) :
    ∀ e ∈ partsOf (r.map ofOne), e.1.Plain ∧ e.2.Plain := by
  have htexts := h.texts
  unfold CodeRecord.texts at htexts
  simp only [List.forall_mem_append, List.forall_mem_cons] at htexts
  obtain ⟨⟨⟨hname, hfilename, hvararg, hkwarg, -⟩, hparams⟩, -⟩ := htexts
  have hinstructions : (orNull Cbor.bytes r.instructions).Plain := by
    refine plain_orNull fun b hb => ?_
    have hlength := h.instructions
    rw [hb] at hlength
    exact hlength
  have hlines : (orNull (fun lines => Cbor.array (lines.map Cbor.ofInt)) r.lines).Plain := by
    refine plain_orNull fun lines hb => ?_
    have hall := h.lines
    have hlength := h.lineTable
    rw [hb] at hall hlength
    refine plain_array (by rwa [List.length_map]) ?_
    rw [List.forall_mem_map]
    exact fun line hline => plain_ofInt (hall line hline)
  unfold partsOf
  simp only [List.forall_mem_append, List.forall_mem_cons]
  refine ⟨⟨⟨⟨⟨⟨?_, ?_, ?_, ?_, ?_, nofun⟩, ?_⟩, ?_⟩, ?_⟩, ?_, ?_, nofun⟩, ?_⟩
  · exact plain_entry (by decide) (by rw [Plain]; decide)
  · exact plain_entry (by decide) (plain_ofText hname)
  · exact plain_entry (by decide) (plain_ofText hfilename)
  · exact plain_entry (by decide) (plain_octet _)
  · exact plain_entry (by decide) (plain_ofInt h.firstLine)
  · exact plain_listEntry (by decide) h.params fun t ht => plain_ofText (hparams t ht)
  · exact plain_textEntry (by decide) hvararg
  · exact plain_textEntry (by decide) hkwarg
  · exact plain_entry (by decide) hinstructions
  · exact plain_entry (by decide) hlines
  · refine plain_listEntry (by decide) ?_ ?_
    · rw [getD_constants_map, List.length_map]
      exact h.constants
    · rw [getD_constants_map, List.forall_mem_map]
      exact hconstants

/-- The value of a code object is written as it is, once it has lost what it loses. -/
theorem plain_ofRecord {r : CodeRecord} (h : r.Held) : (ofRecord r.kept).Plain := by
  induction r using inductionOnPool with
  | step r ih =>
    have hself := h r (.self r)
    have hconstants : ∀ k ∈ r.kept.pool, (ofOne k).Plain := by
      rw [pool_kept, List.forall_mem_map]
      intro k hk
      refine plain_ofOne (hself.texts _ ?_) fun o ho =>
        ih k hk o ho fun o' ho' => h o' (.nested hk ho ho')
      exact List.mem_append_right _ (List.mem_map_of_mem hk)
    -- each part is one entry at most, and there are eleven
    have hlength : (partsOf (r.kept.map ofOne)).length ≤ 11 := by
      unfold partsOf textEntry listEntry
      repeat' split
      all_goals simp
    have h64 : twoPow 64 = 18446744073709551616 := rfl
    rw [ofRecord_eq, Plain, entriesPlain_iff]
    exact ⟨by omega, plain_partsOf hself.kept hconstants⟩

end Interchange

end Toolchain

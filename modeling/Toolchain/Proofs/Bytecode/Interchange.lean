import Toolchain.Proofs.Bytecode.Exchange

/-!
# Reading back the interchange form

The value of a code object has the parts of the code object that are not empty, so it is read back
part by part, as what the form keeps. The limits of the reader decide whether the value is read at
all.

## Main definitions

* `CodeRecord.Fits`: the code objects that the reader admits
* `Interchange.Fits`: the same for what code objects mean

## Main results

* `Interchange.toRecord?_ofRecord_iff`: a value is read back if its texts and kinds are valid
* `Interchange.decodeRecord_ofRecord_iff`, `Interchange.decode_ofCode_iff`: **the form of a code
  object is read back exactly if it fits**
* `Interchange.decodeRecord_written`: which code objects are read back the same, and which have the
  same form
-/

namespace Toolchain

namespace Interchange

open Cbor CodeRecord

/-! ## Parts that are read back -/

section Parts

variable {key other : Nat} {v : Cbor} {rest : List (Cbor × Cbor)}

-- The equations are derived once, and not by each of the proofs that rewrite with them.
attribute [local grind =] isKeyOf untagged?

theorem part_entry : part key (entry key v :: rest) = v := by
  simp [part, entry, isKeyOf]

theorem part_other (h : other ≠ key) : part key (entry other v :: rest) = part key rest := by
  simp [part, entry, isKeyOf, h]

theorem part_optional (p : Prop) [Decidable p] :
    part key ((if p then [] else [entry other v]) ++ rest) =
      if other = key ∧ ¬ p then v else part key rest := by
  by_cases hp : p
  · simp [hp]
  · by_cases h : other = key
    · subst h
      simp [part_entry, hp]
    · simp [part_other h, h, hp]

theorem part_nil : part key [] = .null := by
  simp [part]

theorem part_optional_last (p : Prop) [Decidable p] :
    part key (if p then [] else [entry other v]) = if other = key ∧ ¬ p then v else .null := by
  have h : part key ((if p then [] else [entry other v]) ++ []) = _ := part_optional p
  rwa [List.append_nil, part_nil] at h

theorem part_textEntry (t : Text) :
    part key (textEntry other t ++ rest) =
      if other = key then (if t.isEmpty then part key rest else .ofText t) else part key rest := by
  unfold textEntry
  rw [part_optional]
  by_cases h : other = key <;> cases t.isEmpty <;> simp [h]

end Parts

theorem text?_ofText (t : Text) : text? (.ofText t) = if t.isValid then some t else none := by
  simp [text?, untagged?, Cbor.ofText]

theorem text?_null : text? .null = some [] := rfl

/-- A text that is left out if it is empty is read back if it is valid. -/
theorem text?_optional (t : Text) :
    text? (if t.isEmpty then .null else .ofText t) = if t.isValid then some t else none := by
  cases t with
  | nil => rfl
  | cons b t => exact text?_ofText (b :: t)

theorem octet?_octet (b : UInt8) : octet? (.unsigned b.toNat) = some b := by
  have h : 0 ≤ (b.toNat : Int) ∧ (b.toNat : Int) < 256 := by
    have := b.toNat_lt
    omega
  simp [octet?, integer?, untagged?, h]

theorem int64?_ofInt (n : Int) : int64? (.ofInt n) = if isInt64 n then some n else none := by
  have hinteger : integer? (.ofInt n) = some n := by
    unfold Cbor.ofInt
    split
    · simp only [integer?, untagged?, Option.bind_eq_bind, Option.bind_some, Option.pure_def,
        Option.some.injEq]
      omega
    · simp only [integer?, untagged?, Option.bind_eq_bind, Option.bind_some, Option.pure_def,
        Option.some.injEq]
      omega
  simp [int64?, hinteger]

theorem int64?_null : int64? .null = some 0 := rfl

theorem number?_null : number? .null = some ⟨0⟩ := by decide +kernel

theorem list?_array {α : Type} (item : Cbor → Option α) (vs : List Cbor) :
    list? item (.array vs) = vs.mapM item := rfl

theorem mapM_eq_ite {α : Type} {item : Cbor → Option α} {value : α → Cbor} {good : α → Bool}
    (h : ∀ a, item (value a) = if good a then some a else none) (as : List α) :
    (as.map value).mapM item = if as.all good then some as else none := by
  induction as with
  | nil => rfl
  | cons a as ih =>
    simp only [List.map_cons, List.mapM_cons, List.all_cons, h, ih]
    by_cases hgood : good a = true <;> by_cases hall : as.all good = true <;> simp [hgood, hall]

theorem optional?_bytes (b : Option (List UInt8)) :
    optional? octets? (orNull Cbor.bytes b) = some b := by
  cases b <;> rfl

theorem optional?_lines {lines : Option (List Int)}
    (h : ∀ line ∈ lines.getD [], isInt64 line = true) :
    optional? (list? int64?) (orNull (fun ns => .array (ns.map Cbor.ofInt)) lines) =
      some lines := by
  cases lines with
  | none => rfl
  | some ns =>
    have hread : list? int64? (.array (ns.map Cbor.ofInt)) = some ns := by
      rw [list?_array, mapM_eq_ite int64?_ofInt]
      exact if_pos (List.all_eq_true.mpr h)
    unfold optional? orNull
    simp [untagged?, isNull, hread]

/-- Texts that are left out if there are none are read back if they are valid, and are missing if
there are none. -/
theorem optional?_texts (ts : List Text) :
    optional? (list? text?) (if ts.isEmpty then .null else .array (ts.map Cbor.ofText)) =
      if ts.all Text.isValid then some (heldList ts) else none := by
  cases ts with
  | nil => rfl
  | cons t ts =>
    have hread : list? text? (.array ((t :: ts).map Cbor.ofText)) =
        if (t :: ts).all Text.isValid then some (t :: ts) else none := by
      rw [list?_array, mapM_eq_ite text?_ofText]
    rw [if_neg (by simp)]
    unfold optional?
    rw [hread]
    by_cases hall : (t :: ts).all Text.isValid = true
    · rw [if_pos hall, if_pos hall]
      rfl
    · rw [if_neg hall, if_neg hall]
      rfl

theorem list?_optional {α : Type} (item : Cbor → Option α) (vs : List Cbor) :
    list? item (if vs.isEmpty then .null else .array vs) = vs.mapM item := by
  cases vs <;> rfl

theorem bind_of_eq_some {α β : Type} {o : Option α} {a : α} (h : o = some a) (f : α → Option β) :
    (o >>= f) = f a := by
  rw [h]
  rfl

/-! ## Constants that are read back -/

theorem part_constantParts (k : ConstantOf Cbor) :
    part 1 (constantParts k) = .unsigned k.tag.toNat ∧
      part 2 (constantParts k) = (if k.string.isEmpty then .null else .ofText k.string) ∧
      part 3 (constantParts k) = (if k.int = 0 then .null else .ofInt k.int.toInt) ∧
      part 4 (constantParts k) = (if isZero k.float then .null else .float k.float) ∧
      part 5 (constantParts k) = k.body?.getD .null := by
  have hbody (key : Nat) : part key (k.body?.map (entry 5)).toList =
      if 5 = key then k.body?.getD .null else .null := by
    cases k.body? with
    | none => simp [part_nil]
    | some v =>
      by_cases hkey : 5 = key
      · subst hkey
        simp [part_entry]
      · simp [part_other hkey, part_nil, hkey]
  unfold constantParts
  simp only [List.append_assoc, part_entry, part_other (show 1 ≠ 2 by decide),
    part_other (show 1 ≠ 3 by decide), part_other (show 1 ≠ 4 by decide),
    part_other (show 1 ≠ 5 by decide), part_textEntry, part_optional, hbody, Nat.reduceEqDiff,
    if_true, if_false, true_and, false_and]
  refine ⟨?_, ?_⟩
  · by_cases h : k.int = 0 <;> simp [h]
  · cases isZero k.float <;> exact ⟨rfl, trivial⟩

theorem parts?_ofOne (k : ConstantRecord) :
    parts? (ofOne k) = some (constantParts (k.fields.map ofRecord)) := by
  have hkeys : ((constantParts (k.fields.map ofRecord)).all fun e => isKey e.1) = true := by
    unfold constantParts textEntry
    simp only [List.all_append, List.all_cons, Bool.and_eq_true]
    refine ⟨rfl, ⟨⟨?_, ?_⟩, ?_⟩, ?_⟩
    · split <;> rfl
    · split <;> rfl
    · split <;> rfl
    · cases (k.fields.map ofRecord).body? <;> rfl
  unfold parts? ofOne
  simp [untagged?, hkeys]

theorem isNull_ofRecord (r : CodeRecord) : isNull (ofRecord r) = false := by
  rw [ofRecord_eq]
  rfl

theorem int64?_optional (n : Int64) :
    int64? (if n = 0 then .null else .ofInt n.toInt) = some n.toInt := by
  split
  · rename_i hzero
    rw [hzero]
    rfl
  · rw [int64?_ofInt, if_pos (isInt64_toInt n)]

theorem number?_optional {x : Binary64} (h : keptFloat x = x) :
    number? (if isZero x then .null else .float x) = some x := by
  unfold keptFloat at h
  split
  · rename_i hzero
    rw [if_pos hzero] at h
    rw [number?_null, h]
  · rfl

section Constants

variable {nested : Cbor → Option (Except FileError CodeRecord)} {k : ConstantRecord}

/-- A constant whose text is valid is read up to its code object. -/
theorem toConstant?_of_isValid (hvalid : k.fields.string.isValid = true)
    (hfloat : keptFloat k.fields.float = k.fields.float) :
    toConstant? nested (ofOne k) =
      (match k.fields.body? with
        | none => some none
        | some o => (nested (ofRecord o)).map some).map fun code =>
          checkedConstant { k.fields with code } := by
  obtain ⟨h1, h2, h3, h4, h5⟩ := part_constantParts (k.fields.map ofRecord)
  rw [ConstantOf.body?_map] at h5
  refine (bind_of_eq_some (parts?_ofOne k) _).trans ?_
  rw [h1, h2, h3, h4, h5]
  refine (bind_of_eq_some (octet?_octet _) _).trans ?_
  refine (bind_of_eq_some ((text?_optional _).trans (if_pos hvalid)) _).trans ?_
  refine (bind_of_eq_some (int64?_optional _) _).trans ?_
  refine (bind_of_eq_some (number?_optional hfloat) _).trans ?_
  rw [show Int64.ofInt (k.fields.map ofRecord).int.toInt = k.fields.int from Int64.ofInt_toInt _]
  cases k.fields.body? with
  | none => rfl
  | some o =>
    rw [Option.map_some, Option.getD_some, isNull_ofRecord, if_neg Bool.false_ne_true]
    dsimp only
    cases nested (ofRecord o) <;> rfl

/-- A constant is read only if its text is valid. -/
theorem isValid_of_toConstant? {outcome : Except FileError ConstantRecord}
    (h : toConstant? nested (ofOne k) = some outcome) : k.fields.string.isValid = true := by
  obtain ⟨-, h2, -⟩ := part_constantParts (k.fields.map ofRecord)
  rw [toConstant?, bind_of_eq_some (parts?_ofOne k), h2, text?_optional] at h
  obtain ⟨_, -, h⟩ := Option.bind_eq_some_iff.mp h
  obtain ⟨_, hstring, -⟩ := Option.bind_eq_some_iff.mp h
  exact (Option.ite_none_right_eq_some.mp hstring).1

theorem checkedConstant_of_lt {k : ConstantOf (Except FileError CodeRecord)}
    (h : k.tag.toNat < 4) : checkedConstant k = .ok ⟨{ k with code := none }⟩ := by
  have hcases : k.tag.toNat = 0 ∨ k.tag.toNat = 1 ∨ k.tag.toNat = 2 ∨ k.tag.toNat = 3 := by omega
  unfold checkedConstant
  rcases hcases with h | h | h | h <;> rw [h] <;> rfl

theorem checkedConstant_code {k : ConstantOf (Except FileError CodeRecord)}
    {outcome : Except FileError CodeRecord} (htag : k.tag = codeTag) (h : k.code = some outcome) :
    checkedConstant k = outcome.map fun r => ⟨{ k with code := some r }⟩ := by
  obtain ⟨tag, string, int, float, code⟩ := k
  obtain rfl : tag = codeTag := htag
  obtain rfl : code = some outcome := h
  rfl

/-- **What the form keeps of a constant is read back** if its text is valid, and its code object is
read back. -/
theorem toConstant?_ofOne {good : CodeRecord → Prop}
    (hproper : k.fields.tag.toNat < 4 ∨ ∃ o, k.fields.body? = some o)
    (hcode : ∀ o, k.fields.body? = some o →
      ∀ b, nested (ofRecord o.kept) = some (.ok b) ↔ good o ∧ o.kept = b) (b : ConstantRecord) :
    toConstant? nested (ofOne (keptConstant k)) = some (.ok b) ↔
      (k.fields.string.isValid = true ∧ ∀ o, k.fields.body? = some o → good o) ∧
        keptConstant k = b := by
  by_cases hvalid : k.fields.string.isValid = true
  · have hread : toConstant? nested (ofOne (keptConstant k)) = _ :=
      toConstant?_of_isValid hvalid (keptFloat_keptFloat _)
    rw [body?_keptConstant] at hread
    rw [hread]
    cases hbody : k.fields.body? with
    | none =>
      have htag : k.fields.tag.toNat < 4 := by
        refine hproper.resolve_right ?_
        rintro ⟨o, ho⟩
        rw [hbody] at ho
        cases ho
      have hkept : keptConstant k = ⟨{ (keptConstant k).fields with code := none }⟩ := by
        unfold keptConstant
        rw [hbody]
        rfl
      rw [hkept]
      simp only [Option.map_none, Option.map_some, Option.some.injEq]
      rw [checkedConstant_of_lt htag, Except.ok.injEq]
      exact ⟨fun h => ⟨⟨hvalid, nofun⟩, h⟩, And.right⟩
    | some o =>
      have htag : k.fields.tag = codeTag := by
        unfold ConstantOf.body? at hbody
        split at hbody
        · assumption
        · cases hbody
      have hkept (d : CodeRecord) : (o.kept = d ↔
          keptConstant k = ⟨{ (keptConstant k).fields with code := some d }⟩) := by
        unfold keptConstant
        rw [hbody]
        simp [ConstantRecord.fields]
      have hnested := hcode o hbody
      simp only [Option.map_some, Option.some.injEq, forall_eq']
      cases houtcome : nested (ofRecord o.kept) with
      | none =>
        have hnot : ¬ good o := fun hgood => by
          have := (hnested _).mpr ⟨hgood, rfl⟩
          rw [houtcome] at this
          cases this
        simp [hnot]
      | some outcome =>
        rw [Option.map_some, Option.map_some, Option.some.injEq, checkedConstant_code htag rfl]
        cases outcome with
        | error e =>
          have hnot : ¬ good o := fun hgood => by
            have := (hnested _).mpr ⟨hgood, rfl⟩
            rw [houtcome] at this
            cases this
          simp [hnot, Except.map]
        | ok d =>
          obtain ⟨hgood, rfl⟩ := (hnested d).mp houtcome
          rw [Except.map, Except.ok.injEq, ← (hkept o.kept).mp rfl]
          exact ⟨fun h => ⟨⟨hvalid, hgood⟩, h⟩, And.right⟩
  · constructor
    · exact fun h => absurd (isValid_of_toConstant? h) hvalid
    · exact fun h => absurd h.1.1 hvalid

end Constants

/-! ## Code objects that are read back -/

/-- What is written of items is read if each of them is. -/
theorem mapM_read {α β : Type} {read : Cbor → Option (Except FileError β)} {value : α → Cbor}
    {back : α → β} {good : α → Prop} {as : List α}
    (h : ∀ a ∈ as, ∀ b, read (value a) = some (.ok b) ↔ good a ∧ back a = b) (bs : List β) :
    (∃ outcomes, (as.map value).mapM read = some outcomes ∧ outcomes.mapM id = .ok bs) ↔
      (∀ a ∈ as, good a) ∧ as.map back = bs := by
  induction as generalizing bs with
  | nil => simp [pure, Except.pure]
  | cons a as ih =>
    rw [List.forall_mem_cons] at h
    rw [List.forall_mem_cons]
    simp only [List.map_cons, List.mapM_cons, Option.bind_eq_bind, Option.bind_eq_some_iff,
      Option.pure_def, Option.some.injEq]
    constructor
    · rintro ⟨_, ⟨outcome, houtcome, outcomes, houtcomes, rfl⟩, hok⟩
      simp only [List.mapM_cons, id] at hok
      cases outcome with
      | error e => cases hok
      | ok b =>
        cases hrest : outcomes.mapM id with
        | error e =>
          rw [hrest] at hok
          cases hok
        | ok rest =>
          rw [hrest] at hok
          cases hok
          obtain ⟨ha, rfl⟩ := (h.1 b).mp houtcome
          obtain ⟨has, rfl⟩ := (ih h.2 rest).mp ⟨outcomes, houtcomes, hrest⟩
          exact ⟨⟨ha, has⟩, rfl⟩
    · rintro ⟨⟨ha, has⟩, rfl⟩
      obtain ⟨outcomes, houtcomes, hrest⟩ := (ih h.2 (as.map back)).mpr ⟨has, rfl⟩
      refine ⟨_, ⟨.ok (back a), (h.1 _).mpr ⟨ha, rfl⟩, outcomes, houtcomes, rfl⟩, ?_⟩
      simp only [List.mapM_cons, id, hrest]
      rfl

theorem part_partsOf (r : RecordOf Cbor) :
    part 1 (partsOf r) = .unsigned version ∧ part 2 (partsOf r) = .ofText r.name ∧
      part 3 (partsOf r) = .ofText r.filename ∧
      part 4 (partsOf r) = .unsigned r.kind.toNat ∧
      part 5 (partsOf r) = .ofInt r.firstLine ∧
      part 6 (partsOf r) = (if (r.params.getD []).isEmpty then .null
        else .array ((r.params.getD []).map Cbor.ofText)) ∧
      part 7 (partsOf r) = (if r.vararg.isEmpty then .null else .ofText r.vararg) ∧
      part 8 (partsOf r) = (if r.kwarg.isEmpty then .null else .ofText r.kwarg) ∧
      part 9 (partsOf r) = orNull Cbor.bytes r.instructions ∧
      part 10 (partsOf r) = orNull (fun lines => .array (lines.map Cbor.ofInt)) r.lines ∧
      part 11 (partsOf r) = (if r.pool.isEmpty then .null else .array r.pool) := by
  have hother {key other : Nat} {v : Cbor} {rest : List (Cbor × Cbor)} :
      part key (entry other v :: rest) = if other = key then v else part key rest := by
    by_cases h : other = key
    · subst h
      rw [part_entry, if_pos rfl]
    · rw [part_other h, if_neg h]
  simp only [partsOf, listEntry, List.map_id, List.append_assoc, List.cons_append, List.nil_append,
    hother, part_optional, part_textEntry, part_optional_last, Nat.reduceEqDiff, if_true, if_false,
    true_and, false_and]
  refine ⟨?_, ?_⟩
  · cases (r.params.getD []).isEmpty <;> rfl
  · unfold RecordOf.pool
    cases (r.constants.getD []).isEmpty <;> rfl

theorem parts?_ofRecord (r : CodeRecord) :
    parts? (ofRecord r) = some (partsOf (r.map ofOne)) := by
  have hkeys : ((partsOf (r.map ofOne)).all fun e => isKey e.1) = true := by
    unfold partsOf textEntry listEntry
    simp only [List.all_append, Bool.and_eq_true]
    refine ⟨⟨⟨⟨⟨rfl, ?_⟩, ?_⟩, ?_⟩, rfl⟩, ?_⟩ <;> split <;> rfl
  rw [ofRecord_eq]
  unfold parts?
  simp [untagged?, hkeys]

end Interchange

namespace CodeRecord

open Interchange

/-- The texts of a code object itself are valid. -/
def TextsValid (r : CodeRecord) : Prop :=
  r.name.isValid = true ∧ r.filename.isValid = true ∧ (r.params.getD []).all Text.isValid = true ∧
    r.vararg.isValid = true ∧ r.kwarg.isValid = true

theorem textsValid_kept_iff (r : CodeRecord) : r.kept.TextsValid ↔ r.TextsValid := by
  unfold TextsValid
  rw [kept_eq, getD_heldList]

/-- One code object, without those in its pool, whose texts and kind the form can carry. -/
structure ObjectReadable (r : CodeRecord) : Prop where
  kind : (CodeKind.ofNumber? r.kind).isSome = true
  texts : ∀ t ∈ r.texts, t.isValid = true

/-- The code objects whose texts and kinds the form can carry. -/
def Readable (r : CodeRecord) : Prop := ∀ o, r.Holds o → o.ObjectReadable

/-- What holds of the texts and kinds of a code object: of its own, and of those of its
constants. -/
theorem readable_iff (r : CodeRecord) :
    r.Readable ↔ r.TextsValid ∧ (CodeKind.ofNumber? r.kind).isSome = true ∧ ∀ k ∈ r.pool,
      k.fields.string.isValid = true ∧ ∀ o, k.fields.body? = some o → o.Readable := by
  have hself : r.ObjectReadable ↔ r.TextsValid ∧ (CodeKind.ofNumber? r.kind).isSome = true ∧
      ∀ k ∈ r.pool, k.fields.string.isValid = true := by
    have htexts : (∀ t ∈ r.texts, t.isValid = true) ↔
        r.TextsValid ∧ ∀ k ∈ r.pool, k.fields.string.isValid = true := by
      unfold texts TextsValid
      simp only [List.forall_mem_append, List.forall_mem_cons, List.forall_mem_map,
        List.all_eq_true]
      constructor
      · rintro ⟨⟨⟨hname, hfilename, hvararg, hkwarg, -⟩, hparams⟩, hpool⟩
        exact ⟨⟨hname, hfilename, hparams, hvararg, hkwarg⟩, hpool⟩
      · rintro ⟨⟨hname, hfilename, hparams, hvararg, hkwarg⟩, hpool⟩
        exact ⟨⟨⟨hname, hfilename, hvararg, hkwarg, List.forall_mem_nil _⟩, hparams⟩, hpool⟩
    constructor
    · rintro ⟨hkind, h⟩
      exact ⟨(htexts.mp h).1, hkind, (htexts.mp h).2⟩
    · rintro ⟨hvalid, hkind, hpool⟩
      exact ⟨hkind, htexts.mpr ⟨hvalid, hpool⟩⟩
  unfold Readable
  rw [forall_holds_iff, hself]
  constructor
  · rintro ⟨⟨hvalid, hkind, hpool⟩, hnested⟩
    exact ⟨hvalid, hkind, fun k hk => ⟨hpool k hk, hnested k hk⟩⟩
  · rintro ⟨hvalid, hkind, h⟩
    exact ⟨⟨hvalid, hkind, fun k hk => (h k hk).1⟩, fun k hk => (h k hk).2⟩

/-- Every constant of a record uses a code object or needs none. -/
def Proper (r : CodeRecord) : Prop :=
  ∀ o, r.Holds o → ∀ k ∈ o.pool, k.fields.tag.toNat < 4 ∨ ∃ o', k.fields.body? = some o'

/-- The constants of a valid code object are proper. -/
theorem proper_of_verify {r : CodeRecord} (hv : r.code.verify = .ok ()) : r.Proper := by
  intro o ho k hk
  obtain ⟨deepest, hok⟩ := Code.verify_of_mem_nested hv ho.mem_nested
  have hmem : meaning k ∈ o.code.constants := by
    rw [code_eq]
    exact List.mem_map_of_mem hk
  obtain ⟨hsome, hknown⟩ := (Code.checkAlone_eq_ok_iff.mp hok).1.constants _ hmem
  rcases Nat.lt_trichotomy k.fields.tag.toNat codeTag.toNat with hlt | heq | hgt
  · exact .inl hlt
  · have htag : k.fields.tag = codeTag := UInt8.toNat_inj.mp heq
    refine .inr ?_
    unfold ConstantOf.body?
    rw [if_pos htag]
    cases hcode : k.fields.code with
    | none => exact absurd (meaning_of_none htag hcode) hsome
    | some o' => exact ⟨o', rfl⟩
  · exact absurd (meaning_of_lt_tag hgt) (hknown _)

end CodeRecord

namespace Interchange

open Cbor CodeRecord

section ToRecord

variable {r : CodeRecord} {levels : Nat}

/-- A code object whose own texts are valid is read up to its constants. -/
theorem toRecord?_of_textsValid (h : r.ObjectHeld) (hvalid : r.TextsValid) :
    toRecord? (levels + 1) (ofRecord r) =
      ((r.pool.map ofOne).mapM (toConstant? (toRecord? levels))).map fun outcomes =>
        checkedCode 1
          { r with params := heldList (r.params.getD []), constants := some outcomes } := by
  obtain ⟨hname, hfilename, hparams, hvararg, hkwarg⟩ := hvalid
  obtain ⟨h1, h2, h3, h4, h5, h6, h7, h8, h9, h10, h11⟩ := part_partsOf (r.map ofOne)
  rw [RecordOf.pool_map] at h11
  refine (bind_of_eq_some (parts?_ofRecord r) _).trans ?_
  rw [h1, h2, h3, h4, h5, h6, h7, h8, h9, h10, h11]
  refine (bind_of_eq_some (show octet? (.unsigned version) = some 1 from rfl) _).trans ?_
  refine (bind_of_eq_some ((text?_ofText _).trans (if_pos hname)) _).trans ?_
  refine (bind_of_eq_some ((text?_ofText _).trans (if_pos hfilename)) _).trans ?_
  refine (bind_of_eq_some (octet?_octet _) _).trans ?_
  refine (bind_of_eq_some ((int64?_ofInt _).trans (if_pos h.firstLine)) _).trans ?_
  refine (bind_of_eq_some ((optional?_texts _).trans (if_pos hparams)) _).trans ?_
  refine (bind_of_eq_some ((text?_optional _).trans (if_pos hvararg)) _).trans ?_
  refine (bind_of_eq_some ((text?_optional _).trans (if_pos hkwarg)) _).trans ?_
  refine (bind_of_eq_some (optional?_bytes _) _).trans ?_
  refine (bind_of_eq_some (optional?_lines h.lines) _).trans ?_
  rw [list?_optional]
  cases (r.pool.map ofOne).mapM (toConstant? (toRecord? levels)) <;> rfl

/-- A code object is read only if its own texts are valid. -/
theorem textsValid_of_toRecord? {outcome : Except FileError CodeRecord}
    (h : toRecord? (levels + 1) (ofRecord r) = some outcome) : r.TextsValid := by
  obtain ⟨h1, h2, h3, h4, h5, h6, h7, h8, h9, h10, h11⟩ := part_partsOf (r.map ofOne)
  rw [toRecord?, bind_of_eq_some (parts?_ofRecord r), h2, h3, h6, h7, h8, optional?_texts,
    text?_ofText, text?_ofText, text?_optional, text?_optional] at h
  obtain ⟨_, -, h⟩ := Option.bind_eq_some_iff.mp h
  obtain ⟨_, hname, h⟩ := Option.bind_eq_some_iff.mp h
  obtain ⟨_, hfilename, h⟩ := Option.bind_eq_some_iff.mp h
  obtain ⟨_, -, h⟩ := Option.bind_eq_some_iff.mp h
  obtain ⟨_, -, h⟩ := Option.bind_eq_some_iff.mp h
  obtain ⟨_, hparams, h⟩ := Option.bind_eq_some_iff.mp h
  obtain ⟨_, hvararg, h⟩ := Option.bind_eq_some_iff.mp h
  obtain ⟨_, hkwarg, -⟩ := Option.bind_eq_some_iff.mp h
  rw [Option.ite_none_right_eq_some] at hname hfilename hparams hvararg hkwarg
  exact ⟨hname.1, hfilename.1, hparams.1, hvararg.1, hkwarg.1⟩

theorem checkedCode_eq_ok_iff {r : RecordOf (Except FileError ConstantRecord)} {b : CodeRecord} :
    checkedCode 1 r = .ok b ↔ (CodeKind.ofNumber? r.kind).isSome = true ∧
      ∃ ks, r.pool.mapM id = .ok ks ∧ { r with constants := heldList ks } = b := by
  unfold checkedCode
  cases CodeKind.ofNumber? r.kind with
  | none => simp [throw, throwThe, MonadExceptOf.throw, bind, Except.bind, version]
  | some kind =>
    cases r.pool.mapM id with
    | error e => simp [bind, Except.bind, version]
    | ok ks => simp [bind, Except.bind, pure, Except.pure, version]

/-- **What the form keeps of a code object is read back** if its texts and kinds are valid. -/
theorem toRecord?_ofRecord_iff (hheld : r.Held) (hproper : r.Proper)
    (hlevels : (ofRecord r).levels ≤ levels) (b : CodeRecord) :
    toRecord? levels (ofRecord r.kept) = some (.ok b) ↔ r.Readable ∧ r.kept = b := by
  induction r using inductionOnPool generalizing levels b with
  | step r ih =>
    obtain _ | levels := levels
    · exact absurd (levels_pos r) (by omega)
    have hself := hheld r (.self r)
    have hconstant (k : ConstantRecord) (hk : k ∈ r.pool) (b : ConstantRecord) :
        toConstant? (toRecord? levels) (ofOne (keptConstant k)) = some (.ok b) ↔
          (k.fields.string.isValid = true ∧ ∀ o, k.fields.body? = some o → o.Readable) ∧
            keptConstant k = b := by
      refine toConstant?_ofOne (hproper r (.self r) k hk) (fun o ho b => ?_) b
      have hlt := levels_lt_of_body? hk ho
      exact ih k hk o ho (fun o' ho' => hheld o' (.nested hk ho ho'))
        (fun o' ho' => hproper o' (.nested hk ho ho')) (by omega) b
    have hconstants := mapM_read hconstant
    have hpool : r.kept.pool.map ofOne = r.pool.map fun k => ofOne (keptConstant k) := by
      rw [pool_kept, List.map_map]
      rfl
    have hkind : r.kept.kind = r.kind := by rw [kept_eq]
    have hkept (ks : List ConstantRecord) (hks : r.pool.map keptConstant = ks) :
        { r.kept with params := heldList (r.kept.params.getD []), constants := heldList ks } =
          r.kept := by
      rw [← hks, kept_eq, getD_heldList]
    rw [readable_iff]
    constructor
    · intro h
      have hvalid := textsValid_of_toRecord? h
      rw [toRecord?_of_textsValid hself.kept hvalid, Option.map_eq_some_iff, hpool] at h
      obtain ⟨outcomes, houtcomes, hok⟩ := h
      obtain ⟨hsome, ks, hks, rfl⟩ := checkedCode_eq_ok_iff.mp hok
      obtain ⟨hgood, hks⟩ := (hconstants ks).mp ⟨outcomes, houtcomes, hks⟩
      rw [← hkind]
      exact ⟨⟨(textsValid_kept_iff r).mp hvalid, hsome, hgood⟩, (hkept ks hks).symm⟩
    · rintro ⟨⟨hvalid, hsome, hgood⟩, rfl⟩
      obtain ⟨outcomes, houtcomes, hks⟩ := (hconstants _).mpr ⟨hgood, rfl⟩
      rw [toRecord?_of_textsValid hself.kept ((textsValid_kept_iff r).mpr hvalid),
        Option.map_eq_some_iff, hpool]
      refine ⟨outcomes, houtcomes, checkedCode_eq_ok_iff.mpr ⟨?_, _, hks, hkept _ rfl⟩⟩
      rwa [← hkind] at hsome

end ToRecord

end Interchange

/-! ## The form as a whole -/

namespace CodeRecord

open Interchange

/-- The code objects that the reader admits: their texts and kinds can be carried, and their values
keep to the limits. -/
structure Fits (r : CodeRecord) : Prop where
  readable : r.Readable
  levels : (ofRecord r).levels ≤ Cbor.maxLevels
  largest : (ofRecord r).largest ≤ Cbor.maxItems

end CodeRecord

namespace Interchange

open Cbor CodeRecord

theorem encodeRecord_eq_ok_iff {r : CodeRecord} {form : List UInt8} :
    encodeRecord r = .ok form ↔ r.code.verify = .ok () ∧ (ofRecord r).encode = form := by
  unfold encodeRecord
  cases r.code.verify <;> simp

/-- **The form of a valid code object is read back exactly if it fits**, and then as what the form
keeps of it. -/
theorem decodeRecord_ofRecord_iff {r : CodeRecord} (hv : r.code.verify = .ok ()) (hheld : r.Held)
    (b : CodeRecord) : decodeRecord (ofRecord r).encode = .ok b ↔ r.Fits ∧ r.kept = b := by
  obtain ⟨hencode, hlevels, hlargest⟩ := alike_ofRecord r
  have hparse := parse?_encode (plain_ofRecord hheld)
  have hkeptValid : r.kept.code.verify = .ok () := by
    rw [code_kept]
    exact Code.verify_mapFloats keptFloat hv
  rw [hlevels, hlargest, hencode] at hparse
  unfold decodeRecord
  rw [hparse]
  by_cases hlimits : (ofRecord r).levels ≤ maxLevels ∧ (ofRecord r).largest ≤ maxItems
  · rw [if_pos hlimits]
    have hread := toRecord?_ofRecord_iff hheld (proper_of_verify hv) hlimits.1
    have hfits : r.Fits ↔ r.Readable := ⟨Fits.readable, fun h => ⟨h, hlimits.1, hlimits.2⟩⟩
    rw [hfits, ← hread, Option.bind_some]
    cases houtcome : toRecord? maxLevels (ofRecord r.kept) with
    | none => simp [throw, throwThe, MonadExceptOf.throw]
    | some outcome =>
      cases outcome with
      | error e => simp [bind, Except.bind]
      | ok d =>
        obtain ⟨-, rfl⟩ := (hread d).mp houtcome
        simp [bind, Except.bind, hkeptValid, pure, Except.pure]
  · rw [if_neg hlimits]
    have hfits : ¬ r.Fits := fun h => hlimits ⟨h.levels, h.largest⟩
    simp [hfits, throw, throwThe, MonadExceptOf.throw]

end Interchange

/-! ## What code objects mean -/

namespace Code

/-- The code objects that are held with words of sixty-four bits, if they are valid, are those for
which there are records. -/
theorem Held.plain {c : Code} (h : c.Held) (hv : c.verify = .ok ()) :
    ∀ o ∈ c.nested, o.ObjectPlain := by
  intro o ho
  obtain ⟨deepest, hok⟩ := verify_of_mem_nested hv ho
  refine ⟨?_, fun tag hmem => ((checkAlone_eq_ok_iff.mp hok).1.constants _ hmem).2 tag rfl⟩
  have hother := (h.objects o ho).kind
  cases hkind : o.kind with
  | other n =>
    have hnone := hother n hkind
    have hnumber : CodeKind.ofNumber n = .other n := by
      unfold CodeKind.ofNumber? at hnone
      split at hnone
      · rename_i heq
        rw [heq]
        unfold CodeKind.ofNumber at heq
        split at heq
        all_goals first
          | exact heq.symm
          | cases heq
      · cases hnone
    exact hnumber
  | _ => rfl

/-- The texts in the record of a code object are those of the code object, or empty. -/
theorem mem_strings_of_mem_texts {c : Code} {t : Text} (h : t ∈ c.record.texts) :
    t = [] ∨ t ∈ c.strings := by
  have hoptional {s : Text} (hs : ∀ u ∈ optionalText s, u ∈ c.strings) :
      s = [] ∨ s ∈ c.strings := by
    by_cases hempty : s.isEmpty = true
    · exact .inl (List.isEmpty_iff.mp hempty)
    · exact .inr (hs s (by simp [optionalText, hempty]))
  unfold CodeRecord.texts at h
  rw [pool_record, record_eq, getD_heldList, List.map_map] at h
  simp only [List.mem_append, List.mem_cons, List.not_mem_nil, or_false, List.mem_map] at h
  rcases h with ((rfl | rfl | rfl | rfl) | hparam) | ⟨k, hk, rfl⟩
  · exact .inr (by simp [strings_eq])
  · exact .inr (by simp [strings_eq])
  · exact hoptional fun u hu => by simp [strings_eq, hu]
  · exact hoptional fun u hu => by simp [strings_eq, hu]
  · exact .inr (by simp [strings_eq, hparam])
  · cases k with
    | name t | string t => exact .inr (mem_strings_of_mem hk (by simp [stringsOf, heldConstant,
        ConstantRecord.fields]))
    | _ => exact .inl rfl

theorem ObjectHeld.record {c : Code} (h : c.ObjectHeld)
    (hstrings : ∀ t ∈ c.strings, t.length < twoPow 64) : c.record.ObjectHeld := by
  obtain ⟨-, hfirst, hlines, hparams, hinstructions, htable, hconstants⟩ := h
  have htexts : ∀ t ∈ c.record.texts, t.length < twoPow 64 := by
    intro t ht
    rcases mem_strings_of_mem_texts ht with rfl | ht
    · decide
    · exact hstrings t ht
  have hpool : c.record.pool.length < twoPow 64 := by rwa [pool_record, List.length_map]
  rw [record_eq] at htexts hpool ⊢
  exact ⟨hfirst, hlines, htexts, by rwa [getD_heldList], by rwa [getD_heldList], htable, hpool⟩

theorem Held.record {c : Code} (h : c.Held) : c.record.Held := by
  induction c using Code.inductionOnConstants with
  | step c ih =>
    unfold CodeRecord.Held
    rw [CodeRecord.forall_holds_iff]
    refine ⟨h.self.record h.strings, fun k hk o ho => ?_⟩
    rw [pool_record, List.mem_map] at hk
    obtain ⟨k, hk, rfl⟩ := hk
    obtain ⟨c', rfl, rfl⟩ := body?_heldConstant.mp ho
    exact ih c' hk (h.of_mem hk)

end Code

namespace Interchange

/-- The texts of a code object itself are valid. -/
def TextsValid (c : Code) : Prop :=
  c.name.isValid = true ∧ c.filename.isValid = true ∧ c.params.all Text.isValid = true ∧
    c.vararg.isValid = true ∧ c.kwarg.isValid = true

/-- The code objects whose texts and kinds the form can carry. -/
structure Readable (c : Code) : Prop where
  kinds : ∀ o ∈ c.nested, ∀ n, o.kind ≠ .other n
  strings : ∀ t ∈ c.strings, t.isValid = true

/-- What holds of the texts and kinds of a code object: of its own, and of those of its
constants. -/
theorem readable_iff (c : Code) :
    Readable c ↔ TextsValid c ∧ (∀ n, c.kind ≠ .other n) ∧ ∀ k ∈ c.constants,
      (∀ t, k = .name t ∨ k = .string t → t.isValid = true) ∧
        ∀ o : Code, k = .code o → Readable o := by
  constructor
  · rintro ⟨hkinds, hstrings⟩
    have hself := hkinds c (by rw [Code.nested_eq]; exact List.mem_cons_self)
    have hoptional {t : Text} (ht : ∀ s ∈ optionalText t, s ∈ c.strings) : t.isValid = true := by
      by_cases hempty : t.isEmpty = true
      · rw [List.isEmpty_iff.mp hempty]
        rfl
      · exact hstrings t (ht t (by simp [optionalText, hempty]))
    refine ⟨⟨?_, ?_, ?_, ?_, ?_⟩, hself, fun k hk => ⟨?_, ?_⟩⟩
    · exact hstrings _ (by simp [Code.strings_eq])
    · exact hstrings _ (by simp [Code.strings_eq])
    · rw [List.all_eq_true]
      exact fun t ht => hstrings t (by simp [Code.strings_eq, ht])
    · exact hoptional fun s hs => by simp [Code.strings_eq, hs]
    · exact hoptional fun s hs => by simp [Code.strings_eq, hs]
    · rintro t (rfl | rfl)
      · exact hstrings t (Code.mem_strings_of_mem hk (by simp [Code.stringsOf]))
      · exact hstrings t (Code.mem_strings_of_mem hk (by simp [Code.stringsOf]))
    · rintro o rfl
      exact ⟨fun o' ho' => hkinds o' (Code.mem_nested_of_mem hk ho'),
        fun t ht => hstrings t (Code.mem_strings_of_mem hk (by rwa [Code.stringsOf_code]))⟩
  · rintro ⟨⟨hname, hfilename, hparams, hvararg, hkwarg⟩, hself, hconstants⟩
    constructor
    · intro o ho
      rw [Code.nested_eq, List.mem_cons] at ho
      rcases ho with rfl | ho
      · exact hself
      · obtain ⟨o', ho', ho⟩ := Code.exists_of_mem_nestedIn ho
        exact ((hconstants _ ho').2 o' rfl).kinds o ho
    · intro t ht
      have hoptional {s : Text} (hs : s.isValid = true) (h : t ∈ optionalText s) :
          t.isValid = true := by
        unfold optionalText at h
        split at h
        · cases h
        · rwa [List.mem_singleton.mp h]
      simp only [Code.strings_eq, List.mem_cons, List.mem_append] at ht
      rcases ht with rfl | rfl | ((ht | ht) | ht) | ht
      · exact hname
      · exact hfilename
      · exact List.all_eq_true.mp hparams t ht
      · exact hoptional hvararg ht
      · exact hoptional hkwarg ht
      · rw [Code.stringsOf_eq_flatMap, List.mem_flatMap] at ht
        obtain ⟨k, hk, ht⟩ := ht
        obtain ⟨hown, hcode⟩ := hconstants k hk
        cases k with
        | name s | string s =>
          obtain rfl : t = s := by simpa [Code.stringsOf] using ht
          exact hown t (by simp)
        | code o => exact (hcode o rfl).strings t (by rwa [Code.stringsOf_code] at ht)
        | _ => simp [Code.stringsOf] at ht

theorem isSome_ofNumber?_number_iff {kind : CodeKind}
    (h : ∀ n, kind = .other n → CodeKind.ofNumber? n = none) :
    (CodeKind.ofNumber? kind.number).isSome = true ↔ ∀ n, kind ≠ .other n := by
  cases kind with
  | other n => simp [CodeKind.number, h n rfl]
  | _ => simp [CodeKind.number, CodeKind.ofNumber?, CodeKind.ofNumber]

/-- The record of a code object is readable if the code object is. -/
theorem readable_record_iff {c : Code} (hheld : c.Held) : c.record.Readable ↔ Readable c := by
  induction c using Code.inductionOnConstants with
  | step c ih =>
    have htexts : c.record.TextsValid ↔ TextsValid c := by
      unfold CodeRecord.TextsValid TextsValid
      rw [Code.record_eq, getD_heldList]
    have hkind : (CodeKind.ofNumber? c.record.kind).isSome = true ↔ ∀ n, c.kind ≠ .other n := by
      rw [Code.record_eq]
      exact isSome_ofNumber?_number_iff hheld.self.kind
    rw [CodeRecord.readable_iff, readable_iff, htexts, hkind, Code.pool_record,
      List.forall_mem_map]
    refine and_congr_right fun _ => and_congr_right fun _ => forall₂_congr fun k hk => ?_
    have hbody : (∀ o, (Code.heldConstant k).fields.body? = some o → o.Readable) ↔
        ∀ o : Code, k = .code o → Readable o := by
      constructor
      · rintro h o rfl
        exact (ih o hk (hheld.of_mem hk)).mp
          (h o.record (Code.body?_heldConstant.mpr ⟨o, rfl, rfl⟩))
      · intro h o ho
        obtain ⟨o', rfl, rfl⟩ := Code.body?_heldConstant.mp ho
        exact (ih o' hk (hheld.of_mem hk)).mpr (h o' rfl)
    rw [hbody]
    refine and_congr_left fun _ => ?_
    cases k with
    | name t => exact ⟨by rintro h s (⟨⟨⟩⟩ | ⟨⟨⟩⟩); exact h, fun h => h t (.inl rfl)⟩
    | string t => exact ⟨by rintro h s (⟨⟨⟩⟩ | ⟨⟨⟩⟩); exact h, fun h => h t (.inr rfl)⟩
    | _ => exact ⟨by rintro - t (⟨⟨⟩⟩ | ⟨⟨⟩⟩), fun _ => rfl⟩

/-- The code objects that the reader admits: their texts and kinds can be carried, and their values
keep to the limits. -/
structure Fits (c : Code) : Prop extends Readable c where
  levels : (ofCode c).levels ≤ Cbor.maxLevels
  largest : (ofCode c).largest ≤ Cbor.maxItems

theorem fits_record_iff {c : Code} (hheld : c.Held) : c.record.Fits ↔ Fits c := by
  have hreadable := readable_record_iff hheld
  exact ⟨fun h => ⟨hreadable.mp h.readable, h.levels, h.largest⟩,
    fun h => ⟨hreadable.mpr h.toReadable, h.levels, h.largest⟩⟩

theorem encode_eq_ok_iff {c : Code} {form : List UInt8} :
    encode c = .ok form ↔ c.verify = .ok () ∧ (ofCode c).encode = form := by
  unfold encode
  cases c.verify <;> simp

/-- **The form of a valid code object is read back exactly if it fits**, and then as what the form
keeps of it. -/
theorem decode_ofCode_iff {c : Code} (hv : c.verify = .ok ()) (hheld : c.Held) (b : Code) :
    decode (ofCode c).encode = .ok b ↔ Fits c ∧ c.exchanged = b := by
  have hcode : c.record.code = c := Code.code_record (hheld.plain hv)
  have hkept : c.record.kept.code = c.exchanged := by rw [CodeRecord.code_kept, hcode]
  have hread := decodeRecord_ofRecord_iff (r := c.record) (by rwa [hcode]) hheld.record
  rw [← fits_record_iff hheld]
  unfold decode ofCode
  constructor
  · intro h
    cases hr : decodeRecord (ofRecord c.record).encode with
    | error e =>
      rw [hr] at h
      cases h
    | ok d =>
      obtain ⟨hfits, rfl⟩ := (hread d).mp hr
      rw [hr] at h
      cases h
      exact ⟨hfits, hkept.symm⟩
  · rintro ⟨hfits, rfl⟩
    rw [(hread _).mpr ⟨hfits, rfl⟩]
    exact congrArg Except.ok hkept

theorem floatsKept_exchanged (c : Code) : c.exchanged.FloatsKept := by
  unfold Code.FloatsKept
  rw [Code.nested_exchanged, List.forall_mem_map]
  intro o _ x hx
  rw [Code.exchanged_eq, List.mem_map] at hx
  obtain ⟨k, -, hk⟩ := hx
  cases k with
  | float y =>
    obtain rfl : keptFloat y = x := by simpa [Code.mapFloatsConstant] using hk
    exact keptFloat_keptFloat y
  | _ => simp [Code.mapFloatsConstant] at hk

/-- Code objects are nested less deep than the lists and maps of their values. -/
theorem depth_lt_levels (c : Code) : c.depth < (ofCode c).levels := by
  induction c using Code.inductionOnConstants with
  | step c ih =>
    rw [Code.depth_eq]
    rcases Nat.eq_zero_or_pos (Code.depthOf c.constants) with hzero | hpos
    · rw [hzero]
      exact levels_pos c.record
    obtain ⟨o, ho, hdepth⟩ := Code.exists_depth_of_depthOf hpos
    have hmem : Code.heldConstant (.code o) ∈ c.record.pool := by
      rw [Code.pool_record]
      exact List.mem_map_of_mem ho
    have hlt := levels_lt_of_body? hmem (Code.body?_heldConstant.mpr ⟨o, rfl, rfl⟩)
    have := ih o ho
    unfold ofCode at this ⊢
    omega

/-! ## Code objects that are read back the same -/

theorem keptFloat_of_ne {x : Binary64} (hnan : x.isNaN = false)
    (hnegative : x ≠ ⟨0x8000000000000000⟩) :
    keptFloat x = x := by
  unfold keptFloat
  by_cases hzero : isZero x = true
  · have hbits : x.bits = 0 ∨ x.bits = 0x8000000000000000 := by simpa [isZero] using hzero
    rw [if_pos hzero]
    rcases hbits with hbits | hbits
    · exact congrArg Binary64.mk hbits.symm
    · exact absurd (congrArg Binary64.mk hbits) hnegative
  · rw [if_neg hzero, hnan, if_neg Bool.false_ne_true]

end Interchange

namespace CodeRecord

open Interchange

theorem map_eq_of_map_eq {α β γ : Type} {f : α → β} {g : α → γ} {l l' : List α}
    (h : l.map f = l'.map f) (hg : ∀ a ∈ l, ∀ b ∈ l', f a = f b → g a = g b) :
    l.map g = l'.map g := by
  induction l generalizing l' with
  | nil =>
    obtain rfl : l' = [] := List.map_eq_nil_iff.mp h.symm
    rfl
  | cons a l ih =>
    cases l' with
    | nil => cases h
    | cons b l' =>
      obtain ⟨hab, hrest⟩ := List.cons.inj h
      rw [List.map_cons, List.map_cons, hg a List.mem_cons_self b List.mem_cons_self hab,
        ih hrest fun c hc d hd => hg c (List.mem_cons_of_mem _ hc) d (List.mem_cons_of_mem _ hd)]

theorem eq_of_getD_eq {α : Type} {l l' : Option (List α)} (h : l.getD [] = l'.getD [])
    (hsome : l'.getD [] ≠ []) : l = l' := by
  cases l' with
  | none => exact absurd rfl hsome
  | some a =>
    cases l with
    | none => exact absurd h.symm hsome
    | some b => exact congrArg some h

/-- **The form keeps the same of equal code objects** if all those in them have instructions and
lines. -/
theorem kept_eq_of_normal_eq {r r' : CodeRecord} (h : r'.normal = r.normal)
    (hsome : ∀ o, r.Holds o → o.instructions.getD [] ≠ [] ∧ o.lines.getD [] ≠ []) :
    r'.kept = r.kept := by
  induction r using inductionOnPool generalizing r' with
  | step r ih =>
    rw [normal_eq r', normal_eq r] at h
    simp only [RecordOf.mk.injEq, Option.some.injEq] at h
    obtain ⟨hname, hfilename, hkind, hfirst, hparams, hvararg, hkwarg, hinstructions, hlines,
      hpool⟩ := h
    obtain ⟨hinstructionsSome, hlinesSome⟩ := hsome r (.self r)
    have hconstants : r'.pool.map keptConstant = r.pool.map keptConstant := by
      refine map_eq_of_map_eq hpool fun k' hk' k hk heq => ?_
      simp only [ConstantRecord.mk.injEq, ConstantOf.mk.injEq] at heq
      obtain ⟨htag, hstring, hint, hfloat, hbody⟩ := heq
      have hcode : k'.fields.body?.map kept = k.fields.body?.map kept := by
        cases ho : k.fields.body? with
        | none =>
          rw [ho, Option.map_none, Option.map_eq_none_iff] at hbody
          rw [hbody]
        | some o =>
          rw [ho, Option.map_some, Option.map_eq_some_iff] at hbody
          obtain ⟨o', ho', hnormal⟩ := hbody
          rw [ho', Option.map_some, Option.map_some,
            ih k hk o ho hnormal fun o'' ho'' => hsome o'' (.nested hk ho ho'')]
      simp only [keptConstant, htag, hstring, hint, hfloat, hcode]
    rw [kept_eq r', kept_eq r, hname, hfilename, hkind, hfirst, hparams, hvararg, hkwarg,
      eq_of_getD_eq hinstructions hinstructionsSome, eq_of_getD_eq hlines hlinesSome, hconstants]

/-- A valid code object that has an instruction has a line. -/
theorem lines_ne_nil_of_verify {r o : CodeRecord} (hv : r.code.verify = .ok ()) (ho : r.Holds o)
    (hsome : o.instructions.getD [] ≠ []) : o.lines.getD [] ≠ [] := by
  obtain ⟨deepest, hok⟩ := Code.verify_of_mem_nested hv ho.mem_nested
  have hencoded := (Code.checkAlone_eq_ok_iff.mp hok).1
  have heven := hencoded.even
  have hlines := hencoded.lines
  rw [code_eq] at heven hlines
  have hlength : (o.lines.getD []).length = (o.instructions.getD []).length / 2 := hlines
  have heven : (o.instructions.getD []).length % 2 = 0 := heven
  have hpos := List.length_pos_iff.mpr hsome
  refine List.length_pos_iff.mp ?_
  omega

end CodeRecord

namespace Interchange

open CodeRecord

/-- **The form of a code object that fits is read back the same**, if its numbers, also those in
constants of other kinds, are neither negative zero nor none at all. Of other code objects it is the
form exactly if the same is kept of them; and it is the form of all that are equal, if every code
object has an instruction. -/
theorem decodeRecord_written {r : CodeRecord} (hv : r.code.verify = .ok ()) (hheld : r.Held)
    (hfits : r.Fits) (hfloats : ∀ o, r.Holds o → ∀ k ∈ o.pool,
      k.fields.float.isNaN = false ∧ k.fields.float ≠ ⟨0x8000000000000000⟩) :
    ∃ form b, encodeRecord r = .ok form ∧ decodeRecord form = .ok b ∧ b.normal = r.normal ∧
      (∀ r' : CodeRecord, r'.Held →
        (encodeRecord r' = .ok form ↔ r'.code.verify = .ok () ∧ r'.kept = b)) ∧
      ((∀ o, r.Holds o → o.instructions.getD [] ≠ []) →
        ∀ r' : CodeRecord, r'.code.verify = .ok () → r'.normal = r.normal →
          encodeRecord r' = .ok form) := by
  have hread := decodeRecord_ofRecord_iff hv hheld
  have hsame {r' : CodeRecord} (hkept : r'.kept = r.kept) :
      (ofRecord r').encode = (ofRecord r).encode := by
    rw [← (alike_ofRecord r').encode, hkept, (alike_ofRecord r).encode]
  refine ⟨(ofRecord r).encode, r.kept, encodeRecord_eq_ok_iff.mpr ⟨hv, rfl⟩,
    (hread _).mpr ⟨hfits, rfl⟩, ?_, fun r' hheld' => ?_, fun hsome r' hv' hnormal => ?_⟩
  · rw [normal_kept_iff]
    intro o ho k hk
    obtain ⟨hnan, hnegative⟩ := hfloats o ho k hk
    exact keptFloat_of_ne hnan hnegative
  · rw [encodeRecord_eq_ok_iff]
    refine and_congr_right fun hv' => ⟨fun hform => ?_, hsame⟩
    have hread' := (hread r.kept).mpr ⟨hfits, rfl⟩
    rw [← hform] at hread'
    exact ((decodeRecord_ofRecord_iff hv' hheld' _).mp hread').2
  · refine encodeRecord_eq_ok_iff.mpr ⟨hv', hsame (kept_eq_of_normal_eq hnormal fun o ho => ?_)⟩
    exact ⟨hsome o ho, lines_ne_nil_of_verify hv ho (hsome o ho)⟩

/-- A function without parameters that returns `None`. -/
def thunk : CodeRecord :=
  { name := [102], filename := [109], kind := 3, firstLine := 1
    instructions := some [0xE8, 0, 0x68, 0], lines := some [1, 1] }

/-- A code object that adds a half to minus one, with lines that no file has, an empty list of
parameters, and constants whose other fields are not empty. -/
def adder : CodeRecord :=
  { name := [109], filename := [109], kind := 0, firstLine := -3, params := some []
    vararg := [102], instructions := some [0, 0, 0, 1, 0x48, 0, 0x68, 0]
    lines := some [-3, 0, 1, 4294967296]
    constants := some [⟨{ tag := 2, string := [109], int := -1, code := some thunk }⟩,
      ⟨{ tag := 3, float := ⟨0x3FE0000000000000⟩ }⟩, ⟨{ tag := 4, int := 1, code := some thunk }⟩] }

theorem forall_holds_thunk {P : CodeRecord → Prop} (h : P thunk) : ∀ o, thunk.Holds o → P o := by
  rw [forall_holds_iff]
  exact ⟨h, nofun⟩

theorem forall_holds_adder {P : CodeRecord → Prop} (hadder : P adder) (hthunk : P thunk) :
    ∀ o, adder.Holds o → P o := by
  rw [forall_holds_iff]
  refine ⟨hadder, fun k hk o ho => ?_⟩
  obtain rfl : thunk = o := by
    simp only [RecordOf.pool, adder, Option.getD_some, List.mem_cons, List.not_mem_nil,
      or_false] at hk
    rcases hk with rfl | rfl | rfl
    · cases ho
    · cases ho
    · exact Option.some.inj ho
  exact forall_holds_thunk hthunk

theorem decodeRecord_written_adder :
    adder.code.verify = .ok () ∧ adder.Held ∧ adder.Fits ∧ (∀ o, adder.Holds o → ∀ k ∈ o.pool,
        k.fields.float.isNaN = false ∧ k.fields.float ≠ ⟨0x8000000000000000⟩) ∧
      (∀ o, adder.Holds o → o.instructions.getD [] ≠ []) ∧
      ∃ form b, encodeRecord adder = .ok form ∧ decodeRecord form = .ok b ∧
        b.normal = adder.normal ∧
        (∀ r' : CodeRecord, r'.Held →
          (encodeRecord r' = .ok form ↔ r'.code.verify = .ok () ∧ r'.kept = b)) ∧
        ((∀ o, adder.Holds o → o.instructions.getD [] ≠ []) →
          ∀ r' : CodeRecord, r'.code.verify = .ok () → r'.normal = adder.normal →
            encodeRecord r' = .ok form) := by
  have hv : adder.code.verify = .ok () := by decide +kernel
  have hheld : adder.Held := by
    refine forall_holds_adder ?_ ?_
    · exact ⟨by decide, by decide, by decide, by decide, by decide, by decide, by decide⟩
    · exact ⟨by decide, by decide, by decide, by decide, by decide, by decide, by decide⟩
  have hfits : adder.Fits := by
    refine ⟨forall_holds_adder ?_ ?_, ?_, ?_⟩
    · exact ⟨by decide, by decide⟩
    · exact ⟨by decide, by decide⟩
    · decide +kernel
    · decide +kernel
  have hfloats : ∀ o, adder.Holds o → ∀ k ∈ o.pool,
      k.fields.float.isNaN = false ∧ k.fields.float ≠ ⟨0x8000000000000000⟩ := by
    refine forall_holds_adder ?_ ?_
    · simp only [RecordOf.pool, adder, Option.getD_some, List.forall_mem_cons]
      decide
    · exact nofun
  have hsome : ∀ o, adder.Holds o → o.instructions.getD [] ≠ [] :=
    forall_holds_adder (by decide) (by decide)
  exact ⟨hv, hheld, hfits, hfloats, hsome, decodeRecord_written hv hheld hfits hfloats⟩

/-- A code object without instructions. -/
def bare (lines : Option (List Int)) : CodeRecord :=
  { name := [109], filename := [109], kind := 0, firstLine := 1, lines }

/-- A code object that returns one, whose constant is held with a negative zero. -/
def returningOne : CodeRecord :=
  { name := [109], filename := [109], kind := 0, firstLine := 1
    instructions := some [0, 0, 0x68, 0], lines := some [1, 1]
    constants := some [⟨{ tag := 2, int := 1, float := ⟨0x8000000000000000⟩ }⟩] }

/-- Without instructions, equal code objects have different forms; and a number is lost of a
constant that does not use it. -/
theorem not_decodeRecord_written :
    (∃ r r' : CodeRecord, r.code.verify = .ok () ∧ r'.code.verify = .ok () ∧ r.Held ∧ r'.Held ∧
      r.Fits ∧ r'.Fits ∧ r.pool = [] ∧ r'.normal = r.normal ∧ encodeRecord r' ≠ encodeRecord r) ∧
    ∃ (r b : CodeRecord) (form : List UInt8), r.code.verify = .ok () ∧ r.Held ∧ r.Fits ∧
      (∀ o, r.Holds o → ∀ k ∈ o.pool, k.fields.tag ≠ 3) ∧ encodeRecord r = .ok form ∧
      decodeRecord form = .ok b ∧ b.normal ≠ r.normal := by
  have hbare {lines : Option (List Int)} {P : CodeRecord → Prop} (h : P (bare lines)) :
      ∀ o, (bare lines).Holds o → P o := by
    rw [forall_holds_iff]
    exact ⟨h, nofun⟩
  constructor
  · refine ⟨bare none, bare (some []), by decide +kernel, by decide +kernel, hbare ?_, hbare ?_,
      ⟨hbare ?_, by decide +kernel, by decide +kernel⟩,
      ⟨hbare ?_, by decide +kernel, by decide +kernel⟩, rfl, ?_, by decide +kernel⟩
    · exact ⟨by decide, by decide, by decide, by decide, by decide, by decide, by decide⟩
    · exact ⟨by decide, by decide, by decide, by decide, by decide, by decide, by decide⟩
    · exact ⟨by decide, by decide⟩
    · exact ⟨by decide, by decide⟩
    · rw [normal_eq, normal_eq]
      rfl
  · have hone {P : CodeRecord → Prop} (h : P returningOne) : ∀ o, returningOne.Holds o → P o := by
      rw [forall_holds_iff]
      refine ⟨h, fun k hk o ho => ?_⟩
      obtain rfl := List.mem_singleton.mp hk
      cases ho
    have hv : returningOne.code.verify = .ok () := by decide +kernel
    have hheld : returningOne.Held := hone
      ⟨by decide, by decide, by decide, by decide, by decide, by decide, by decide⟩
    have hfits : returningOne.Fits :=
      ⟨hone ⟨by decide, by decide⟩, by decide +kernel, by decide +kernel⟩
    refine ⟨returningOne, returningOne.kept, _, hv, hheld, hfits, hone (by decide),
      encodeRecord_eq_ok_iff.mpr ⟨hv, rfl⟩,
      (decodeRecord_ofRecord_iff hv hheld _).mpr ⟨hfits, rfl⟩, ?_⟩
    rw [ne_eq, normal_kept_iff]
    intro hkept
    have hzero := hkept returningOne (.self _) _ List.mem_cons_self
    exact absurd hzero (by decide)

end Interchange

end Toolchain

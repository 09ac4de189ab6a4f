import Mathlib.Tactic.Common
import Toolchain.Bytecode.Record
import Toolchain.Proofs.Bytecode.Stored

/-!
# Records of code objects

A record is for one code object, and a code object has a record that is for it. What is made of a
record by recursion is made of its own fields and of what is made of the code objects that its
constants use.

## Main definitions

* `CodeRecord.Holds`: the code objects in a record
* `Code.ObjectPlain`: code objects that a record can be for

## Main results

* `CodeRecord.fold_eq`, `CodeRecord.foldOne_eq`: one step of the recursion
* `CodeRecord.inductionOnPool`: induction over the code objects in a record
* `Code.code_record`: the record of a code object is for that code object
-/

namespace Toolchain

@[simp] theorem getD_heldList {α : Type} (l : List α) : (heldList l).getD [] = l := by
  unfold heldList
  split
  · rename_i h
    exact (List.isEmpty_iff.mp h).symm
  · rfl

@[simp] theorem RecordOf.pool_map {κ μ : Type} (f : κ → μ) (r : RecordOf κ) :
    (r.map f).pool = r.pool.map f := by
  obtain ⟨_, _, _, _, _, _, _, _, _, _ | ks⟩ := r <;> rfl

@[simp] theorem ConstantOf.body?_map {α β : Type} (f : α → β) (k : ConstantOf α) :
    (k.map f).body? = k.body?.map f := by
  unfold ConstantOf.body? ConstantOf.map
  split <;> rfl

namespace CodeRecord

/-! ## Recursion -/

section Fold

variable {α β : Type} (code : RecordOf β → α) (constant : ConstantOf α → β)

theorem foldAll_eq_map : ∀ ks : List ConstantRecord,
    foldAll code constant ks = ks.map (foldOne code constant)
  | [] => by rw [foldAll, List.map_nil]
  | k :: rest => by rw [foldAll, List.map_cons, foldAll_eq_map rest]

theorem foldOne_eq (k : ConstantRecord) :
    foldOne code constant k = constant (k.fields.map (fold code constant)) := by
  obtain ⟨_, _, _, _, _ | r⟩ := k
  · rfl
  · rfl

theorem fold_eq (r : CodeRecord) :
    fold code constant r = code (r.map (foldOne code constant)) := by
  obtain ⟨_, _, _, _, _, _, _, _, _, _ | ks⟩ := r
  · rfl
  · rw [fold, foldPool, foldAll_eq_map]
    rfl

end Fold

mutual

theorem induction_record {P : CodeRecord → Prop}
    (step : ∀ r : CodeRecord, (∀ k ∈ r.pool, ∀ o, k.fields.code = some o → P o) → P r) :
    ∀ r : CodeRecord, P r
  | ⟨_, _, _, _, _, _, _, _, _, none⟩ => step _ nofun
  | ⟨_, _, _, _, _, _, _, _, _, some ks⟩ => step _ (induction_pool step ks)

theorem induction_pool {P : CodeRecord → Prop}
    (step : ∀ r : CodeRecord, (∀ k ∈ r.pool, ∀ o, k.fields.code = some o → P o) → P r) :
    ∀ (ks : List ConstantRecord), ∀ k ∈ ks, ∀ o, k.fields.code = some o → P o
  | [], _, hk, _, _ => nomatch hk
  | .mk ⟨_, _, _, _, none⟩ :: rest, k, hk, o, ho => by
    rcases List.mem_cons.mp hk with rfl | hk
    · cases ho
    · exact induction_pool step rest k hk o ho
  | .mk ⟨_, _, _, _, some r⟩ :: rest, k, hk, o, ho => by
    rcases List.mem_cons.mp hk with rfl | hk
    · obtain rfl : r = o := Option.some.inj ho
      exact induction_record step r
    · exact induction_pool step rest k hk o ho

end

/-- Induction over a record: what holds of the code objects in the constants holds of it. -/
@[elab_as_elim]
theorem inductionOnPool {P : CodeRecord → Prop} (r : CodeRecord)
    (step : ∀ r : CodeRecord, (∀ k ∈ r.pool, ∀ o, k.fields.body? = some o → P o) → P r) : P r := by
  refine induction_record (fun r ih => step r fun k hk o ho => ih k hk o ?_) r
  unfold ConstantOf.body? at ho
  split at ho
  · exact ho
  · cases ho

/-! ## The code objects in a record -/

/-- A code object is in a record: it is the outermost one, or in one that a constant uses. -/
inductive Holds : CodeRecord → CodeRecord → Prop
  | self (r : CodeRecord) : Holds r r
  | nested {r o o' : CodeRecord} {k : ConstantRecord} (hk : k ∈ r.pool)
    (ho : k.fields.body? = some o) (h : Holds o o') : Holds r o'

/-- What holds of all code objects in a record holds of the outermost one, and of all in those that
the constants use. -/
theorem forall_holds_iff {P : CodeRecord → Prop} (r : CodeRecord) :
    (∀ o, r.Holds o → P o) ↔
      P r ∧ ∀ k ∈ r.pool, ∀ o, k.fields.body? = some o → ∀ o', o.Holds o' → P o' := by
  constructor
  · exact fun h => ⟨h r (.self r), fun k hk o ho o' ho' => h o' (.nested hk ho ho')⟩
  · rintro ⟨hself, hnested⟩ o ho
    cases ho with
    | self => exact hself
    | nested hk ho h => exact hnested _ hk _ ho _ h

/-- The constant that a constant is held for. -/
def meaning (k : ConstantRecord) : Constant := (k.fields.map code).meaning

theorem code_eq (r : CodeRecord) : r.code =
    { name := r.name, filename := r.filename, kind := .ofNumber r.kind, firstLine := r.firstLine
      params := r.params.getD [], vararg := r.vararg, kwarg := r.kwarg
      instructions := r.instructions.getD [], lineTable := r.lines
      constants := r.pool.map meaning } := by
  rw [code, fold_eq]
  simp only [RecordOf.pool_map]
  refine congrArg (CodeObject.mk _ _ _ _ _ _ _ _ _) (List.map_congr_left fun k _ => ?_)
  exact foldOne_eq _ _ k

theorem meaning_of_body? {k : ConstantRecord} {o : CodeRecord} (h : k.fields.body? = some o) :
    meaning k = .code o.code := by
  unfold ConstantOf.body? at h
  split at h
  · rename_i htag
    simp only [meaning, ConstantOf.meaning, ConstantOf.map, htag, h]
    rfl
  · cases h

theorem meaning_of_none {k : ConstantRecord} (htag : k.fields.tag = codeTag)
    (hcode : k.fields.code = none) : meaning k = .noCode := by
  simp only [meaning, ConstantOf.meaning, ConstantOf.map, htag, hcode]
  rfl

theorem meaning_of_lt_tag {k : ConstantRecord} (h : codeTag.toNat < k.fields.tag.toNat) :
    meaning k = .unknown k.fields.tag := by
  have htag : (k.fields.map code).tag = k.fields.tag := rfl
  have hfour : codeTag.toNat = 4 := rfl
  unfold meaning ConstantOf.meaning
  rw [htag]
  split
  all_goals first
    | rfl
    | omega

/-- A code object in a record is for one that is nested in that of the record. -/
theorem Holds.mem_nested {r o : CodeRecord} (h : r.Holds o) : o.code ∈ r.code.nested := by
  induction h with
  | self r =>
    rw [Code.nested_eq]
    exact List.mem_cons_self
  | @nested r o o' k hk ho _ ih =>
    have hconstant : .code o.code ∈ r.code.constants := by
      rw [code_eq, ← meaning_of_body? ho]
      exact List.mem_map_of_mem hk
    rw [Code.nested_eq]
    exact List.mem_cons_of_mem _ (Code.nested_subset_of_mem hconstant ih)

theorem normal_eq (r : CodeRecord) : r.normal =
    { r with params := some (r.params.getD []), instructions := some (r.instructions.getD [])
             lines := some (r.lines.getD [])
             constants := some (r.pool.map fun k =>
               ⟨{ k.fields with code := k.fields.body?.map normal }⟩) } := by
  rw [normal, fold_eq]
  simp only [RecordOf.pool_map]
  refine congrArg (fun ks => ({ r with
    params := some (r.params.getD []), instructions := some (r.instructions.getD [])
    lines := some (r.lines.getD []), constants := some ks } : CodeRecord))
    (List.map_congr_left fun k _ => ?_)
  rw [foldOne_eq, ConstantOf.body?_map]
  rfl

end CodeRecord

/-! ## The record of a code object -/

namespace Code

/-- How one constant is held. -/
def heldConstant : Constant → ConstantRecord
  | .name t => ⟨{ tag := 0, string := t }⟩
  | .string t => ⟨{ tag := 1, string := t }⟩
  | .int n => ⟨{ tag := 2, int := n }⟩
  | .float x => ⟨{ tag := 3, float := x }⟩
  | .code c => ⟨{ tag := codeTag, code := some (record c) }⟩
  | .noCode => ⟨{ tag := codeTag }⟩
  | .unknown tag => ⟨{ tag }⟩

theorem recordsOf_eq_map : ∀ ks : List Constant, recordsOf ks = ks.map heldConstant
  | [] => by rw [recordsOf, List.map_nil]
  | k :: rest => by
    cases k <;> rw [recordsOf, recordsOf_eq_map rest, List.map_cons, heldConstant]

theorem record_eq (c : Code) : c.record =
    { name := c.name, filename := c.filename, kind := c.kind.number, firstLine := c.firstLine
      params := heldList c.params, vararg := c.vararg, kwarg := c.kwarg
      instructions := heldList c.instructions, lines := c.lineTable
      constants := heldList (c.constants.map heldConstant) } := by
  cases c
  rw [record, recordsOf_eq_map]

@[simp] theorem pool_record (c : Code) : c.record.pool = c.constants.map heldConstant := by
  rw [record_eq, RecordOf.pool, getD_heldList]

/-- The code object that a held constant uses. -/
theorem body?_heldConstant {k : Constant} {o : CodeRecord} :
    (heldConstant k).fields.body? = some o ↔ ∃ c : Code, k = .code c ∧ c.record = o := by
  cases k with
  | code c =>
    have hbody : (heldConstant (.code c)).fields.body? = some (record c) := rfl
    rw [hbody]
    simp
  | unknown tag =>
    have hbody : (heldConstant (.unknown tag)).fields.body? = none := by
      unfold ConstantOf.body?
      split <;> rfl
    rw [hbody]
    simp
  | _ =>
    constructor
    · nofun
    · rintro ⟨_, ⟨⟩, -⟩

/-- A code object for which there is a record: its kind has a name if its number does, and there is
no constant whose tag stands for nothing. -/
structure ObjectPlain (c : Code) : Prop where
  kind : CodeKind.ofNumber c.kind.number = c.kind
  constants : ∀ tag, .unknown tag ∉ c.constants

/-- **The record of a code object is for that code object.** -/
theorem code_record {c : Code} (h : ∀ o ∈ c.nested, o.ObjectPlain) : c.record.code = c := by
  induction c using Code.inductionOnConstants with
  | step c ih =>
    have hself := h c (by rw [nested_eq]; exact List.mem_cons_self)
    have hconstants : (c.constants.map heldConstant).map CodeRecord.meaning = c.constants := by
      rw [List.map_map]
      conv_rhs => rw [← List.map_id c.constants]
      refine List.map_congr_left fun k hk => ?_
      cases k with
      | code o =>
        have ho := ih o hk fun o' ho' => h o' (by
          rw [nested_eq]
          exact List.mem_cons_of_mem _ (nested_subset_of_mem hk ho'))
        rw [Function.comp_apply, CodeRecord.meaning_of_body? (body?_heldConstant.mpr ⟨o, rfl, rfl⟩),
          ho]
        rfl
      | unknown tag => exact absurd hk (hself.constants tag)
      | _ => rfl
    rw [CodeRecord.code_eq, pool_record, hconstants, record_eq]
    simp only [getD_heldList, hself.kind]

end Code

end Toolchain

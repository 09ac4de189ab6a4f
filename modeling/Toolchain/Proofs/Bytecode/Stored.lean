import Mathlib.Tactic.Common
import Toolchain.Bytecode.Image
import Toolchain.Proofs.Bytecode.Verification

/-!
# What a compiled file keeps of a code object

A file keeps all of a code object but the difference between an empty line table and none, and a
file without lines keeps a table of zeros. The verifier does not tell a code object from what is
kept of it.

## Main definitions

* `Code.stored`: what a file with given flags keeps of a code object
* `Code.depth`: the number of levels of code objects below one

## Main results

* `Code.verify_eq_ok_iff`: a code object is valid if it and all nested ones pass alone
* `Code.verify_stored`: what is kept of a valid code object is valid
-/

namespace Toolchain

open Outcome

namespace Code

/-! ## Nested code objects -/

mutual

/-- The number of levels of code objects below one. -/
def depth : Code → Nat
  | ⟨_, _, _, _, _, _, _, _, _, constants⟩ => depthOf constants

/-- The number of levels of code objects among some constants. -/
def depthOf : List Constant → Nat
  | [] => 0
  | .code c :: rest => max (depth c + 1) (depthOf rest)
  | _ :: rest => depthOf rest

end

theorem depth_eq (c : Code) : c.depth = depthOf c.constants := by
  cases c
  rw [depth]

theorem nested_eq (c : Code) : c.nested = c :: nestedIn c.constants := by
  cases c
  rw [nested]

theorem strings_eq (c : Code) :
    c.strings = c.name :: c.filename :: (c.params ++ optionalText c.vararg ++
      optionalText c.kwarg ++ stringsOf c.constants) := by
  cases c
  rw [strings]

section Members

variable {c : Code} {ks : List Constant}

theorem depth_lt_of_mem (h : .code c ∈ ks) : c.depth < depthOf ks := by
  induction ks with
  | nil => simp at h
  | cons k ks ih =>
    rcases List.mem_cons.mp h with rfl | h
    · rw [depthOf]
      omega
    · have hlt := ih h
      cases k with
      | code c' =>
        rw [depthOf]
        omega
      | _ => simpa only [depthOf] using hlt

theorem exists_depth_of_depthOf {ks : List Constant} (h : 0 < depthOf ks) :
    ∃ c : Code, .code c ∈ ks ∧ depthOf ks = c.depth + 1 := by
  induction ks with
  | nil => simp [depthOf] at h
  | cons k ks ih =>
    have htail (h : 0 < depthOf ks) :
        ∃ c : Code, .code c ∈ k :: ks ∧ depthOf ks = c.depth + 1 := by
      obtain ⟨c, hc, hdepth⟩ := ih h
      exact ⟨c, List.mem_cons_of_mem _ hc, hdepth⟩
    cases k with
    | code c =>
      rw [depthOf] at h ⊢
      by_cases hle : depthOf ks ≤ Code.depth c + 1
      · rw [Nat.max_eq_left hle]
        exact ⟨c, List.mem_cons_self, rfl⟩
      · rw [Nat.max_eq_right (by omega)]
        exact htail (by omega)
    | _ =>
      simp only [depthOf] at h ⊢
      exact htail h

theorem nested_subset_of_mem (h : .code c ∈ ks) : c.nested ⊆ nestedIn ks := by
  induction ks with
  | nil => simp at h
  | cons k ks ih =>
    rcases List.mem_cons.mp h with rfl | hmem
    · rw [nestedIn]
      exact List.subset_append_left _ _
    · cases k with
      | code c' =>
        rw [nestedIn]
        exact List.Subset.trans (ih hmem) (List.subset_append_right _ _)
      | _ => simpa only [nestedIn] using ih hmem

theorem exists_of_mem_nestedIn {o : Code} (h : o ∈ nestedIn ks) :
    ∃ c : Code, .code c ∈ ks ∧ o ∈ c.nested := by
  induction ks with
  | nil => simp [nestedIn] at h
  | cons k ks ih =>
    have htail (h : o ∈ nestedIn ks) : ∃ c : Code, .code c ∈ k :: ks ∧ o ∈ c.nested := by
      obtain ⟨c, hc, ho⟩ := ih h
      exact ⟨c, List.mem_cons_of_mem _ hc, ho⟩
    cases k with
    | code c =>
      rw [nestedIn, List.mem_append] at h
      exact h.elim (fun ho => ⟨c, List.mem_cons_self, ho⟩) htail
    | _ => exact htail (by simpa only [nestedIn] using h)

theorem strings_subset_of_mem (h : .code c ∈ ks) : c.strings ⊆ stringsOf ks := by
  induction ks with
  | nil => simp at h
  | cons k ks ih =>
    rcases List.mem_cons.mp h with rfl | hmem
    · rw [stringsOf]
      exact List.subset_append_left _ _
    · cases k with
      | name t | string t =>
        rw [stringsOf]
        exact List.Subset.trans (ih hmem) (List.subset_cons_self _ _)
      | code c' =>
        rw [stringsOf]
        exact List.Subset.trans (ih hmem) (List.subset_append_right _ _)
      | _ => simpa only [stringsOf] using ih hmem

theorem stringsOf_subset_of_mem {k : Constant} (h : k ∈ ks) : stringsOf [k] ⊆ stringsOf ks := by
  induction ks with
  | nil => simp at h
  | cons k' ks ih =>
    rcases List.mem_cons.mp h with rfl | hmem
    · cases k <;> simp [stringsOf]
    · refine List.Subset.trans (ih hmem) ?_
      cases k' <;> simp [stringsOf]

end Members

/-- A statement about all code objects follows if it passes from the constants of a code object to
the code object. -/
theorem inductionOnConstants {P : Code → Prop}
    (step : ∀ c : Code, (∀ o : Code, .code o ∈ c.constants → P o) → P c) (c : Code) : P c := by
  induction hn : c.depth using Nat.strongRecOn generalizing c with
  | ind n ih =>
    apply step
    intro o ho
    have hlt := depth_lt_of_mem ho
    rw [← depth_eq, hn] at hlt
    exact ih _ hlt o rfl

/-! ## Validity -/

theorem forM_eq_ok_iff {α ε : Type} (f : α → Except ε Unit) (l : List α) :
    l.forM f = .ok () ↔ ∀ a ∈ l, f a = .ok () := by
  induction l with
  | nil => simp
  | cons a l ih =>
    change (f a >>= fun _ => l.forM f) = .ok () ↔ _
    rw [seq_eq_ok_iff, ih, List.forall_mem_cons]

/-- A code object is valid if and only if it and all code objects nested in it pass alone. -/
theorem verify_eq_ok_iff (c : Code) :
    c.verify = .ok () ↔ ∀ o ∈ c.nested, ∃ deepest, o.checkAlone = .ok deepest := by
  unfold verify
  rw [forM_eq_ok_iff]
  refine forall₂_congr fun o _ => ?_
  rw [bind_eq_ok_iff]
  simp

theorem verify_of_mem_nested {c o : Code} (hv : c.verify = .ok ()) (ho : o ∈ c.nested) :
    ∃ deepest, o.checkAlone = .ok deepest :=
  (verify_eq_ok_iff c).mp hv o ho

/-! ## What is kept -/

mutual

/-- What a file keeps of a code object: all of it, with a line table, which is of zeros if the file
has none. -/
def stored (flags : UInt16) : Code → Code
  | ⟨name, filename, kind, firstLine, params, vararg, kwarg, instructions, lineTable, constants⟩ =>
    ⟨name, filename, kind, firstLine, params, vararg, kwarg, instructions,
      some (if Image.withoutLines flags then List.replicate (instructions.length / 2) 0
        else lineTable.getD []),
      storedAll flags constants⟩

/-- What a file keeps of some constants. -/
def storedAll (flags : UInt16) : List Constant → List Constant
  | [] => []
  | .code c :: rest => .code (stored flags c) :: storedAll flags rest
  | k :: rest => k :: storedAll flags rest

end

/-- What a file keeps of one constant. -/
def storedConstant (flags : UInt16) : Constant → Constant
  | .code c => .code (stored flags c)
  | k => k

variable (flags : UInt16)

theorem stored_eq (c : Code) :
    c.stored flags = { c with
      lineTable := some (if Image.withoutLines flags then List.replicate c.size 0 else c.lines)
      constants := storedAll flags c.constants } := by
  cases c
  rw [stored]
  rfl

theorem storedAll_eq_map (ks : List Constant) :
    storedAll flags ks = ks.map (storedConstant flags) := by
  induction ks with
  | nil => simp [storedAll]
  | cons k ks ih => cases k <;> simp [storedAll, storedConstant, ih]

@[simp] theorem isCode_storedConstant (k : Constant) :
    (storedConstant flags k).isCode = k.isCode := by
  cases k <;> rfl

mutual

theorem nested_stored : ∀ c : Code, (c.stored flags).nested = c.nested.map (stored flags)
  | ⟨name, filename, kind, firstLine, params, vararg, kwarg, instructions, lineTable,
    constants⟩ => by
    simp only [stored, nested, List.map_cons, nestedIn_storedAll constants]

theorem nestedIn_storedAll :
    ∀ ks : List Constant, nestedIn (storedAll flags ks) = (nestedIn ks).map (stored flags)
  | [] => by simp only [storedAll, nestedIn, List.map_nil]
  | .code c :: rest => by
    simp only [storedAll, nestedIn, List.map_append, nested_stored c, nestedIn_storedAll rest]
  | .name _ :: rest => by simp only [storedAll, nestedIn, nestedIn_storedAll rest]
  | .string _ :: rest => by simp only [storedAll, nestedIn, nestedIn_storedAll rest]
  | .int _ :: rest => by simp only [storedAll, nestedIn, nestedIn_storedAll rest]
  | .float _ :: rest => by simp only [storedAll, nestedIn, nestedIn_storedAll rest]
  | .noCode :: rest => by simp only [storedAll, nestedIn, nestedIn_storedAll rest]
  | .unknown _ :: rest => by simp only [storedAll, nestedIn, nestedIn_storedAll rest]

end

mutual

theorem strings_stored : ∀ c : Code, (c.stored flags).strings = c.strings
  | ⟨name, filename, kind, firstLine, params, vararg, kwarg, instructions, lineTable,
    constants⟩ => by
    simp only [stored, strings, stringsOf_storedAll constants]

theorem stringsOf_storedAll : ∀ ks : List Constant, stringsOf (storedAll flags ks) = stringsOf ks
  | [] => by simp only [storedAll]
  | .code c :: rest => by
    simp only [storedAll, stringsOf, strings_stored c, stringsOf_storedAll rest]
  | .name t :: rest => by simp only [storedAll, stringsOf, stringsOf_storedAll rest]
  | .string t :: rest => by simp only [storedAll, stringsOf, stringsOf_storedAll rest]
  | .int _ :: rest => by simp only [storedAll, stringsOf, stringsOf_storedAll rest]
  | .float _ :: rest => by simp only [storedAll, stringsOf, stringsOf_storedAll rest]
  | .noCode :: rest => by simp only [storedAll, stringsOf, stringsOf_storedAll rest]
  | .unknown _ :: rest => by simp only [storedAll, stringsOf, stringsOf_storedAll rest]

end

end Code

/-! ## The checks on a code object that is made anew -/

/-- A change of constants that leaves each of its kind. -/
structure Constant.KeepsKind (g : Constant → Constant) : Prop where
  name : ∀ t, g (.name t) = .name t
  isCode : ∀ k, (g k).isCode = k.isCode
  exists_of : ∀ k, k ≠ .noCode ∧ (∀ tag, k ≠ .unknown tag) →
    g k ≠ .noCode ∧ ∀ tag, g k ≠ .unknown tag

/-- The walk looks at nothing but the words. -/
theorem Depths.walk_congr {name : Text} {v v' : CodeView} (h : v.words = v'.words) (n : Nat)
    (d : Depths) : walk name v n d = walk name v' n d := by
  have hvisit (d : Depths) (p : Nat) : visit name v d p = visit name v' d p := by
    unfold visit CodeView.instr?
    rw [h]
  induction n generalizing d with
  | zero => rfl
  | succ n ih =>
    unfold walk
    split
    · rfl
    · simp only [hvisit, ih]

namespace Code

/-- A code object with another table of lines, and with its constants changed one by one. -/
def remade (c : Code) (table : Option (List Int)) (g : Constant → Constant) : Code :=
  { c with lineTable := table, constants := c.constants.map g }

section Remade

variable {c : Code} {table : Option (List Int)} {g : Constant → Constant}

theorem constant_view_remade (k : Nat) :
    (c.remade table g).view.constants[k]? = c.view.constants[k]?.map g := by
  simp [remade, view]

theorem loadsCode_view_remade (hg : Constant.KeepsKind g) (p : Nat) :
    (c.remade table g).view.loadsCode p = c.view.loadsCode p := by
  have hinstr : (c.remade table g).view.instr? p = c.view.instr? p := rfl
  unfold CodeView.loadsCode
  rw [hinstr]
  split
  · rw [constant_view_remade, Option.any_map]
    congr 1
    funext k
    exact hg.isCode k
  · rfl

theorem encoded_remade (hg : Constant.KeepsKind g) {p : Nat} {i : Instr}
    (h : c.view.Encoded p i) : (c.remade table g).view.Encoded p i where
  target hj := h.target hj
  constant hop := by
    have hlt := h.constant hop
    simpa [remade, view] using hlt
  name hop := by
    obtain ⟨t, ht⟩ := h.name hop
    exact ⟨t, by rw [constant_view_remade, ht, Option.map_some, hg.name]⟩
  limit := h.limit
  build := h.build
  dup := h.dup
  rot := h.rot
  make hop := by
    rw [loadsCode_view_remade hg]
    exact h.make hop

theorem wellEncoded_remade (hg : Constant.KeepsKind g)
    (htable : (table.getD []).length = c.size) (h : c.WellEncoded) :
    (c.remade table g).WellEncoded where
  even := h.even
  lines := htable
  words p w hw := by
    obtain ⟨i, hi, he⟩ := h.words p w hw
    exact ⟨i, hi, encoded_remade hg he⟩
  constants k hk := by
    obtain ⟨k', hk', rfl⟩ := List.mem_map.mp hk
    exact hg.exists_of k' (h.constants k' hk')

theorem checkStack_remade : (c.remade table g).checkStack = c.checkStack := by
  have hwords : (c.remade table g).view.words = c.view.words := rfl
  unfold checkStack
  rw [Depths.walk_congr hwords]
  rfl

/-- A valid code object is still valid when it and all nested ones are made anew, with tables of the
right length and constants of the same kinds. -/
theorem verify_remade {f : Code → Code} (hnested : (f c).nested = c.nested.map f)
    (hremade : ∀ o : Code, ∃ table g, Constant.KeepsKind g ∧ f o = o.remade table g ∧
      (o.lines.length = o.size → (table.getD []).length = o.size))
    (hv : c.verify = .ok ()) : (f c).verify = .ok () := by
  rw [verify_eq_ok_iff, hnested]
  intro o ho
  obtain ⟨o', ho', rfl⟩ := List.mem_map.mp ho
  obtain ⟨deepest, hok⟩ := verify_of_mem_nested hv ho'
  rw [checkAlone_eq_ok_iff] at hok
  obtain ⟨table, g, hg, hf, htable⟩ := hremade o'
  refine ⟨deepest, checkAlone_eq_ok_iff.mpr ?_⟩
  rw [hf, checkStack_remade]
  exact ⟨wellEncoded_remade hg (htable hok.1.lines) hok.1, hok.2⟩

end Remade

/-- What is kept of a valid code object is valid. -/
theorem verify_stored (flags : UInt16) {c : Code} (hv : c.verify = .ok ()) :
    (c.stored flags).verify = .ok () := by
  apply verify_remade (nested_stored flags c) _ hv
  intro o
  refine ⟨_, storedConstant flags, ⟨fun _ => rfl, isCode_storedConstant flags, ?_⟩,
    (stored_eq flags o).trans (by rw [storedAll_eq_map]; rfl), ?_⟩
  · intro k hk
    cases k with
    | code c => exact ⟨nofun, nofun⟩
    | _ => exact hk
  · intro hlines
    split
    · exact List.length_replicate
    · exact hlines

end Code

end Toolchain

import Toolchain.Proofs.Compiler.Journal

/-!
# The pool of constants

A constant is put into the pool right before the first instruction that takes it. So the journal of
a code object, read from its beginning, takes the constants in the order of the pool: an instruction
that takes a constant takes one that was taken before, or the first that was not. When the code
object is finished, each constant has a first instruction that takes it, and these come in the order
of the pool.

## Main definitions

* `Opcode.takesConstant`: the operand is the index of a constant
* `CodeRequest.TakesInOrder`: a journal that takes constants in the order of the pool
* `CompileState.Pooled`: the pool has no constant twice, and the journal takes them in order
* `CompileState.loaded`: how many code objects are in the pool, with those nested in them
* `CodeView.MinimalPool`: a finished code object has no constant twice, each is taken, and the first
  that take them are in order

## Main results

* `CompileState.Pooled.push_other`, `CompileState.Pooled.push_taking`,
  `CompileState.Pooled.push_place`, `Compile.Patched.pooled`: the steps of the compiler keep this
* `CodeView.Fulfils.minimalPool`: **the pool of a finished code object is minimal**
-/

namespace Toolchain

/-- Whether the operand of an instruction is the index of a constant. -/
def Opcode.takesConstant (op : Opcode) : Bool := op == .loadConst || op.usesName

/-! ## Journals -/

namespace CodeRequest

/-- A journal, the latest entry first, up to a position: its instructions took as many constants as
given, each for the first time after all before it. Places that were reserved take none. -/
inductive TakesInOrder : List CodeRequest → Nat → Nat → Prop
  | nil : TakesInOrder [] 0 0
  | other {rs : List CodeRequest} {p n : Nat} {i : Instr} (h : TakesInOrder rs p n)
      (hop : i.op.takesConstant = false) : TakesInOrder (.emit p i :: rs) (p + 1) n
  | again {rs : List CodeRequest} {p n : Nat} {i : Instr} (h : TakesInOrder rs p n)
      (hop : i.op.takesConstant = true) (hlt : i.operand < n) :
      TakesInOrder (.emit p i :: rs) (p + 1) n
  | first {rs : List CodeRequest} {p n : Nat} {i : Instr} (h : TakesInOrder rs p n)
      (hop : i.op.takesConstant = true) (heq : i.operand = n) :
      TakesInOrder (.emit p i :: rs) (p + 1) (n + 1)
  | reserve {rs : List CodeRequest} {p n : Nat} (h : TakesInOrder rs p n) :
      TakesInOrder (.reserve p :: rs) (p + 1) n
  | patch {rs : List CodeRequest} {p n x : Nat} {i : Instr} (h : TakesInOrder rs p n)
      (hop : i.op.takesConstant = false) : TakesInOrder (.patch x i :: rs) p n

/-- An instruction that takes a constant was appended at a position. -/
def Takes (rs : List CodeRequest) (x k : Nat) : Prop :=
  ∃ op : Opcode, op.takesConstant = true ∧ emit x ⟨op, k⟩ ∈ rs

variable {rs : List CodeRequest} {p n x k : Nat}

theorem Takes.cons (h : Takes rs x k) (r : CodeRequest) : Takes (r :: rs) x k := by
  obtain ⟨op, hop, hx⟩ := h
  exact ⟨op, hop, List.mem_cons_of_mem _ hx⟩

/-- What takes a constant is the latest entry, or an earlier one. -/
theorem takes_emit_iff {i : Instr} : Takes (.emit p i :: rs) x k ↔
    (x = p ∧ i.operand = k ∧ i.op.takesConstant = true) ∨ Takes rs x k := by
  constructor
  · rintro ⟨op, hop, hx⟩
    rcases List.mem_cons.mp hx with heq | hx
    · obtain ⟨rfl, rfl⟩ := CodeRequest.emit.inj heq
      exact .inl ⟨rfl, rfl, hop⟩
    · exact .inr ⟨op, hop, hx⟩
  · rintro (⟨rfl, rfl, hop⟩ | h)
    · exact ⟨i.op, hop, List.mem_cons_self⟩
    · exact h.cons _

theorem takes_cons_iff {r : CodeRequest} (hr : ∀ q i, r ≠ .emit q i) :
    Takes (r :: rs) x k ↔ Takes rs x k := by
  refine ⟨?_, fun h => h.cons r⟩
  rintro ⟨op, hop, hx⟩
  rcases List.mem_cons.mp hx with heq | hx
  · exact absurd heq.symm (hr _ _)
  · exact ⟨op, hop, hx⟩

namespace TakesInOrder

theorem lt_pos (h : TakesInOrder rs p n) (hx : Takes rs x k) : x < p := by
  induction h with
  | nil =>
    obtain ⟨op, -, hx⟩ := hx
    exact absurd hx List.not_mem_nil
  | other _ hop ih =>
    rcases takes_emit_iff.mp hx with ⟨rfl, -, -⟩ | hx
    · exact Nat.lt_succ_self _
    · exact Nat.lt_succ_of_lt (ih hx)
  | again _ hop _ ih | first _ hop _ ih =>
    rcases takes_emit_iff.mp hx with ⟨rfl, -, -⟩ | hx
    · exact Nat.lt_succ_self _
    · exact Nat.lt_succ_of_lt (ih hx)
  | reserve _ ih => exact Nat.lt_succ_of_lt (ih ((takes_cons_iff (by simp)).mp hx))
  | patch _ _ ih => exact ih ((takes_cons_iff (by simp)).mp hx)

/-- Every constant of the pool is taken. -/
theorem exists_takes (h : TakesInOrder rs p n) (hk : k < n) : ∃ x, Takes rs x k := by
  induction h with
  | nil => exact absurd hk (Nat.not_lt_zero k)
  | first _ hop heq ih =>
    rcases Nat.lt_or_eq_of_le (Nat.le_of_lt_succ hk) with hlt | rfl
    · obtain ⟨x, hx⟩ := ih hlt
      exact ⟨x, hx.cons _⟩
    · exact ⟨_, takes_emit_iff.mpr (.inl ⟨rfl, heq, hop⟩)⟩
  | other _ _ ih | again _ _ _ ih | reserve _ ih | patch _ _ ih =>
    obtain ⟨x, hx⟩ := ih hk
    exact ⟨x, hx.cons _⟩

/-- Before a constant is taken, all before it in the pool are. -/
theorem exists_before (h : TakesInOrder rs p n) (hx : Takes rs x k) {j : Nat} (hj : j < k) :
    ∃ y, y < x ∧ Takes rs y j := by
  induction h with
  | nil =>
    obtain ⟨op, -, hx⟩ := hx
    exact absurd hx List.not_mem_nil
  | other _ hop ih =>
    rcases takes_emit_iff.mp hx with ⟨-, -, hop'⟩ | hx
    · rw [hop] at hop'
      cases hop'
    · obtain ⟨y, hy, hj⟩ := ih hx
      exact ⟨y, hy, hj.cons _⟩
  | again h hop hlt ih =>
    rcases takes_emit_iff.mp hx with ⟨rfl, rfl, -⟩ | hx
    · obtain ⟨y, hy⟩ := h.exists_takes (Nat.lt_trans hj hlt)
      exact ⟨y, h.lt_pos hy, hy.cons _⟩
    · obtain ⟨y, hy, hj⟩ := ih hx
      exact ⟨y, hy, hj.cons _⟩
  | first h hop heq ih =>
    rcases takes_emit_iff.mp hx with ⟨rfl, rfl, -⟩ | hx
    · obtain ⟨y, hy⟩ := h.exists_takes (Nat.lt_of_lt_of_eq hj heq)
      exact ⟨y, h.lt_pos hy, hy.cons _⟩
    · obtain ⟨y, hy, hj⟩ := ih hx
      exact ⟨y, hy, hj.cons _⟩
  | reserve _ ih | patch _ _ ih =>
    obtain ⟨y, hy, hj⟩ := ih ((takes_cons_iff (by simp)).mp hx)
    exact ⟨y, hy, hj.cons _⟩

/-- What is written into places takes no constant. -/
theorem takes_eq_false_of_patch {i : Instr} (h : TakesInOrder rs p n)
    (hx : CodeRequest.patch x i ∈ rs) : i.op.takesConstant = false := by
  induction h with
  | nil => exact absurd hx List.not_mem_nil
  | patch _ hop ih =>
    rcases List.mem_cons.mp hx with heq | hx
    · obtain ⟨-, rfl⟩ := CodeRequest.patch.inj heq
      exact hop
    · exact ih hx
  | other _ _ ih | again _ _ _ ih | first _ _ _ ih | reserve _ ih =>
    rcases List.mem_cons.mp hx with heq | hx
    · cases heq
    · exact ih hx

theorem patches (h : TakesInOrder rs p n) {i : Instr} (hop : i.op.takesConstant = false)
    (places : List Nat) :
    TakesInOrder ((places.map (CodeRequest.patch · i)).reverse ++ rs) p n := by
  induction places generalizing rs with
  | nil => exact h
  | cons x places ih =>
    rw [List.map_cons, List.reverse_cons, List.append_assoc]
    exact ih (h.patch hop)

end TakesInOrder

end CodeRequest

open CodeRequest

/-! ## Code objects in the making -/

theorem Constant.same_comm (a b : Constant) : a.same b = b.same a := by
  cases a <;> cases b <;> simp [same, eq_comm]

/-- A constant was found in the pool, or put at its end. -/
theorem CodeBuilder.addConstant_found_or_pushed {k : Constant} {b b' : CodeBuilder} {i : Nat}
    (h : b.addConstant k = (i, b')) :
    (i < b.constants.size ∧ b' = b) ∨
      (i = b.constants.size ∧ b' = { b with constants := b.constants.push k } ∧
        ∀ old ∈ b.constants, old.same k = false) := by
  unfold addConstant at h
  split at h
  · rename_i j hj
    obtain ⟨rfl, rfl⟩ := Prod.mk.inj h
    obtain ⟨hlt, -⟩ := Array.findIdx?_eq_some_iff_getElem.mp hj
    exact .inl ⟨hlt, rfl⟩
  · rename_i hnone
    obtain ⟨rfl, rfl⟩ := Prod.mk.inj h
    exact .inr ⟨rfl, rfl, fun old hold => Array.findIdx?_eq_none_iff.mp hnone old hold⟩

namespace CompileState

/-- The pool has no constant twice, and the journal takes the constants in the order of the pool. -/
structure Pooled (s : CompileState) : Prop where
  distinct : s.constants.toList.Pairwise fun a b => a.same b = false
  inOrder : TakesInOrder s.frame.requests s.pos s.constants.size

variable {s s' : CompileState}

theorem pooled_of_empty (h : s.frame = {}) : s.Pooled := by
  refine ⟨?_, ?_⟩
  · simp [constants, h]
  · simpa [pos, words, constants, h] using TakesInOrder.nil

/-- Only the code object in the making and the journal matter. -/
theorem Pooled.congr (h : s.Pooled) (hb : s'.frame.builder = s.frame.builder)
    (hr : s'.frame.requests = s.frame.requests) : s'.Pooled := by
  have hconstants : s'.constants = s.constants := congrArg CodeBuilder.constants hb
  have hpos : s'.pos = s.pos := congrArg (fun b : CodeBuilder => b.words.size) hb
  refine ⟨?_, ?_⟩
  · rw [hconstants]
    exact h.distinct
  · rw [hr, hpos, hconstants]
    exact h.inOrder

/-- An instruction that takes no constant was appended. -/
theorem Pooled.push_other (h : s.Pooled) {i : Instr} (hi : i.operand ≤ maxOperand)
    (hop : i.op.takesConstant = false) : (s.push i.encode).Pooled := by
  refine ⟨h.distinct, ?_⟩
  rw [requests_push, CodeRequest.ofWord_encode hi, pos_push]
  exact h.inOrder.other hop

/-- A place was appended. -/
theorem Pooled.push_place (h : s.Pooled) : (s.push Word.placeholder).Pooled := by
  refine ⟨h.distinct, ?_⟩
  rw [requests_push, CodeRequest.ofWord_placeholder, pos_push]
  exact h.inOrder.reserve

/-- A constant was looked up or added, and an instruction that takes it was appended. -/
theorem Pooled.push_taking (h : s.Pooled) {k : Constant} {op : Opcode} {i : Nat}
    {builder : CodeBuilder} (hadded : s.frame.builder.addConstant k = (i, builder))
    (hi : i ≤ maxOperand) (hop : op.takesConstant = true) :
    (CompileState.push { s with frame := { s.frame with builder } }
      (Instr.encode ⟨op, i⟩)).Pooled := by
  obtain ⟨-, hwords, -, -, -⟩ := Compile.addConstant_cases hadded
  have hpos : CompileState.pos { s with frame := { s.frame with builder } } = s.pos :=
    congrArg Array.size hwords
  have hfits : (⟨op, i⟩ : Instr).operand ≤ maxOperand := hi
  rcases CodeBuilder.addConstant_found_or_pushed hadded with ⟨hlt, rfl⟩ | ⟨rfl, rfl, hnew⟩
  · refine ⟨h.distinct, ?_⟩
    rw [requests_push, CodeRequest.ofWord_encode hfits, pos_push, hpos]
    exact h.inOrder.again hop hlt
  · constructor
    · change (s.constants.push k).toList.Pairwise _
      rw [Array.toList_push, List.pairwise_append]
      refine ⟨h.distinct, List.pairwise_singleton _ _, fun a ha b hb => ?_⟩
      obtain rfl := List.mem_singleton.mp hb
      exact hnew a (Array.mem_def.mpr ha)
    · change TakesInOrder _ _ (s.constants.push k).size
      rw [requests_push, CodeRequest.ofWord_encode hfits, pos_push, hpos, Array.size_push]
      exact h.inOrder.first hop rfl

end CompileState

/-- Open places were written. -/
theorem Compile.Patched.pooled {s s' : CompileState} {places : List Nat} {i : Instr}
    (hp : Compile.Patched s s' places i) (hop : i.op.takesConstant = false) (h : s.Pooled) :
    s'.Pooled := by
  refine ⟨?_, ?_⟩
  · rw [hp.constants]
    exact h.distinct
  · rw [hp.requests, hp.pos, hp.constants]
    exact h.inOrder.patches hop places

/-! ## Code objects in the pool -/

/-- The number of code objects in the pool, with those nested in them. -/
def CompileState.loaded (s : CompileState) : Nat := (Code.nestedIn s.constants.toList).length

theorem Code.nestedIn_append (ks ks' : List Constant) :
    nestedIn (ks ++ ks') = nestedIn ks ++ nestedIn ks' := by
  induction ks with
  | nil => simp [nestedIn]
  | cons k ks ih => cases k <;> simp [nestedIn, ih]

/-- A code object is never found in the pool, so it and those nested in it come to the others. -/
theorem CodeBuilder.length_nestedIn_addConstant {k : Constant} {b b' : CodeBuilder} {i : Nat}
    (h : b.addConstant k = (i, b')) : (Code.nestedIn b'.constants.toList).length =
      (Code.nestedIn b.constants.toList).length + (Code.nestedIn [k]).length := by
  obtain ⟨hget, -⟩ := Compile.addConstant_cases h
  unfold addConstant at h
  split at h
  · rename_i j hj
    obtain ⟨rfl, rfl⟩ := Prod.mk.inj h
    obtain ⟨hlt, hsame, -⟩ := Array.findIdx?_eq_some_iff_getElem.mp hj
    have hnone : Code.nestedIn [k] = [] := by
      cases k with
      | code c => simp [Constant.same] at hsame
      | _ => simp [Code.nestedIn]
    rw [hnone, List.length_nil, Nat.add_zero]
  -- it was put at the end
  · obtain ⟨rfl, rfl⟩ := Prod.mk.inj h
    rw [Array.toList_push, Code.nestedIn_append, List.length_append]

/-- A finished code object counts for itself and for those in its pool. -/
theorem CompileState.Finishes.length_nested {s : CompileState} {c : Code} (h : s.Finishes c) :
    c.nested.length = s.loaded + 1 := by
  rw [Code.nested_eq, List.length_cons, h.constants]
  rfl

/-! ## Finished code objects -/

namespace CodeView

variable {v : CodeView} {x k : Nat}

/-- The instruction at a position takes a constant. -/
def TakesAt (v : CodeView) (x k : Nat) : Prop :=
  ∃ op : Opcode, op.takesConstant = true ∧ v.instr? x = some ⟨op, k⟩

/-- The first instruction that takes a constant. -/
structure FirstTakesAt (v : CodeView) (x k : Nat) : Prop where
  takes : v.TakesAt x k
  notBefore : ∀ y < x, ¬ v.TakesAt y k

/-- No two constants of the pool are the same, each is taken by an instruction, and the first
instructions that take them come in the order of the pool. -/
structure MinimalPool (v : CodeView) : Prop where
  distinct : ∀ (i j : Nat) a b, v.constants[i]? = some a → v.constants[j]? = some b → i ≠ j →
    a.same b = false
  taken : ∀ k < v.constants.size, ∃ x, v.TakesAt x k
  inOrder : ∀ k, k + 1 < v.constants.size →
    ∃ x y, v.FirstTakesAt x k ∧ v.FirstTakesAt y (k + 1) ∧ x < y

/-- What takes a constant has a first position. -/
theorem TakesAt.exists_first (h : v.TakesAt x k) : ∃ y ≤ x, v.FirstTakesAt y k := by
  induction x using Nat.strongRecOn with
  | ind x ih =>
    by_cases hbefore : ∃ y < x, v.TakesAt y k
    · obtain ⟨y, hlt, hy⟩ := hbefore
      obtain ⟨z, hz, hfirst⟩ := ih y hlt hy
      exact ⟨z, Nat.le_of_lt (Nat.lt_of_le_of_lt hz hlt), hfirst⟩
    · exact ⟨x, Nat.le_refl x, h, fun y hlt hy => hbefore ⟨y, hlt, hy⟩⟩

/-- A finished code object takes a constant where its journal does. -/
theorem Fulfils.takesAt_iff {requests : List CodeRequest} {p n : Nat} (hv : v.Fulfils requests)
    (h : TakesInOrder requests p n) : v.TakesAt x k ↔ Takes requests x k := by
  constructor
  · rintro ⟨op, hop, hx⟩
    have hlt : x < v.words.size := by
      obtain ⟨w, hw, -⟩ := Option.bind_eq_some_iff.mp hx
      obtain ⟨hlt, -⟩ := Array.getElem?_eq_some_iff.mp hw
      exact hlt
    obtain ⟨r, hr, hrx⟩ :=
      List.mem_filterMap.mp (hv.appended.mem_iff.mpr (List.mem_range.mpr hlt))
    cases r with
    | emit q i =>
      obtain rfl := Option.some.inj hrx
      have hread := hv.readBack q i (List.mem_filterMap.mpr ⟨_, hr, rfl⟩)
      obtain rfl := Option.some.inj (hread.symm.trans hx)
      exact ⟨op, hop, hr⟩
    | reserve q =>
      -- the place was written with an instruction that takes no constant
      obtain rfl := Option.some.inj hrx
      obtain ⟨r', hr', hq⟩ :=
        List.mem_filterMap.mp (hv.written.mem_iff.mp (List.mem_filterMap.mpr ⟨_, hr, rfl⟩))
      cases r' with
      | patch y i =>
        obtain rfl := Option.some.inj hq
        have hread := hv.readBack y i (List.mem_filterMap.mpr ⟨_, hr', rfl⟩)
        obtain rfl := Option.some.inj (hread.symm.trans hx)
        rw [h.takes_eq_false_of_patch hr'] at hop
        cases hop
      | emit y i => cases hq
      | reserve y => cases hq
    | patch q i => cases hrx
  · rintro ⟨op, hop, hx⟩
    exact ⟨op, hop, hv.readBack x ⟨op, k⟩ (List.mem_filterMap.mpr ⟨_, hx, rfl⟩)⟩

/-- **The pool of a finished code object is minimal.** -/
theorem Fulfils.minimalPool {s : CompileState} (hv : v.Fulfils s.frame.requests)
    (hc : v.constants = s.constants) (h : s.Pooled) : v.MinimalPool where
  distinct i j a b ha hb hne := by
    rw [hc] at ha hb
    obtain ⟨hi, rfl⟩ := Array.getElem?_eq_some_iff.mp ha
    obtain ⟨hj, rfl⟩ := Array.getElem?_eq_some_iff.mp hb
    have hpairwise := List.pairwise_iff_getElem.mp h.distinct
    simp only [Array.length_toList, Array.getElem_toList] at hpairwise
    rcases Nat.lt_or_gt_of_ne hne with hlt | hlt
    · exact hpairwise i j hi hj hlt
    · rw [Constant.same_comm]
      exact hpairwise j i hj hi hlt
  taken k hk := by
    rw [hc] at hk
    obtain ⟨x, hx⟩ := h.inOrder.exists_takes hk
    exact ⟨x, (hv.takesAt_iff h.inOrder).mpr hx⟩
  inOrder k hk := by
    rw [hc] at hk
    obtain ⟨y, hy⟩ := h.inOrder.exists_takes hk
    obtain ⟨y', -, hfirst⟩ := ((hv.takesAt_iff h.inOrder).mpr hy).exists_first
    -- the constant was taken before the next one was
    obtain ⟨x, hlt, hx⟩ :=
      h.inOrder.exists_before ((hv.takesAt_iff h.inOrder).mp hfirst.takes) (Nat.lt_succ_self k)
    obtain ⟨x', hle, hfirst'⟩ := ((hv.takesAt_iff h.inOrder).mpr hx).exists_first
    exact ⟨x', y', hfirst', hfirst, Nat.lt_of_le_of_lt hle hlt⟩

end CodeView

end Toolchain

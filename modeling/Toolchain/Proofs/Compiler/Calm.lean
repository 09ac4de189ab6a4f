import Toolchain.Proofs.Compiler.Resolution

/-!
# Calm code

The code of expressions, and of statements without statements inside, only computes: it neither
returns nor touches the registered handlers, its jumps stay in it or go right behind it, and there
is a way through it.

## Main definitions

* `Opcode.isPlain`: an operation that neither returns nor touches the registered handlers
* `CodeView.Walk`: a way along plain instructions
* `CodeView.Quiet`, `CodeView.Calm`: a stretch of plain instructions, and one with a way through

## Main results

* `CodeView.ExprAt.calm`: the code of an expression is calm
* `CodeView.StmtAt.calm`: the code of a statement that only computes is calm
* `CodeView.StmtAt.stops`: the code of a statement that goes nowhere is calm up to its end
-/

namespace Toolchain

/-- An operation that neither returns nor touches the registered handlers. -/
def Opcode.isPlain : Opcode → Bool
  | .ret | .try | .handle => false
  | _ => true

/-- An operation that is plain, is no jump and goes on to the next instruction. -/
def Opcode.isStraight : Opcode → Bool
  | .ret | .try | .handle | .jump | .jumpIfFalse | .jumpIfTrue | .next | .raise => false
  | _ => true

theorem Opcode.isStraight_iff (op : Opcode) :
    op.isStraight = true ↔ op.isPlain = true ∧ op.isJump = false ∧ op.terminates = false := by
  cases op <;> decide

namespace CodeView

variable {v : CodeView} {p q n m : Nat} {i : Instr} {T : Nat → Prop}

/-- An instruction leads to the next one, or to its target. -/
theorem Edge.next_or_target {δ : Int} (he : v.Edge p δ q) (hi : v.instr? p = some i) :
    q = p + 1 ∧ i.op.terminates = false ∨ q = i.operand ∧ i.op.isJump = true := by
  cases he with
  | fallThrough hi' ht =>
    obtain rfl := Option.some.inj (hi.symm.trans hi')
    exact .inl ⟨rfl, ht⟩
  | jump hi' hj =>
    obtain rfl := Option.some.inj (hi.symm.trans hi')
    exact .inr ⟨rfl, by rcases hj with h | h | h <;> rw [h] <;> rfl⟩
  | exhausted hi' hn =>
    obtain rfl := Option.some.inj (hi.symm.trans hi')
    exact .inr ⟨rfl, by rw [hn]; rfl⟩
  | handler hi' ht =>
    obtain rfl := Option.some.inj (hi.symm.trans hi')
    exact .inr ⟨rfl, by rw [ht]; rfl⟩

/-- A way along plain instructions. -/
def Walk (v : CodeView) : Nat → Nat → Prop :=
  Relation.ReflTransGen fun x y => ∃ i δ, v.instr? x = some i ∧ i.op.isPlain = true ∧ v.Edge x δ y

theorem walk_edge {δ : Int} (hi : v.instr? p = some i) (hplain : i.op.isPlain = true)
    (he : v.Edge p δ q) : v.Walk p q :=
  .single ⟨i, δ, hi, hplain, he⟩

/-- A stretch of `n` plain instructions that lead into the stretch, right behind it, or to some
other positions. -/
def Quiet (v : CodeView) (p n : Nat) (T : Nat → Prop) : Prop :=
  ∀ x, p ≤ x → x < p + n → ∃ i, v.instr? x = some i ∧ i.op.isPlain = true ∧
    ∀ δ y, v.Edge x δ y → p ≤ y ∧ y ≤ p + n ∨ T y

/-- A quiet stretch with a way through. -/
structure Calm (v : CodeView) (p n : Nat) (T : Nat → Prop) : Prop where
  quiet : v.Quiet p n T
  through : v.Walk p (p + n)

theorem Quiet.append (h : v.Quiet p n T) (h' : v.Quiet q m T) (hq : q = p + n) :
    v.Quiet p (n + m) T := by
  subst hq
  intro x h₁ h₂
  rcases Nat.lt_or_ge x (p + n) with hx | hx
  · obtain ⟨i, hi, hplain, hedge⟩ := h x h₁ hx
    exact ⟨i, hi, hplain, fun δ y he => (hedge δ y he).imp_left fun hy => by omega⟩
  · obtain ⟨i, hi, hplain, hedge⟩ := h' x hx (by omega)
    exact ⟨i, hi, hplain, fun δ y he => (hedge δ y he).imp_left fun hy => by omega⟩

/-- The other positions are in the stretch after all. -/
theorem Quiet.close {T' : Nat → Prop} (h : v.Quiet p n T)
    (hT : ∀ y, T y → p ≤ y ∧ y ≤ p + n ∨ T' y) : v.Quiet p n T' := by
  intro x h₁ h₂
  obtain ⟨i, hi, hplain, hedge⟩ := h x h₁ h₂
  exact ⟨i, hi, hplain, fun δ y he => (hedge δ y he).elim .inl (hT y)⟩

theorem quiet_instr (hi : v.instr? p = some i) (hplain : i.op.isPlain = true)
    (hT : i.op.isJump = true → T i.operand) : v.Quiet p 1 T := by
  intro x h₁ h₂
  obtain rfl : x = p := by omega
  refine ⟨i, hi, hplain, fun δ y he => ?_⟩
  rcases he.next_or_target hi with ⟨rfl, -⟩ | ⟨rfl, hj⟩
  · exact .inl (by omega)
  · exact .inr (hT hj)

theorem quiet_next (hi : v.instr? p = some i) (hplain : i.op.isPlain = true)
    (hjump : i.op.isJump = false) : v.Quiet p 1 T := by
  refine quiet_instr hi hplain fun h => ?_
  rw [hjump] at h
  cases h

namespace Calm

theorem nil (v : CodeView) (p : Nat) (T : Nat → Prop) : v.Calm p 0 T :=
  ⟨fun x h₁ h₂ => by omega, .refl⟩

/-- One stretch after another. -/
theorem append (h : v.Calm p n T) (h' : v.Calm q m T) (hq : q = p + n) : v.Calm p (n + m) T := by
  refine ⟨h.quiet.append h'.quiet hq, h.through.trans ?_⟩
  subst hq
  rw [← Nat.add_assoc]
  exact h'.through

theorem close {T' : Nat → Prop} (h : v.Calm p n T) (hT : ∀ y, T y → p ≤ y ∧ y ≤ p + n ∨ T' y) :
    v.Calm p n T' :=
  ⟨h.quiet.close hT, h.through⟩

theorem congr (h : v.Calm p n T) (hn : n = m) : v.Calm p m T := hn ▸ h

/-- A single instruction that goes straight on. -/
theorem instr (hi : v.instr? p = some i) (hop : i.op.isStraight = true) : v.Calm p 1 T := by
  obtain ⟨hplain, hjump, hgoes⟩ := (Opcode.isStraight_iff i.op).mp hop
  refine ⟨quiet_instr hi hplain fun hj => ?_, walk_edge hi hplain (.fallThrough hi hgoes)⟩
  rw [hjump] at hj
  cases hj

/-- A single jump that is not always taken. -/
theorem jump (hi : v.instr? p = some i) (hplain : i.op.isPlain = true)
    (hgoes : i.op.terminates = false) (hT : T i.operand) : v.Calm p 1 T :=
  ⟨quiet_instr hi hplain fun _ => hT, walk_edge hi hplain (.fallThrough hi hgoes)⟩

/-- One more instruction that goes straight on. -/
theorem snoc (h : v.Calm p n T) (hi : v.instr? q = some i) (hop : i.op.isStraight = true)
    (hq : q = p + n) : v.Calm p (n + 1) T :=
  h.append (.instr hi hop) hq

/-- What comes behind a stretch may be jumped over. -/
theorem skip {k : Nat} {δ : Int} (h : v.Calm p n T) (hi : v.instr? (p + n) = some i)
    (hplain : i.op.isPlain = true) (hjump : v.Edge (p + n) δ (p + (n + 1 + k)))
    (htarget : i.operand = p + (n + 1 + k)) (hrest : v.Quiet (p + (n + 1)) k T) :
    v.Calm p (n + 1 + k) T := by
  refine ⟨?_, h.through.trans (walk_edge hi hplain hjump)⟩
  have hone : v.Quiet (p + n) 1 fun y => T y ∨ y = p + (n + 1 + k) :=
    quiet_instr hi hplain fun _ => .inr htarget
  have hfirst := (h.quiet.close fun y hy => .inr (.inl hy)).append hone rfl
  refine (hfirst.append (hrest.close fun y hy => .inr (.inl hy)) rfl).close fun y hy => ?_
  rcases hy with hy | rfl
  · exact .inr hy
  · exact .inl (by omega)

/-- Behind a chain of comparisons an operand is dropped, if a jump leads there. -/
theorem drop (h : v.Calm p n fun y => y = p + n + 1)
    (hjump : v.instr? (p + n) = some ⟨.jump, p + n + 3⟩)
    (hrot : v.instr? (p + n + 1) = some ⟨.rot, 2⟩) (hpop : v.instr? (p + n + 2) = some ⟨.pop, 0⟩) :
    v.Calm p (n + 3) T := by
  have htail : v.Quiet (p + (n + 1)) 2 fun y => y = p + n + 1 :=
    (quiet_next hrot rfl rfl).append (quiet_next hpop rfl rfl) rfl
  refine (h.skip (k := 2) hjump rfl (.jump hjump (.inl rfl)) rfl htail).close fun y hy => .inl ?_
  omega

end Calm

/-- A single instruction with a constant. -/
theorem Loads.calm {op : Opcode} {k : Constant} (h : v.Loads p op k) (hop : op.isStraight = true) :
    v.Calm p 1 T := by
  obtain ⟨j, hj, -⟩ := h
  exact .instr hj hop

/-- One more instruction with a constant. -/
theorem Calm.snoc_loads {op : Opcode} {k : Constant} (h : v.Calm p n T) (hk : v.Loads q op k)
    (hop : op.isStraight = true) (hq : q = p + n) : v.Calm p (n + 1) T :=
  h.append (hk.calm hop) hq

theorem LiteralAt.calm {l : Literal} (h : v.LiteralAt l p) : v.Calm p 1 T := by
  cases l with
  | none => exact .instr h rfl
  | bool b => cases b <;> exact .instr h rfl
  | int n => exact Loads.calm h rfl
  | float x => exact Loads.calm h rfl
  | str s => exact Loads.calm h rfl

/-! ## Expressions -/

variable {file : Text}

mutual

/-- The code of an expression is calm. -/
theorem ExprAt.calm : ∀ {e : MarkedExpr} {p : Nat} {T : Nat → Prop}, v.ExprAt file e p →
    v.Calm p e.codeSize T
  | .boolOp _ op values, p, T, h => by
    simp only [ExprAt, Expr.codeSize] at h ⊢
    -- the operands lead to one place only, right behind them
    refine (h.calm (T := fun y => y = p + Expr.connectedSize values) ?_ ?_ rfl).close fun y hy => ?_
    · cases op <;> rfl
    · cases op <;> rfl
    · exact .inl (by omega)
  | .binOp _ left op right, p, T, h => by
    simp only [ExprAt, Expr.codeSize] at h ⊢
    obtain ⟨hleft, hright, hop⟩ := h
    exact (hleft.calm.append hright.calm rfl).snoc hop rfl (Nat.add_assoc ..)
  | .unaryOp _ op operand, p, T, h => by
    simp only [ExprAt, Expr.codeSize] at h ⊢
    exact h.1.calm.snoc h.2 rfl rfl
  | .lambda m ⟨params, defaults, vararg, kwarg⟩ body, p, T, h => by
    simp only [ExprAt, Expr.codeSize] at h ⊢
    obtain ⟨hdefaults, ⟨c, -, hcode⟩, hmake⟩ := h
    exact (hdefaults.calm.snoc_loads hcode rfl rfl).snoc hmake rfl rfl
  | .dict _ items, p, T, h => by
    simp only [ExprAt, Expr.codeSize] at h ⊢
    exact h.1.calm.snoc h.2 rfl rfl
  | .compare _ left rest, p, T, h => by
    simp only [ExprAt, Expr.codeSize] at h ⊢
    obtain ⟨hleft, hrest, hdrop⟩ := h
    by_cases hchain : 2 ≤ rest.length
    · rw [Nat.add_assoc p] at hrest hdrop
      obtain ⟨hjump, hrot, hpop⟩ := hdrop hchain
      rw [if_pos hchain]
      exact (hleft.calm.append (hrest.calm (T := (· = _)) fun _ => rfl) rfl).drop hjump hrot hpop
    · rw [if_neg hchain]
      exact hleft.calm.append (hrest.calm fun h => absurd h hchain) rfl
  | .call _ func args keywords, p, T, h => by
    simp only [ExprAt, Expr.codeSize] at h ⊢
    obtain ⟨hfunc, hkeywords, hargs, hcall⟩ := h
    exact ((hfunc.calm.append hkeywords.calm rfl).append hargs.calm (Nat.add_assoc ..)).snoc hcall
      rfl
      (by omega)
  | .constant _ value, p, T, h => by
    simp only [ExprAt, Expr.codeSize] at h ⊢
    exact h.calm
  | .attr _ value label _, p, T, h => by
    simp only [ExprAt, Expr.codeSize] at h ⊢
    exact h.1.calm.snoc_loads h.2 rfl rfl
  | .subscript _ value part _, p, T, h => by
    simp only [ExprAt, Expr.codeSize] at h ⊢
    obtain ⟨hvalue, hpart, hop⟩ := h
    exact (hvalue.calm.append hpart.calm rfl).snoc hop rfl (Nat.add_assoc ..)
  | .name _ id _, p, T, h => by
    simp only [ExprAt, Expr.codeSize] at h ⊢
    exact h.calm rfl
  | .list _ elts _, p, T, h => by
    simp only [ExprAt, Expr.codeSize] at h ⊢
    exact h.1.calm.snoc h.2 rfl rfl
  | .tuple _ elts _, p, T, h => by
    simp only [ExprAt, Expr.codeSize] at h ⊢
    exact h.1.calm.snoc h.2 rfl rfl
  | .slice _ lower upper step, p, T, h => by
    simp only [ExprAt, Expr.codeSize] at h ⊢
    obtain ⟨hstep, hupper, hlower, hbuild⟩ := h
    exact ((hstep.calm.append hupper.calm rfl).append hlower.calm (Nat.add_assoc ..)).snoc hbuild
      rfl
      (by omega)
  | .index _ value, p, T, h => by
    simp only [ExprAt, Expr.codeSize] at h ⊢
    exact h.calm
  | .formatted _ value conversion none, p, T, h => by
    simp only [ExprAt, Expr.codeSize] at h ⊢
    exact h.1.calm.snoc h.2 rfl rfl
  | .formatted _ value conversion (some spec), p, T, h => by
    simp only [ExprAt, Expr.codeSize] at h ⊢
    obtain ⟨hvalue, hspec, hop⟩ := h
    exact (hvalue.calm.append hspec.calm rfl).snoc hop rfl (Nat.add_assoc ..)

theorem OptionAt.calm : ∀ {e : Option MarkedExpr} {p : Nat} {T : Nat → Prop}, v.OptionAt file e p →
    v.Calm p (Expr.optionSize e) T
  | none, p, T, h => by
    simp only [OptionAt, Expr.optionSize] at h ⊢
    exact .instr h rfl
  | some e, p, T, h => by
    simp only [OptionAt, Expr.optionSize] at h ⊢
    exact h.calm

theorem ReversedAt.calm : ∀ {es : List MarkedExpr} {p : Nat} {T : Nat → Prop},
    v.ReversedAt file es p → v.Calm p (Expr.sumSize es) T
  | [], p, T, _ => by
    exact .nil v p T
  | e :: es, p, T, h => by
    exact h.1.calm.append h.2.calm rfl

theorem ItemsAt.calm : ∀ {items : List (MarkedExpr × MarkedExpr)} {p : Nat} {T : Nat → Prop},
    v.ItemsAt file items p → v.Calm p (Expr.itemsSize items) T
  | [], p, T, _ => by
    exact .nil v p T
  | (key, value) :: rest, p, T, h => by
    obtain ⟨hrest, hvalue, hkey⟩ := h
    exact (hrest.calm.append hvalue.calm rfl).append hkey.calm (Nat.add_assoc ..)

theorem KeywordsAt.calm : ∀ {ks : List (KeywordArg Mark MarkedExpr)} {p : Nat} {T : Nat → Prop},
    v.KeywordsAt file ks p → v.Calm p (Expr.keywordsSize ks) T
  | [], p, T, _ => by
    exact .nil v p T
  | ⟨_, key, value⟩ :: rest, p, T, h => by
    obtain ⟨hrest, hvalue, hkey⟩ := h
    exact (hrest.calm.append hvalue.calm rfl).snoc_loads hkey rfl (Nat.add_assoc ..)

/-- The operands of a connective, whose jumps go to `done`. -/
theorem ConnectedAt.calm : ∀ {es : List MarkedExpr} {op : Opcode} {done p : Nat} {T : Nat → Prop},
    v.ConnectedAt file op done es p → op.isPlain = true → op.terminates = false → T done →
      v.Calm p (Expr.connectedSize es) T
  | [], op, done, p, T, _, _, _, _ => by
    exact .nil v p T
  | [e], op, done, p, T, h, _, _, _ => by
    simp only [ConnectedAt, Expr.connectedSize] at h ⊢
    exact h.calm
  | e :: e' :: es, op, done, p, T, h, hop, hgoes, hT => by
    obtain ⟨he, hdup, hjump, hpop, hrest⟩ := h
    have htested := ((he.calm (T := T)).snoc hdup rfl rfl).append (.jump hjump hop hgoes hT) rfl
    exact (htested.snoc hpop rfl rfl).append (hrest.calm hop hgoes hT) (Nat.add_assoc ..)

/-- The operands of comparisons, whose jumps go to `drop`. -/
theorem ComparisonsAt.calm :
    ∀ {rest : List (CompareOp × MarkedExpr)} {drop p : Nat} {T : Nat → Prop},
    v.ComparisonsAt file drop rest p → (2 ≤ rest.length → T drop) →
      v.Calm p (Expr.comparisonsSize rest) T
  | [], drop, p, T, _, _ => by
    exact .nil v p T
  | [(op, e)], drop, p, T, h, _ => by
    exact h.1.calm.snoc h.2 rfl rfl
  | (op, e) :: next :: rest, drop, p, T, h, hT => by
    obtain ⟨he, hdup, hrot, hcompare, hdup', hjump, hpop, hrest⟩ := h
    have hT := hT (by simp)
    have hcompared := (((he.calm (T := T)).snoc hdup rfl rfl).snoc hrot rfl rfl).snoc
      hcompare rfl rfl
    have htested := (hcompared.snoc hdup' rfl rfl).append (.jump hjump rfl rfl hT) rfl
    exact (htested.snoc hpop rfl rfl).append (hrest.calm fun _ => hT) (Nat.add_assoc ..)

end

/-! ## Targets -/

/-- The values of an iterator are stored, then the iterator is dropped. -/
theorem calm_unpack (hiter : v.instr? p = some ⟨.iter, 0⟩)
    (h : v.Calm (p + 1) n fun y => y = p + 1 + n)
    (hpop : v.instr? (p + 1 + n) = some ⟨.pop, 0⟩) : v.Calm p (n + 2) T := by
  have hstores := ((Calm.instr hiter rfl).append h rfl).snoc hpop rfl (Nat.add_assoc ..)
  refine (hstores.close fun y hy => .inl ?_).congr (by omega)
  omega

mutual

/-- The code that stores into a target is calm. -/
theorem StoreAt.calm : ∀ {e : MarkedExpr} {p : Nat} {T : Nat → Prop}, v.StoreAt file e p →
    v.Calm p e.storeSize T
  | .name _ id _, p, T, h => by
    simp only [StoreAt, Expr.storeSize] at h ⊢
    exact h.calm rfl
  | .attr _ value label _, p, T, h => by
    exact h.1.calm.snoc_loads h.2 rfl rfl
  | .subscript _ value part _, p, T, h => by
    obtain ⟨hvalue, hpart, hop⟩ := h
    exact (hvalue.calm.append hpart.calm rfl).snoc hop rfl (Nat.add_assoc ..)
  | .tuple _ elts _, p, T, h => by
    exact calm_unpack h.1 (h.2.1.calm rfl) h.2.2
  | .list _ elts _, p, T, h => by
    exact calm_unpack h.1 (h.2.1.calm rfl) h.2.2

theorem StoresAt.calm : ∀ {es : List MarkedExpr} {done p : Nat} {T : Nat → Prop},
    v.StoresAt file done es p → T done → v.Calm p (Expr.storesSize es) T
  | [], done, p, T, _, _ => by
    exact .nil v p T
  | e :: es, done, p, T, h, hT => by
    simp only [StoresAt, Expr.storesSize] at h ⊢
    obtain ⟨hnext, hstore, hrest⟩ := h
    have htarget := (Calm.jump hnext rfl rfl hT).append hstore.calm rfl
    exact (htarget.append (hrest.calm hT) (Nat.add_assoc ..)).congr (by omega)

end

mutual

/-- The code that deletes a target is calm. -/
theorem DeleteAt.calm : ∀ {e : MarkedExpr} {p : Nat} {T : Nat → Prop}, v.DeleteAt file e p →
    v.Calm p e.deleteSize T
  | .name _ id _, p, T, h => by
    simp only [DeleteAt, Expr.deleteSize] at h ⊢
    exact h.calm rfl
  | .attr _ value label _, p, T, h => by
    simp only [DeleteAt, Expr.deleteSize] at h ⊢
    exact h.1.calm.snoc_loads h.2 rfl rfl
  | .subscript _ value part _, p, T, h => by
    simp only [DeleteAt, Expr.deleteSize] at h ⊢
    obtain ⟨hvalue, hpart, hop⟩ := h
    exact (hvalue.calm.append hpart.calm rfl).snoc hop rfl (Nat.add_assoc ..)
  | .tuple _ elts _, p, T, h => by
    simp only [DeleteAt, Expr.deleteSize] at h ⊢
    exact h.calm
  | .list _ elts _, p, T, h => by
    simp only [DeleteAt, Expr.deleteSize] at h ⊢
    exact h.calm

theorem DeletesAt.calm : ∀ {es : List MarkedExpr} {p : Nat} {T : Nat → Prop},
    v.DeletesAt file es p → v.Calm p (Expr.deletesSize es) T
  | [], p, T, _ => by
    exact .nil v p T
  | e :: es, p, T, h => by
    exact h.1.calm.append h.2.calm rfl

end

theorem AssignAt.calm : ∀ {targets : List MarkedExpr} {p : Nat}, v.AssignAt file targets p →
    v.Calm p (Expr.assignSize targets) T
  | [], p, _ => by
    simp only [Expr.assignSize]
    exact .nil v p T
  | [target], p, h => by
    simp only [AssignAt, Expr.assignSize] at h ⊢
    exact h.calm
  | target :: next :: targets, p, h => by
    simp only [AssignAt] at h
    rw [Expr.assignSize]
    obtain ⟨hdup, hstore, hrest⟩ := h
    have htarget := (Calm.instr (T := T) hdup rfl).append hstore.calm rfl
    exact (htarget.append hrest.calm (Nat.add_assoc ..)).congr (by omega)

theorem AugAssignAt.calm {op : BinaryOp} {value target : MarkedExpr}
    (h : v.AugAssignAt file op value target p) :
    v.Calm p (Expr.augAssignSize value target) T := by
  cases target with
  | name m id ctx =>
    simp only [AugAssignAt, Expr.augAssignSize] at h ⊢
    obtain ⟨hload, hvalue, hop, hstore⟩ := h
    have hread := (hload.calm (T := T) rfl).append hvalue.calm rfl
    exact ((hread.snoc hop rfl (by omega)).snoc_loads hstore rfl (by omega)).congr (by omega)
  | attr m object label ctx =>
    simp only [AugAssignAt, Expr.augAssignSize] at h ⊢
    obtain ⟨hobject, hdup, hload, hvalue, hop, hrot, hstore⟩ := h
    have hread := ((hobject.calm (T := T)).snoc hdup rfl rfl).snoc_loads hload rfl rfl
    have hchanged := (hread.append hvalue.calm rfl).snoc hop rfl (by omega)
    exact ((hchanged.snoc hrot rfl (by omega)).snoc_loads hstore rfl (by omega)).congr (by omega)
  | subscript m object part ctx =>
    simp only [AugAssignAt, Expr.augAssignSize] at h ⊢
    obtain ⟨hobject, hpart, hdup, hload, hvalue, hop, hrot, hstore⟩ := h
    have hparts := (hobject.calm (T := T)).append hpart.calm rfl
    have hread := (hparts.snoc hdup rfl (by omega)).snoc hload rfl (by omega)
    have hchanged := (hread.append hvalue.calm (by omega)).snoc hop rfl (by omega)
    exact ((hchanged.snoc hrot rfl (by omega)).snoc hstore rfl (by omega)).congr (by omega)
  | _ => exact h.elim

/-! ## Statements -/

theorem ImportAt.calm {a : Alias Mark} (h : v.ImportAt a p) : v.Calm p a.importSize T := by
  obtain ⟨himport, hbind⟩ := h
  unfold Alias.importSize
  cases hname : a.asName with
  | some name =>
    simp only [hname] at hbind ⊢
    exact (himport.calm rfl).snoc_loads hbind rfl rfl
  | none =>
    cases htop : Compile.topName? a.name with
    | some top =>
      simp only [hname, htop] at hbind ⊢
      obtain ⟨hpop, hagain, hstore⟩ := hbind
      have hpopped := (himport.calm (T := T) rfl).snoc hpop rfl rfl
      exact (hpopped.snoc_loads hagain rfl rfl).snoc_loads hstore rfl rfl
    | none =>
      simp only [hname, htop] at hbind ⊢
      exact (himport.calm rfl).snoc_loads hbind rfl rfl

theorem ImportsAt.calm : ∀ {names : List (Alias Mark)} {p : Nat}, v.ImportsAt names p →
    v.Calm p (Alias.importsSize names) T
  | [], p, _ => .nil v p T
  | a :: as, p, h => by
    exact h.1.calm.append h.2.calm rfl

theorem ImportsFromAt.calm : ∀ {names : List (Alias Mark)} {p : Nat}, v.ImportsFromAt names p →
    v.Calm p (2 * names.length) T
  | [], p, _ => .nil v p T
  | a :: as, p, h => by
    simp only [ImportsFromAt, List.length_cons] at h ⊢
    obtain ⟨himport, hbind, hrest⟩ := h
    have hbound : v.Calm p 2 T := by
      refine (himport.calm rfl).append (m := 1) ?_ rfl
      split at hbind
      · exact .instr hbind rfl
      · exact hbind.calm rfl
    exact (hbound.append hrest.calm rfl).congr (by omega)

theorem AssertAt.calm {test : MarkedExpr} {msg : Option MarkedExpr}
    (h : v.AssertAt file test msg p) :
    v.Calm p (test.codeSize + 4 + (msg.map Expr.codeSize).getD 0) T := by
  cases msg with
  | none =>
    simp only [AssertAt, Option.map_none, Option.getD_none, Nat.add_zero] at h ⊢
    obtain ⟨htest, hjump, hload, hcall, hraise⟩ := h
    have hfails : v.Calm (p + (test.codeSize + 1)) 2 T := (hload.calm rfl).snoc hcall rfl rfl
    exact htest.calm.skip (k := 3) hjump rfl (.jump hjump (.inr (.inr rfl))) rfl
      (hfails.quiet.append (quiet_next hraise rfl rfl) rfl)
  | some msg =>
    simp only [AssertAt, Option.map_some, Option.getD_some] at h ⊢
    obtain ⟨htest, hjump, hload, hmsg, hcall, hraise⟩ := h
    have hfails : v.Calm (p + (test.codeSize + 1)) (1 + msg.codeSize + 1) T :=
      ((hload.calm rfl).append hmsg.calm rfl).snoc hcall rfl (by omega)
    have htarget : p + test.codeSize + 4 + msg.codeSize =
        p + (test.codeSize + 1 + (1 + msg.codeSize + 1 + 1)) := by omega
    rw [htarget] at hjump
    refine (htest.calm.skip hjump rfl (.jump hjump (.inr (.inr rfl))) rfl
      (hfails.quiet.append (quiet_next hraise rfl rfl) (by omega))).congr (by omega)

theorem DefineAt.calm {op : Opcode} {u : CodeUnit} {count : Nat} {name : String}
    (h : v.DefineAt file op u count name p) (hop : op.isStraight = true) : v.Calm p 3 T := by
  obtain ⟨⟨c, -, hload⟩, hmake, hstore⟩ := h
  exact ((hload.calm rfl).snoc hmake hop rfl).snoc_loads hstore rfl rfl

theorem TakeAt.calm {name : Option String} (h : v.TakeAt name p) : v.Calm p 1 T := by
  cases name with
  | none => exact .instr h rfl
  | some name => exact Loads.calm h rfl

/-- An exception is compared with the type of a handler. -/
theorem HeadAt.calm {next : Nat} {name : Option String} {type : MarkedExpr}
    (h : v.HeadAt file next name (some type) p) : v.Calm p (1 + type.codeSize + 1) T :=
  ((Calm.instr h.1 rfl).append h.2.1.calm rfl).snoc h.2.2.1 rfl (Nat.add_assoc ..)

end CodeView

/-- Whether a statement only computes and goes on behind it. -/
def Stmt.isSimple {α : Type} : Stmt α → Bool
  | .functionDef .. | .classDef .. | .delete .. | .assign .. | .augAssign .. | .assert .. => true
  | .imports .. | .importFrom .. | .expr .. | .pass .. => true
  | _ => false

/-- The operation that ends the code of a statement, if it goes nowhere from there. -/
def Stmt.stop? {α : Type} : Stmt α → Option Opcode
  | .ret .. => some .ret
  | .raise .. => some .raise
  | _ => none

namespace CodeView

variable {v : CodeView} {file : Text} {a : Around} {p : Nat} {T : Nat → Prop}

/-- The code of a statement that only computes and goes on behind it is calm. -/
theorem StmtAt.calm {st : MarkedStmt} (h : v.StmtAt file a st p) (hst : st.isSimple = true) :
    v.Calm p (st.codeSize a.held) T := by
  cases st with
  | functionDef m name signature body =>
    exact h.1.calm.append (h.2.calm rfl) rfl
  | classDef m name bases body =>
    exact h.1.calm.append (h.2.calm rfl) rfl
  | delete m targets =>
    simp only [StmtAt, Stmt.codeSize] at h ⊢
    exact h.calm
  | assign m targets value =>
    exact h.1.calm.append h.2.calm rfl
  | augAssign m target op value =>
    simp only [StmtAt, Stmt.codeSize] at h ⊢
    exact h.calm
  | assert m test msg =>
    simp only [StmtAt, Stmt.codeSize] at h ⊢
    exact h.calm
  | imports m names =>
    simp only [StmtAt, Stmt.codeSize] at h ⊢
    exact h.calm
  | importFrom m module names level =>
    simp only [StmtAt, Stmt.codeSize] at h ⊢
    obtain ⟨himport, hnames, hpop⟩ := h
    have hbound := (himport.calm (T := T) rfl).append hnames.calm rfl
    exact (hbound.snoc hpop rfl (Nat.add_assoc ..)).congr (by omega)
  | expr m value =>
    exact h.1.calm.snoc h.2 rfl rfl
  | pass m =>
    exact .nil v p T
  | _ => cases hst

/-- A raise computes, and ends there. -/
theorem RaiseAt.stops {exc cause : Option MarkedExpr} (h : v.RaiseAt file exc cause p) (m : Mark)
    (held : Nat) :
    ∃ n k, (Stmt.raise m exc cause).codeSize held = n + 1 ∧ v.Calm p n T ∧
      v.instr? (p + n) = some ⟨.raise, k⟩ := by
  cases exc with
  | none => exact ⟨0, 0, by simp only [Stmt.codeSize], .nil v p T, h⟩
  | some exc =>
    cases cause with
    | none => exact ⟨exc.codeSize, 1, by simp only [Stmt.codeSize], h.1.calm, h.2⟩
    | some cause =>
      obtain ⟨hexc, hcause, hraise⟩ := h
      rw [Nat.add_assoc] at hraise
      exact ⟨_, 2, by simp only [Stmt.codeSize], hexc.calm.append hcause.calm rfl, hraise⟩

/-- A return and a raise compute, and end there. -/
theorem StmtAt.stops {st : MarkedStmt} {op : Opcode} (h : v.StmtAt file a st p)
    (hst : st.stop? = some op) :
    ∃ n k, st.codeSize a.held = n + 1 ∧ v.Calm p n T ∧ v.instr? (p + n) = some ⟨op, k⟩ := by
  cases st with
  | ret m value =>
    obtain rfl := Option.some.inj hst
    exact ⟨_, _, rfl, h.1.calm, h.2⟩
  | raise m exc cause =>
    obtain rfl := Option.some.inj hst
    simp only [StmtAt] at h
    exact h.stops m a.held
  | _ => cases hst

end CodeView

end Toolchain

import Toolchain.Proofs.Compiler.Entrance

/-!
# Balanced registration of handlers

In a program whose code objects are valid, each instruction that control can come to is reached with
one number of registered handlers, a handler is removed only where one is registered, and a loop is
left, and goes on to its next round, with the handlers that were registered when it was entered.

## Main definitions

* `CodeUnit.IsBalanced`: the loops of a unit, and of the functions and classes in it, are left as
  they were entered
* `CodeUnit.Registers`: the code of a unit registers and removes handlers in balance

## Main results

* `Root.HasUnit.isBalanced`: the units of a balanced program are balanced
* `CodeUnit.Makes.registers`: the code object of a balanced unit registers handlers in balance
* `registers_compiled`: so do the code objects of a program that compiles to a valid code object
-/

namespace Toolchain

/-! ## Balanced units -/

/-- The loops of a unit that control can come to are left as they were entered, and so are those of
the functions and classes in it. -/
def CodeUnit.IsBalanced (u : CodeUnit) : Prop :=
  (Stmt.bodyFlow u.body).balanced = true ∧ Stmt.bodyInnerBalanced u.body = true

/-- A unit without statements. -/
def CodeUnit.IsPlain (u : CodeUnit) : Prop := u.body = []

theorem CodeUnit.IsPlain.isBalanced {u : CodeUnit} (h : u.IsPlain) : u.IsBalanced := by
  rw [IsBalanced, h]
  simp only [Stmt.bodyFlow, Stmt.bodyInnerBalanced, Flow.straight, and_self]

/-! In an expression there are only lambdas, which have no statements. -/

mutual

theorem Expr.isPlain_of_mem_units {u : CodeUnit} : ∀ {e : MarkedExpr}, u ∈ e.units → u.IsPlain
  | .boolOp _ _ values, h => isPlain_of_mem_unitsOfList (by simpa only [units] using h)
  | .binOp _ left _ right, h => by
    simp only [units, List.mem_append] at h
    exact h.elim isPlain_of_mem_units isPlain_of_mem_units
  | .unaryOp _ _ operand, h => isPlain_of_mem_units (e := operand) (by simpa only [units] using h)
  | .lambda m ⟨params, defaults, vararg, kwarg⟩ body, h => by
    simp only [units, List.mem_append, List.mem_singleton] at h
    rcases h with h | rfl
    · exact isPlain_of_mem_unitsOfReversed h
    · rfl
  | .dict _ items, h => isPlain_of_mem_unitsOfItems (by simpa only [units] using h)
  | .compare _ left rest, h => by
    simp only [units, List.mem_append] at h
    exact h.elim isPlain_of_mem_units isPlain_of_mem_unitsOfRest
  | .call _ func args keywords, h => by
    simp only [units, List.mem_append] at h
    rcases h with (h | h) | h
    · exact isPlain_of_mem_units h
    · exact isPlain_of_mem_unitsOfKeywords h
    · exact isPlain_of_mem_unitsOfReversed h
  | .attr _ value _ _, h => isPlain_of_mem_units (e := value) (by simpa only [units] using h)
  | .subscript _ value part _, h => by
    simp only [units, List.mem_append] at h
    exact h.elim isPlain_of_mem_units isPlain_of_mem_units
  | .list _ elts _, h => isPlain_of_mem_unitsOfReversed (by simpa only [units] using h)
  | .tuple _ elts _, h => isPlain_of_mem_unitsOfReversed (by simpa only [units] using h)
  | .slice _ lower upper step, h => by
    simp only [units, List.mem_append] at h
    rcases h with (h | h) | h
    · exact isPlain_of_mem_unitsOfOption h
    · exact isPlain_of_mem_unitsOfOption h
    · exact isPlain_of_mem_unitsOfOption h
  | .index _ value, h => isPlain_of_mem_units (e := value) (by simpa only [units] using h)
  | .formatted _ value _ none, h => by
    simp only [units, List.append_nil] at h
    exact isPlain_of_mem_units h
  | .formatted _ value _ (some spec), h => by
    simp only [units, List.mem_append] at h
    exact h.elim isPlain_of_mem_units isPlain_of_mem_units
  | .constant .., h => by simp only [units, List.not_mem_nil] at h
  | .name .., h => by simp only [units, List.not_mem_nil] at h

theorem Expr.isPlain_of_mem_unitsOfList {u : CodeUnit} :
    ∀ {es : List MarkedExpr}, u ∈ unitsOfList es → u.IsPlain
  | [], h => by simp only [unitsOfList, List.not_mem_nil] at h
  | e :: es, h => by
    simp only [unitsOfList, List.mem_append] at h
    exact h.elim isPlain_of_mem_units isPlain_of_mem_unitsOfList

theorem Expr.isPlain_of_mem_unitsOfReversed {u : CodeUnit} :
    ∀ {es : List MarkedExpr}, u ∈ unitsOfReversed es → u.IsPlain
  | [], h => by simp only [unitsOfReversed, List.not_mem_nil] at h
  | e :: es, h => by
    simp only [unitsOfReversed, List.mem_append] at h
    exact h.elim isPlain_of_mem_unitsOfReversed isPlain_of_mem_units

theorem Expr.isPlain_of_mem_unitsOfOption {u : CodeUnit} :
    ∀ {e : Option MarkedExpr}, u ∈ unitsOfOption e → u.IsPlain
  | none, h => by simp only [unitsOfOption, List.not_mem_nil] at h
  | some e, h => isPlain_of_mem_units (e := e) (by simpa only [unitsOfOption] using h)

theorem Expr.isPlain_of_mem_unitsOfItems {u : CodeUnit} :
    ∀ {items : List (MarkedExpr × MarkedExpr)}, u ∈ unitsOfItems items → u.IsPlain
  | [], h => by simp only [unitsOfItems, List.not_mem_nil] at h
  | (key, value) :: rest, h => by
    simp only [unitsOfItems, List.mem_append] at h
    rcases h with (h | h) | h
    · exact isPlain_of_mem_unitsOfItems h
    · exact isPlain_of_mem_units h
    · exact isPlain_of_mem_units h

theorem Expr.isPlain_of_mem_unitsOfKeywords {u : CodeUnit} :
    ∀ {ks : List (KeywordArg Mark MarkedExpr)}, u ∈ unitsOfKeywords ks → u.IsPlain
  | [], h => by simp only [unitsOfKeywords, List.not_mem_nil] at h
  | ⟨_, _, value⟩ :: rest, h => by
    simp only [unitsOfKeywords, List.mem_append] at h
    exact h.elim isPlain_of_mem_unitsOfKeywords isPlain_of_mem_units

theorem Expr.isPlain_of_mem_unitsOfRest {u : CodeUnit} :
    ∀ {rest : List (CompareOp × MarkedExpr)}, u ∈ unitsOfRest rest → u.IsPlain
  | [], h => by simp only [unitsOfRest, List.not_mem_nil] at h
  | (_, e) :: rest, h => by
    simp only [unitsOfRest, List.mem_append] at h
    exact h.elim isPlain_of_mem_units isPlain_of_mem_unitsOfRest

end

mutual

theorem Expr.isPlain_of_mem_unitsOfTarget {u : CodeUnit} :
    ∀ {e : MarkedExpr}, u ∈ e.unitsOfTarget → u.IsPlain
  | .attr _ value _ _, h =>
    isPlain_of_mem_units (e := value) (by simpa only [unitsOfTarget] using h)
  | .subscript _ value part _, h => by
    simp only [unitsOfTarget, List.mem_append] at h
    exact h.elim isPlain_of_mem_units isPlain_of_mem_units
  | .tuple _ elts _, h => isPlain_of_mem_unitsOfTargets (by simpa only [unitsOfTarget] using h)
  | .list _ elts _, h => isPlain_of_mem_unitsOfTargets (by simpa only [unitsOfTarget] using h)
  | .boolOp .., h | .binOp .., h | .unaryOp .., h | .lambda .., h | .dict .., h | .compare .., h
  | .call .., h | .constant .., h | .name .., h | .slice .., h | .index .., h
  | .formatted .., h => by
    simp only [unitsOfTarget, List.not_mem_nil] at h

theorem Expr.isPlain_of_mem_unitsOfTargets {u : CodeUnit} :
    ∀ {es : List MarkedExpr}, u ∈ unitsOfTargets es → u.IsPlain
  | [], h => by simp only [unitsOfTargets, List.not_mem_nil] at h
  | e :: es, h => by
    simp only [unitsOfTargets, List.mem_append] at h
    exact h.elim isPlain_of_mem_unitsOfTarget isPlain_of_mem_unitsOfTargets

end

mutual

/-- The units directly inside a statement are balanced if its functions and classes are. -/
theorem Stmt.isBalanced_of_mem_units {u : CodeUnit} : ∀ {st : MarkedStmt},
    st.innerBalanced = true → u ∈ st.units → u.IsBalanced
  | .functionDef m name signature body, hb, h => by
    simp only [units, List.mem_append, List.mem_singleton] at h
    rcases h with h | rfl
    · exact (Expr.isPlain_of_mem_unitsOfReversed h).isBalanced
    · simp only [innerBalanced, Bool.and_eq_true] at hb
      exact hb
  | .classDef m name bases body, hb, h => by
    simp only [units, List.mem_append, List.mem_singleton] at h
    rcases h with h | rfl
    · exact (Expr.isPlain_of_mem_unitsOfReversed h).isBalanced
    · simp only [innerBalanced, Bool.and_eq_true] at hb
      exact hb
  | .ret _ value, _, h => by
    exact (Expr.isPlain_of_mem_unitsOfOption h).isBalanced
  | .delete _ targets, _, h => by
    exact (Expr.isPlain_of_mem_unitsOfTargets h).isBalanced
  | .assign _ targets value, _, h => by
    simp only [units, List.mem_append] at h
    exact (h.elim Expr.isPlain_of_mem_units Expr.isPlain_of_mem_unitsOfTargets).isBalanced
  | .augAssign _ target _ value, _, h => by
    simp only [units, List.mem_append] at h
    exact (h.elim Expr.isPlain_of_mem_unitsOfTarget Expr.isPlain_of_mem_units).isBalanced
  | .forLoop _ target iter body, hb, h => by
    simp only [units, List.mem_append, innerBalanced] at h hb
    rcases h with (h | h) | h
    · exact (Expr.isPlain_of_mem_units h).isBalanced
    · exact (Expr.isPlain_of_mem_unitsOfTarget h).isBalanced
    · exact isBalanced_of_mem_unitsOfBody hb h
  | .whileLoop _ test body, hb, h => by
    simp only [units, List.mem_append, innerBalanced] at h hb
    rcases h with h | h
    · exact (Expr.isPlain_of_mem_units h).isBalanced
    · exact isBalanced_of_mem_unitsOfBody hb h
  | .ifElse _ test body orelse, hb, h => by
    simp only [units, List.mem_append, innerBalanced, Bool.and_eq_true] at h hb
    rcases h with (h | h) | h
    · exact (Expr.isPlain_of_mem_units h).isBalanced
    · exact isBalanced_of_mem_unitsOfBody hb.1 h
    · exact isBalanced_of_mem_unitsOfBody hb.2 h
  | .raise _ none cause, _, h => by simp only [units, List.not_mem_nil] at h
  | .raise _ (some exc) cause, _, h => by
    simp only [units, List.mem_append] at h
    exact (h.elim Expr.isPlain_of_mem_units Expr.isPlain_of_mem_unitsOfOption).isBalanced
  | .tryExcept _ body handlers orelse final, hb, h => by
    simp only [units, List.mem_append, innerBalanced, Bool.and_eq_true] at h hb
    obtain ⟨⟨⟨hbody, horelse⟩, hhandlers⟩, hfinal⟩ := hb
    rcases h with ((h | h) | h) | h
    · exact isBalanced_of_mem_unitsOfBody hbody h
    · exact isBalanced_of_mem_unitsOfBody horelse h
    · exact isBalanced_of_mem_unitsOfHandlers hhandlers h
    · exact isBalanced_of_mem_unitsOfBody hfinal h
  | .assert _ test msg, _, h => by
    simp only [units, List.mem_append] at h
    exact (h.elim Expr.isPlain_of_mem_units Expr.isPlain_of_mem_unitsOfOption).isBalanced
  | .expr _ value, _, h => by
    exact (Expr.isPlain_of_mem_units h).isBalanced
  | .imports .., _, h | .importFrom .., _, h | .pass .., _, h | .breakLoop .., _, h
  | .continueLoop .., _, h => by
    simp only [units, List.not_mem_nil] at h

/-- The units directly inside statements are balanced if their functions and classes are. -/
theorem Stmt.isBalanced_of_mem_unitsOfBody {u : CodeUnit} : ∀ {ss : List MarkedStmt},
    bodyInnerBalanced ss = true → u ∈ unitsOfBody ss → u.IsBalanced
  | [], _, h => by simp only [unitsOfBody, List.not_mem_nil] at h
  | st :: ss, hb, h => by
    simp only [bodyInnerBalanced, Bool.and_eq_true, unitsOfBody, List.mem_append] at hb h
    rcases h with h | h
    · exact isBalanced_of_mem_units hb.1 h
    · exact isBalanced_of_mem_unitsOfBody hb.2 h

/-- The units directly inside handlers are balanced if their functions and classes are. -/
theorem Stmt.isBalanced_of_mem_unitsOfHandlers {u : CodeUnit} :
    ∀ {hs : List (Handler Mark MarkedExpr MarkedStmt)},
      handlersInnerBalanced hs = true → u ∈ unitsOfHandlers hs → u.IsBalanced
  | [], _, h => by simp only [unitsOfHandlers, List.not_mem_nil] at h
  | ⟨_, type, _, body⟩ :: rest, hb, h => by
    simp only [handlersInnerBalanced, Bool.and_eq_true, unitsOfHandlers, List.mem_append] at hb h
    rcases h with (h | h) | h
    · exact (Expr.isPlain_of_mem_unitsOfOption h).isBalanced
    · exact isBalanced_of_mem_unitsOfBody hb.1 h
    · exact isBalanced_of_mem_unitsOfHandlers hb.2 h

end

theorem CodeUnit.IsBalanced.of_mem_parts {u u' : CodeUnit} (h : u.IsBalanced) (hu : u' ∈ u.parts) :
    u'.IsBalanced := by
  cases u with
  | module m body => exact Stmt.isBalanced_of_mem_unitsOfBody h.2 hu
  | function m name signature body => exact Stmt.isBalanced_of_mem_unitsOfBody h.2 hu
  | classBody m name body => exact Stmt.isBalanced_of_mem_unitsOfBody h.2 hu
  | lambda m signature e => exact (Expr.isPlain_of_mem_units hu).isBalanced
  | expression m e => exact (Expr.isPlain_of_mem_units hu).isBalanced

/-- The units of a balanced program are balanced. -/
theorem Root.HasUnit.isBalanced {r : Root Mark} {u : CodeUnit} (h : r.HasUnit u)
    (hr : r.isBalanced = true) : u.IsBalanced := by
  induction h with
  | root =>
    cases r with
    | module m body =>
      simp only [Root.isBalanced, Bool.and_eq_true] at hr
      exact hr
    | expression m e => exact CodeUnit.IsPlain.isBalanced rfl
  | part _ hu ih => exact ih.of_mem_parts hu

/-! ## Balanced code -/

/-- The code of a unit registers and removes handlers in balance: each position is come to with one
number of registered handlers, a handler is removed only where one is registered, and a jump out of
a round of a loop leads to where the loop goes on with the number that the loop was entered with. -/
structure CodeUnit.Registers (u : CodeUnit) (v : CodeView) : Prop where
  single : ∀ x k k', v.HandlerMachine x k → v.HandlerMachine x k' → k = k'
  enough : ∀ x k j, v.HandlerMachine x k → v.instr? x = some ⟨.handle, j⟩ → 0 < k
  restored : ∀ a st p isBreak k, u.Has a st p → st.leaving? = some isBreak →
    v.HandlerMachine (p + a.held) k →
    ∃ b loop q t, u.Has b loop q ∧ loop.loopTarget? q = some t ∧ a.loop = some t ∧
      q < p ∧ p + st.codeSize a.held ≤ q + loop.codeSize b.held ∧
      v.instr? (p + a.held) = some ⟨.jump, if isBreak then t.exit else t.again⟩ ∧
      v.HandlerMachine (if isBreak then t.exit else t.again) k ∧ v.HandlerMachine q k

namespace CodeView

variable {v : CodeView} {file : Text} {u : CodeUnit}

/-- In the code of a balanced unit one number of handlers is registered at each instruction, and the
code is left only by a return or an exception. -/
theorem UnitAt.counts (h : v.UnitAt file u) (hb : u.IsBalanced) :
    ∃ size, v.Counts 0 size 0 fun _ _ => False := by
  -- statements, and the return behind them
  have hstmts {body : List MarkedStmt} (hflow : (Stmt.bodyFlow body).balanced = true)
      (hbody : v.BodyAt file {} body 0)
      (hload : v.instr? (Stmt.bodySize 0 body) = some ⟨.loadSpecial, 0⟩)
      (hret : v.instr? (Stmt.bodySize 0 body + 1) = some ⟨.ret, 0⟩) :
      ∃ size, v.Counts 0 size 0 fun _ _ => False := by
    have hcounts := BodyAt.counts hbody hflow (Int.le_refl 0)
    rw [Nat.zero_add] at hcounts
    have hreturn : v.Counts (Stmt.bodySize 0 body) (Stmt.bodySize 0 body + 2) 0 fun _ _ => False :=
      ((Calm.instr hload rfl).counts rfl).append (.stop hret (.inl rfl))
    refine ⟨_, hcounts.follow (fun _ => hreturn) (Nat.le_add_right _ 2) ?_⟩
    rintro x k ⟨l, -, t, ht, -⟩
    cases ht
  -- an expression, and the return behind it
  have hvalue {e : MarkedExpr} (he : v.ExprAt file e 0)
      (hret : v.instr? e.codeSize = some ⟨.ret, 0⟩) :
      ∃ size, v.Counts 0 size 0 fun _ _ => False := by
    refine ⟨e.codeSize + 1, (he.calm.counts (Nat.zero_add _).symm).append (.stop hret (.inl rfl))⟩
  cases u with
  | module m body => exact hstmts hb.1 h.1 h.2.1 h.2.2.1
  | function m name signature body => exact hstmts hb.1 h.1 h.2.1 h.2.2.1
  | classBody m name body => exact hstmts hb.1 h.1 h.2.1 h.2.2.1
  | lambda m signature e => exact hvalue h.1 h.2.1
  | expression m e => exact hvalue h.1 h.2.1

/-- Control that enters a loop can come to its exit, and so can control that comes to its next
round, both with the number of handlers they have. -/
theorem StmtAt.machine_exit {a : Around} {st : MarkedStmt} {q : Nat} {t : LoopTarget}
    (h : v.StmtAt file a st q) (ht : st.loopTarget? q = some t) :
    (∀ k, v.HandlerMachine q k → v.HandlerMachine t.exit k) ∧
      ∀ k, v.HandlerMachine t.again k → v.HandlerMachine t.exit k := by
  cases st with
  | forLoop m target iter body =>
    obtain rfl := Option.some.inj ht
    obtain ⟨hiter, hget, hfirst, -, -, hnext, -⟩ := h
    refine ⟨fun k hk => ?_, fun k hk => hk.walk (walk_edge hnext rfl (.exhausted hnext rfl))⟩
    have hstart := hk.walk (hiter.calm (T := fun _ => False) |>.snoc hget rfl rfl).through
    exact hstart.walk (walk_edge hfirst rfl (.exhausted hfirst rfl))
  | whileLoop m test body =>
    obtain rfl := Option.some.inj ht
    obtain ⟨htest, hjump, -⟩ := h
    have hexit (k : Int) (hk : v.HandlerMachine q k) :
        v.HandlerMachine (Stmt.whileTarget test body q).exit k := by
      have htested := hk.walk (htest.calm (T := fun _ => False)).through
      exact htested.walk (walk_edge hjump rfl (.jump hjump (.inr (.inl rfl))))
    exact ⟨hexit, hexit⟩
  | _ => cases ht

end CodeView

/-- The code object of a balanced unit registers handlers in balance. -/
theorem CodeUnit.Makes.registers {u : CodeUnit} {file : Text} {o : Code} (h : u.Makes file o)
    (hb : u.IsBalanced) : u.Registers o.view := by
  have hlayout := h.resolved.layout
  obtain ⟨size, hcounts⟩ := hlayout.counts hb
  obtain ⟨hsingle, henough⟩ := hcounts.machine
  refine ⟨hsingle, henough, fun a st p isBreak k hst hleaving hk => ?_⟩
  obtain ⟨b, loop, q, t, hloop, htarget, ht, hlt, hend, hjump⟩ :=
    h.resolved.leaves a st p isBreak hst hleaving
  have hsize := Stmt.codeSize_of_leaving? hleaving a.held
  have hland : o.view.HandlerMachine (if isBreak then t.exit else t.again) k :=
    hk.walk (CodeView.walk_edge hjump rfl (.jump hjump (.inl rfl)))
  -- control came to the loop before, with some number, which is that at the exit
  obtain ⟨n, hn⟩ := hloop.exists_machine_start hlayout hk (by omega)
  obtain ⟨hexit, hagain⟩ := (hloop.stmtAt hlayout).machine_exit htarget
  have hsame : k = n := by
    cases isBreak with
    | true => exact hsingle _ _ _ hland (hexit n hn)
    | false => exact hsingle _ _ _ (hagain k hland) (hexit n hn)
  exact ⟨b, loop, q, t, hloop, htarget, ht, hlt, hend, hjump, hland, hsame ▸ hn⟩

/-- **Registration is balanced.** If a program compiles to a valid code object, every code object of
it registers and removes handlers in balance; so does every code object of an expression that
compiles. -/
theorem registers_compiled (file source : Text) :
    (∀ c, (compileModule file source).1 = .ok c → c.verify = .ok () →
      ∃ p, (parseModule file source).1 = .ok p ∧
        p.root.Paired c fun u o => u.Makes file o ∧ u.Registers o.view) ∧
    ∀ c, (compileExpression source).1 = .ok c →
      ∃ p, (parseExpression expressionFile source).1 = .ok p ∧
        p.root.Paired c fun u o => u.Makes expressionFile o ∧ u.Registers o.view := by
  constructor
  · intro c hc hverify
    obtain ⟨p, hp, htree⟩ := compileParsed_eq_ok hc
    obtain ⟨m, body, hroot, hbody⟩ := isModule_of_parseModule hp
    have hbalanced : p.root.isBalanced = true :=
      (verify_compileTree (by rw [hroot]; exact hbody) htree).mp hverify
    refine ⟨p, hp, (Root.paired_of_makes (makes_of_compileTree htree)).mono ?_⟩
    exact fun u o hu _ hmakes => ⟨hmakes, hmakes.registers (hu.isBalanced hbalanced)⟩
  · intro c hc
    obtain ⟨p, hp, htree⟩ := compileParsed_eq_ok hc
    obtain ⟨m, body, hroot, -⟩ := isExpression_of_parseExpression hp
    have hbalanced : p.root.isBalanced = true := by rw [hroot]; rfl
    refine ⟨p, hp, (Root.paired_of_makes (makes_of_compileTree htree)).mono ?_⟩
    exact fun u o hu _ hmakes => ⟨hmakes, hmakes.registers (hu.isBalanced hbalanced)⟩

theorem registers_compiled_finishingLoop :
    ∃ c p, (compileModule "m" finishingLoop).1 = .ok c ∧ c.verify = .ok () ∧
      (parseModule "m" finishingLoop).1 = .ok p ∧
      p.root.Paired c fun u o => u.Makes "m" o ∧ u.Registers o.view := by
  obtain ⟨c, hc, hverify⟩ : ∃ c, (compileModule "m" finishingLoop).1 = .ok c ∧
      decide (c.verify = .ok ()) = true :=
    exists_of_any (q := fun c : Code => decide (c.verify = .ok ())) (by decide +kernel)
  obtain ⟨p, hp, hpaired⟩ :=
    (registers_compiled "m" finishingLoop).1 c hc (of_decide_eq_true hverify)
  exact ⟨c, p, hc, of_decide_eq_true hverify, hp, hpaired⟩

end Toolchain

import Mathlib.Tactic.Common
import Toolchain.Proofs.Compiler.Composition
import Toolchain.Proofs.Compiler.Statement
import Toolchain.Proofs.Parser.Lone

/-!
# An expression compiled in two ways

What is typed at the prompt is compiled as an expression if it is one. It could be compiled as a
program all the same: the program evaluates the expression by the same instructions with the same
constants, drops the value and returns none.

## Main results

* `modes_agree`: **an expression is compiled to the same code as a single expression and as a
  program**
-/

namespace Toolchain

namespace Compile

open CompileState Outcome

/-- A code object whose steps succeed is made. -/
theorem run_nestedCode_ok {name : Text} {kind : CodeKind} {first : Nat} {body : Compile Unit}
    {s t : CompileState}
    (h : StateT.run body { s with frame := {}, codes := s.codes + 1 } = .ok ((), t)) :
    StateT.run (nestedCode name kind first body) s =
      .ok ({ name, filename := t.file, kind, firstLine := first,
             instructions := t.frame.builder.bytes,
             lineTable := t.frame.builder.lineTable,
             constants := t.frame.builder.constants.toList }, { t with frame := s.frame }) := by
  rw [run_nestedCode, h]
  rfl

/-- The code object of a single expression is that of a program that evaluates it, but for the
end. -/
theorem run_root_modes {m m₂ : Mark} {e : MarkedExpr} (hm₂ : m₂.pos = m.pos) (m₁ : Mark)
    {file file' : Text} (hmoves : (expr e).Moves file') {s' : CompileState} {c : Code}
    (hrun : StateT.run (root (.expression m e)) { file, line := m.pos.line } = .ok (c, s')) :
    ∃ ws c' t', c.instructions = (ws ++ [Instr.encode ⟨.ret, 0⟩]).flatMap Word.bytes ∧
      StateT.run (root (.module m₁ [.expr m₂ e])) { file := file', line := m₁.pos.line } =
        .ok (c', t') ∧
      c'.instructions = (ws ++ [Instr.encode ⟨.pop, 0⟩, Instr.encode ⟨.loadSpecial, 0⟩,
        Instr.encode ⟨.ret, 0⟩]).flatMap Word.bytes ∧
      c'.constants = c.constants.map (Constant.inFile file') := by
  -- the expression is evaluated in the same way
  have hunfold : StateT.run (root (.expression m e)) { file, line := m.pos.line } =
      StateT.run (nestedCode "<expression>" .expression m.pos.line do
        expr e
        emit .ret 0) { file, line := m.pos.line } := rfl
  rw [hunfold, run_nestedCode, bind_eq_ok_iff] at hrun
  obtain ⟨⟨_, u⟩, hbody, hmade⟩ := hrun
  rw [StateT.run_bind, bind_eq_ok_iff] at hbody
  obtain ⟨⟨_, t⟩, hexpr, hret⟩ := hbody
  obtain ⟨-, rfl⟩ := gives_emit _ _ _ _ _ hret
  obtain ⟨rfl, -⟩ := Prod.mk.inj (Except.ok.inj hmade)
  obtain ⟨column, codes, hmoved⟩ := hmoves _ m₂.pos.column 1 _ _ hexpr
  -- and what is left is to drop the value and to return none
  have hzero : 0 ≤ maxOperand := Nat.zero_le _
  let u₁ := (t.moved file' column codes).push (Instr.encode ⟨.pop, 0⟩)
  let u₂ := u₁.push (Instr.encode ⟨.loadSpecial, 0⟩)
  let u₃ := u₂.push (Instr.encode ⟨.ret, 0⟩)
  have hstmt : StateT.run (stmt (.expr m₂ e))
      { file := file', line := m₁.pos.line, codes := 1 } = .ok ((), u₁) := by
    have henter : StateT.run (stmt.enter m₂) { file := file', line := m₁.pos.line, codes := 1 } =
        .ok ((), CompileState.moved file' m₂.pos.column 1
          { file, line := m.pos.line, codes := 1 }) := by
      have hempty : CodeBuilder.inFile file' {} = {} := by simp [CodeBuilder.inFile]
      show Except.ok ((), _) = _
      simp only [CompileState.moved, hempty, hm₂]
    rw [stmt, run_bind_ok henter, run_bind_ok hmoved]
    exact run_emit hzero _
  have hprogram : StateT.run (do body [.expr m₂ e]; returnNone)
      { file := file', line := m₁.pos.line, codes := 1 } = .ok ((), u₃) := by
    rw [body, body, bind_assoc, run_bind_ok hstmt, pure_bind, returnNone, emitSpecial,
      run_bind_ok (run_emit hzero _)]
    exact run_emit hzero _
  have hmodule : StateT.run (root (.module m₁ [.expr m₂ e]))
    { file := file', line := m₁.pos.line } =
      StateT.run (nestedCode "<module>" .module m₁.pos.line do
        body [.expr m₂ e]
        returnNone) { file := file', line := m₁.pos.line } := rfl
  obtain ⟨c', hmodule', hinstructions, hconstants⟩ : ∃ c', StateT.run
      (root (.module m₁ [.expr m₂ e])) { file := file', line := m₁.pos.line } =
        .ok (c', { u₃ with frame := {} }) ∧ c'.instructions = u₃.frame.builder.bytes ∧
      c'.constants = u₃.frame.builder.constants.toList := by
    rw [hmodule]
    exact ⟨_, run_nestedCode_ok hprogram, rfl, rfl⟩
  refine ⟨t.frame.builder.words.toList, c', _, ?_, hmodule', ?_, ?_⟩
  · exact congrArg (List.flatMap Word.bytes) (Array.toList_push ..)
  · rw [hinstructions]
    refine congrArg (List.flatMap Word.bytes) ?_
    show (((t.frame.builder.words.push _).push _).push _).toList = _
    rw [Array.toList_push, Array.toList_push, Array.toList_push, List.append_assoc,
      List.append_assoc]
    rfl
  · rw [hconstants]
    exact Array.toList_map ..

end Compile

/-- What was compiled is the code object that the steps for the root make. -/
theorem run_of_compileTree {file : Text} {r : Root Mark} {c : Code}
    (h : (compileTree file r).1 = .ok c) :
    ∃ s', StateT.run (Compile.root r) { file, line := r.mark.pos.line } = .ok (c, s') := by
  unfold compileTree at h
  split at h
  · rename_i code s hrun
    cases h
    exact ⟨s, hrun⟩
  · cases h

/-- What the steps for a parsed program make is what it is compiled to. -/
theorem compileModule_eq_ok {file source : Text} {p : Parsed} {c : Code} {t : CompileState}
    (hp : Parse.run Parse.module file source = .ok p)
    (hc : StateT.run (Compile.root p.root) { file, line := p.root.mark.pos.line } = .ok (c, t)) :
    (compileModule file source).1 = .ok c := by
  unfold compileModule parseModule
  rw [hp]
  show (compileTree file p.root).1 = .ok c
  unfold compileTree
  rw [hc]

/-- A single expression that was parsed is what the rules of the parser give. -/
theorem run_of_parseExpression {file source : Text} {p : Parsed}
    (h : (parseExpression file source).1 = .ok p) :
    Parse.run Parse.singleExpression file source = .ok p := by
  unfold parseExpression at h
  split at h
  · next hrun =>
    cases h
    exact hrun
  · cases h

/-- **An expression is compiled to the same code in two ways.** A text that is an expression without
ends of lines that count is, with the end of the line, a program. The program evaluates the
expression by the same instructions with the same constants, up to the name of the file in the code
objects among them; then it drops the value and returns none. -/
theorem modes_agree (source : Text) {c : Code} (hc : (compileExpression source).1 = .ok c)
    (hline : ∀ t ∈ (tokenize source).1, t.kind ≠ .newLine) (file : Text) :
    ∃ ws c', c.words = ws ++ [Instr.encode ⟨.ret, 0⟩] ∧
      (compileModule file (source ++ "\n")).1 = .ok c' ∧
      c'.words = ws ++
        [Instr.encode ⟨.pop, 0⟩, Instr.encode ⟨.loadSpecial, 0⟩, Instr.encode ⟨.ret, 0⟩] ∧
      c'.constants = c.constants.map (Constant.inFile file) := by
  obtain ⟨p, hp, htree⟩ := compileParsed_eq_ok hc
  obtain ⟨s', hrun⟩ := run_of_compileTree htree
  -- the text is parsed to the same expression
  obtain ⟨m, e, m₁, m₂, p', hroot, -, hm₂, hp', hroot'⟩ :=
    Parse.run_module_of_expression (run_of_parseExpression hp) hline file
  -- and the expression is compiled by the same steps
  have hwf : p.root.WellFormed := (isExpression_of_parseExpression hp).wellFormed
  rw [hroot] at hrun hwf
  have hcomposed := @Compile.composed_code expressionFile id e hwf
  have hend : Text.ofString "\n" = [10] := by decide +kernel
  obtain ⟨ws, c', t', hwords, hmodule, hwords', hconstants⟩ :=
    Compile.run_root_modes hm₂ m₁ (hcomposed.moves file) hrun
  refine ⟨ws, c', ?_, ?_, ?_, hconstants⟩
  · rw [CodeObject.words, hwords, Word.ofByteList_flatMap_bytes]
  · rw [hend]
    refine compileModule_eq_ok (t := t') hp' ?_
    rw [hroot']
    exact hmodule
  · rw [CodeObject.words, hwords', Word.ofByteList_flatMap_bytes]

/-- A function that is applied. -/
def appliedLambda : Text := "(lambda x: x + 1)(2)  # three"

theorem modes_agree_appliedLambda : ∃ c ws c', (compileExpression appliedLambda).1 = .ok c ∧
    c.words = ws ++ [Instr.encode ⟨.ret, 0⟩] ∧
    (compileModule "m" (appliedLambda ++ "\n")).1 = .ok c' ∧
    c'.words = ws ++
      [Instr.encode ⟨.pop, 0⟩, Instr.encode ⟨.loadSpecial, 0⟩, Instr.encode ⟨.ret, 0⟩] ∧
    c'.constants = c.constants.map (Constant.inFile "m") := by
  obtain ⟨c, hc, -⟩ : ∃ c, (compileExpression appliedLambda).1 = .ok c ∧ true = true :=
    exists_of_any (q := fun _ : Code => true) (by decide +kernel)
  obtain ⟨ws, c', hagree⟩ := modes_agree appliedLambda hc (by decide +kernel) "m"
  exact ⟨c, ws, c', hc, hagree⟩

end Toolchain

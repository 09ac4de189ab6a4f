import Toolchain.Proofs.Compiler.Occurrence

/-!
# Resolved jumps

In a compiled program every code object was made from a unit of the program, and every unit has one.
Nothing in it is left open: what the compiler asked for on the way is what stands there, each place
it reserved was written once, and the jumps go where the layout of the unit says.

## Main definitions

* `CodeUnit.Resolved`: a code object is what a unit was written to, with all jumps resolved
* `Root.Paired`: the code objects of a program go with its units

## Main results

* `CodeUnit.Makes.resolved`: the code object that a unit makes is resolved
* `resolved_compiled`: the code objects of a program that compiles are resolved
-/

namespace Toolchain

open Compile

/-- A code object is what a unit was written to, with all jumps resolved. -/
structure CodeUnit.Resolved (u : CodeUnit) (file : Text) (o : Code) : Prop where
  /-- The unit was written into an empty code object that became this one, and all that was asked
  for on the way is in it. -/
  fulfils : ∃ s s' : CompileState, s.frame = {} ∧ s.file = file ∧ u.write.run s = .ok ((), s') ∧
    s'.Finishes o ∧ o.view.Fulfils s'.frame.requests
  /-- Every instruction stands where the layout says. -/
  layout : o.view.UnitAt file u
  /-- The code of each statement stands where the statement occurs. -/
  statements : ∀ a st p, u.Has a st p → o.view.StmtAt file a st p
  /-- What leaves a round of a loop, or the loop, jumps to where the loop around it goes on. -/
  leaves : ∀ a st p isBreak, u.Has a st p → st.leaving? = some isBreak →
    ∃ b loop q t, u.Has b loop q ∧ loop.loopTarget? q = some t ∧ a.loop = some t ∧
      q < p ∧ p + st.codeSize a.held ≤ q + loop.codeSize b.held ∧
      o.view.instr? (p + a.held) = some ⟨.jump, if isBreak then t.exit else t.again⟩

/-- Each code object of a program goes with a unit, and each unit with a code object. -/
structure Root.Paired (r : Root Mark) (c : Code) (P : CodeUnit → Code → Prop) : Prop where
  ofCode : ∀ o ∈ c.nested, ∃ u, r.HasUnit u ∧ P u o
  ofUnit : ∀ u, r.HasUnit u → ∃ o ∈ c.nested, P u o

theorem Root.Paired.mono {r : Root Mark} {c : Code} {P P' : CodeUnit → Code → Prop}
    (h : r.Paired c P) (hP : ∀ u o, r.HasUnit u → o ∈ c.nested → P u o → P' u o) :
    r.Paired c P' where
  ofCode o ho := by
    obtain ⟨u, hu, huo⟩ := h.ofCode o ho
    exact ⟨u, hu, hP u o hu ho huo⟩
  ofUnit u hu := by
    obtain ⟨o, ho, huo⟩ := h.ofUnit u hu
    exact ⟨o, ho, hP u o hu ho huo⟩

variable {u : CodeUnit} {file : Text} {c o : Code} {r : Root Mark}

namespace CodeUnit

/-- The code object that a unit makes was written by it, from an empty one. -/
theorem Makes.exists_run (h : u.Makes file c) :
    ∃ s s' : CompileState, s.frame = {} ∧ s.file = file ∧ u.write.run s = .ok ((), s') ∧
      s'.Finishes c := by
  obtain ⟨s, s', hfile, hrun⟩ := h
  have hwrite (s₀ : CompileState) (hs₀ : s₀.frame = {}) (hf : s₀.file = s.file)
      (_ : s₀.codes = s.codes + 1) :
      u.write.Gives s₀ fun _ t => ∃ s₀ : CompileState, s₀.frame = {} ∧ s₀.file = file ∧
        u.write.run s₀ = .ok ((), t) :=
    fun _ t ht => ⟨s₀, hs₀, hf.trans hfile, ht⟩
  obtain ⟨-, t, ⟨s₀, hs₀, hf, ht⟩, hc, -⟩ := gives_compile u s hwrite c s' hrun
  exact ⟨s₀, t, hs₀, hf, ht, hc⟩

/-- The code object that a unit makes is resolved. -/
theorem Makes.resolved (h : u.Makes file c) : u.Resolved file c := by
  obtain ⟨s, s', hs, rfl, hrun, hc⟩ := h.exists_run
  obtain ⟨⟨n, hstretch⟩, hlayout⟩ := gives_write u s hs () s' hrun
  have haccounted := hstretch.accounted [] (CompileState.accounted_of_empty hs)
  have hunit : c.view.UnitAt s.file u := hlayout c.view hc.words_eq hc.constants_eq
  refine ⟨⟨s, s', hs, rfl, hrun, hc, haccounted.fulfils hc.words_eq⟩, hunit,
    fun a st p hst => hst.stmtAt hunit, fun a st p isBreak hst hleaving => ?_⟩
  obtain ⟨t, ht, -, hjump⟩ := (hst.stmtAt hunit).leaveAt hleaving
  obtain ⟨b, loop, q, hloop, htarget, hrange⟩ := hst.exists_loop ht
  exact ⟨b, loop, q, t, hloop, htarget, ht, hrange.1, hrange.2, hjump⟩

/-- A code object among the constants of the one that a unit makes is made by a unit inside. -/
theorem Makes.exists_part (h : u.Makes file c) (ho : .code o ∈ c.constants) :
    ∃ u' ∈ u.parts, u'.Makes file o := by
  obtain ⟨s, s', hs, rfl, hrun, hc⟩ := h.exists_run
  obtain ⟨⟨n, hstretch⟩, -⟩ := gives_write u s hs () s' hrun
  have hempty : Constant.code o ∉ s.constants := by simp [CompileState.constants, hs]
  rw [hc.constants] at ho
  exact (hstretch.codes o (Array.mem_def.mpr ho)).resolve_left hempty

/-- A unit inside has made a code object among the constants. -/
theorem Makes.exists_code {u' : CodeUnit} (h : u.Makes file c) (hu : u' ∈ u.parts) :
    ∃ o, .code o ∈ c.constants ∧ u'.Makes file o := by
  obtain ⟨s, s', hs, rfl, hrun, hc⟩ := h.exists_run
  obtain ⟨⟨n, hstretch⟩, -⟩ := gives_write u s hs () s' hrun
  obtain ⟨o, ho, hmakes⟩ := hstretch.made u' hu
  refine ⟨o, ?_, hmakes⟩
  rw [hc.constants]
  exact Array.mem_def.mp ho

end CodeUnit

/-- The code objects nested in one that is nested are nested too. -/
theorem Code.mem_nested_trans {x : Code} : ∀ {c : Code}, o ∈ c.nested → x ∈ o.nested → x ∈ c.nested
  | c, ho, hx => by
    rw [nested_eq] at ho
    rcases List.mem_cons.mp ho with rfl | ho
    · exact hx
    · obtain ⟨inner, hinner, ho⟩ := exists_of_mem_nestedIn ho
      have hlt : inner.depth < c.depth := by
        rw [depth_eq c]
        exact depth_lt_of_mem hinner
      rw [nested_eq]
      exact List.mem_cons_of_mem _ (nested_subset_of_mem hinner (mem_nested_trans ho hx))
termination_by c => c.depth

namespace Root

/-- A code object nested in that of a unit is made by a unit. -/
theorem HasUnit.exists_of_mem_nested {u : CodeUnit} {c : Code} (h : r.HasUnit u)
    (hc : u.Makes file c) (ho : o ∈ c.nested) : ∃ u', r.HasUnit u' ∧ u'.Makes file o := by
  rw [Code.nested_eq] at ho
  rcases List.mem_cons.mp ho with rfl | ho
  · exact ⟨u, h, hc⟩
  · obtain ⟨inner, hinner, ho⟩ := Code.exists_of_mem_nestedIn ho
    obtain ⟨u', hu', hmakes⟩ := hc.exists_part hinner
    have hlt : inner.depth < c.depth := by
      rw [Code.depth_eq c]
      exact Code.depth_lt_of_mem hinner
    exact (h.part hu').exists_of_mem_nested hmakes ho
termination_by c.depth

/-- Every unit of a program makes a code object nested in that of the program. -/
theorem HasUnit.exists_nested (hc : r.unit.Makes file c) (h : r.HasUnit u) :
    ∃ o ∈ c.nested, u.Makes file o := by
  induction h with
  | root =>
    refine ⟨c, ?_, hc⟩
    rw [Code.nested_eq]
    exact List.mem_cons_self
  | part _ hu ih =>
    obtain ⟨o, ho, hmakes⟩ := ih
    obtain ⟨inner, hinner, hmakes'⟩ := hmakes.exists_code hu
    refine ⟨inner, Code.mem_nested_trans ho ?_, hmakes'⟩
    rw [Code.nested_eq]
    refine List.mem_cons_of_mem _ (Code.nested_subset_of_mem hinner ?_)
    rw [Code.nested_eq]
    exact List.mem_cons_self

/-- The code objects nested in the one that the unit of a program makes are made by its units. -/
theorem paired_of_makes (hc : r.unit.Makes file c) : r.Paired c fun u o => u.Makes file o where
  ofCode _ ho := HasUnit.exists_of_mem_nested .root hc ho
  ofUnit _ hu := hu.exists_nested hc

end Root

/-- The code object of a tree is made by its unit. -/
theorem makes_of_compileTree (h : (compileTree file r).1 = .ok c) : r.unit.Makes file c := by
  unfold compileTree at h
  split at h
  · rename_i code s hrun
    cases h
    -- the line is noted before the unit is compiled
    have hline (m : Mark) (t t' : CompileState) (h : (setLine m.pos.line).run t = .ok ((), t')) :
        t'.file = t.file := by
      obtain ⟨-, rfl⟩ := Prod.mk.inj (Except.ok.inj h)
      rfl
    cases r with
    | module m body =>
      obtain ⟨⟨_, t⟩, ht, hrun⟩ := Outcome.bind_eq_ok_iff.mp ((StateT.run_bind ..).symm.trans hrun)
      exact ⟨t, s, hline m _ t ht, hrun⟩
    | expression m e =>
      obtain ⟨⟨_, t⟩, ht, hrun⟩ := Outcome.bind_eq_ok_iff.mp ((StateT.run_bind ..).symm.trans hrun)
      exact ⟨t, s, hline m _ t ht, hrun⟩
  · cases h

/-- The code objects of a program that compiles are made by its units. -/
theorem paired_of_compileModule {source : Text} (h : (compileModule file source).1 = .ok c) :
    ∃ p, (parseModule file source).1 = .ok p ∧ p.root.Paired c fun u o => u.Makes file o := by
  obtain ⟨p, hp, hc⟩ := compileParsed_eq_ok h
  exact ⟨p, hp, Root.paired_of_makes (makes_of_compileTree hc)⟩

/-- The code objects of an expression that compiles are made by its units. -/
theorem paired_of_compileExpression {source : Text} (h : (compileExpression source).1 = .ok c) :
    ∃ p, (parseExpression expressionFile source).1 = .ok p ∧
      p.root.Paired c fun u o => u.Makes expressionFile o := by
  obtain ⟨p, hp, hc⟩ := compileParsed_eq_ok h
  exact ⟨p, hp, Root.paired_of_makes (makes_of_compileTree hc)⟩

/-- **All jumps are resolved and nothing is cut.** In a program that compiles, and in an expression,
every code object is that of a unit and every unit has one; each holds exactly what was asked for
while it was written, with every reserved place written once and no place left, and its jumps go
where the layout of the unit says. -/
theorem resolved_compiled (file source : Text) :
    (∀ c, (compileModule file source).1 = .ok c →
      ∃ p, (parseModule file source).1 = .ok p ∧
        p.root.Paired c fun u o => u.Resolved file o) ∧
    ∀ c, (compileExpression source).1 = .ok c →
      ∃ p, (parseExpression expressionFile source).1 = .ok p ∧
        p.root.Paired c fun u o => u.Resolved expressionFile o := by
  constructor
  · intro c hc
    obtain ⟨p, hp, hpaired⟩ := paired_of_compileModule hc
    exact ⟨p, hp, hpaired.mono fun _ _ _ _ hmakes => hmakes.resolved⟩
  · intro c hc
    obtain ⟨p, hp, hpaired⟩ := paired_of_compileExpression hc
    exact ⟨p, hp, hpaired.mono fun _ _ _ _ hmakes => hmakes.resolved⟩

theorem resolved_compiled_finishingLoop :
    ∃ c p, (compileModule "m" finishingLoop).1 = .ok c ∧
      (parseModule "m" finishingLoop).1 = .ok p ∧
      p.root.Paired c fun u o => u.Resolved "m" o := by
  obtain ⟨c, hc, -⟩ : ∃ c, (compileModule "m" finishingLoop).1 = .ok c ∧ true = true :=
    exists_of_any (q := fun _ => true) (by decide +kernel)
  obtain ⟨p, hp, hresolved⟩ := (resolved_compiled "m" finishingLoop).1 c hc
  exact ⟨c, p, hc, hp, hresolved⟩

end Toolchain

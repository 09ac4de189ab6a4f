import Toolchain.Format.Basic
import Toolchain.Proofs.Compiler.Support
import Toolchain.Proofs.Tree.Dump

/-!
# Formatting keeps the meaning of a program

What is given out as the formatted text of a program has the same short form as the program. The
short form leaves out annotations alone, and the compiler takes nothing from annotations but source
lines. So the program and its formatted text are compiled to the same code, up to source lines, or
are refused for the same reason.

## Main definitions

* `SameMeaning`: outcomes of the compiler that differ in source lines alone

## Main results

* `sameMeaning_compileTree`: programs that differ in annotations alone
* `sameMeaning_format`: **a program and its formatted text**
-/

namespace Toolchain

open Compile

/-- Outcomes of the compiler that differ in source lines alone: the same code object but for first
lines and line tables, or faults with the same code. -/
def SameMeaning : Except Diagnostic Code → Except Diagnostic Code → Prop
  | .ok c, .ok c' => c.withoutLines = c'.withoutLines
  | .error d, .error d' => d.code = d'.code
  | _, _ => False

/-- The outcome of the compiler for a tree. -/
theorem fst_compileTree (file : Text) (r : Root Mark) :
    (compileTree file r).1 =
      (((root r).run { file, line := r.mark.pos.line }).map Prod.fst).mapError
      fun fault => fault.diagnostic file := by
  unfold compileTree
  cases (root r).run { file, line := r.mark.pos.line } with
  | error fault => rfl
  | ok p => rfl

/-- Programs that differ in annotations alone have the same meaning. -/
theorem sameMeaning_compileTree (file : Text) {r r' : Root Mark} {m : Mark} (hr : r.WellFormed)
    (hr' : r'.WellFormed) (h : r.map (fun _ => m) = r'.map fun _ => m) :
    SameMeaning (compileTree file r).1 (compileTree file r').1 := by
  let s : CompileState := { file, line := r.mark.pos.line }
  let s' : CompileState := { file, line := r'.mark.pos.line }
  have halike : s.Alike s' := ⟨rfl, ⟨⟨rfl, rfl⟩, rfl, rfl, rfl⟩, rfl⟩
  -- both are compared with the program that has the same annotation everywhere
  have hleft := agree_root (fun _ => m) hr s s' halike
  have hright := agree_root (fun _ => m) hr' s' s' (.refl s')
  rw [← h] at hright
  rw [fst_compileTree, fst_compileTree]
  change SameMeaning ((((root r).run s).map Prod.fst).mapError fun fault => fault.diagnostic file)
    ((((root r').run s').map Prod.fst).mapError fun fault => fault.diagnostic file)
  cases hmiddle : (root (r.map fun _ => m)).run s' with
  | ok q =>
    rw [hmiddle] at hleft hright
    cases hrun : (root r).run s with
    | error f =>
      rw [hrun] at hleft
      exact hleft.elim
    | ok p =>
      cases hrun' : (root r').run s' with
      | error f =>
        rw [hrun'] at hright
        exact hright.elim
      | ok p' =>
        rw [hrun] at hleft
        rw [hrun'] at hright
        exact hleft.1.trans hright.1.symm
  | error g =>
    rw [hmiddle] at hleft hright
    cases hrun : (root r).run s with
    | ok p =>
      rw [hrun] at hleft
      exact hleft.elim
    | error f =>
      cases hrun' : (root r').run s' with
      | ok p' =>
        rw [hrun'] at hright
        exact hright.elim
      | error f' =>
        rw [hrun] at hleft
        rw [hrun'] at hright
        change (f.diagnostic file).code = (f'.diagnostic file).code
        rw [Fault.code_diagnostic, Fault.code_diagnostic]
        exact Eq.trans (b := g.code) hleft (Eq.symm hright)

/-- The name of the file plays no part in parsing. -/
theorem parseModule_eq_ok {name source : Text} {p : Parsed}
    (h : (parseModule name source).1 = .ok p) (file : Text) :
    (parseModule file source).1 = .ok p := by
  have hrun : Parse.run Parse.module name source = .ok p := by
    unfold parseModule at h
    split at h
    · cases h
      assumption
    · cases h
  have hrun' : Parse.run Parse.module file source = .ok p := by
    unfold Parse.run at hrun ⊢
    split at hrun
    · exact hrun
    · cases hrun
  simp only [parseModule, hrun']

/-- What is parsed and compiled is the tree. -/
theorem compileModule_of_parse {file source : Text} {p : Parsed}
    (h : (parseModule file source).1 = .ok p) :
    (compileModule file source).1 = (compileTree file p.root).1 := by
  unfold compileModule compileParsed
  split
  · next hparse =>
    rw [hparse] at h
    cases h
  · next hparse =>
    rw [hparse] at h
    cases h
    rfl

/-- What is given out as a formatted text parses, to a program with the same short form. -/
theorem exists_of_format {options : FormatOptions} {name source out : Text}
    (h : format options name source = .ok out) :
    ∃ p q, (parseModule name source).1 = .ok p ∧ (parseModule name out).1 = .ok q ∧
      q.root.dump = p.root.dump := by
  unfold format at h
  cases hfault : options.fault? with
  | some fault =>
    rw [hfault] at h
    cases h
  | none =>
    simp only [hfault] at h
    split at h
    · cases h
    · next p hp =>
      split at h
      · cases h
      · next q hq =>
        split at h
        · next hdump =>
          cases h
          exact ⟨p, q, hp, hq, hdump⟩
        · cases h

theorem legible_of_parseModule {file source : Text} {p : Parsed}
    (h : (parseModule file source).1 = .ok p) : p.root.Legible := by
  obtain ⟨m, body, hroot, hbody⟩ := isModule_of_parseModule h
  rw [hroot]
  exact hbody.legible

/-- **Formatting keeps the meaning of a program.** If a program is formatted, under any name and
with any options, then the program and the formatted text are compiled to the same code objects up
to first lines and line tables, or are refused with the same code. -/
theorem sameMeaning_format {options : FormatOptions} {name source out : Text}
    (h : format options name source = .ok out) (file : Text) :
    SameMeaning (compileModule file source).1 (compileModule file out).1 := by
  obtain ⟨p, q, hp, hq, hdump⟩ := exists_of_format h
  have hmap := Root.map_eq_of_dump (⟨0, {}⟩ : Mark) (legible_of_parseModule hp)
    (legible_of_parseModule hq) hdump.symm
  rw [compileModule_of_parse (parseModule_eq_ok hp file),
    compileModule_of_parse (parseModule_eq_ok hq file)]
  exact sameMeaning_compileTree file (isModule_of_parseModule hp).wellFormed
    (isModule_of_parseModule hq).wellFormed hmap

/-- A program that is not laid out in the uniform way. -/
def untidy : Text := "def f(x):\n  return (x+1.50)\n"

theorem sameMeaning_format_untidy :
    ∃ out, format {} "m" untidy = .ok out ∧ out ≠ untidy ∧
      SameMeaning (compileModule "m" untidy).1 (compileModule "m" out).1 := by
  obtain ⟨out, hout, hne⟩ : ∃ out, format {} "m" untidy = .ok out ∧ (out != untidy) = true :=
    exists_of_any (q := fun out => out != untidy) (by decide +kernel)
  exact ⟨out, hout, by simpa using hne, sameMeaning_format hout "m"⟩

end Toolchain

import Toolchain.Proofs.Compiler.Composition
import Toolchain.Proofs.Parser.Program

/-!
# What is parsed is supported

The compiler has no code for some trees: a literal that is stored into, or a sum that is deleted.
The trees that are parsed are not among them. The steps that the rules are composed of fail for
other reasons, so the question is only whether the rules for a tree are composed of them. Whatever a
step fails for, the message of the fault tells where.

## Main definitions

* `Compile.Spares`: a step does not fail for a node that is not supported, and tells where it fails

## Main results

* `Compile.Composed.spares`: the rules on trees that the grammar can make
* `wellFormed_supported_of_parse`: **a parsed program is well formed, and compiling it never fails
  for a node that is not supported**
-/

namespace Toolchain

namespace Compile

open Outcome

variable {α β : Type} {m : Compile α} {f : α → Compile β} {s : CompileState}

/-- No failure of a step, from a state, is for a node that is not supported, and every one tells
where it is. -/
def Spares (m : Compile α) (s : CompileState) : Prop :=
  ∀ fault, StateT.run m s = .error fault → fault.code ≠ .unsupportedNode ∧ fault.Lined

theorem Spares.bind {P : α → CompileState → Prop} (hm : m.Spares s) (hgives : m.Gives s P)
    (hf : ∀ a t, P a t → (f a).Spares t) : (m >>= f).Spares s := by
  intro fault hrun
  rw [StateT.run_bind] at hrun
  cases h : StateT.run m s with
  | error fault' =>
    rw [h] at hrun
    cases hrun
    exact hm fault h
  | ok r =>
    rw [h] at hrun
    exact hf r.1 r.2 (hgives r.1 r.2 h) fault hrun

theorem Spares.next (hm : m.Spares s) (hf : ∀ a t, (f a).Spares t) : (m >>= f).Spares s :=
  hm.bind (P := fun _ _ => True) (fun _ _ _ => trivial) fun a t _ => hf a t

theorem spares_pure (a : α) (s : CompileState) : (pure a : Compile α).Spares s := nofun

theorem spares_get (s : CompileState) : (get : Compile CompileState).Spares s := nofun

theorem spares_set (t s : CompileState) : (set t : Compile PUnit).Spares s := nofun

theorem spares_modify (g : CompileState → CompileState) (s : CompileState) :
    (modify g : Compile PUnit).Spares s :=
  nofun

theorem spares_overflow (op : Opcode) (operand limit : Nat) (s : CompileState) :
    (overflow op operand limit : Compile α).Spares s := by
  intro fault hrun
  cases hrun
  refine ⟨by simp, ?_⟩
  exact Fault.lined_of_lining rfl [.text op.name, .int operand, .int limit]
    (by simp [MessageId.lining]) _ _ _

theorem spares_encoded (op : Opcode) (operand : Nat) (s : CompileState) :
    (encoded op operand).Spares s := by
  unfold encoded
  split
  · exact spares_overflow _ _ _ s
  · exact spares_pure _ s

theorem spares_position (s : CompileState) : position.Spares s :=
  (spares_get s).next fun _ t => spares_pure _ t

theorem spares_emit (op : Opcode) (operand : Nat) (s : CompileState) : (emit op operand).Spares s :=
  (spares_encoded _ _ s).next fun _ s => (spares_position s).next fun _ s =>
    (spares_modify _ s).next fun _ s => (spares_get s).next fun _ s => spares_modify _ s

theorem spares_reserve (s : CompileState) : reserve.Spares s :=
  (spares_get s).next fun _ s => (spares_modify _ s).next fun _ s => (spares_modify _ s).next
    fun _ s => spares_pure _ s

theorem spares_patch (place : Nat) (op : Opcode) (target : Nat) (s : CompileState) :
    (patch place op target).Spares s :=
  (spares_encoded _ _ s).next fun _ s => (spares_modify _ s).next fun _ s => spares_modify _ s

theorem spares_emitWith (op : Opcode) (k : Constant) (s : CompileState) :
    (emitWith op k).Spares s :=
  (spares_get s).next fun _ s => (spares_set _ s).next fun _ s => spares_emit _ _ s

theorem spares_nestedCode {name : Text} {kind : CodeKind} {line : Nat} {body : Compile Unit}
    (hbody : ∀ s₀, s₀.file = s.file → s₀.frame = {} → body.Spares s₀) :
    (nestedCode name kind line body).Spares s := by
  refine (spares_get s).bind (P := fun a t => t = s) (gives_get rfl) ?_
  rintro a t rfl
  refine (spares_modify _ t).bind (P := fun _ t' => t'.file = t.file ∧ t'.frame = {})
    (gives_modify ⟨rfl, rfl⟩) fun _ t' ⟨hfile, hframe⟩ => ?_
  exact (hbody t' hfile hframe).next fun _ s => (spares_get s).next fun _ s =>
    (spares_set _ s).next fun _ s => spares_pure _ s

/-- What is composed of basic steps does not fail for a node that is not supported, and tells where
it fails. -/
theorem Composed.spares {file : Text} {m m' : Compile α} {g : GuardedCompile α}
    (hm : Composed file m m' g) : ∀ s, Sound file s → m.Spares s := by
  induction hm with
  | pure a => exact fun s _ => spares_pure a s
  | bind hcomposed _ hm hf => exact fun s h => (hm s h).bind (hcomposed.sound s h) hf
  | look _ _ hf =>
    intro s h
    refine (spares_get s).bind (P := fun a t => a = s ∧ t = s) (gives_get ⟨rfl, rfl⟩) ?_
    rintro a t ⟨rfl, rfl⟩
    exact hf t t (.refl t) t h
  | place | arrange => exact fun s _ => spares_modify _ s
  | raise hfails =>
    intro s _ fault hrun
    obtain ⟨fault', hfault, hspared⟩ := hfails s
    obtain rfl := Except.error.inj (hrun.symm.trans hfault)
    exact hspared
  | calm _ h => exact h
  | position => exact fun s _ => spares_position s
  | emit op operand => exact fun s _ => spares_emit op operand s
  | emitWith op => exact fun s _ => spares_emitWith op _ s
  | reserve => exact fun s _ => spares_reserve s
  | patch place op target => exact fun s _ => spares_patch place op target s
  | nested _ _ _ _ _ _ hbody =>
    intro s h
    refine (spares_nestedCode fun s₀ hfile hframe => ?_).next fun _ s =>
      (spares_modify _ s).next fun _ s => spares_emitWith _ _ s
    exact hbody s₀ (.begun (hfile.trans h.file_eq) hframe)

end Compile

/-! ## Parsed programs -/

/-- The code of a diagnostic is that of its fault. -/
theorem Fault.code_diagnostic (file : Text) (f : Fault) : (f.diagnostic file).code = f.code := by
  unfold Fault.diagnostic Diagnostic.withSpan
  split <;> rfl

/-- Compiling a program that the grammar can make does not fail for a node that is not supported,
and tells where it fails. -/
theorem spared_of_compileTree {file : Text} {r : Root Mark} (hr : r.WellFormed) {d : Diagnostic}
    (h : (compileTree file r).1 = .error d) :
    ∃ fault : Fault, d = fault.diagnostic file ∧ fault.code ≠ .unsupportedNode ∧ fault.Lined := by
  unfold compileTree at h
  split at h
  · cases h
  · next fault hrun =>
    cases h
    refine ⟨fault, rfl, ?_⟩
    obtain ⟨name, kind, body, _, _, -, -, hbody, hroot, -⟩ := Compile.composed_root file id r hr
    rw [hroot] at hrun
    refine Compile.Spares.bind (Compile.spares_modify _ _) (P := fun _ t => t.file = file)
      (Compile.gives_modify rfl) (fun _ t ht => ?_) fault hrun
    exact Compile.spares_nestedCode fun s₀ hfile hframe =>
      hbody.spares s₀ (.begun (hfile.trans ht) hframe)

theorem code_ne_of_compileTree {file : Text} {r : Root Mark} (hr : r.WellFormed) {d : Diagnostic}
    (h : (compileTree file r).1 = .error d) : d.code ≠ .unsupportedNode := by
  obtain ⟨fault, rfl, hcode, -⟩ := spared_of_compileTree hr h
  rwa [Fault.code_diagnostic]

/-- **A parsed program is well formed and supported.** A program that is parsed, as a whole or as a
single expression, can be made by the grammar; and compiling it, under any name, never fails for a
node that is not supported. -/
theorem wellFormed_supported_of_parse {file source : Text} {p : Parsed}
    (h : (parseModule file source).1 = .ok p ∨ (parseExpression file source).1 = .ok p) :
    p.root.WellFormed ∧
      ∀ name d, (compileTree name p.root).1 = .error d → d.code ≠ .unsupportedNode := by
  have hwf : p.root.WellFormed := by
    rcases h with h | h
    · exact (isModule_of_parseModule h).wellFormed
    · exact (isExpression_of_parseExpression h).wellFormed
  exact ⟨hwf, fun _ _ hd => code_ne_of_compileTree hwf hd⟩

/-- A program with targets of all kinds, which ends a loop where there is none. -/
def strayBreak : Text :=
  "for a, (b.c, [d[0]]) in e: a += lambda x, y=1: x\ntry: del a, b.c\nexcept: pass\nbreak\n"

theorem wellFormed_supported_of_parse_strayBreak :
    ∃ p d, (parseModule "m" strayBreak).1 = .ok p ∧ p.root.WellFormed ∧
      (compileTree "m" p.root).1 = .error d ∧ d.code ≠ .unsupportedNode := by
  obtain ⟨p, hp, hfails⟩ : ∃ p, (parseModule "m" strayBreak).1 = .ok p ∧
      (compileTree "m" p.root).1.toOption.isNone = true :=
    exists_of_any (q := fun p : Parsed => (compileTree "m" p.root).1.toOption.isNone)
      (by decide +kernel)
  obtain ⟨hwf, hspared⟩ := wellFormed_supported_of_parse (.inl hp)
  cases hd : (compileTree "m" p.root).1 with
  | ok c =>
    rw [hd] at hfails
    cases hfails
  | error d => exact ⟨p, d, hp, hwf, hd, hspared _ _ hd⟩

end Toolchain

import Toolchain.Compiler.Statement
import Toolchain.Proofs.Compiler.Finished

/-!
# The name of the file in compiled code

Every code object holds the name of the file it was compiled from. Nothing else in it depends on
that name: a step that is run in the compilation of a file can be run in that of another file, and
writes the same instructions and the same constants, up to the name in the code objects among them.

## Main definitions

* `Code.inFile`: a code object with another file name, in the ones nested in it too
* `CompileState.moved`: a state in the compilation of another file

## Main results

* `Compile.Moves.bind`: steps after steps
* `Compile.moves_emit`, `Compile.gives_emitWith_moved`, `Compile.gives_nestedCode_moved`:
  instructions and code objects
-/

namespace Toolchain

mutual

/-- A code object with the name of a file, in the ones nested in it too. -/
def Code.inFile (file : Text) : Code → Code
  | ⟨name, _, kind, firstLine, params, vararg, kwarg, instructions, lineTable, constants⟩ =>
    ⟨name, file, kind, firstLine, params, vararg, kwarg, instructions, lineTable,
      Code.allInFile file constants⟩

/-- Constants with the name of a file in the code objects among them. -/
def Code.allInFile (file : Text) : List Constant → List Constant
  | [] => []
  | .code c :: rest => .code (Code.inFile file c) :: Code.allInFile file rest
  | k :: rest => k :: Code.allInFile file rest

end

/-- A constant with the name of a file, if it is a code object. -/
def Constant.inFile (file : Text) : Constant → Constant
  | code c => code (Code.inFile file c)
  | k => k

theorem Constant.same_inFile (file : Text) (a b : Constant) :
    (a.inFile file).same (b.inFile file) = a.same b := by
  cases a <;> cases b <;> rfl

theorem Code.allInFile_eq_map (file : Text) (ks : List Constant) :
    Code.allInFile file ks = ks.map (Constant.inFile file) := by
  induction ks with
  | nil => rw [Code.allInFile, List.map_nil]
  | cons k ks ih => cases k <;> simp only [Code.allInFile, Constant.inFile, ih, List.map_cons]

/-- The parameters do not depend on the file. -/
theorem Code.inFile_withParams (file : Text) (c : Code) {ε : Type} (s : Signature Mark ε) :
    Code.inFile file (Compile.withParams c s) = Compile.withParams (Code.inFile file c) s := by
  cases c
  simp only [Compile.withParams, Code.inFile]

/-- A code object in the making with the name of a file in its constants. -/
def CodeBuilder.inFile (file : Text) (b : CodeBuilder) : CodeBuilder :=
  { b with constants := b.constants.map (Constant.inFile file) }

theorem CodeBuilder.addConstant_inFile (file : Text) (b : CodeBuilder) (k : Constant) :
    (b.inFile file).addConstant (k.inFile file) =
      ((b.addConstant k).1, (b.addConstant k).2.inFile file) := by
  unfold addConstant
  simp only [inFile, Array.findIdx?_map, Function.comp_def, Constant.same_inFile]
  cases b.constants.findIdx? fun old => old.same k with
  | some i => rfl
  | none => simp

/-- A state in the compilation of another file, in which a place and a number of code objects may be
noted that are not those of the state. -/
def CompileState.moved (file : Text) (column codes : Nat) (s : CompileState) : CompileState :=
  { s with file, column, codes, frame := { s.frame with builder := s.frame.builder.inFile file } }

namespace Compile

open CompileState

variable {α : Type}

/-- A step does the same in the compilation of another file. -/
def Moves (file : Text) (m : Compile α) : Prop :=
  ∀ s column codes, m.Gives s fun a s' => ∃ column' codes',
    StateT.run m (s.moved file column codes) = .ok (a, s'.moved file column' codes')

variable {file : Text}

theorem run_emit {op : Opcode} {k : Nat} (hk : k ≤ maxOperand) (s : CompileState) :
    StateT.run (emit op k) s = .ok ((), s.push (Instr.encode ⟨op, k⟩)) := by
  have hencoded : StateT.run (encoded op k) s = .ok (Instr.encode ⟨op, k⟩, s) := by
    unfold encoded
    rw [if_neg (Nat.not_lt.mpr hk)]
    rfl
  unfold emit
  rw [StateT.run_bind, hencoded, push, CodeRequest.ofWord_encode hk]
  rfl

theorem moves_emit (op : Opcode) (k : Nat) : (emit op k).Moves file := by
  intro s column codes
  refine (gives_emit op k s).mono ?_
  rintro _ s' ⟨hk, rfl⟩
  exact ⟨column, codes, run_emit hk _⟩

theorem Moves.bind {β : Type} {m : Compile α} {f : α → Compile β} (hm : m.Moves file)
    (hf : ∀ a, (f a).Moves file) : (m >>= f).Moves file := by
  intro s column codes
  refine (hm s column codes).bind ?_
  rintro a t ⟨column₁, codes₁, hrun⟩
  refine (hf a t column₁ codes₁).mono ?_
  rintro b s' ⟨column', codes', hrun'⟩
  refine ⟨column', codes', ?_⟩
  rw [StateT.run_bind, hrun]
  exact hrun'

/-- A constant is loaded in another file as the constant of that file. -/
theorem gives_emitWith_moved (file : Text) (op : Opcode) (k : Constant) (s : CompileState)
    (column codes : Nat) :
    (emitWith op k).Gives s fun a s' =>
      StateT.run (emitWith op (k.inFile file)) (s.moved file column codes) =
        .ok (a, s'.moved file column codes) := by
  refine (gives_get (P := fun a t => a = s ∧ t = s) ⟨rfl, rfl⟩).bind ?_
  rintro a t ⟨rfl, rfl⟩
  refine (gives_set (P := fun _ t' => t' =
    { t with frame := { t.frame with builder := (t.frame.builder.addConstant k).2 } }) rfl).bind ?_
  rintro _ t' rfl
  refine (gives_emit op _ _).mono ?_
  rintro _ s' ⟨hi, rfl⟩
  have hadded : (t.moved file column codes).frame.builder.addConstant (k.inFile file) =
      ((t.frame.builder.addConstant k).1, (t.frame.builder.addConstant k).2.inFile file) :=
    CodeBuilder.addConstant_inFile file _ k
  have hunfold (u : CompileState) (k : Constant) : StateT.run (emitWith op k) u =
      StateT.run (emit op (u.frame.builder.addConstant k).1)
        { u with frame := { u.frame with builder := (u.frame.builder.addConstant k).2 } } := rfl
  rw [hunfold, hadded]
  exact run_emit hi _

/-- A code object is made in another file as the code object of that file. -/
theorem gives_nestedCode_moved {name : Text} {kind : CodeKind} {first : Nat} {body : Compile Unit}
    (hbody : body.Moves file) (s : CompileState) (column codes : Nat) :
    (nestedCode name kind first body).Gives s fun c s' => ∃ column' codes',
      StateT.run (nestedCode name kind first body) (s.moved file column codes) =
        .ok (Code.inFile file c, s'.moved file column' codes') := by
  intro c s' hrun
  rw [run_nestedCode, Outcome.bind_eq_ok_iff] at hrun
  obtain ⟨⟨_, t⟩, hmade, hrun⟩ := hrun
  obtain ⟨rfl, rfl⟩ := Prod.mk.inj (Except.ok.inj hrun)
  obtain ⟨column', codes', hmoved⟩ := hbody _ column (codes + 1) _ _ hmade
  refine ⟨column', codes', ?_⟩
  have hempty : ({ s with frame := {}, codes := s.codes + 1 } : CompileState).moved file column
      (codes + 1) = { s.moved file column codes with frame := {}, codes := codes + 1 } := by
    simp [CompileState.moved, CodeBuilder.inFile]
  rw [hempty] at hmoved
  rw [run_nestedCode]
  show StateT.run body { s.moved file column codes with frame := {}, codes := codes + 1 } >>= _ = _
  rw [hmoved]
  simp only [CompileState.moved, Code.inFile, Code.allInFile_eq_map, ← Array.toList_map]
  rfl

end Compile

end Toolchain

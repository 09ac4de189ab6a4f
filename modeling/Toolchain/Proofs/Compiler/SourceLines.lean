import Mathlib.Data.List.Forall2
import Mathlib.Tactic.Common
import Toolchain.Compiler.Statement

/-!
# Source lines in compiled code

The compiler looks at the annotations of a tree only to say which source line an instruction belongs
to. Two trees that differ in their annotations alone are compiled to code objects that differ in
their first lines and their line tables alone, or both are refused for the same reason.

The compiler is run on both trees side by side. The two states stay alike: they have the same
instructions, and the same constants up to lines.

## Main definitions

* `Code.withoutLines`: a code object without what it says about source lines
* `CompileState.Alike`: two states of the compiler that differ in source lines alone
* `Compile.Agree`: two steps of the compiler that keep states alike

## Main results

* `Compile.Agree.bind`: steps after steps
* `Compile.agree_emit`, `Compile.agree_emitWith`, `Compile.agree_nestedCode`: instructions and code
  objects
-/

namespace Toolchain

mutual

/-- A code object without what it, and the code objects in it, say about source lines. -/
def Code.withoutLines : Code → Code
  | ⟨name, filename, kind, _, params, vararg, kwarg, instructions, _, constants⟩ =>
    ⟨name, filename, kind, 0, params, vararg, kwarg, instructions, none,
      Code.withoutLinesIn constants⟩

/-- Constants without what they say about source lines. -/
def Code.withoutLinesIn : List Constant → List Constant
  | [] => []
  | .code c :: rest => .code (Code.withoutLines c) :: Code.withoutLinesIn rest
  | k :: rest => k :: Code.withoutLinesIn rest

end

namespace Constant

/-- A constant without what it says about source lines. -/
def withoutLines : Constant → Constant
  | code c => code (Code.withoutLines c)
  | k => k

/-- Lines do not matter for whether two constants share a place. -/
theorem same_withoutLines (a b : Constant) : a.withoutLines.same b.withoutLines = a.same b := by
  cases a <;> cases b <;> rfl

end Constant

theorem Code.withoutLinesIn_eq_map (ks : List Constant) :
    Code.withoutLinesIn ks = ks.map Constant.withoutLines := by
  induction ks with
  | nil => rw [Code.withoutLinesIn, List.map_nil]
  | cons k ks ih =>
    cases k <;> simp only [Code.withoutLinesIn, Constant.withoutLines, ih, List.map_cons]

/-! ## States that differ in source lines -/

/-- The same instructions, and the same constants up to lines. -/
structure CodeBuilder.Alike (b b' : CodeBuilder) : Prop where
  words : b.words = b'.words
  constants : b.constants.map Constant.withoutLines = b'.constants.map Constant.withoutLines

/-- Code objects in the making that differ in source lines alone. -/
structure CodeFrame.Alike (f f' : CodeFrame) : Prop where
  builder : f.builder.Alike f'.builder
  loops : f.loops = f'.loops
  tries : f.tries = f'.tries
  requests : f.requests = f'.requests

/-- States that differ in source lines alone. -/
structure CompileState.Alike (s s' : CompileState) : Prop where
  file : s.file = s'.file
  frame : s.frame.Alike s'.frame
  codes : s.codes = s'.codes

namespace CodeBuilder.Alike

variable {b b' : CodeBuilder}

theorem position (h : b.Alike b') : b.position = b'.position := by
  rw [CodeBuilder.position, h.words, CodeBuilder.position]

theorem bytes (h : b.Alike b') : b.bytes = b'.bytes := by
  rw [CodeBuilder.bytes, h.words, CodeBuilder.bytes]

theorem push (h : b.Alike b') (w : Word) (line line' : Int) :
    (b.push w line).Alike (b'.push w line') :=
  ⟨by rw [CodeBuilder.push, CodeBuilder.push, h.words], h.constants⟩

theorem patch (h : b.Alike b') (place : Nat) (w : Word) :
    (b.patch place w).Alike (b'.patch place w) :=
  ⟨by rw [CodeBuilder.patch, CodeBuilder.patch, h.words], h.constants⟩

/-- A constant is found in a pool where it is found once lines are forgotten. -/
theorem findIdx?_same (ks : Array Constant) (k : Constant) :
    ks.findIdx? (fun old => old.same k) =
      (ks.map Constant.withoutLines).findIdx? fun old => old.same k.withoutLines := by
  simp only [Array.findIdx?_map, Function.comp_def, Constant.same_withoutLines]

/-- Constants that differ in lines alone get the same place. -/
theorem addConstant (h : b.Alike b') {k k' : Constant} (hk : k.withoutLines = k'.withoutLines) :
    (b.addConstant k).1 = (b'.addConstant k').1 ∧
      (b.addConstant k).2.Alike (b'.addConstant k').2 := by
  have hsize : b.constants.size = b'.constants.size := by
    simpa using congrArg Array.size h.constants
  have hfind : b.constants.findIdx? (fun old => old.same k) =
      b'.constants.findIdx? fun old => old.same k' := by
    rw [findIdx?_same b.constants, findIdx?_same b'.constants, h.constants, hk]
  unfold CodeBuilder.addConstant
  rw [hfind]
  cases b'.constants.findIdx? fun old => old.same k' with
  | some i => exact ⟨rfl, h⟩
  | none =>
    refine ⟨hsize, h.words, ?_⟩
    simp only [Array.map_push, h.constants, hk]

end CodeBuilder.Alike

namespace CompileState.Alike

variable {s s' : CompileState}

theorem refl (s : CompileState) : s.Alike s := ⟨rfl, ⟨⟨rfl, rfl⟩, rfl, rfl, rfl⟩, rfl⟩

/-- Only the code object in the making changes. -/
theorem withFrame (h : s.Alike s') {f f' : CodeFrame} (hf : f.Alike f') :
    CompileState.Alike { s with frame := f } { s' with frame := f' } :=
  ⟨h.file, hf, h.codes⟩

theorem withBuilder (h : s.Alike s') {b b' : CodeBuilder} (hb : b.Alike b') :
    CompileState.Alike { s with frame := { s.frame with builder := b } }
      { s' with frame := { s'.frame with builder := b' } } :=
  h.withFrame ⟨hb, h.frame.loops, h.frame.tries, h.frame.requests⟩

/-- The current place is not compared. -/
theorem withPlace (h : s.Alike s') (line column line' column' : Nat) :
    CompileState.Alike { s with line, column } { s' with line := line', column := column' } :=
  ⟨h.file, h.frame, h.codes⟩

end CompileState.Alike

/-! ## Steps that agree -/

namespace Compile

variable {α β γ δ : Type} {R : α → β → Prop} {S : γ → δ → Prop}

/-- What two runs end in, with results that are related: both succeed, in states that are alike, or
both fail for the same reason. -/
def Ends (R : α → β → Prop) :
    Except Fault (α × CompileState) → Except Fault (β × CompileState) → Prop
  | .ok (a, s), .ok (b, t) => R a b ∧ s.Alike t
  | .error f, .error g => f.code = g.code
  | _, _ => False

/-- Two steps that end alike from states that are alike. -/
def Agree (R : α → β → Prop) (x : Compile α) (y : Compile β) : Prop :=
  ∀ s t, s.Alike t → Ends R (x.run s) (y.run t)

theorem agree_pure {a : α} {b : β} (h : R a b) : Agree R (pure a) (pure b) :=
  fun _ _ hst => ⟨h, hst⟩

theorem Agree.bind {x : Compile α} {y : Compile β} {f : α → Compile γ} {g : β → Compile δ}
    (h : Agree R x y) (hfg : ∀ a b, R a b → Agree S (f a) (g b)) :
    Agree S (x >>= f) (y >>= g) := by
  intro s t hst
  have hends := h s t hst
  simp only [StateT.run_bind]
  cases hx : x.run s with
  | error e =>
    cases hy : y.run t with
    | error e' => rwa [hx, hy] at hends
    | ok q =>
      rw [hx, hy] at hends
      exact hends.elim
  | ok p =>
    cases hy : y.run t with
    | error e' =>
      rw [hx, hy] at hends
      exact hends.elim
    | ok q =>
      rw [hx, hy] at hends
      exact hfg p.1 q.1 hends.1 p.2 q.2 hends.2

/-- A step whose results are equal, before others. -/
theorem Agree.next {x y : Compile α} {f : α → Compile γ} {g : α → Compile δ}
    (h : Agree Eq x y) (hfg : ∀ a, Agree S (f a) (g a)) : Agree S (x >>= f) (y >>= g) :=
  h.bind fun a _ hab => hab ▸ hfg a

/-- What would come after steps that only fail does not matter. -/
theorem Agree.never_bind {x : Compile α} {y : Compile β} (h : Agree (fun _ _ => False) x y)
    (f : α → Compile γ) (g : β → Compile δ) : Agree S (x >>= f) (y >>= g) :=
  h.bind fun _ _ hfalse => hfalse.elim

theorem agree_get : Agree CompileState.Alike get get := fun _ _ hst => ⟨hst, hst⟩

theorem agree_set {s t : CompileState} (h : s.Alike t) : Agree Eq (set s : Compile PUnit) (set t) :=
  fun _ _ _ => ⟨rfl, h⟩

theorem agree_modify {f g : CompileState → CompileState}
    (h : ∀ s t, s.Alike t → (f s).Alike (g t)) : Agree Eq (modify f : Compile PUnit) (modify g) :=
  fun s t hst => ⟨rfl, h s t hst⟩

theorem agree_failAt (code : ErrorCode) (p q : Position) (m n : Message) :
    Agree R (failAt code p m) (failAt code q n) :=
  fun _ _ _ => rfl

theorem agree_fail (code : ErrorCode) (m n : Message) : Agree R (fail code m) (fail code n) :=
  agree_get.bind fun _ _ _ => agree_failAt code _ _ m n

theorem agree_overflow (op : Opcode) (operand limit : Nat) :
    Agree R (overflow op operand limit) (overflow op operand limit) :=
  agree_get.bind fun _ _ _ => agree_fail .operandRange _ _

theorem agree_setLine (line line' : Nat) : Agree Eq (setLine line) (setLine line') :=
  agree_modify fun s t hst => hst.withPlace line s.column line' t.column

theorem agree_note (r : CodeRequest) : Agree Eq (note r) (note r) :=
  agree_modify fun _ _ hst => hst.withFrame
    ⟨hst.frame.builder, hst.frame.loops, hst.frame.tries, by rw [hst.frame.requests]⟩

theorem agree_modifyBuilder {f g : CodeBuilder → CodeBuilder}
    (h : ∀ b b', b.Alike b' → (f b).Alike (g b')) :
    Agree Eq (modifyBuilder f) (modifyBuilder g) :=
  agree_modify fun _ _ hst => hst.withBuilder (h _ _ hst.frame.builder)

theorem agree_position : Agree Eq position position :=
  agree_get.bind fun _ _ hst => agree_pure hst.frame.builder.position

theorem agree_encoded (op : Opcode) (operand : Nat) :
    Agree Eq (encoded op operand) (encoded op operand) := by
  unfold encoded
  split
  · exact agree_overflow op operand maxOperand
  · exact agree_pure rfl

theorem agree_emit (op : Opcode) (operand : Nat) :
    Agree Eq (emit op operand) (emit op operand) := by
  refine (agree_encoded op operand).next fun w => agree_position.next fun p => ?_
  refine (agree_note _).next fun _ => agree_get.bind fun s t _ => ?_
  exact agree_modifyBuilder fun b b' hb => hb.push w s.line t.line

theorem agree_reserve : Agree Eq reserve reserve := by
  refine agree_get.bind fun s t hst => ?_
  rw [hst.frame.builder.position]
  refine (agree_note _).next fun _ => ?_
  refine (agree_modifyBuilder fun b b' hb => hb.push _ s.line t.line).next fun _ => ?_
  exact agree_pure rfl

theorem agree_patch (place : Nat) (op : Opcode) (target : Nat) :
    Agree Eq (patch place op target) (patch place op target) := by
  refine (agree_encoded op target).next fun w => (agree_note _).next fun _ => ?_
  exact agree_modifyBuilder fun b b' hb => hb.patch place w

theorem agree_emitWith (op : Opcode) {k k' : Constant} (hk : k.withoutLines = k'.withoutLines) :
    Agree Eq (emitWith op k) (emitWith op k') := by
  refine agree_get.bind fun s t hst => ?_
  obtain ⟨hindex, hbuilder⟩ := hst.frame.builder.addConstant hk
  refine (agree_set (hst.withBuilder hbuilder)).next fun _ => ?_
  change Agree Eq (emit op (s.frame.builder.addConstant k).1)
    (emit op (t.frame.builder.addConstant k').1)
  rw [hindex]
  exact agree_emit op _

/-- Code objects that differ in source lines alone. -/
def SameCode (c c' : Code) : Prop := c.withoutLines = c'.withoutLines

theorem agree_emitCode {c c' : Code} (h : SameCode c c') :
    Agree Eq (emitConst (.code c)) (emitConst (.code c')) :=
  agree_emitWith .loadConst (congrArg Constant.code h)

theorem sameCode_of_builder {name file : Text} {kind : CodeKind} {line line' : Int}
    {table table' : Option (List Int)} {b b' : CodeBuilder} (h : b.Alike b') :
    SameCode
      { name, filename := file, kind, firstLine := line, instructions := b.bytes,
        lineTable := table,
        constants := b.constants.toList }
      { name, filename := file, kind, firstLine := line', instructions := b'.bytes,
        lineTable := table', constants := b'.constants.toList } := by
  have hconstants : Code.withoutLinesIn b.constants.toList =
      Code.withoutLinesIn b'.constants.toList := by
    simp only [Code.withoutLinesIn_eq_map, ← Array.toList_map, h.constants]
  simp only [SameCode, Code.withoutLines, h.bytes, hconstants]

theorem agree_nestedCode (name : Text) (kind : CodeKind) (line line' : Nat) {x y : Compile Unit}
    (h : Agree Eq x y) :
      Agree SameCode (nestedCode name kind line x) (nestedCode name kind line' y) := by
  refine agree_get.bind fun s t hst => ?_
  refine (agree_modify fun s' t' hst' => ?_).next fun _ => h.next fun _ =>
    agree_get.bind fun s' t' hst' => ?_
  · exact ⟨hst'.file, ⟨⟨rfl, rfl⟩, rfl, rfl, rfl⟩, congrArg (· + 1) hst'.codes⟩
  · refine (agree_set (hst'.withFrame hst.frame)).next fun _ => agree_pure ?_
    rw [hst'.file]
    exact sameCode_of_builder hst'.frame.builder

/-- The parameters of a function do not say anything about source lines. -/
theorem SameCode.withParams {c c' : Code} (h : SameCode c c') {ε : Type} (sig : Signature Mark ε) :
    SameCode (withParams c sig) (withParams c' sig) := by
  cases c
  cases c'
  simp only [SameCode, Code.withoutLines, CodeObject.mk.injEq] at h
  simp only [SameCode, Compile.withParams, Code.withoutLines, CodeObject.mk.injEq, true_and]
  exact ⟨h.1, h.2.1, h.2.2.1, h.2.2.2.2.2.2.2.1, h.2.2.2.2.2.2.2.2.2⟩

/-! ## Parts of a tree with other annotations -/

variable (f : Mark → Mark)

theorem length_mapList {α β : Type} (f : α → β) (es : List (Expr α)) :
    (Expr.mapList f es).length = es.length := by
  induction es with
  | nil => rfl
  | cons e es ih => simp only [Expr.mapList, List.length_cons, ih]

theorem length_mapItems {α β : Type} (f : α → β) (items : List (Expr α × Expr α)) :
    (Expr.mapItems f items).length = items.length := by
  induction items with
  | nil => rfl
  | cons p items ih => simp only [Expr.mapItems, List.length_cons, ih]

theorem length_mapKeywords {α β : Type} (f : α → β) (keywords : List (KeywordArg α (Expr α))) :
    (Expr.mapKeywords f keywords).length = keywords.length := by
  induction keywords with
  | nil => rfl
  | cons k keywords ih => simp only [Expr.mapKeywords, List.length_cons, ih]

/-- The annotations of the parameters do not belong to a code object. -/
theorem withParams_map (c : Code) {ε ε' : Type} (params : List (Param Mark)) (defaults : List ε)
    (defaults' : List ε') (vararg kwarg : Option (Param Mark)) :
    withParams c ⟨params.map (Param.map f), defaults', vararg.map (Param.map f),
      kwarg.map (Param.map f)⟩ = withParams c ⟨params, defaults, vararg, kwarg⟩ := by
  simp only [withParams, List.map_map, Option.map_map, Function.comp_def, Param.map]

theorem connected_cons_cons (e e' : MarkedExpr) (es : List MarkedExpr) :
    connected (e :: e' :: es) = do
      code false e
      emit .dup 1
      let place ← reserve
      emit .pop 0
      let places ← connected (e' :: es)
      return place :: places := by
  rw [connected]
  nofun

theorem comparisons_cons_cons (op : CompareOp) (e : MarkedExpr) (p : CompareOp × MarkedExpr)
    (rest : List (CompareOp × MarkedExpr)) :
    comparisons ((op, e) :: p :: rest) = do
      code false e
      emit .dup 1
      emit .rot 3
      emit .compare op.code
      emit .dup 1
      let place ← reserve
      emit .pop 0
      let places ← comparisons (p :: rest)
      return place :: places := by
  rw [comparisons]
  nofun

/-- The elements of a display, with other annotations. -/
theorem elements?_map (e : MarkedExpr) :
    elements? (e.map f) = (elements? e).map (Expr.mapList f) := by
  cases e with
  | lambda m sig body =>
    cases sig
    rfl
  | _ =>
    rfl

theorem isEmpty_mapList (ss : List MarkedStmt) : (Stmt.mapList f ss).isEmpty = ss.isEmpty := by
  cases ss <;> rfl

theorem all_mapHandlers (clauses : List (Handler Mark MarkedExpr MarkedStmt)) :
    ((Stmt.mapHandlers f clauses).all fun h => h.type.isSome) =
      clauses.all fun h => h.type.isSome := by
  induction clauses with
  | nil => rfl
  | cons h rest ih =>
    rcases h with ⟨m, _ | type, name, ss⟩
    · rfl
    · simpa only [Stmt.mapHandlers, List.all_cons, Expr.mapOption, Option.isSome_some,
        Bool.true_and] using ih

end Compile

end Toolchain

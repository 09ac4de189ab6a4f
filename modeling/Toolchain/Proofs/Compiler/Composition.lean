import Toolchain.Proofs.Bytecode.Stored
import Toolchain.Proofs.Compiler.Guarded
import Toolchain.Proofs.Compiler.Renaming
import Toolchain.Proofs.Compiler.SourceLines
import Toolchain.Proofs.Message.Place
import Toolchain.Proofs.Text.Utf8
import Toolchain.Proofs.Tree.WellFormed

/-!
# What the compiler is composed of

The rules of the compiler are put together from a few basic steps: an instruction is appended, with
a constant or without one, a place is reserved or written, something is noted that is no part of the
code, a code object is begun, or the compilation fails. What is true of these steps and kept by
putting steps together is true of the rules, on every tree that the grammar can make.

The same rules are run on the tree with other annotations, and by the compiler that goes on after a
fault. They are put together in the same way there, so the three are told side by side.

## Main definitions

* `Constant.Written`, `Code.Authored`: the constants that are put into a pool, and the code objects
  that are made
* `Compile.Composed`: the steps that are put together from basic ones

## Main results

* `Compile.composed_root`: the rules on trees that the grammar can make
* `Compile.Composed.agree`, `Compile.Composed.moves`, `Compile.Composed.follows`: **they depend on
  annotations only in their lines, do the same in another file, and report the same fault when they
  go on after it**
* `authored_of_compileTree`: **what is put into the code objects of a program**
-/

namespace Toolchain

/-! ## What is put into a code object -/

/-- A constant as it is put into a pool: its text is valid, its number is finite, and it exists. -/
def Constant.Written : Constant → Prop
  | .name t => t.isValid = true
  | .string t => t.isValid = true
  | .int _ => True
  | .float x => x.bits.toNat < 2047 * twoPow 52
  | .code _ => True
  | .noCode => False
  | .unknown _ => False

/-- A code object as the compiler makes it, the ones nested in it apart: it is of a known kind and
of the file that is compiled, its texts are valid, and its lines are not negative. -/
structure Code.Authored (file : Text) (c : Code) : Prop where
  name : c.name.isValid = true
  filename : c.filename = file
  kind : ∀ n, c.kind ≠ .other n
  firstLine : 0 ≤ c.firstLine
  params : ∀ p ∈ c.params, p.isValid = true
  vararg : c.vararg.isValid = true
  kwarg : c.kwarg.isValid = true
  lines : ∀ line ∈ c.lines, 0 ≤ line
  constants : ∀ k ∈ c.constants, k.Written

/-- A code object as the compiler makes it, with the ones nested in it. -/
def Code.AllAuthored (file : Text) (c : Code) : Prop := ∀ o ∈ c.nested, Code.Authored file o

/-- The parameters of a signature are names of the source. -/
theorem Code.AllAuthored.withParams {file : Text} {c : Code} (h : c.AllAuthored file) {ε : Type}
    (s : Signature Mark ε) : Code.AllAuthored file (Compile.withParams c s) := by
  have hoption (p : Option (Param Mark)) :
      ((p.map fun p => Text.ofString p.name).getD []).isValid = true := by
    cases p with
    | none => rfl
    | some p => exact Text.isValid_ofString _
  intro o ho
  rw [Code.nested_eq] at ho
  rcases List.mem_cons.mp ho with rfl | ho
  · have hc : Code.Authored file c := h c (by rw [Code.nested_eq]; exact List.mem_cons_self)
    refine ⟨hc.name, hc.filename, hc.kind, hc.firstLine, ?_, hoption _, hoption _, hc.lines,
      hc.constants⟩
    intro p hp
    obtain ⟨q, -, rfl⟩ := List.mem_map.mp hp
    exact Text.isValid_ofString _
  · refine h o ?_
    rw [Code.nested_eq]
    exact List.mem_cons_of_mem _ ho

namespace CompileState

/-- A state at a line and a column, where these are given. -/
def placed (line column : Option Nat) (s : CompileState) : CompileState :=
  { s with line := line.getD s.line, column := column.getD s.column }

/-- A state with other loops and `try` statements around. -/
def arranged (f : List LoopFrame → List TryPhase → List LoopFrame × List TryPhase)
    (s : CompileState) : CompileState :=
  { s with frame := { s.frame with
    loops := (f s.frame.loops s.frame.tries).1, tries := (f s.frame.loops s.frame.tries).2 } }

end CompileState

namespace Compile

open CompileState Guarded
open GuardedCompile (change)

variable {α β : Type} {file : Text}

/-! ## Basic steps -/

/-- A step that fails, for another reason than a node that is not supported, with a message that
tells where. -/
def Fails (m : Compile α) : Prop :=
  ∀ s, ∃ fault : Fault, StateT.run m s = .error fault ∧ fault.code ≠ .unsupportedNode ∧ fault.Lined

/-- A step of the compilation of a file that is put together from basic ones. The same step with
other annotations is put together in the same way, and so is the step that goes on after a fault. -/
inductive Composed (file : Text) : {α : Type} → Compile α → Compile α → GuardedCompile α → Prop
  | pure {α : Type} (a : α) : Composed file (Pure.pure a) (Pure.pure a) (Pure.pure a)
  | bind {α β : Type} {m m' : Compile α} {g : GuardedCompile α} {f f' : α → Compile β}
      {k : α → GuardedCompile β} (hm : Composed file m m' g)
      (hf : ∀ a, Composed file (f a) (f' a) (k a)) :
      Composed file (m >>= f) (m' >>= f') (g >>= k)
  /-- The rest depends on the state, but neither on the file nor on what is noted about places. -/
  | look {α : Type} {f f' : CompileState → Compile α} {k : CompileState → GuardedCompile α}
      (hmoved : ∀ s file column codes, f (s.moved file column codes) = f s)
      (hf : ∀ s t, s.Alike t → Composed file (f s) (f' t) (k s)) :
      Composed file (MonadState.get >>= f) (MonadState.get >>= f') (state >>= k)
  | place (line column line' column' : Option Nat) :
      Composed file (modify (placed line column)) (modify (placed line' column'))
        (change (placed line column))
  | arrange (f : List LoopFrame → List TryPhase → List LoopFrame × List TryPhase) :
      Composed file (modify (arranged f)) (modify (arranged f)) (change (arranged f))
  /-- The compilation fails. -/
  | raise {m m' : Compile Unit} {g : GuardedCompile Unit} (hm : m.Fails) (hagree : Agree Eq m m')
      (hraises : Raises g m) : Composed file m m' g
  /-- After a fault the step is left out. -/
  | calm {m m' : Compile Unit} {g : GuardedCompile Unit} (h : Composed file m m' g) :
      Composed file m m' (ifCalm () g)
  | position : Composed file position position GuardedCompile.position
  | emit (op : Opcode) (operand : Nat) :
      Composed file (emit op operand) (emit op operand) (GuardedCompile.emit op operand)
  | emitWith (op : Opcode) {k : Constant} (hk : k.Written) (hcode : ∀ c, k ≠ .code c) :
      Composed file (emitWith op k) (emitWith op k) (GuardedCompile.emitWith op k)
  | reserve : Composed file reserve reserve GuardedCompile.reserve
  | patch (place : Nat) (op : Opcode) (target : Nat) :
      Composed file (patch place op target) (patch place op target)
        (GuardedCompile.patch place op target)
  /-- A code object is made and loaded, with the parameters of a signature. -/
  | nested {name : Text} {kind : CodeKind} {first first' line line' : Nat}
    {body body' : Compile Unit}
      {g : GuardedCompile Unit} (sig sig' : Option (Signature Mark MarkedExpr))
      (hname : name.isValid = true) (hkind : ∀ n, kind ≠ .other n)
      (hsig : ∀ c, sig'.elim c (withParams c) = sig.elim c (withParams c))
      (hbody : Composed file body body' g) :
      Composed file
        (do
          let c ← nestedCode name kind first body
          setLine line
          emitConst (.code (sig.elim c (withParams c))))
        (do
          let c ← nestedCode name kind first' body'
          setLine line'
          emitConst (.code (sig'.elim c (withParams c))))
        (do
          let c ← GuardedCompile.nestedCode name kind first g
          GuardedCompile.setLine line
          GuardedCompile.emitConst (.code (sig.elim c (withParams c))))

/-! ## Small steps -/

theorem Fails.bind {m : Compile α} (h : m.Fails) (q : α → Compile β) : (m >>= q).Fails := by
  intro s
  obtain ⟨fault, hrun, hfault⟩ := h s
  refine ⟨fault, ?_, hfault⟩
  rw [StateT.run_bind, hrun]
  rfl

theorem fails_overflow (op : Opcode) (operand limit : Nat) :
    Fails (overflow op operand limit : Compile α) := by
  refine fun s => ⟨_, rfl, (by decide : ErrorCode.operandRange ≠ .unsupportedNode), ?_⟩
  exact Fault.lined_of_lining rfl [.text op.name, .int operand, .int limit]
    (by simp [MessageId.lining]) _ _ _

/-- What would come after a fault is never reached. -/
theorem composed_raise_bind {m m' : Compile β} {q q' : β → Compile Unit} {g : GuardedCompile Unit}
    (hm : m.Fails) (hagree : Agree (fun _ _ => False) m m') (hraises : Raises g m) :
    Composed file (m >>= q) (m' >>= q') g :=
  .raise (hm.bind q) (hagree.never_bind q q') (hraises.bind q)

/-- A step after a condition. -/
theorem Composed.ite {c : Prop} [Decidable c] {m m' n n' : Compile α} {g h : GuardedCompile α}
    (hm : Composed file m m' g) (hn : Composed file n n' h) :
    Composed file (if c then m else n) (if c then m' else n') (if c then g else h) := by
  split
  · exact hm
  · exact hn

theorem composed_forM {l : List β} {f f' : β → Compile PUnit} {k : β → GuardedCompile PUnit}
    (hf : ∀ x ∈ l, Composed file (f x) (f' x) (k x)) :
    Composed file (l.forM f) (l.forM f') (l.forM k) := by
  induction l with
  | nil => exact .pure _
  | cons x l ih =>
    rw [List.forall_mem_cons] at hf
    exact hf.1.bind fun _ => ih hf.2

theorem composed_patches (op : Opcode) (target : Nat) (places : List Nat) :
    Composed file (places.forM fun place => patch place op target)
      (places.forM fun place => patch place op target)
      (places.forM fun place => GuardedCompile.patch place op target) :=
  composed_forM fun _ _ => .patch _ _ _

theorem composed_patchHere (op : Opcode) (places : List Nat) :
    Composed file (patchHere op places) (patchHere op places)
      (GuardedCompile.patchHere op places) :=
  Composed.position.bind fun target => composed_patches op target places

theorem composed_emitString (s : String) : Composed file (emitConst (.string s))
    (emitConst (.string s)) (GuardedCompile.emitConst (.string s)) :=
  .emitWith _ (Text.isValid_ofString s) nofun

theorem composed_emitName (op : Opcode) (name : String) :
    Composed file (emitName op name) (emitName op name) (GuardedCompile.emitName op name) :=
  .emitWith _ (Text.isValid_ofString name) nofun

theorem composed_emitSpecial (value : Option Bool) :
    Composed file (emitSpecial value) (emitSpecial value) (GuardedCompile.emitSpecial value) :=
  .emit _ _

theorem composed_setLine (line line' : Nat) :
    Composed file (setLine line) (setLine line') (GuardedCompile.setLine line) :=
  .place (some line) none (some line') none

theorem composed_counted (count : Nat) {m m' : Compile Unit} {g : GuardedCompile Unit}
    (h : Composed file m m' g) : Composed file (do checkCount count; m) (do checkCount count; m')
      (GuardedCompile.counted count g) := by
  unfold checkCount GuardedCompile.counted
  by_cases hlimit : count > maxBuildCount
  · rw [if_pos hlimit, if_pos hlimit]
    exact composed_raise_bind (fails_overflow _ _ _) (agree_overflow _ _ _)
      (GuardedCompile.raises_overflow _ _ _)
  · rw [if_neg hlimit, if_neg hlimit]
    exact h

theorem composed_literal {value : Literal} (h : value.WellFormed) :
    Composed file (literal value) (literal value) (GuardedCompile.literal value) := by
  cases value with
  | none => exact composed_emitSpecial none
  | bool b => exact composed_emitSpecial (some b)
  | int n => exact .emitWith _ trivial nofun
  | float x => exact .emitWith _ h nofun
  | str s => exact composed_emitString s

/-- The source line may be set before, with one annotation or with the other. -/
theorem composed_lined {part : Bool} {e : MarkedExpr} {c c' : Bool} {line line' : Nat}
    {f f' : Unit → Compile Unit} {k : Unit → GuardedCompile Unit}
    (h : ∀ u, Composed file (f u) (f' u) (k u)) :
    Composed file (if c = true then (do let r ← setLine line; f r) else f ())
      (if c' = true then (do let r ← setLine line'; f' r) else f' ())
      (GuardedCompile.entering part e
        (if c = true then (do let r ← GuardedCompile.setLine line; k r) else k ())) := by
  have hset (line line' : Option Nat) := (Composed.place line none line' none).bind h
  have hentering {m m' : Compile Unit} {g : GuardedCompile Unit} (h : Composed file m m' g) :
      Composed file m m' (GuardedCompile.entering part e g) := by
    unfold GuardedCompile.entering
    split
    · exact h
    · exact h.calm
  apply hentering
  cases c with
  | true =>
    cases c' with
    | true => exact hset (some line) (some line')
    | false => exact hset (some line) none
  | false =>
    cases c' with
    | true => exact hset none (some line')
    | false => exact h ()

/-! ## Expressions -/

section Rules

variable (f : Mark → Mark)

mutual

/-- The code of an expression that the grammar can make. -/
theorem composed_code : ∀ e : MarkedExpr, e.WellFormed →
    Composed file (code false e) (code false (e.map f)) (GuardedCompile.code false e)
  | .boolOp m .and values, h | .boolOp m .or values, h => by
    rw [Expr.map, code, code]
    exact composed_lined fun _ => (composed_connected values h.2).bind fun _ =>
      composed_patchHere _ _
  | .binOp m left op right, h =>
    composed_lined fun _ => (composed_code left h.1).bind fun _ =>
      (composed_code right h.2).bind fun _ => .emit _ _
  | .unaryOp m op operand, h =>
    composed_lined fun _ => (composed_code operand h).bind fun _ => .emit _ _
  | .lambda m ⟨params, defaults, vararg, kwarg⟩ body, h => by
    have hinner : Composed file (do code false body; emit .ret 0)
        (do code false (body.map f); emit .ret 0)
        (do GuardedCompile.code false body; GuardedCompile.emit .ret 0) :=
      (composed_code body h.2.2).bind fun _ => .emit _ _
    have hname : Text.isValid "<lambda>" = true := Text.isValid_ofString _
    rw [Expr.map, code, code, length_mapList]
    refine composed_lined fun _ => (composed_reversed defaults h.2.1).bind fun _ =>
      .look (fun _ _ _ _ => rfl) fun s t _ => ?_
    have hloaded := @Composed.nested file "<lambda>" .lambda m.pos.line (f m).pos.line s.line t.line
      _ _ _ (some ⟨params, [], vararg, kwarg⟩)
      (some ⟨params.map (Param.map f), [], vararg.map (Param.map f), kwarg.map (Param.map f)⟩)
      hname nofun (fun c => withParams_map f c params [] [] vararg kwarg) hinner
    have hmade := hloaded.bind fun _ => .emit .makeFunction defaults.length
    simp only [bind_assoc] at hmade
    exact hmade
  | .dict m pairs, h => by
    rw [Expr.map, code, code, length_mapItems]
    exact composed_lined fun _ => composed_counted _ ((composed_items pairs h).bind fun _ =>
      .emit _ _)
  | .compare m left rest, h => by
    rw [Expr.map, code, code]
    refine composed_lined fun _ => (composed_code left h.1).bind fun _ =>
      (composed_comparisons rest h.2.2).bind fun places => .ite ?_ (.pure _)
    exact Composed.reserve.bind fun _ => (composed_patchHere _ _).bind fun _ =>
      (Composed.emit _ _).bind fun _ => (Composed.emit _ _).bind fun _ => composed_patchHere _ _
  | .call m func args kws, h => by
    rw [Expr.map, code, code, length_mapList, length_mapKeywords]
    have hrest : Composed file
        (do
          code false func
          keywords kws
          reversed false args
          emit .call (callOperand args.length kws.length))
        (do
          code false (func.map f)
          keywords (Expr.mapKeywords f kws)
          reversed false (Expr.mapList f args)
          emit .call (callOperand args.length kws.length))
        (do
          GuardedCompile.code false func
          GuardedCompile.keywords kws
          GuardedCompile.reversed false args
          GuardedCompile.emit .call (callOperand args.length kws.length)) :=
      (composed_code func h.1).bind fun _ => (composed_keywords kws h.2.2).bind fun _ =>
        (composed_reversed args h.2.1).bind fun _ => .emit _ _
    refine composed_lined fun _ => .ite ?_ hrest
    refine .raise (fun s => ⟨_, rfl, (by decide : ErrorCode.operandRange ≠ .unsupportedNode), ?_⟩)
      (agree_get.bind fun _ _ _ => (agree_fail _ _ _).never_bind _ _)
      (.look fun _ => (GuardedCompile.raises_failHere _ _).bind _)
    exact Fault.lined_of_lining rfl [] (by decide) _ _ _
  | .constant m value, h => composed_lined fun _ => composed_literal h
  | .attr m value label ctx, h =>
    composed_lined fun _ => (composed_code value h.1).bind fun _ => composed_emitName _ _
  | .subscript m value part ctx, h =>
    composed_lined fun _ => (composed_code value h.1).bind fun _ =>
      (composed_part part h.2.1).bind fun _ => .emit _ _
  | .name m id ctx, _ => composed_lined fun _ => composed_emitName _ _
  | .list m elts ctx, h | .tuple m elts ctx, h => by
    rw [Expr.map, code, code, length_mapList]
    exact composed_lined fun _ => composed_counted _ ((composed_reversed elts h.1).bind fun _ =>
      .emit _ _)
  | .slice .., h | .index .., h => h.elim
  | .formatted m value conversion none, h =>
    composed_lined fun _ => (composed_code value h.1).bind fun _ => .emit _ _
  | .formatted m value conversion (some spec), h =>
    composed_lined fun _ => (composed_code value h.1).bind fun _ =>
      (composed_code spec h.2).bind fun _ => .emit _ _

/-- The code of a part of a subscript. -/
theorem composed_part : ∀ e : MarkedExpr, e.PartWellFormed →
    Composed file (code true e) (code true (e.map f)) (GuardedCompile.code true e)
  | .index m value, h => by
    rw [Expr.map, code, code]
    exact composed_lined fun _ => composed_code value h
  | .slice m lower upper step, h => by
    rw [Expr.map, code, code]
    exact composed_lined fun _ => (composed_optional step h.2.2).bind fun _ =>
      (composed_optional upper h.2.1).bind fun _ => (composed_optional lower h.1).bind fun _ =>
        .emit _ _
  | .boolOp .., h | .binOp .., h | .unaryOp .., h | .lambda .., h | .dict .., h | .compare .., h
  | .call .., h | .constant .., h | .attr .., h | .subscript .., h | .name .., h | .list .., h
  | .tuple .., h | .formatted .., h => h.elim

theorem composed_optional : ∀ e : Option MarkedExpr, Expr.OptionWellFormed e →
    Composed file (optional e) (optional (Expr.mapOption f e)) (GuardedCompile.optional e)
  | none, _ => composed_emitSpecial none
  | some e, h => composed_code e h

theorem composed_reversed : ∀ es : List MarkedExpr, Expr.AllWellFormed es →
    Composed file (reversed false es) (reversed false (Expr.mapList f es))
      (GuardedCompile.reversed false es)
  | [], _ => .pure _
  | e :: es, h => (composed_reversed es h.2).bind fun _ => composed_code e h.1

theorem composed_items : ∀ pairs : List (MarkedExpr × MarkedExpr), Expr.ItemsWellFormed pairs →
    Composed file (items pairs) (items (Expr.mapItems f pairs)) (GuardedCompile.items pairs)
  | [], _ => .pure _
  | (key, value) :: rest, h =>
    (composed_items rest h.2.2).bind fun _ => (composed_code value h.2.1).bind fun _ =>
      composed_code key h.1

theorem composed_keywords : ∀ kws : List (KeywordArg Mark MarkedExpr),
    Expr.KeywordsWellFormed kws →
    Composed file (keywords kws) (keywords (Expr.mapKeywords f kws)) (GuardedCompile.keywords kws)
  | [], _ => .pure _
  | ⟨_, _, value⟩ :: rest, h =>
    (composed_keywords rest h.2.2).bind fun _ => (composed_code value h.2.1).bind fun _ =>
      composed_emitString _

theorem composed_connected : ∀ es : List MarkedExpr, Expr.AllWellFormed es →
    Composed file (connected es) (connected (Expr.mapList f es)) (GuardedCompile.connected es)
  | [], _ => .pure _
  | [e], h => (composed_code e h.1).bind fun _ => .pure _
  | e :: e' :: es, h =>
    (composed_code e h.1).bind fun _ => (Composed.emit _ _).bind fun _ =>
      Composed.reserve.bind fun _ => (Composed.emit _ _).bind fun _ =>
        (composed_connected (e' :: es) h.2).bind fun _ => .pure _

theorem composed_comparisons : ∀ rest : List (CompareOp × MarkedExpr), Expr.RestWellFormed rest →
    Composed file (comparisons rest) (comparisons (Expr.mapRest f rest))
      (GuardedCompile.comparisons rest)
  | [], _ => .pure _
  | [(_, e)], h => (composed_code e h.1).bind fun _ => (Composed.emit _ _).bind fun _ => .pure _
  | (_, e) :: p :: rest, h =>
    (composed_code e h.1).bind fun _ => (Composed.emit _ _).bind fun _ =>
      (Composed.emit _ _).bind fun _ => (Composed.emit _ _).bind fun _ => (Composed.emit _ _).bind
        fun _ => Composed.reserve.bind fun _ => (Composed.emit _ _).bind fun _ =>
          (composed_comparisons (p :: rest) h.2).bind fun _ => .pure _

end

/-! ## Targets -/

mutual

/-- The code that stores into a target. -/
theorem composed_store {ctx : Context} : ∀ t : MarkedExpr, t.IsTarget ctx →
    Composed file (store t) (store (t.map f)) (GuardedCompile.store t)
  | .name _ _ _, _ => composed_emitName _ _
  | .attr _ value _ _, h =>
    (composed_code f value h.parts.1).bind fun _ => composed_emitName _ _
  | .subscript _ value part _, h =>
    (composed_code f value h.parts.1).bind fun _ => (composed_part f part h.parts.2.1).bind
      fun _ => .emit _ _
  | .list _ elts _, h | .tuple _ elts _, h =>
    (Composed.emit _ _).bind fun _ => (composed_stores elts h.parts.1).bind fun _ =>
      Composed.position.bind fun _ => (Composed.emit _ _).bind fun _ => composed_patches _ _ _
  | .boolOp .., h | .binOp .., h | .unaryOp .., h | .lambda .., h | .dict .., h | .compare .., h
  | .call .., h | .constant .., h | .slice .., h | .index .., h | .formatted .., h => h.parts.elim

theorem composed_stores {ctx : Context} : ∀ ts : List MarkedExpr, (∀ t ∈ ts, t.IsTarget ctx) →
    Composed file (stores ts) (stores (Expr.mapList f ts)) (GuardedCompile.stores ts)
  | [], _ => .pure _
  | t :: ts, h =>
    Composed.reserve.bind fun _ => (composed_store t (List.forall_mem_cons.mp h).1).bind fun _ =>
      (composed_stores ts (List.forall_mem_cons.mp h).2).bind fun _ => .pure _

end

mutual

/-- The code that deletes a target. -/
theorem composed_delete {ctx : Context} : ∀ t : MarkedExpr, t.IsTarget ctx →
    Composed file (delete t) (delete (t.map f)) (GuardedCompile.delete t)
  | .name _ _ _, _ => composed_emitName _ _
  | .attr _ value _ _, h =>
    (composed_code f value h.parts.1).bind fun _ => composed_emitName _ _
  | .subscript _ value part _, h =>
    (composed_code f value h.parts.1).bind fun _ => (composed_part f part h.parts.2.1).bind
      fun _ => .emit _ _
  | .list _ elts _, h | .tuple _ elts _, h => composed_deletes elts h.parts.1
  | .boolOp .., h | .binOp .., h | .unaryOp .., h | .lambda .., h | .dict .., h | .compare .., h
  | .call .., h | .constant .., h | .slice .., h | .index .., h | .formatted .., h => h.parts.elim

theorem composed_deletes {ctx : Context} : ∀ ts : List MarkedExpr, (∀ t ∈ ts, t.IsTarget ctx) →
    Composed file (deletes ts) (deletes (Expr.mapList f ts)) (GuardedCompile.deletes ts)
  | [], _ => .pure _
  | t :: ts, h =>
    (composed_delete t (List.forall_mem_cons.mp h).1).bind fun _ =>
      composed_deletes ts (List.forall_mem_cons.mp h).2

end

/-- The check of a display that is unpacked, up to its values. -/
theorem composed_unpacked (pos pos' : Position) (count : Nat) (value : MarkedExpr)
    {q q' : List MarkedExpr → Compile Unit} {k : List MarkedExpr → GuardedCompile Unit}
    (h : ∀ values, Composed file (q values) (q' (Expr.mapList f values)) (k values)) :
    Composed file (unpacked pos count value >>= q) (unpacked pos' count (value.map f) >>= q')
      (ifSome (GuardedCompile.unpacked pos count value) (pure ()) k) := by
  unfold unpacked GuardedCompile.unpacked
  rw [elements?_map]
  cases elements? value with
  | none => exact h []
  | some values =>
    simp only [Option.map_some, length_mapList]
    by_cases hcount : count = values.length
    · rw [if_pos hcount, if_pos hcount, if_pos hcount]
      exact h values
    · rw [if_neg hcount, if_neg hcount, if_neg hcount]
      refine composed_raise_bind
        (fun s => ⟨_, rfl, (by decide : ErrorCode.unpackCount ≠ .unsupportedNode), ?_⟩)
        (agree_failAt _ _ _ _ _) (GuardedCompile.raises_failAt _ _ _)
      exact Fault.lined_of_lining rfl [.int values.length, .int count]
        (by simp [MessageId.lining]) _ _ _

mutual

theorem composed_checkArity : ∀ target value : MarkedExpr,
    Composed file (checkArity target value) (checkArity (target.map f) (value.map f))
      (GuardedCompile.checkArity target value)
  | .tuple m targets c, value | .list m targets c, value => by
    rw [Expr.map, checkArity, checkArity, length_mapList]
    exact composed_unpacked f _ _ _ value fun values => composed_checkArities targets values
  | .boolOp .., _ | .binOp .., _ | .unaryOp .., _ | .lambda _ ⟨_, _, _, _⟩ _, _ | .dict .., _
  | .compare .., _ | .call .., _ | .constant .., _ | .slice .., _ | .index .., _
  | .formatted .., _ | .name .., _ | .attr .., _ | .subscript .., _ => .pure _

theorem composed_checkArities : ∀ targets values : List MarkedExpr,
    Composed file (checkArities targets values)
      (checkArities (Expr.mapList f targets) (Expr.mapList f values))
      (GuardedCompile.checkArities targets values)
  | [], _ | _ :: _, [] => .pure _
  | target :: targets, value :: values =>
    (composed_checkArity target value).bind fun _ => composed_checkArities targets values

end

/-! ## Statements -/

theorem composed_returnNone : Composed file returnNone returnNone GuardedCompile.returnNone :=
  (composed_emitSpecial none).bind fun _ => .emit _ _

/-- What is noted about the `try` statements changes. -/
theorem composed_tries (g : List TryPhase → List TryPhase) :
    Composed file
      (modify fun s : CompileState => { s with frame := { s.frame with tries := g s.frame.tries } })
      (modify fun s : CompileState => { s with frame := { s.frame with tries := g s.frame.tries } })
      (change fun s => { s with frame := { s.frame with tries := g s.frame.tries } }) :=
  .arrange fun loops tries => (loops, g tries)

theorem composed_setPhase (phase : TryPhase) :
    Composed file (setPhase phase) (setPhase phase) (GuardedCompile.setPhase phase) :=
  composed_tries fun tries => phase :: tries.drop 1

theorem composed_enter (m m' : Mark) :
    Composed file (stmt.enter m) (stmt.enter m') (GuardedCompile.enter m) :=
  .place (some _) (some _) (some _) (some _)

theorem composed_inLoop {m m' : Compile Unit} {g : GuardedCompile Unit}
    (h : Composed file m m' g) :
    Composed file (inLoop m) (inLoop m') (GuardedCompile.inLoop g) := by
  refine (Composed.arrange fun loops tries => ({ tryDepth := tries.length } :: loops, tries)).bind
    fun _ => h.bind fun _ => ?_
  -- the loop is taken away that was noted
  let leave (s : CompileState) : Compile LoopFrame := do
    modify (arranged fun loops tries => (loops.drop 1, tries))
    return s.frame.loops.headD { tryDepth := 0 }
  let leave' (s : CompileState) : GuardedCompile LoopFrame := do
    change (arranged fun loops tries => (loops.drop 1, tries))
    return s.frame.loops.headD { tryDepth := 0 }
  have hleave : Composed file (MonadState.get >>= leave) (MonadState.get >>= leave)
      (state >>= leave') := by
    refine .look (fun _ _ _ _ => rfl) fun s t hst => ?_
    simp only [leave, leave', ← hst.frame.loops]
    exact (Composed.arrange _).bind fun _ => .pure _
  exact hleave

theorem composed_closeLoop (l : LoopFrame) (again exit : Nat) :
    Composed file (closeLoop l again exit) (closeLoop l again exit)
      (GuardedCompile.closeLoop l again exit) :=
  (composed_patches _ _ _).bind fun _ => composed_patches _ _ _

/-- Notes the jump that leaves a round of the innermost loop, or the loop. -/
def noteJump (isBreak : Bool) (place : Nat) : List LoopFrame → List LoopFrame
  | [] => []
  | l :: loops =>
    if isBreak then { l with breaks := l.breaks ++ [place] } :: loops
    else { l with continues := l.continues ++ [place] } :: loops

/-- What is found to be wrong outside of a loop. -/
def strayJump (isBreak : Bool) : MessageId :=
  if isBreak then .breakOutsideLoop else .continueOutsideLoop

/-- Leaves a round of the innermost loop, or the loop. The line in the message is that at which it
is found that there is none. -/
def leaveLoop (isBreak : Bool) : List LoopFrame → List TryPhase → Compile Unit
  | [], _ => do fail .loopControl (.entry (strayJump isBreak) [(← MonadState.get).line])
  | l :: _, tries => do
    (List.replicate (registered (tries.take (tries.length - l.tryDepth))) ()).forM fun _ =>
      emit .handle 0
    let place ← reserve
    modify (arranged fun loops tries => (noteJump isBreak place loops, tries))

/-- Leaves a round of the innermost loop, or the loop, and goes on after a fault. -/
def guardedLeaveLoop (isBreak : Bool) : List LoopFrame → List TryPhase → GuardedCompile Unit
  | [], _ => do
    GuardedCompile.failHere .loopControl (.entry (strayJump isBreak) [(← state).line])
  | l :: _, tries => do
    (List.replicate (registered (tries.take (tries.length - l.tryDepth))) ()).forM fun _ =>
      GuardedCompile.emit .handle 0
    let place ← GuardedCompile.reserve
    change (arranged fun loops tries => (noteJump isBreak place loops, tries))

theorem composed_loopControl (isBreak : Bool) :
    Composed file (loopControl isBreak) (loopControl isBreak)
      (GuardedCompile.loopControl isBreak) := by
  have hleave : loopControl isBreak =
      MonadState.get >>= fun s => leaveLoop isBreak s.frame.loops s.frame.tries := by
    refine StateT.ext fun s => ?_
    obtain ⟨file, ⟨builder, loops, tries, requests⟩, line, column, codes⟩ := s
    cases loops <;> rfl
  have hleave' : GuardedCompile.loopControl isBreak =
      state >>= fun s => guardedLeaveLoop isBreak s.frame.loops s.frame.tries := by
    refine Guarded.ext (funext fun s => ?_)
    obtain ⟨⟨file, ⟨builder, loops, tries, requests⟩, line, column, codes⟩, _, _, _, _⟩ := s
    cases loops <;> rfl
  rw [hleave, hleave']
  refine .look (fun _ _ _ _ => rfl) fun s t hst => ?_
  rw [← hst.frame.loops, ← hst.frame.tries]
  cases s.frame.loops with
  | nil =>
    refine .raise (fun s => ⟨_, rfl, (by decide : ErrorCode.loopControl ≠ .unsupportedNode), ?_⟩)
      (agree_get.bind fun _ _ _ => agree_fail _ _ _)
      (.look fun _ => GuardedCompile.raises_failHere _ _)
    refine Fault.lined_of_lining rfl [] ?_ _ _ _
    cases isBreak <;> decide
  | cons l loops =>
    exact (composed_forM fun _ _ => .emit _ _).bind fun _ => Composed.reserve.bind fun place =>
      .arrange fun loops tries => (noteJump isBreak place loops, tries)

theorem composed_augAssign {ctx : Context} {target value : MarkedExpr}
    (hplace : target.isPlace = true) (htarget : target.IsTarget ctx) (op : BinaryOp)
    (hwf : value.WellFormed) :
    Composed file (augAssign target op value) (augAssign (target.map f) op (value.map f))
      (GuardedCompile.augAssign target op value) := by
  have hvalue : Composed file (expr value) (expr (value.map f)) (GuardedCompile.expr value) :=
    composed_code f value hwf
  cases target with
  | name m id ctx =>
    exact (composed_emitName _ _).bind fun _ => hvalue.bind fun _ =>
      (Composed.emit _ _).bind fun _ => composed_emitName _ _
  | attr m object label ctx =>
    exact (composed_code f object htarget.parts.1).bind fun _ => (Composed.emit _ _).bind fun _ =>
      (composed_emitName _ _).bind fun _ => hvalue.bind fun _ => (Composed.emit _ _).bind fun _ =>
        (Composed.emit _ _).bind fun _ => composed_emitName _ _
  | subscript m object index ctx =>
    exact (composed_code f object htarget.parts.1).bind fun _ =>
      (composed_part f index htarget.parts.2.1).bind fun _ => (Composed.emit _ _).bind fun _ =>
        (Composed.emit _ _).bind fun _ => hvalue.bind fun _ => (Composed.emit _ _).bind fun _ =>
          (Composed.emit _ _).bind fun _ => .emit _ _
  | _ => cases hplace

theorem composed_assignAll {ctx : Context} : ∀ targets : List MarkedExpr,
    (∀ t ∈ targets, t.IsTarget ctx) →
    Composed file (assignAll targets) (assignAll (Expr.mapList f targets))
      (GuardedCompile.assignAll targets)
  | [], _ => .pure _
  | [target], h => composed_store f target (h target List.mem_cons_self)
  | target :: next :: targets, h =>
    (Composed.emit _ _).bind fun _ => (composed_store f target (List.forall_mem_cons.mp h).1).bind
      fun _ => composed_assignAll (next :: targets) (List.forall_mem_cons.mp h).2

/-- One step for each of some names. -/
theorem composed_forM_map (names : List (Alias Mark)) {g : Alias Mark → Compile Unit}
    {k : Alias Mark → GuardedCompile Unit} (h : ∀ a, Composed file (g a) (g (a.map f)) (k a)) :
    Composed file (names.forM g) ((names.map (Alias.map f)).forM g) (names.forM k) := by
  induction names with
  | nil => exact .pure _
  | cons a names ih => exact (h a).bind fun _ => ih

theorem composed_importAlias : ∀ a : Alias Mark,
    Composed file (importAlias a) (importAlias (a.map f)) (GuardedCompile.importAlias a)
  | ⟨m, name, asName⟩ => by
    refine (composed_setLine _ _).bind fun _ => (composed_emitName _ _).bind fun _ => ?_
    simp only [Alias.map]
    cases asName with
    | some as => exact composed_emitName _ _
    | none =>
      cases topName? name with
      | some top =>
        exact (Composed.emit _ _).bind fun _ => (composed_emitName _ _).bind fun _ =>
          composed_emitName _ _
      | none => exact composed_emitName _ _

theorem composed_importFromAlias (a : Alias Mark) :
    Composed file (importFromAlias a) (importFromAlias (a.map f))
      (GuardedCompile.importFromAlias a) :=
  (composed_setLine _ _).bind fun _ => (composed_emitName _ _).bind fun _ =>
    .ite (.emit _ _) (composed_emitName _ _)

theorem composed_raise : ∀ {exc cause : Option MarkedExpr}, Expr.OptionWellFormed exc →
    Expr.OptionWellFormed cause →
    Composed file (raise exc cause) (raise (Expr.mapOption f exc) (Expr.mapOption f cause))
      (GuardedCompile.raise exc cause)
  | none, _, _, _ => .emit _ _
  | some exc, none, hexc, _ => (composed_code f exc hexc).bind fun _ => .emit _ _
  | some exc, some cause, hexc, hcause =>
    (composed_code f exc hexc).bind fun _ => (composed_code f cause hcause).bind fun _ => .emit _ _

theorem composed_assert {test : MarkedExpr} {msg : Option MarkedExpr} (htest : test.WellFormed)
    (hmsg : Expr.OptionWellFormed msg) :
    Composed file (assert test msg) (assert (test.map f) (Expr.mapOption f msg))
      (GuardedCompile.assert test msg) := by
  refine (composed_code f test htest).bind fun _ => Composed.reserve.bind fun holds =>
    (composed_emitName _ _).bind fun _ => ?_
  cases msg with
  | none =>
    exact (Composed.emit _ _).bind fun _ => (Composed.emit _ _).bind fun _ => composed_patchHere _ _
  | some msg =>
    exact (composed_code f msg hmsg).bind fun _ => (Composed.emit _ _).bind fun _ =>
      (Composed.emit _ _).bind fun _ => composed_patchHere _ _

theorem composed_handlerHead {type : Option MarkedExpr} (htype : Expr.OptionWellFormed type)
    (name : Option String) :
    Composed file (handlerHead type name) (handlerHead (Expr.mapOption f type) name)
      (GuardedCompile.handlerHead type name) := by
  cases type with
  | none =>
    refine (Composed.pure none).bind fun next => ?_
    cases name with
    | none => exact (Composed.emit _ _).bind fun _ => .pure next
    | some name => exact (composed_emitName _ _).bind fun _ => .pure next
  | some type =>
    refine (Composed.emit _ _).bind fun _ => (composed_code f type htype).bind fun _ =>
      (Composed.emit _ _).bind fun _ => ?_
    rw [bind_map_left, bind_map_left]
    refine Composed.reserve.bind fun next => ?_
    cases name with
    | none => exact (Composed.emit _ _).bind fun _ => .pure (some next)
    | some name => exact (composed_emitName _ _).bind fun _ => .pure (some next)

/-- A function or a class is bound to its name. -/
theorem composed_define {op : Opcode} {name : String} {kind : CodeKind} {m m' : Mark}
    {body body' : Compile Unit} {g : GuardedCompile Unit}
    (sig sig' : Option (Signature Mark MarkedExpr)) (hkind : ∀ n, kind ≠ .other n)
    (hsig : ∀ c, sig'.elim c (withParams c) = sig.elim c (withParams c))
    (hbody : Composed file body body' g) (count : Nat) :
    Composed file
      (do
        let c ← nestedCode name kind m.pos.line body
        define op m.pos.line (sig.elim c (withParams c)) count name)
      (do
        let c ← nestedCode name kind m'.pos.line body'
        define op m'.pos.line (sig'.elim c (withParams c)) count name)
      (do
        let c ← GuardedCompile.nestedCode name kind m.pos.line g
        GuardedCompile.define op m.pos.line (sig.elim c (withParams c)) count name) := by
  have hmade := (@Composed.nested file name kind m.pos.line m'.pos.line m.pos.line m'.pos.line _ _ _
    sig sig' (Text.isValid_ofString name) hkind hsig hbody).bind fun _ =>
      (Composed.emit op count).bind fun _ => composed_emitName .storeName name
  simp only [bind_assoc] at hmade
  exact hmade

mutual

/-- The code of a statement that the grammar can make. -/
theorem composed_stmt : ∀ s : MarkedStmt, s.WellFormed →
    Composed file (stmt s) (stmt (s.map f)) (GuardedCompile.stmt s)
  | .functionDef m name sig inner, h => by
    obtain ⟨-, hsig, -, hinner⟩ := h
    have hlength : (sig.mapExprs f).defaults.length = sig.defaults.length :=
      length_mapList f sig.defaults
    rw [Stmt.map, stmt, stmt, hlength]
    refine (composed_enter _ _).bind fun _ => (composed_reversed f _ hsig.2).bind fun _ => ?_
    exact composed_define (some sig) (some (sig.mapExprs f)) (by nofun)
      (fun c => withParams_map f c sig.params sig.defaults _ sig.vararg sig.kwarg)
      ((composed_body inner hinner).bind fun _ => composed_returnNone) _
  | .classDef m name bases inner, h => by
    obtain ⟨-, hbases, -, hinner⟩ := h
    rw [Stmt.map, stmt, stmt, length_mapList]
    refine (composed_enter _ _).bind fun _ => (composed_reversed f bases hbases).bind fun _ => ?_
    exact composed_define none none (by nofun) (fun _ => rfl)
      ((composed_body inner hinner).bind fun _ => composed_returnNone) _
  | .ret m value, h =>
    (composed_enter _ _).bind fun _ => (composed_optional f value h).bind fun _ => .emit _ _
  | .delete m targets, h => (composed_enter _ _).bind fun _ => composed_deletes f targets h.2
  | .assign m targets value, h => by
    obtain ⟨-, htargets, hvalue⟩ := h
    have hcheck : Composed file (targets.forM fun target => checkArity target value)
        ((Expr.mapList f targets).forM fun target => checkArity target (value.map f))
        (targets.forM fun target => GuardedCompile.checkArity target value) := by
      clear htargets
      induction targets with
      | nil => exact .pure _
      | cons target targets ih => exact (composed_checkArity f target value).bind fun _ => ih
    exact (composed_enter _ _).bind fun _ => hcheck.bind fun _ =>
      (composed_code f value hvalue).bind fun _ => composed_assignAll f targets htargets
  | .augAssign m target op value, h =>
    (composed_enter _ _).bind fun _ => composed_augAssign f h.1 h.2.1 op h.2.2
  | .forLoop m target iter inner, h => by
    obtain ⟨htarget, hiter, -, hinner⟩ := h
    refine (composed_enter _ _).bind fun _ => (composed_code f iter hiter).bind fun _ => ?_
    refine (Composed.emit _ _).bind fun _ => Composed.reserve.bind fun _ => ?_
    refine Composed.position.bind fun _ => (composed_store f target htarget).bind fun _ => ?_
    refine (composed_inLoop (composed_body inner hinner)).bind fun _ =>
      (composed_setLine _ _).bind fun _ => ?_
    refine Composed.position.bind fun _ => Composed.reserve.bind fun _ => (Composed.emit _ _).bind
      fun _ => ?_
    exact Composed.position.bind fun _ => (Composed.emit _ _).bind fun _ =>
      (Composed.patch _ _ _).bind fun _ => (Composed.patch _ _ _).bind fun _ =>
        composed_closeLoop _ _ _
  | .whileLoop m test inner, h => by
    obtain ⟨htest, -, hinner⟩ := h
    refine (composed_enter _ _).bind fun _ => Composed.position.bind fun start => ?_
    refine (composed_code f test htest).bind fun _ => Composed.reserve.bind fun _ => ?_
    have hround := (composed_body inner hinner).bind fun _ =>
      (composed_setLine m.pos.line (f m).pos.line).bind fun _ => .emit .jump start
    exact (composed_inLoop hround).bind fun _ => (composed_patchHere _ _).bind fun _ =>
      Composed.position.bind fun _ => composed_closeLoop _ _ _
  | .ifElse m test inner orelse, h => by
    obtain ⟨htest, -, hinner, horelse⟩ := h
    rw [Stmt.map, stmt, stmt, isEmpty_mapList]
    refine (composed_enter _ _).bind fun _ => (composed_code f test htest).bind fun _ => ?_
    refine Composed.reserve.bind fun _ => (composed_body inner hinner).bind fun _ => ?_
    refine .ite (composed_patchHere _ _) ?_
    exact Composed.reserve.bind fun _ => (composed_patchHere _ _).bind fun _ =>
      (composed_body orelse horelse).bind fun _ => composed_patchHere _ _
  | .raise m exc cause, h => (composed_enter _ _).bind fun _ => composed_raise f h.1 h.2.1
  | .tryExcept m inner clauses orelse final, h => by
    obtain ⟨-, hinner, hclauses, horelse, hfinal, -⟩ := h
    rw [Stmt.map, stmt, stmt, all_mapHandlers]
    refine (composed_enter _ _).bind fun _ => Composed.reserve.bind fun _ => ?_
    refine (composed_tries (.body :: ·)).bind fun _ => (composed_body inner hinner).bind fun _ => ?_
    refine (composed_setLine _ _).bind fun _ => (Composed.emit _ _).bind fun _ => ?_
    refine (composed_setPhase _).bind fun _ => (composed_body orelse horelse).bind fun _ => ?_
    refine Composed.reserve.bind fun completed => (composed_patchHere _ _).bind fun _ => ?_
    refine (composed_setPhase _).bind fun _ => (composed_handlers clauses hclauses).bind
      fun handled => (composed_setPhase _).bind fun _ => ?_
    extract_lets rest rest' k
    have hend (u : Unit) : Composed file (rest u) (rest' u) (k u) :=
      (composed_patchHere _ _).bind fun _ => (composed_body final hfinal).bind fun _ =>
        composed_tries (·.drop 1)
    refine .ite ?_ (hend ())
    exact (composed_body final hfinal).bind fun _ => (composed_setLine _ _).bind fun _ =>
      (Composed.emit _ _).bind hend
  | .assert m test msg, h => (composed_enter _ _).bind fun _ => composed_assert f h.1 h.2
  | .imports m names, _ =>
    (composed_enter _ _).bind fun _ => composed_forM_map f names (composed_importAlias f)
  | .importFrom m module names level, _ =>
    (composed_enter _ _).bind fun _ => (composed_emitName _ _).bind fun _ =>
      (composed_forM_map f names (composed_importFromAlias f)).bind fun _ => .emit _ _
  | .expr m value, h =>
    (composed_enter _ _).bind fun _ => (composed_code f value h).bind fun _ => .emit _ _
  | .pass m, _ => composed_enter _ _
  | .breakLoop m, _ => (composed_enter _ _).bind fun _ => composed_loopControl true
  | .continueLoop m, _ => (composed_enter _ _).bind fun _ => composed_loopControl false

theorem composed_body : ∀ ss : List MarkedStmt, Stmt.AllWellFormed ss →
    Composed file (body ss) (body (Stmt.mapList f ss)) (GuardedCompile.body ss)
  | [], _ => .pure _
  | s :: ss, h => .calm ((composed_stmt s h.1).bind fun _ => composed_body ss h.2)

theorem composed_handlers : ∀ clauses : List (Handler Mark MarkedExpr MarkedStmt),
    Stmt.HandlersWellFormed clauses →
    Composed file (handlers clauses) (handlers (Stmt.mapHandlers f clauses))
      (GuardedCompile.handlers clauses)
  | [], _ => .pure _
  | ⟨m, type, name, inner⟩ :: rest, h => by
    obtain ⟨htype, -, -, -, hinner, hrest⟩ := h
    refine (composed_setLine _ _).bind fun _ => (composed_handlerHead f htype name).bind fun _ => ?_
    refine (composed_body inner hinner).bind fun _ => (composed_setLine _ _).bind fun _ => ?_
    exact (Composed.emit _ _).bind fun _ => Composed.reserve.bind fun _ =>
      (composed_patchHere _ _).bind fun _ => (composed_handlers rest hrest).bind fun _ => .pure _

end

end Rules

/-- A program that the grammar can make is compiled to one code object, with what it is composed
of. -/
theorem composed_root (file : Text) (f : Mark → Mark) : ∀ r : Root Mark, r.WellFormed →
    ∃ (name : Text) (kind : CodeKind) (body body' : Compile Unit) (g : GuardedCompile Unit),
      name.isValid = true ∧ (∀ n, kind ≠ .other n) ∧ Composed file body body' g ∧
      root r = setLine r.mark.pos.line >>= (fun _ => nestedCode name kind r.mark.pos.line body) ∧
      root (r.map f) = setLine (f r.mark).pos.line >>= (fun _ =>
        nestedCode name kind (f r.mark).pos.line body') ∧
      GuardedCompile.root r = GuardedCompile.setLine r.mark.pos.line >>= fun _ =>
        GuardedCompile.nestedCode name kind r.mark.pos.line g
  | .module _ statements, h =>
    ⟨"<module>", .module, _, _, _, Text.isValid_ofString _, nofun,
      (composed_body f statements h).bind fun _ => composed_returnNone, rfl, rfl, rfl⟩
  | .expression _ e, h =>
    ⟨"<expression>", .expression, _, _, _, Text.isValid_ofString _, nofun,
      (composed_code f e h).bind fun _ => .emit _ _, rfl, rfl, rfl⟩

/-! ## What composed steps write -/

/-- A state of the compilation of a file in which only what the compiler makes was written. -/
structure Sound (file : Text) (s : CompileState) : Prop where
  file_eq : s.file = file
  lines : ∀ line ∈ s.frame.builder.lines, 0 ≤ line
  constants : ∀ k ∈ s.constants, k.Written ∧ ∀ c, k = .code c → Code.AllAuthored file c

section Sound

variable {s s' : CompileState}

/-- A state with the same code object in the making is as sound. -/
theorem Sound.of_eq (h : Sound file s) (hfile : s'.file = s.file)
    (hbuilder : s'.frame.builder = s.frame.builder) : Sound file s' := by
  obtain ⟨h, hlines, hconstants⟩ := h
  refine ⟨hfile.trans h, by rwa [hbuilder], ?_⟩
  unfold CompileState.constants at hconstants ⊢
  rwa [hbuilder]

theorem Sound.push (h : Sound file s) (w : Word) : Sound file (s.push w) := by
  refine ⟨h.file_eq, fun line hline => ?_, h.constants⟩
  rcases Array.mem_push.mp hline with hline | rfl
  · exact h.lines line hline
  · exact Int.natCast_nonneg _

theorem Sound.patched {places : List Nat} {i : Instr} (h : Sound file s)
    (hp : Patched s s' places i) : Sound file s' :=
  ⟨hp.file.trans h.file_eq, hp.lines ▸ h.lines, hp.constants ▸ h.constants⟩

/-- A code object of a file holds nothing before it is begun. -/
theorem Sound.begun (hfile : s.file = file) (hframe : s.frame = {}) : Sound file s := by
  refine ⟨hfile, ?_, ?_⟩
  · rw [hframe]
    nofun
  · unfold CompileState.constants
    rw [hframe]
    nofun

theorem sound_emit (op : Opcode) (operand : Nat) (h : Sound file s) :
    (emit op operand).Gives s fun _ s' => Sound file s' := by
  refine (gives_emit op operand s).mono ?_
  rintro _ s' ⟨-, rfl⟩
  exact h.push _

theorem sound_emitWith (op : Opcode) {k : Constant} (hk : k.Written)
    (hcode : ∀ c, k = .code c → Code.AllAuthored file c) (h : Sound file s) :
    (emitWith op k).Gives s fun _ s' => Sound file s' := by
  refine (gives_get (P := fun a t => a = s ∧ t = s) ⟨rfl, rfl⟩).bind ?_
  rintro a t ⟨rfl, rfl⟩
  obtain ⟨⟨i, builder⟩, hadded⟩ : ∃ added, t.frame.builder.addConstant k = added := ⟨_, rfl⟩
  obtain ⟨-, -, hlines, -, hmem⟩ := addConstant_cases hadded
  rw [hadded]
  have hsound : Sound file { t with frame := { t.frame with builder } } := by
    refine ⟨h.file_eq, ?_, fun k' hk' => ?_⟩
    · rw [hlines]
      exact h.lines
    · rcases hmem k' hk' with hold | rfl
      · exact h.constants k' hold
      · exact ⟨hk, hcode⟩
  refine (gives_set (P := fun _ t' => Sound file t') hsound).bind fun _ t' ht' => ?_
  exact sound_emit op i ht'

end Sound

/-- What a code object becomes that is made of what was written. -/
theorem Sound.authored {t : CompileState} (h : Sound file t) {name : Text} {kind : CodeKind}
    (line : Nat) (hname : name.isValid = true) (hkind : ∀ n, kind ≠ .other n) :
    Code.AllAuthored file
      { name, filename := t.file, kind, firstLine := line, instructions := t.frame.builder.bytes,
        lineTable := t.frame.builder.lineTable,
          constants := t.frame.builder.constants.toList } := by
  intro o ho
  rw [Code.nested_eq, List.mem_cons] at ho
  rcases ho with rfl | ho
  · refine ⟨hname, h.file_eq, hkind, Int.natCast_nonneg _, nofun, rfl, rfl, fun l hl => ?_,
      fun k hk => ?_⟩
    · unfold CodeObject.lines CodeBuilder.lineTable at hl
      split at hl
      · cases hl
      · exact h.lines l (Array.mem_toList_iff.mp hl)
    · exact (h.constants k (Array.mem_toList_iff.mp hk)).1
  · obtain ⟨c, hc, ho⟩ := Code.exists_of_mem_nestedIn ho
    exact (h.constants _ (Array.mem_toList_iff.mp hc)).2 c rfl o ho

/-- A code object inside another: it is as the compiler makes it, if what is written into it is. -/
theorem sound_nestedCode {name : Text} {kind : CodeKind} {line : Nat} {body : Compile Unit}
    {s : CompileState} (hname : name.isValid = true) (hkind : ∀ n, kind ≠ .other n)
    (hbody : ∀ s₀, Sound file s₀ → body.Gives s₀ fun _ t => Sound file t) (h : Sound file s) :
    (nestedCode name kind line body).Gives s fun c s' => c.AllAuthored file ∧ Sound file s' := by
  refine (gives_get (P := fun a t => a = s ∧ t = s) ⟨rfl, rfl⟩).bind ?_
  rintro a t ⟨rfl, rfl⟩
  refine (gives_modify (P := fun _ t' => Sound file t') (.begun h.file_eq rfl)).bind
    fun _ t' ht' => ?_
  refine (hbody t' ht').bind fun _ u hu => ?_
  refine (gives_get (P := fun a t => a = u ∧ t = u) ⟨rfl, rfl⟩).bind ?_
  rintro a u' ⟨rfl, rfl⟩
  extract_lets b
  have houter : Sound file { u' with frame := t.frame } :=
    h.of_eq (hu.file_eq.trans h.file_eq.symm) rfl
  refine Gives.bind (gives_set (P := fun _ s' => Sound file s') houter) fun _ s' hs' => ?_
  exact gives_pure ⟨hu.authored line hname hkind, hs'⟩

/-- Composed steps write only what the compiler makes. -/
theorem Composed.sound {m m' : Compile α} {g : GuardedCompile α} (hm : Composed file m m' g) :
    ∀ s, Sound file s → m.Gives s fun _ s' => Sound file s' := by
  induction hm with
  | pure a => exact fun s h => gives_pure h
  | bind _ _ hm hf => exact fun s h => (hm s h).bind fun a t ht => hf a t ht
  | look _ _ hf =>
    intro s h
    refine (gives_get (P := fun a t => a = s ∧ t = s) ⟨rfl, rfl⟩).bind ?_
    rintro a t ⟨rfl, rfl⟩
    exact hf t t (.refl t) t h
  | place | arrange => exact fun s h => gives_modify (h.of_eq rfl rfl)
  | raise hfails =>
    intro s _ a s' hrun
    obtain ⟨fault, hfault, -⟩ := hfails s
    cases hrun.symm.trans hfault
  | calm _ h => exact h
  | position =>
    intro s h
    exact (gives_position s).mono fun _ _ hs => hs.2 ▸ h
  | emit op operand => exact fun s h => sound_emit op operand h
  | emitWith op hk hcode =>
    exact fun s h => sound_emitWith op hk (fun c hc => absurd hc (hcode c)) h
  | reserve =>
    intro s h
    refine (gives_reserve s).mono ?_
    rintro _ s' ⟨-, rfl⟩
    exact h.push _
  | patch place op target =>
    exact fun s h => (gives_patch place op target s).mono fun _ s' hp => h.patched hp
  | @nested _ _ _ _ line _ _ _ _ sig _ hname hkind _ _ hbody =>
    intro s h
    refine (sound_nestedCode hname hkind hbody h).bind fun c t ⟨hc, ht⟩ => ?_
    refine (gives_modify (P := fun _ t' => Sound file t') (ht.of_eq rfl rfl)).bind
      fun _ t' ht' => ?_
    refine sound_emitWith _ trivial ?_ ht'
    rintro _ ⟨rfl⟩
    cases sig with
    | none => exact hc
    | some sig => exact hc.withParams sig

/-! ## What composed steps have in common -/

/-- **The code of a program depends on its annotations only in its lines.** -/
theorem Composed.agree {m m' : Compile α} {g : GuardedCompile α} (hm : Composed file m m' g) :
    Agree Eq m m' := by
  induction hm with
  | pure a => exact agree_pure rfl
  | bind _ _ hm hf => exact hm.next hf
  | look _ _ hf => exact agree_get.bind hf
  | place => exact agree_modify fun _ _ hst => hst.withPlace _ _ _ _
  | arrange f =>
    refine agree_modify fun s t hst => hst.withFrame ?_
    refine ⟨hst.frame.builder, ?_, ?_, hst.frame.requests⟩
    · rw [hst.frame.loops, hst.frame.tries]
    · rw [hst.frame.loops, hst.frame.tries]
  | raise _ hagree => exact hagree
  | calm _ h => exact h
  | position => exact agree_position
  | emit op operand => exact agree_emit op operand
  | emitWith op => exact agree_emitWith op rfl
  | reserve => exact agree_reserve
  | patch place op target => exact agree_patch place op target
  | nested sig sig' _ _ hsig _ hbody =>
    refine (agree_nestedCode _ _ _ _ hbody).bind fun c c' hc => ?_
    refine (agree_setLine _ _).next fun _ => agree_emitCode ?_
    rw [hsig]
    cases sig with
    | none => exact hc
    | some sig => exact hc.withParams sig

/-- **Steps do the same in the compilation of another file.** -/
theorem Composed.moves {m m' : Compile α} {g : GuardedCompile α} (hm : Composed file m m' g)
    (file' : Text) : m.Moves file' := by
  induction hm with
  | pure a => exact fun s column codes => gives_pure ⟨column, codes, rfl⟩
  | bind _ _ hm hf => exact hm.bind hf
  | @look _ f _ _ hmoved _ hf =>
    intro s column codes
    refine (gives_get (P := fun a t => a = s ∧ t = s) ⟨rfl, rfl⟩).bind ?_
    rintro a t ⟨rfl, rfl⟩
    refine (hf t t (.refl t) t column codes).mono fun a s' ⟨column', codes', hrun⟩ => ?_
    refine ⟨column', codes', ?_⟩
    -- the rest is the same in the other file, because it does not depend on it
    rw [← hmoved t file' column codes] at hrun
    exact hrun
  | place _ column => exact fun s c codes => gives_modify ⟨column.getD c, codes, rfl⟩
  | arrange => exact fun s column codes => gives_modify ⟨column, codes, rfl⟩
  | raise hfails =>
    -- a step that fails has no run to compare with
    intro s _ _ a s' hrun
    obtain ⟨fault, hfault, -⟩ := hfails s
    cases hrun.symm.trans hfault
  | calm _ h => exact h
  | position =>
    intro s column codes
    refine (gives_position s).mono ?_
    rintro _ s' ⟨rfl, rfl⟩
    exact ⟨column, codes, rfl⟩
  | emit op operand => exact moves_emit op operand
  | @emitWith op k _ hk =>
    intro s column codes
    have hsame : k.inFile file' = k := by
      cases k with
      | code c => exact absurd rfl (hk c)
      | _ => rfl
    refine (gives_emitWith_moved file' op k s column codes).mono fun _ s' hrun => ?_
    rw [hsame] at hrun
    exact ⟨column, codes, hrun⟩
  | reserve =>
    intro s column codes a s' hrun
    cases hrun
    exact ⟨column, codes, rfl⟩
  | patch place op target =>
    intro s column codes
    refine gives_encoded.bind ?_
    rintro w t ⟨hk, rfl, rfl⟩
    intro a s' hrun
    cases hrun
    have hencoded (u : CompileState) : StateT.run (encoded op target) u =
        .ok (Instr.encode ⟨op, target⟩, u) := by
      unfold encoded
      rw [if_neg (Nat.not_lt.mpr hk)]
      rfl
    refine ⟨column, codes, ?_⟩
    unfold Compile.patch
    rw [StateT.run_bind, hencoded]
    rfl
  | @nested _ _ _ _ line _ _ _ _ sig _ _ _ _ _ hbody =>
    intro s column codes
    refine (gives_nestedCode_moved hbody s column codes).bind ?_
    rintro c t ⟨column₁, codes₁, hmade⟩
    refine (gives_modify (P := fun _ t' => t' = { t with line }) rfl).bind ?_
    rintro _ t' rfl
    refine (gives_emitWith_moved file' .loadConst _ _ column₁ codes₁).mono ?_
    intro _ s' hloaded
    refine ⟨column₁, codes₁, ?_⟩
    rw [StateT.run_bind, hmade]
    have hcode : sig.elim (Code.inFile file' c) (withParams (Code.inFile file' c)) =
        Code.inFile file' (sig.elim c (withParams c)) := by
      cases sig with
      | none => rfl
      | some sig => exact (Code.inFile_withParams file' c sig).symm
    show StateT.run (Compile.emitWith .loadConst (.code (sig.elim (Code.inFile file' c)
      (withParams (Code.inFile file' c))))) _ = _
    rw [hcode]
    exact hloaded

/-- **The compiler that goes on after a fault reports the fault that the other one ends in.** -/
theorem Composed.follows {m m' : Compile α} {g : GuardedCompile α} (hm : Composed file m m' g) :
    Matches id g m := by
  induction hm with
  | pure a => exact follows_pure trivial
  | bind _ _ hm hf => exact hm.bind fun a _ => hf a
  | look _ _ hf => exact follows_state.bind fun s _ => hf s s (.refl s)
  | place | arrange => exact GuardedCompile.follows_change _
  | raise _ _ hraises => exact hraises.follows
  | calm _ h => exact h.ifCalm ()
  | position => exact GuardedCompile.follows_position
  | emit op operand => exact GuardedCompile.follows_emit op operand
  | emitWith op => exact GuardedCompile.follows_emitWith op _
  | reserve => exact GuardedCompile.follows_reserve
  | patch place op target => exact GuardedCompile.follows_patch place op target
  | nested _ _ _ _ _ _ hbody =>
    exact (GuardedCompile.follows_nestedCode _ _ _ hbody).bind fun _ _ =>
      (GuardedCompile.follows_setLine _).bind fun _ _ => GuardedCompile.follows_emitConst _

theorem agree_root (f : Mark → Mark) {r : Root Mark} (hr : r.WellFormed) :
    Agree SameCode (root r) (root (r.map f)) := by
  obtain ⟨name, kind, body, body', g, -, -, hbody, hroot, hroot', -⟩ := composed_root "" f r hr
  rw [hroot, hroot']
  exact (agree_setLine _ _).next fun _ => agree_nestedCode name kind _ _ hbody.agree

theorem follows_root {r : Root Mark} (hr : r.WellFormed) :
    Matches id (GuardedCompile.root r) (root r) := by
  obtain ⟨name, kind, body, body', g, -, -, hbody, hroot, -, hroot'⟩ := composed_root "" id r hr
  rw [hroot, hroot']
  exact (GuardedCompile.follows_setLine _).bind fun _ _ =>
    GuardedCompile.follows_nestedCode name kind _ hbody.follows

end Compile

/-- **What is put into the code objects of a program**: all texts are valid, all numbers are finite,
all lines are positive, and all code objects are of the file. -/
theorem authored_of_compileTree {file : Text} {r : Root Mark} (hr : r.WellFormed) {c : Code}
    (h : (compileTree file r).1 = .ok c) : c.AllAuthored file := by
  unfold compileTree at h
  split at h
  · next code s hrun =>
    cases h
    obtain ⟨name, kind, body, _, _, hname, hkind, hbody, hroot, -⟩ :=
      Compile.composed_root file id r hr
    rw [hroot] at hrun
    have hbegun : Compile.Sound file { file, line := r.mark.pos.line } := .begun rfl rfl
    have hline : Compile.Gives (Compile.setLine r.mark.pos.line) { file, line := r.mark.pos.line }
        fun _ t => Compile.Sound file t :=
      Compile.gives_modify (hbegun.of_eq rfl rfl)
    have hnested (t : CompileState) (ht : Compile.Sound file t) :
        (Compile.nestedCode name kind r.mark.pos.line body).Gives t fun c s' =>
          Code.AllAuthored file c ∧ Compile.Sound file s' :=
      Compile.sound_nestedCode hname hkind hbody.sound ht
    have hgives := hline.bind fun _ t ht => hnested t ht
    exact (hgives _ _ hrun).1
  · cases h

end Toolchain

import Toolchain.Proofs.Compiler.Statement

/-!
# The layout of compiled code

Where each piece of a tree stands in a finished code object, and what its instructions are. The size
of the code of a tree does not depend on where it stands, so every position follows from that of the
first instruction: the targets of all jumps can be said without the compiler.

A code object is made from a unit: the program itself, a function, a class, a lambda. What a unit
loads as a constant is again a code object that was made from a unit inside it.

## Main definitions

* `Expr.codeSize`, `Stmt.codeSize`: the number of instructions
* `CodeUnit`, `CodeUnit.Makes`: what a code object is made from
* `Expr.units`, `Stmt.units`, `CodeUnit.parts`: the units directly inside a tree, or inside a unit
* `Around`: the loop and the registered handlers around a statement
* `CodeView.ExprAt`, `CodeView.StoreAt`, `CodeView.StmtAt`, `CodeView.UnitAt`: the code of a tree
  stands at a position
-/

namespace Toolchain

/-! ## Sizes -/

section Sizes

variable {α : Type}

mutual

/-- The number of instructions of an expression. -/
def Expr.codeSize : Expr α → Nat
  | .boolOp _ _ values => Expr.connectedSize values
  | .binOp _ left _ right => left.codeSize + right.codeSize + 1
  | .unaryOp _ _ operand => operand.codeSize + 1
  | .lambda _ ⟨_, defaults, _, _⟩ _ => Expr.sumSize defaults + 2
  | .dict _ items => Expr.itemsSize items + 1
  | .compare _ left rest =>
    -- a chain drops its last operand where a comparison before the last one fails
    left.codeSize + Expr.comparisonsSize rest + if 2 ≤ rest.length then 3 else 0
  | .call _ func args keywords =>
    func.codeSize + Expr.keywordsSize keywords + Expr.sumSize args + 1
  | .constant .. => 1
  | .attr _ value _ _ => value.codeSize + 1
  | .subscript _ value part _ => value.codeSize + part.codeSize + 1
  | .name .. => 1
  | .list _ elts _ => Expr.sumSize elts + 1
  | .tuple _ elts _ => Expr.sumSize elts + 1
  | .slice _ lower upper step =>
    Expr.optionSize step + Expr.optionSize upper + Expr.optionSize lower + 1
  | .index _ value => value.codeSize
  | .formatted _ value _ spec => value.codeSize + (match spec with
    | none => 0
    | some spec => spec.codeSize) + 1

/-- The number of instructions of expressions. -/
def Expr.sumSize : List (Expr α) → Nat
  | [] => 0
  | e :: es => Expr.sumSize es + e.codeSize

/-- The number of instructions of an expression that may be missing. -/
def Expr.optionSize : Option (Expr α) → Nat
  | none => 1
  | some e => e.codeSize

/-- The number of instructions of the items of a dictionary. -/
def Expr.itemsSize : List (Expr α × Expr α) → Nat
  | [] => 0
  | (key, value) :: rest => Expr.itemsSize rest + value.codeSize + key.codeSize

/-- The number of instructions of keyword arguments. -/
def Expr.keywordsSize : List (KeywordArg α (Expr α)) → Nat
  | [] => 0
  | ⟨_, _, value⟩ :: rest => Expr.keywordsSize rest + value.codeSize + 1

/-- The number of instructions of the operands of a connective. -/
def Expr.connectedSize : List (Expr α) → Nat
  | [] => 0
  | [e] => e.codeSize
  | e :: e' :: es => e.codeSize + 3 + Expr.connectedSize (e' :: es)

/-- The number of instructions of a chain of comparisons after its first operand. -/
def Expr.comparisonsSize : List (CompareOp × Expr α) → Nat
  | [] => 0
  | [(_, e)] => e.codeSize + 1
  | (_, e) :: next :: rest => e.codeSize + 6 + Expr.comparisonsSize (next :: rest)

end

mutual

/-- The number of instructions that store into a target. -/
def Expr.storeSize : Expr α → Nat
  | .name .. => 1
  | .attr _ value _ _ => value.codeSize + 1
  | .subscript _ value part _ => value.codeSize + part.codeSize + 1
  | .tuple _ elts _ => Expr.storesSize elts + 2
  | .list _ elts _ => Expr.storesSize elts + 2
  | _ => 0

/-- The number of instructions that store the values of an iterator into targets. -/
def Expr.storesSize : List (Expr α) → Nat
  | [] => 0
  | e :: es => e.storeSize + 1 + Expr.storesSize es

end

mutual

/-- The number of instructions that delete a target. -/
def Expr.deleteSize : Expr α → Nat
  | .name .. => 1
  | .attr _ value _ _ => value.codeSize + 1
  | .subscript _ value part _ => value.codeSize + part.codeSize + 1
  | .tuple _ elts _ => Expr.deletesSize elts
  | .list _ elts _ => Expr.deletesSize elts
  | _ => 0

/-- The number of instructions that delete targets. -/
def Expr.deletesSize : List (Expr α) → Nat
  | [] => 0
  | e :: es => e.deleteSize + Expr.deletesSize es

end

/-- The number of instructions that store one value into several targets. -/
def Expr.assignSize : List (Expr α) → Nat
  | [] => 0
  | [target] => target.storeSize
  | target :: next :: targets => target.storeSize + 1 + Expr.assignSize (next :: targets)

/-- The number of instructions that read a target, change its value and store it. -/
def Expr.augAssignSize (value : Expr α) : Expr α → Nat
  | .name .. => value.codeSize + 3
  | .attr _ object _ _ => object.codeSize + value.codeSize + 5
  | .subscript _ object part _ => object.codeSize + part.codeSize + value.codeSize + 5
  | _ => 0

/-- The number of instructions that import a module. -/
def Alias.importSize (a : Alias α) : Nat :=
  match a.asName, Compile.topName? a.name with
  | none, some _ => 4
  | _, _ => 2

/-- The number of instructions that import modules. -/
def Alias.importsSize : List (Alias α) → Nat
  | [] => 0
  | a :: as => a.importSize + importsSize as

/-- The number of instructions before the body of a handler. -/
def Handler.headSize : Option (Expr α) → Nat
  | none => 1
  | some type => type.codeSize + 4

mutual

/-- The number of instructions of a statement inside a round of a loop in which `held` handlers are
registered: a jump out of the round removes them first. -/
def Stmt.codeSize (held : Nat) : Stmt α → Nat
  | .functionDef _ _ signature _ => Expr.sumSize signature.defaults + 3
  | .classDef _ _ bases _ => Expr.sumSize bases + 3
  | .ret _ value => Expr.optionSize value + 1
  | .delete _ targets => Expr.deletesSize targets
  | .assign _ targets value => value.codeSize + Expr.assignSize targets
  | .augAssign _ target _ value => Expr.augAssignSize value target
  | .forLoop _ target iter body =>
    iter.codeSize + 2 + target.storeSize + Stmt.bodySize 0 body + 3
  | .whileLoop _ test body => test.codeSize + 1 + Stmt.bodySize 0 body + 1
  | .ifElse _ test body orelse =>
    test.codeSize + 1 + Stmt.bodySize held body +
      if orelse.isEmpty then 0 else 1 + Stmt.bodySize held orelse
  | .raise _ none _ => 1
  | .raise _ (some exc) none => exc.codeSize + 1
  | .raise _ (some exc) (some cause) => exc.codeSize + cause.codeSize + 1
  | .tryExcept _ body handlers orelse final =>
    1 + Stmt.bodySize (held + 1) body + 1 + Stmt.bodySize held orelse + 1 +
      Stmt.handlersSize (held + 1) handlers +
      (if handlers.all fun h => h.type.isSome then Stmt.bodySize held final + 1 else 0) +
      Stmt.bodySize held final
  | .assert _ test msg => test.codeSize + 4 + (msg.map Expr.codeSize).getD 0
  | .imports _ names => Alias.importsSize names
  | .importFrom _ _ names _ => 2 * names.length + 2
  | .expr _ value => value.codeSize + 1
  | .pass _ => 0
  | .breakLoop _ => held + 1
  | .continueLoop _ => held + 1

/-- The number of instructions of statements. -/
def Stmt.bodySize (held : Nat) : List (Stmt α) → Nat
  | [] => 0
  | s :: ss => s.codeSize held + Stmt.bodySize held ss

/-- The number of instructions of handlers. -/
def Stmt.handlersSize (held : Nat) : List (Handler α (Expr α) (Stmt α)) → Nat
  | [] => 0
  | ⟨_, type, _, body⟩ :: rest =>
    Handler.headSize type + Stmt.bodySize held body + 2 + Stmt.handlersSize held rest

end

end Sizes

/-! ## Units -/

/-- What a code object is made from. -/
inductive CodeUnit where
  | module (m : Mark) (body : List MarkedStmt)
  | function (m : Mark) (name : String) (signature : Signature Mark MarkedExpr)
      (body : List MarkedStmt)
  | classBody (m : Mark) (name : String) (body : List MarkedStmt)
  | lambda (m : Mark) (signature : Signature Mark MarkedExpr) (body : MarkedExpr)
  | expression (m : Mark) (body : MarkedExpr)

namespace CodeUnit

/-- The step that writes the code of a unit. -/
def write : CodeUnit → Compile Unit
  | module _ body | function _ _ _ body | classBody _ _ body => do
    Compile.body body
    Compile.returnNone
  | lambda _ _ e | expression _ e => do
    Compile.expr e
    Compile.emit .ret 0

/-- The step that makes the code object of a unit. -/
def compile : CodeUnit → Compile Code
  | module m body => Compile.nestedCode "<module>" .module m.pos.line (module m body).write
  | function m name signature body => do
    let c ← Compile.nestedCode name .function m.pos.line (function m name signature body).write
    return Compile.withParams c signature
  | classBody m name body =>
    Compile.nestedCode name .classBody m.pos.line (classBody m name body).write
  | lambda m signature e => do
    let c ← Compile.nestedCode "<lambda>" .lambda m.pos.line (lambda m signature e).write
    return Compile.withParams c signature
  | expression m e =>
    Compile.nestedCode "<expression>" .expression m.pos.line (expression m e).write

/-- A unit of a file makes a code object: its compilation, begun in some state, gives it. -/
def Makes (u : CodeUnit) (file : Text) (c : Code) : Prop :=
  ∃ s s' : CompileState, s.file = file ∧ u.compile.run s = .ok (c, s')

end CodeUnit

/-- The unit of a whole program. -/
def Root.unit : Root Mark → CodeUnit
  | .module m body => .module m body
  | .expression m e => .expression m e

mutual

/-- The units directly inside an expression: its lambdas, but not those inside of these. -/
def Expr.units : MarkedExpr → List CodeUnit
  | .boolOp _ _ values => Expr.unitsOfList values
  | .binOp _ left _ right => left.units ++ right.units
  | .unaryOp _ _ operand => operand.units
  | .lambda m ⟨params, defaults, vararg, kwarg⟩ body =>
    Expr.unitsOfReversed defaults ++ [.lambda m ⟨params, defaults, vararg, kwarg⟩ body]
  | .dict _ items => Expr.unitsOfItems items
  | .compare _ left rest => left.units ++ Expr.unitsOfRest rest
  | .call _ func args keywords =>
    func.units ++ Expr.unitsOfKeywords keywords ++ Expr.unitsOfReversed args
  | .attr _ value _ _ => value.units
  | .subscript _ value part _ => value.units ++ part.units
  | .list _ elts _ => Expr.unitsOfReversed elts
  | .tuple _ elts _ => Expr.unitsOfReversed elts
  | .slice _ lower upper step =>
    Expr.unitsOfOption step ++ Expr.unitsOfOption upper ++ Expr.unitsOfOption lower
  | .index _ value => value.units
  | .formatted _ value _ spec => value.units ++ match spec with
    | none => []
    | some spec => spec.units
  | .constant .. => []
  | .name .. => []

/-- The units directly inside expressions. -/
def Expr.unitsOfList : List MarkedExpr → List CodeUnit
  | [] => []
  | e :: es => e.units ++ Expr.unitsOfList es

/-- The units directly inside expressions, last to first. -/
def Expr.unitsOfReversed : List MarkedExpr → List CodeUnit
  | [] => []
  | e :: es => Expr.unitsOfReversed es ++ e.units

/-- The units directly inside an expression that may be missing. -/
def Expr.unitsOfOption : Option MarkedExpr → List CodeUnit
  | none => []
  | some e => e.units

/-- The units directly inside the items of a dictionary, last to first. -/
def Expr.unitsOfItems : List (MarkedExpr × MarkedExpr) → List CodeUnit
  | [] => []
  | (key, value) :: rest => Expr.unitsOfItems rest ++ value.units ++ key.units

/-- The units directly inside keyword arguments, last to first. -/
def Expr.unitsOfKeywords : List (KeywordArg Mark MarkedExpr) → List CodeUnit
  | [] => []
  | ⟨_, _, value⟩ :: rest => Expr.unitsOfKeywords rest ++ value.units

/-- The units directly inside the operands of comparisons. -/
def Expr.unitsOfRest : List (CompareOp × MarkedExpr) → List CodeUnit
  | [] => []
  | (_, e) :: rest => e.units ++ Expr.unitsOfRest rest

end

mutual

/-- The units directly inside a target. -/
def Expr.unitsOfTarget : MarkedExpr → List CodeUnit
  | .attr _ value _ _ => value.units
  | .subscript _ value part _ => value.units ++ part.units
  | .tuple _ elts _ => Expr.unitsOfTargets elts
  | .list _ elts _ => Expr.unitsOfTargets elts
  | _ => []

/-- The units directly inside targets. -/
def Expr.unitsOfTargets : List MarkedExpr → List CodeUnit
  | [] => []
  | e :: es => e.unitsOfTarget ++ Expr.unitsOfTargets es

end

mutual

/-- The units directly inside a statement: its functions and classes, and the lambdas of its
expressions. The final part of a `try` may be compiled twice. -/
def Stmt.units : MarkedStmt → List CodeUnit
  | .functionDef m name signature body =>
    Expr.unitsOfReversed signature.defaults ++ [.function m name signature body]
  | .classDef m name bases body => Expr.unitsOfReversed bases ++ [.classBody m name body]
  | .ret _ value => Expr.unitsOfOption value
  | .delete _ targets => Expr.unitsOfTargets targets
  | .assign _ targets value => value.units ++ Expr.unitsOfTargets targets
  | .augAssign _ target _ value => target.unitsOfTarget ++ value.units
  | .forLoop _ target iter body => iter.units ++ target.unitsOfTarget ++ Stmt.unitsOfBody body
  | .whileLoop _ test body => test.units ++ Stmt.unitsOfBody body
  | .ifElse _ test body orelse => test.units ++ Stmt.unitsOfBody body ++ Stmt.unitsOfBody orelse
  | .raise _ none _ => []
  | .raise _ (some exc) cause => exc.units ++ Expr.unitsOfOption cause
  | .tryExcept _ body handlers orelse final =>
    Stmt.unitsOfBody body ++ Stmt.unitsOfBody orelse ++ Stmt.unitsOfHandlers handlers ++
      Stmt.unitsOfBody final
  | .assert _ test msg => test.units ++ Expr.unitsOfOption msg
  | .expr _ value => value.units
  | _ => []

/-- The units directly inside statements. -/
def Stmt.unitsOfBody : List MarkedStmt → List CodeUnit
  | [] => []
  | s :: ss => s.units ++ Stmt.unitsOfBody ss

/-- The units directly inside handlers. -/
def Stmt.unitsOfHandlers : List (Handler Mark MarkedExpr MarkedStmt) → List CodeUnit
  | [] => []
  | ⟨_, type, _, body⟩ :: rest =>
    Expr.unitsOfOption type ++ Stmt.unitsOfBody body ++ Stmt.unitsOfHandlers rest

end

/-- The units directly inside a unit. -/
def CodeUnit.parts : CodeUnit → List CodeUnit
  | module _ body | function _ _ _ body | classBody _ _ body => Stmt.unitsOfBody body
  | lambda _ _ e | expression _ e => e.units

/-- The units of a program: its own, and those inside a unit of it. -/
inductive Root.HasUnit (r : Root Mark) : CodeUnit → Prop
  | root : r.HasUnit r.unit
  | part {u u' : CodeUnit} (h : r.HasUnit u) (hu : u' ∈ u.parts) : r.HasUnit u'

/-! ## Expressions -/

namespace CodeView

/-- The instruction at a position has a constant as its operand. -/
def Loads (v : CodeView) (p : Nat) (op : Opcode) (k : Constant) : Prop :=
  ∃ i, v.instr? p = some ⟨op, i⟩ ∧ v.constants[i]? = some k

/-- A literal is loaded at a position. -/
def LiteralAt (v : CodeView) : Literal → Nat → Prop
  | .none, p => v.instr? p = some ⟨.loadSpecial, 0⟩
  | .bool true, p => v.instr? p = some ⟨.loadSpecial, 1⟩
  | .bool false, p => v.instr? p = some ⟨.loadSpecial, 2⟩
  | .int n, p => v.Loads p .loadConst (.int n)
  | .float x, p => v.Loads p .loadConst (.float x)
  | .str s, p => v.Loads p .loadConst (.string s)

/-- The jump behind an operand of a connective. -/
def connectiveJump : BoolOp → Opcode
  | .and => .jumpIfFalse
  | .or => .jumpIfTrue

section

variable (file : Text) (v : CodeView)

mutual

/-- The code of an expression stands at a position. -/
def ExprAt : MarkedExpr → Nat → Prop
  | .boolOp _ op values, p =>
    ConnectedAt (connectiveJump op) (p + Expr.connectedSize values) values p
  | .binOp _ left op right, p =>
    ExprAt left p ∧ ExprAt right (p + left.codeSize) ∧
      v.instr? (p + left.codeSize + right.codeSize) = some ⟨.binary, op.code⟩
  | .unaryOp _ op operand, p =>
    ExprAt operand p ∧ v.instr? (p + operand.codeSize) = some ⟨.unary, op.code⟩
  | .lambda m ⟨params, defaults, vararg, kwarg⟩ body, p =>
    ReversedAt defaults p ∧
      (∃ c, CodeUnit.Makes (.lambda m ⟨params, defaults, vararg, kwarg⟩ body) file c ∧
        v.Loads (p + Expr.sumSize defaults) .loadConst (.code c)) ∧
      v.instr? (p + Expr.sumSize defaults + 1) = some ⟨.makeFunction, defaults.length⟩
  | .dict _ items, p =>
    ItemsAt items p ∧
      v.instr? (p + Expr.itemsSize items) =
        some ⟨.build, buildOperand BuildKind.dict.number items.length⟩
  | .compare _ left rest, p =>
    -- behind the comparisons the last operand is dropped; a chain that holds jumps over this
    let behind := p + left.codeSize + Expr.comparisonsSize rest
    ExprAt left p ∧ ComparisonsAt (behind + 1) rest (p + left.codeSize) ∧
      (2 ≤ rest.length → v.instr? behind = some ⟨.jump, behind + 3⟩ ∧
        v.instr? (behind + 1) = some ⟨.rot, 2⟩ ∧ v.instr? (behind + 2) = some ⟨.pop, 0⟩)
  | .call _ func args keywords, p =>
    ExprAt func p ∧ KeywordsAt keywords (p + func.codeSize) ∧
      ReversedAt args (p + func.codeSize + Expr.keywordsSize keywords) ∧
      v.instr? (p + func.codeSize + Expr.keywordsSize keywords + Expr.sumSize args) =
        some ⟨.call, callOperand args.length keywords.length⟩
  | .constant _ value, p => v.LiteralAt value p
  | .attr _ value label _, p =>
    ExprAt value p ∧ v.Loads (p + value.codeSize) .loadAttr (.name label)
  | .subscript _ value part _, p =>
    ExprAt value p ∧ ExprAt part (p + value.codeSize) ∧
      v.instr? (p + value.codeSize + part.codeSize) = some ⟨.subscr, 0⟩
  | .name _ id _, p => v.Loads p .loadName (.name id)
  | .list _ elts _, p =>
    ReversedAt elts p ∧ v.instr? (p + Expr.sumSize elts) =
      some ⟨.build, buildOperand BuildKind.list.number elts.length⟩
  | .tuple _ elts _, p =>
    ReversedAt elts p ∧ v.instr? (p + Expr.sumSize elts) =
      some ⟨.build, buildOperand BuildKind.tuple.number elts.length⟩
  | .slice _ lower upper step, p =>
    OptionAt step p ∧ OptionAt upper (p + Expr.optionSize step) ∧
      OptionAt lower (p + Expr.optionSize step + Expr.optionSize upper) ∧
      v.instr? (p + Expr.optionSize step + Expr.optionSize upper + Expr.optionSize lower) =
        some ⟨.build, buildOperand BuildKind.slice.number 3⟩
  | .index _ value, p => ExprAt value p
  | .formatted _ value conversion spec, p =>
    ExprAt value p ∧ match spec with
    | none => v.instr? (p + value.codeSize) = some ⟨.format, Conversion.code conversion⟩
    | some spec => ExprAt spec (p + value.codeSize) ∧
      v.instr? (p + value.codeSize + spec.codeSize) =
        some ⟨.format, Conversion.code conversion + formatSpecBit⟩

/-- The code of an expression that may be missing, in whose place stands none. -/
def OptionAt : Option MarkedExpr → Nat → Prop
  | none, p => v.instr? p = some ⟨.loadSpecial, 0⟩
  | some e, p => ExprAt e p

/-- The code of expressions, last to first. -/
def ReversedAt : List MarkedExpr → Nat → Prop
  | [], _ => True
  | e :: es, p => ReversedAt es p ∧ ExprAt e (p + Expr.sumSize es)

/-- The code of the items of a dictionary, last to first, each value before its key. -/
def ItemsAt : List (MarkedExpr × MarkedExpr) → Nat → Prop
  | [], _ => True
  | (key, value) :: rest, p =>
    ItemsAt rest p ∧ ExprAt value (p + Expr.itemsSize rest) ∧
      ExprAt key (p + Expr.itemsSize rest + value.codeSize)

/-- The code of keyword arguments, last to first, each value before its name. -/
def KeywordsAt : List (KeywordArg Mark MarkedExpr) → Nat → Prop
  | [], _ => True
  | ⟨_, key, value⟩ :: rest, p =>
    KeywordsAt rest p ∧ ExprAt value (p + Expr.keywordsSize rest) ∧
      v.Loads (p + Expr.keywordsSize rest + value.codeSize) .loadConst
        (.string (key.getD Compile.mappingName))

/-- The code of the operands of a connective: behind each but the last stands a jump to the end. -/
def ConnectedAt (op : Opcode) (done : Nat) : List MarkedExpr → Nat → Prop
  | [], _ => True
  | [e], p => ExprAt e p
  | e :: e' :: es, p =>
    ExprAt e p ∧ v.instr? (p + e.codeSize) = some ⟨.dup, 1⟩ ∧
      v.instr? (p + e.codeSize + 1) = some ⟨op, done⟩ ∧
      v.instr? (p + e.codeSize + 2) = some ⟨.pop, 0⟩ ∧
      ConnectedAt op done (e' :: es) (p + e.codeSize + 3)

/-- The code of a chain of comparisons after its first operand: behind each but the last stands a
jump to where the last operand is dropped. -/
def ComparisonsAt (drop : Nat) : List (CompareOp × MarkedExpr) → Nat → Prop
  | [], _ => True
  | [(op, e)], p => ExprAt e p ∧ v.instr? (p + e.codeSize) = some ⟨.compare, op.code⟩
  | (op, e) :: next :: rest, p =>
    ExprAt e p ∧ v.instr? (p + e.codeSize) = some ⟨.dup, 1⟩ ∧
      v.instr? (p + e.codeSize + 1) = some ⟨.rot, 3⟩ ∧
      v.instr? (p + e.codeSize + 2) = some ⟨.compare, op.code⟩ ∧
      v.instr? (p + e.codeSize + 3) = some ⟨.dup, 1⟩ ∧
      v.instr? (p + e.codeSize + 4) = some ⟨.jumpIfFalse, drop⟩ ∧
      v.instr? (p + e.codeSize + 5) = some ⟨.pop, 0⟩ ∧
      ComparisonsAt drop (next :: rest) (p + e.codeSize + 6)

end

/-! ## Targets -/

mutual

/-- The code that stores into a target stands at a position. -/
def StoreAt : MarkedExpr → Nat → Prop
  | .name _ id _, p => v.Loads p .storeName (.name id)
  | .attr _ value label _, p =>
    v.ExprAt file value p ∧ v.Loads (p + value.codeSize) .storeAttr (.name label)
  | .subscript _ value part _, p =>
    v.ExprAt file value p ∧ v.ExprAt file part (p + value.codeSize) ∧
      v.instr? (p + value.codeSize + part.codeSize) = some ⟨.subscr, 1⟩
  | .tuple _ elts _, p =>
    v.instr? p = some ⟨.iter, 0⟩ ∧ StoresAt (p + 1 + Expr.storesSize elts) elts (p + 1) ∧
      v.instr? (p + 1 + Expr.storesSize elts) = some ⟨.pop, 0⟩
  | .list _ elts _, p =>
    v.instr? p = some ⟨.iter, 0⟩ ∧ StoresAt (p + 1 + Expr.storesSize elts) elts (p + 1) ∧
      v.instr? (p + 1 + Expr.storesSize elts) = some ⟨.pop, 0⟩
  | _, _ => False

/-- The code that stores the values of an iterator: before each target the next value is asked for,
and without one the rest is left out. -/
def StoresAt (done : Nat) : List MarkedExpr → Nat → Prop
  | [], _ => True
  | e :: es, p =>
    v.instr? p = some ⟨.next, done⟩ ∧ StoreAt e (p + 1) ∧ StoresAt done es (p + 1 + e.storeSize)

end

mutual

/-- The code that deletes a target stands at a position. -/
def DeleteAt : MarkedExpr → Nat → Prop
  | .name _ id _, p => v.Loads p .deleteName (.name id)
  | .attr _ value label _, p =>
    v.ExprAt file value p ∧ v.Loads (p + value.codeSize) .deleteAttr (.name label)
  | .subscript _ value part _, p =>
    v.ExprAt file value p ∧ v.ExprAt file part (p + value.codeSize) ∧
      v.instr? (p + value.codeSize + part.codeSize) = some ⟨.subscr, 2⟩
  | .tuple _ elts _, p => DeletesAt elts p
  | .list _ elts _, p => DeletesAt elts p
  | _, _ => False

/-- The code that deletes targets. -/
def DeletesAt : List MarkedExpr → Nat → Prop
  | [], _ => True
  | e :: es, p => DeleteAt e p ∧ DeletesAt es (p + e.deleteSize)

end

/-- The code that stores one value into several targets. -/
def AssignAt : List MarkedExpr → Nat → Prop
  | [], _ => True
  | [target], p => v.StoreAt file target p
  | target :: next :: targets, p =>
    v.instr? p = some ⟨.dup, 1⟩ ∧ v.StoreAt file target (p + 1) ∧
      AssignAt (next :: targets) (p + 1 + target.storeSize)

/-- The code that reads a target, changes its value and stores it. -/
def AugAssignAt (op : BinaryOp) (value : MarkedExpr) : MarkedExpr → Nat → Prop
  | .name _ id _, p =>
    v.Loads p .loadName (.name id) ∧ v.ExprAt file value (p + 1) ∧
      v.instr? (p + 1 + value.codeSize) = some ⟨.binary, op.code⟩ ∧
      v.Loads (p + 1 + value.codeSize + 1) .storeName (.name id)
  | .attr _ object label _, p =>
    v.ExprAt file object p ∧ v.instr? (p + object.codeSize) = some ⟨.dup, 1⟩ ∧
      v.Loads (p + object.codeSize + 1) .loadAttr (.name label) ∧
      v.ExprAt file value (p + object.codeSize + 2) ∧
      v.instr? (p + object.codeSize + 2 + value.codeSize) = some ⟨.binary, op.code⟩ ∧
      v.instr? (p + object.codeSize + 2 + value.codeSize + 1) = some ⟨.rot, 2⟩ ∧
      v.Loads (p + object.codeSize + 2 + value.codeSize + 2) .storeAttr (.name label)
  | .subscript _ object part _, p =>
    v.ExprAt file object p ∧ v.ExprAt file part (p + object.codeSize) ∧
      v.instr? (p + object.codeSize + part.codeSize) = some ⟨.dup, 2⟩ ∧
      v.instr? (p + object.codeSize + part.codeSize + 1) = some ⟨.subscr, 0⟩ ∧
      v.ExprAt file value (p + object.codeSize + part.codeSize + 2) ∧
      v.instr? (p + object.codeSize + part.codeSize + 2 + value.codeSize) =
        some ⟨.binary, op.code⟩ ∧
      v.instr? (p + object.codeSize + part.codeSize + 2 + value.codeSize + 1) = some ⟨.rot, 3⟩ ∧
      v.instr? (p + object.codeSize + part.codeSize + 2 + value.codeSize + 2) = some ⟨.subscr, 1⟩
  | _, _ => False

/-! ## Statements -/

/-- The code that imports a module. -/
def ImportAt (a : Alias Mark) (p : Nat) : Prop :=
  v.Loads p .importModule (.name a.name) ∧
    match a.asName, Compile.topName? a.name with
    | some name, _ => v.Loads (p + 1) .storeName (.name name)
    | none, some top =>
      v.instr? (p + 1) = some ⟨.pop, 0⟩ ∧ v.Loads (p + 2) .importModule (.name top) ∧
        v.Loads (p + 3) .storeName (.name top)
    | none, none => v.Loads (p + 1) .storeName (.name a.name)

/-- The code that imports modules. -/
def ImportsAt : List (Alias Mark) → Nat → Prop
  | [], _ => True
  | a :: as, p => v.ImportAt a p ∧ ImportsAt as (p + a.importSize)

/-- The code that binds names from a module. -/
def ImportsFromAt : List (Alias Mark) → Nat → Prop
  | [], _ => True
  | a :: as, p =>
    v.Loads p .importFrom (.name a.name) ∧
      (if a.name = "*" then v.instr? (p + 1) = some ⟨.pop, 0⟩
        else v.Loads (p + 1) .storeName (.name (a.asName.getD a.name))) ∧
      ImportsFromAt as (p + 2)

/-- The code that raises an exception. -/
def RaiseAt : Option MarkedExpr → Option MarkedExpr → Nat → Prop
  | none, _, p => v.instr? p = some ⟨.raise, 0⟩
  | some exc, none, p =>
    v.ExprAt file exc p ∧ v.instr? (p + exc.codeSize) = some ⟨.raise, 1⟩
  | some exc, some cause, p =>
    v.ExprAt file exc p ∧ v.ExprAt file cause (p + exc.codeSize) ∧
      v.instr? (p + exc.codeSize + cause.codeSize) = some ⟨.raise, 2⟩

/-- The code that checks a condition: if it holds, what follows is jumped over. -/
def AssertAt (test : MarkedExpr) : Option MarkedExpr → Nat → Prop
  | none, p =>
    v.ExprAt file test p ∧
      v.instr? (p + test.codeSize) = some ⟨.jumpIfTrue, p + test.codeSize + 4⟩ ∧
      v.Loads (p + test.codeSize + 1) .loadName (.name "AssertionError") ∧
      v.instr? (p + test.codeSize + 2) = some ⟨.call, callOperand 0 0⟩ ∧
      v.instr? (p + test.codeSize + 3) = some ⟨.raise, 1⟩
  | some msg, p =>
    v.ExprAt file test p ∧
      v.instr? (p + test.codeSize) = some ⟨.jumpIfTrue, p + test.codeSize + 4 + msg.codeSize⟩ ∧
      v.Loads (p + test.codeSize + 1) .loadName (.name "AssertionError") ∧
      v.ExprAt file msg (p + test.codeSize + 2) ∧
      v.instr? (p + test.codeSize + 2 + msg.codeSize) = some ⟨.call, callOperand 1 0⟩ ∧
      v.instr? (p + test.codeSize + 3 + msg.codeSize) = some ⟨.raise, 1⟩

/-- The code that binds a name to a function or a class. -/
def DefineAt (op : Opcode) (u : CodeUnit) (count : Nat) (name : String) (p : Nat) : Prop :=
  (∃ c, u.Makes file c ∧ v.Loads p .loadConst (.code c)) ∧
    v.instr? (p + 1) = some ⟨op, count⟩ ∧ v.Loads (p + 2) .storeName (.name name)

/-- The exception is bound to a name, or dropped. -/
def TakeAt : Option String → Nat → Prop
  | some name, p => v.Loads p .storeName (.name name)
  | none, p => v.instr? p = some ⟨.pop, 0⟩

/-- The code before the body of a handler. An exception of another type goes on to `next`. -/
def HeadAt (next : Nat) (name : Option String) : Option MarkedExpr → Nat → Prop
  | none, p => v.TakeAt name p
  | some type, p =>
    v.instr? p = some ⟨.dup, 1⟩ ∧ v.ExprAt file type (p + 1) ∧
      v.instr? (p + 1 + type.codeSize) = some ⟨.compare, exceptionMatch⟩ ∧
      v.instr? (p + 1 + type.codeSize + 1) = some ⟨.jumpIfFalse, next⟩ ∧
      v.TakeAt name (p + 1 + type.codeSize + 2)

end

end CodeView

/-- A loop as seen from inside: where it is entered, where the next round begins, and what comes
behind the last one. -/
structure LoopTarget where
  entry : Nat
  again : Nat
  exit : Nat
  deriving DecidableEq, Repr

/-- What is around a statement in the same code object: the innermost loop, and how many handlers
are registered that were not when its round began. -/
structure Around where
  loop : Option LoopTarget := none
  held : Nat := 0
  deriving DecidableEq, Repr

/-- One more handler is registered. -/
def Around.guarded (a : Around) : Around := { a with held := a.held + 1 }

namespace Stmt

variable {α : Type}

/-- A loop with a test whose code stands at a position. -/
def whileTarget (test : Expr α) (body : List (Stmt α)) (p : Nat) : LoopTarget where
  entry := p
  again := p
  exit := p + test.codeSize + 1 + Stmt.bodySize 0 body + 1

/-- A loop over an iterator whose code stands at a position. The iterator is dropped at the exit. -/
def forTarget (target iter : Expr α) (body : List (Stmt α)) (p : Nat) : LoopTarget where
  entry := p
  again := p + iter.codeSize + 2 + target.storeSize + Stmt.bodySize 0 body
  exit := p + iter.codeSize + 2 + target.storeSize + Stmt.bodySize 0 body + 2

end Stmt

/-- Where the parts of a `try` stand. -/
structure TryPlaces where
  /-- Where the handler is removed after the protected part. -/
  removal : Nat
  /-- The jump to the final part after the alternative. -/
  completed : Nat
  /-- The first handler. -/
  handlers : Nat
  /-- Behind the handlers. An exception that none of them handles comes here. -/
  passed : Nat
  /-- The final part for all other ways. -/
  final : Nat
  deriving DecidableEq, Repr

/-- Where the parts of a `try` stand whose code begins at a position. -/
def Stmt.tryPlaces {α : Type} (held : Nat) (body : List (Stmt α))
    (handlers : List (Handler α (Expr α) (Stmt α))) (orelse final : List (Stmt α)) (p : Nat) :
    TryPlaces :=
  let removal := p + 1 + Stmt.bodySize (held + 1) body
  let completed := removal + 1 + Stmt.bodySize held orelse
  let passed := completed + 1 + Stmt.handlersSize (held + 1) handlers
  { removal
    completed
    handlers := completed + 1
    passed
    final := if handlers.all fun h => h.type.isSome then passed + Stmt.bodySize held final + 1
      else passed }

namespace CodeView

section

variable (file : Text) (v : CodeView)

/-- The code that leaves a round of the innermost loop, or the loop: the handlers that were
registered in the round are removed first. -/
def LeaveAt (a : Around) (isBreak : Bool) (p : Nat) : Prop :=
  ∃ t, a.loop = some t ∧ (∀ k < a.held, v.instr? (p + k) = some ⟨.handle, 0⟩) ∧
    v.instr? (p + a.held) = some ⟨.jump, if isBreak then t.exit else t.again⟩

mutual

/-- The code of a statement stands at a position. -/
def StmtAt (a : Around) : MarkedStmt → Nat → Prop
  | .functionDef m name signature body, p =>
    v.ReversedAt file signature.defaults p ∧
      v.DefineAt file .makeFunction (.function m name signature body) signature.defaults.length name
        (p + Expr.sumSize signature.defaults)
  | .classDef m name bases body, p =>
    v.ReversedAt file bases p ∧
      v.DefineAt file .makeClass (.classBody m name body) bases.length name
        (p + Expr.sumSize bases)
  | .ret _ value, p =>
    v.OptionAt file value p ∧ v.instr? (p + Expr.optionSize value) = some ⟨.ret, 0⟩
  | .delete _ targets, p => v.DeletesAt file targets p
  | .assign _ targets value, p =>
    v.ExprAt file value p ∧ v.AssignAt file targets (p + value.codeSize)
  | .augAssign _ target op value, p => v.AugAssignAt file op value target p
  | .forLoop _ target iter body, p =>
    let t := Stmt.forTarget target iter body p
    let round := p + iter.codeSize + 2
    v.ExprAt file iter p ∧ v.instr? (p + iter.codeSize) = some ⟨.iter, 0⟩ ∧
      v.instr? (p + iter.codeSize + 1) = some ⟨.next, t.exit⟩ ∧
      v.StoreAt file target round ∧
      BodyAt { loop := some t } body (round + target.storeSize) ∧
      v.instr? t.again = some ⟨.next, t.exit⟩ ∧
      v.instr? (t.again + 1) = some ⟨.jump, round⟩ ∧
      v.instr? t.exit = some ⟨.pop, 0⟩
  | .whileLoop _ test body, p =>
    let t := Stmt.whileTarget test body p
    v.ExprAt file test p ∧
      v.instr? (p + test.codeSize) = some ⟨.jumpIfFalse, t.exit⟩ ∧
      BodyAt { loop := some t } body (p + test.codeSize + 1) ∧
      v.instr? (p + test.codeSize + 1 + Stmt.bodySize 0 body) = some ⟨.jump, p⟩
  | .ifElse _ test body orelse, p =>
    let behind := p + test.codeSize + 1 + Stmt.bodySize a.held body
    v.ExprAt file test p ∧ BodyAt a body (p + test.codeSize + 1) ∧
      if orelse.isEmpty then v.instr? (p + test.codeSize) = some ⟨.jumpIfFalse, behind⟩
      else v.instr? (p + test.codeSize) = some ⟨.jumpIfFalse, behind + 1⟩ ∧
        v.instr? behind = some ⟨.jump, behind + 1 + Stmt.bodySize a.held orelse⟩ ∧
        BodyAt a orelse (behind + 1)
  | .raise _ exc cause, p => v.RaiseAt file exc cause p
  | .tryExcept _ body handlers orelse final, p =>
    let places := Stmt.tryPlaces a.held body handlers orelse final p
    v.instr? p = some ⟨.try, places.handlers⟩ ∧
      BodyAt a.guarded body (p + 1) ∧
      v.instr? places.removal = some ⟨.handle, 0⟩ ∧
      BodyAt a orelse (places.removal + 1) ∧
      v.instr? places.completed = some ⟨.jump, places.final⟩ ∧
      HandlersAt a.guarded places.final handlers places.handlers ∧
      ((handlers.all fun h => h.type.isSome) = true → BodyAt a final places.passed ∧
        v.instr? (places.passed + Stmt.bodySize a.held final) = some ⟨.raise, 0⟩) ∧
      BodyAt a final places.final
  | .assert _ test msg, p => v.AssertAt file test msg p
  | .imports _ names, p => v.ImportsAt names p
  | .importFrom _ module names level, p =>
    v.Loads p .importModule
        (.name ((String.ofList (List.replicate level '.') ++ module.getD "" : String) : Text)) ∧
      v.ImportsFromAt names (p + 1) ∧ v.instr? (p + 1 + 2 * names.length) = some ⟨.pop, 0⟩
  | .expr _ value, p =>
    v.ExprAt file value p ∧ v.instr? (p + value.codeSize) = some ⟨.pop, 0⟩
  | .pass _, _ => True
  | .breakLoop _, p => v.LeaveAt a true p
  | .continueLoop _, p => v.LeaveAt a false p

/-- The code of statements in order. -/
def BodyAt (a : Around) : List MarkedStmt → Nat → Prop
  | [], _ => True
  | s :: ss, p => StmtAt a s p ∧ BodyAt a ss (p + s.codeSize a.held)

/-- The code of handlers in order, each followed by a jump to the final part. -/
def HandlersAt (a : Around) (fin : Nat) : List (Handler Mark MarkedExpr MarkedStmt) → Nat → Prop
  | [], _ => True
  | ⟨_, type, name, body⟩ :: rest, p =>
    let behind := p + Handler.headSize type + Stmt.bodySize a.held body
    v.HeadAt file (behind + 2) name type p ∧ BodyAt a body (p + Handler.headSize type) ∧
      v.instr? behind = some ⟨.handle, 0⟩ ∧ v.instr? (behind + 1) = some ⟨.jump, fin⟩ ∧
      HandlersAt a fin rest (behind + 2)

end

/-- The code of a unit stands at the start of a code object and fills it. -/
def UnitAt : CodeUnit → Prop
  | .module _ body | .function _ _ _ body | .classBody _ _ body =>
    let n := Stmt.bodySize 0 body
    v.BodyAt file {} body 0 ∧ v.instr? n = some ⟨.loadSpecial, 0⟩ ∧
      v.instr? (n + 1) = some ⟨.ret, 0⟩ ∧ v.words.size = n + 2
  | .lambda _ _ e | .expression _ e =>
    v.ExprAt file e 0 ∧ v.instr? e.codeSize = some ⟨.ret, 0⟩ ∧ v.words.size = e.codeSize + 1

end

end CodeView

end Toolchain

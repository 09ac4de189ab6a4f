import Toolchain.Compiler.Statement
import Toolchain.Proofs.Parser.GuardedProgram

/-!
# Compiling after a fault

The tree is compiled by a compiler that goes on after a fault. An operand that does not fit becomes
zero, an expression is not compiled any more and neither is another statement of a body, but the
instructions of the rules that were begun are still appended and the jumps are still written. Each
of them may be a fault of its own, which is not noted.

## Main definitions

* `GuardedCompile`: a step of a compiler that goes on after a fault
* `GuardedCompile.emit`, `GuardedCompile.patch`: writing instructions
* `GuardedCompile.code`, `GuardedCompile.stmt`, `GuardedCompile.body`: the code of expressions and
  of statements
* `GuardedCompile.compileTree`: compiles a tree, with a sink for the log
* `GuardedCompile.compileModule`, `GuardedCompile.compileExpression`,
  `GuardedCompile.compilePrompt`: the three ways to compile a text, with a sink for the log

## Main results

* `GuardedCompile.follows_emit`, `GuardedCompile.follows_patch`, `GuardedCompile.follows_emitWith`,
  `GuardedCompile.follows_nestedCode`: writing instructions follows the compiler that ends in a
  fault
-/

namespace Toolchain

/-- A step of a compiler that goes on after a fault. -/
abbrev GuardedCompile (α : Type) := Guarded CompileState α

namespace GuardedCompile

open Guarded Compile

/-! ## Writing instructions -/

/-- Changes the state. -/
def change (f : CompileState → CompileState) : GuardedCompile Unit := alter fun s => ((), f s)

/-- Finds a fault at a place. -/
def failAt (code : ErrorCode) (pos : Position) (message : Message) : GuardedCompile Unit :=
  fail { code, pos, width := 0, message, hints := code.hints }

/-- Finds a fault at the current statement. -/
def failHere (code : ErrorCode) (message : Message) : GuardedCompile Unit := do
  let s ← state
  failAt code ⟨s.line, s.column⟩ message

/-- Finds that a number does not fit into an operand. -/
def overflow (op : Opcode) (operand limit : Nat) : GuardedCompile Unit := do
  failHere .operandRange (.entry .operandOverflow [op.name, operand, limit, (← state).line])

/-- Changes the code object in the making. -/
def modifyBuilder (f : CodeBuilder → CodeBuilder) : GuardedCompile Unit :=
  change fun s => { s with frame := { s.frame with builder := f s.frame.builder } }

/-- Notes what is asked of the code object in the making. -/
def note (r : CodeRequest) : GuardedCompile Unit :=
  change fun s => { s with frame := { s.frame with requests := r :: s.frame.requests } }

/-- Sets the current source line. -/
def setLine (line : Nat) : GuardedCompile Unit := change fun s => { s with line }

/-- The position of the next instruction. -/
def position : GuardedCompile Nat := do
  return (← state).frame.builder.position

/-- Appends an instruction whose operand fits. -/
def append (op : Opcode) (operand : Nat) : GuardedCompile Unit := do
  note (.emit (← position) ⟨op, operand⟩)
  let line := (← state).line
  modifyBuilder fun b => b.push (Instr.encode ⟨op, operand⟩) line

/-- Appends an instruction. An operand that does not fit becomes zero. -/
def emit (op : Opcode) (operand : Nat) : GuardedCompile Unit := do
  if operand > maxOperand then
    overflow op operand maxOperand
    append op 0
  else append op operand

/-- Appends a place for an instruction that is written later; gives its position. -/
def reserve : GuardedCompile Nat := do
  let s ← state
  note (.reserve s.frame.builder.position)
  modifyBuilder fun b => b.reserve s.line
  return s.frame.builder.position

/-- Writes the instruction of a place, whose operand fits. -/
def write (place : Nat) (op : Opcode) (target : Nat) : GuardedCompile Unit := do
  note (.patch place ⟨op, target⟩)
  modifyBuilder fun b => b.patch place (Instr.encode ⟨op, target⟩)

/-- Writes the instruction of a place. A target that does not fit becomes zero. -/
def patch (place : Nat) (op : Opcode) (target : Nat) : GuardedCompile Unit := do
  if target > maxOperand then
    overflow op target maxOperand
    write place op 0
  else write place op target

/-- Writes a jump to the next instruction into each of some places. -/
def patchHere (op : Opcode) (places : List Nat) : GuardedCompile Unit := do
  let target ← position
  places.forM fun place => patch place op target

/-- Appends an instruction whose operand is a constant. -/
def emitWith (op : Opcode) (k : Constant) : GuardedCompile Unit := do
  let s ← state
  let (i, builder) := s.frame.builder.addConstant k
  put { s with frame := { s.frame with builder } }
  emit op i

/-- Loads a constant. -/
def emitConst (k : Constant) : GuardedCompile Unit := emitWith .loadConst k

/-- Appends an instruction whose operand is a name. -/
def emitName (op : Opcode) (name : String) : GuardedCompile Unit := emitWith op (.name name)

/-- Loads a constant of the language: none, true or false. -/
def emitSpecial (value : Option Bool) : GuardedCompile Unit :=
  emit .loadSpecial (match value with
    | none => 0
    | some true => 1
    | some false => 2)

/-- Compiles a code object inside another one. -/
def nestedCode (name : Text) (kind : CodeKind) (firstLine : Nat) (body : GuardedCompile Unit) :
    GuardedCompile Code := do
  let outer := (← state).frame
  change fun s => { s with frame := {}, codes := s.codes + 1 }
  body
  let s ← state
  let b := s.frame.builder
  put { s with frame := outer }
  return { name, filename := s.file, kind, firstLine, instructions := b.bytes,
           lineTable := b.lineTable, constants := b.constants.toList }

/-! ## Expressions -/

/-- Finds that a node cannot be compiled. -/
def unsupported (what : String) (pos : Position) : GuardedCompile Unit :=
  failAt .unsupportedNode pos (.entry .unsupportedNode [what, pos.line])

/-- Loads a literal. -/
def literal : Literal → GuardedCompile Unit
  | .none => emitSpecial none
  | .bool b => emitSpecial (some b)
  | .int n => emitConst (.int n)
  | .float x => emitConst (.float x)
  | .str s => emitConst (.string s)

/-- Builds values into one, unless there are more than an operand can say. -/
def counted (count : Nat) (build : GuardedCompile Unit) : GuardedCompile Unit :=
  if count > maxBuildCount then overflow .build count maxBuildCount else build

/-- Appends the instruction that builds values into one. -/
def emitBuild (kind : BuildKind) (count : Nat) : GuardedCompile Unit :=
  emit .build (buildOperand kind.number count)

/-- Compiles an expression, unless there is a fault. A part of a subscript that is compiled in its
own way does not look. -/
def entering (part : Bool) (e : MarkedExpr) (rest : GuardedCompile Unit) : GuardedCompile Unit :=
  if part && isSubscriptPart e then rest else ifCalm () rest

mutual

/-- The code of an expression, or, if `part` is set, of a part of a subscript. -/
def code (part : Bool) (e : MarkedExpr) : GuardedCompile Unit := entering part e do
  if !(part && isSubscriptPart e) && e.mark.pos.line > 0 then setLine e.mark.pos.line
  match e with
  | .boolOp _ op values =>
    let places ← connected values
    patchHere (match op with
      | .and => .jumpIfFalse
      | .or => .jumpIfTrue) places
  | .binOp _ left op right =>
    code false left
    code false right
    emit .binary op.code
  | .unaryOp _ op operand =>
    code false operand
    emit .unary op.code
  | .lambda m ⟨params, defaults, vararg, kwarg⟩ body =>
    reversed false defaults
    let line := (← state).line
    let inner ← nestedCode "<lambda>" .lambda m.pos.line do
      code false body
      emit .ret 0
    setLine line
    emitConst (.code (withParams inner
      ({ params, vararg, kwarg } : Signature Mark MarkedExpr)))
    emit .makeFunction defaults.length
  | .dict _ pairs => counted pairs.length do
    items pairs
    emitBuild .dict pairs.length
  | .compare _ left rest =>
    code false left
    let places ← comparisons rest
    if !places.isEmpty then
      let done ← reserve
      patchHere .jumpIfFalse places
      emit .rot 2
      emit .pop 0
      patchHere .jump [done]
  | .call _ func args kws =>
    if args.length > maxPositional || kws.length > maxKeywords then
      failHere .operandRange (.entry .tooManyArguments [(← state).line])
    else
      code false func
      keywords kws
      reversed false args
      emit .call (callOperand args.length kws.length)
  | .constant _ value => literal value
  | .attr _ value label _ =>
    code false value
    emitName .loadAttr label
  | .subscript _ value index _ =>
    code false value
    code true index
    emit .subscr 0
  | .name _ id _ => emitName .loadName id
  | .list _ elts _ => counted elts.length do
    reversed false elts
    emitBuild .list elts.length
  | .tuple _ elts _ =>
    if part then
      reversed true elts
      emitBuild .tuple elts.length
    else counted elts.length do
      reversed false elts
      emitBuild .tuple elts.length
  | .slice _ lower upper step =>
    optional step
    optional upper
    optional lower
    emitBuild .slice 3
  | .index _ value => code false value
  | .formatted _ value conversion spec =>
    code false value
    match spec with
    | none => emit .format (Conversion.code conversion)
    | some spec =>
      code false spec
      emit .format (Conversion.code conversion + formatSpecBit)

/-- The code of an expression that may be missing, in whose place stands none. -/
def optional : Option MarkedExpr → GuardedCompile Unit
  | none => emitSpecial none
  | some e => code false e

/-- The code of expressions, or of parts of a subscript, last to first. -/
def reversed (part : Bool) : List MarkedExpr → GuardedCompile Unit
  | [] => pure ()
  | e :: es => do
    reversed part es
    code part e

/-- The code of the items of a dictionary, last to first, each value before its key. -/
def items : List (MarkedExpr × MarkedExpr) → GuardedCompile Unit
  | [] => pure ()
  | (key, value) :: rest => do
    items rest
    code false value
    code false key

/-- The code of keyword arguments, last to first, each value before its name. -/
def keywords : List (KeywordArg Mark MarkedExpr) → GuardedCompile Unit
  | [] => pure ()
  | ⟨_, key, value⟩ :: rest => do
    keywords rest
    code false value
    emitConst (.string (key.getD mappingName))

/-- The code of the operands of a connective; gives the places of the jumps to its end. -/
def connected : List MarkedExpr → GuardedCompile (List Nat)
  | [] => return []
  | [e] => do
    code false e
    return []
  | e :: es => do
    code false e
    emit .dup 1
    let place ← reserve
    emit .pop 0
    let places ← connected es
    return place :: places

/-- The code of a chain of comparisons after its first operand; gives the places of the jumps to
where the last operand is dropped. -/
def comparisons : List (CompareOp × MarkedExpr) → GuardedCompile (List Nat)
  | [] => return []
  | [(op, e)] => do
    code false e
    emit .compare op.code
    return []
  | (op, e) :: rest => do
    code false e
    emit .dup 1
    emit .rot 3
    emit .compare op.code
    emit .dup 1
    let place ← reserve
    emit .pop 0
    let places ← comparisons rest
    return place :: places

end

/-- The code of an expression. -/
def expr (e : MarkedExpr) : GuardedCompile Unit := code false e

/-- The code of a part of a subscript. -/
def subscriptPart (e : MarkedExpr) : GuardedCompile Unit := code true e

/-! ## Targets -/

mutual

/-- The code that takes a value from the stack and stores it into a target. -/
def store : MarkedExpr → GuardedCompile Unit
  | .name _ id _ => emitName .storeName id
  | .attr _ value label _ => do
    expr value
    emitName .storeAttr label
  | .subscript _ value index _ => do
    expr value
    subscriptPart index
    emit .subscr 1
  | .tuple _ elts _ | .list _ elts _ => do
    emit .iter 0
    let places ← stores elts
    let done ← position
    emit .pop 0
    places.forM fun place => patch place .next done
  | e => unsupported e.tag.label e.mark.pos

/-- The code that stores the values of an iterator into targets; gives the places where the next
value is asked for. -/
def stores : List MarkedExpr → GuardedCompile (List Nat)
  | [] => return []
  | e :: es => do
    let place ← reserve
    store e
    let places ← stores es
    return place :: places

end

mutual

/-- The code that deletes a target. -/
def delete : MarkedExpr → GuardedCompile Unit
  | .name _ id _ => emitName .deleteName id
  | .attr _ value label _ => do
    expr value
    emitName .deleteAttr label
  | .subscript _ value index _ => do
    expr value
    subscriptPart index
    emit .subscr 2
  | .tuple _ elts _ | .list _ elts _ => deletes elts
  | e => unsupported e.tag.label e.mark.pos

/-- The code that deletes targets. -/
def deletes : List MarkedExpr → GuardedCompile Unit
  | [] => pure ()
  | e :: es => do
    delete e
    deletes es

end

/-- The values of a display that is unpacked into a number of targets, which it has to match; none
if it does not. -/
def unpacked (pos : Position) (count : Nat) (value : MarkedExpr) :
    GuardedCompile (Option (List MarkedExpr)) :=
  match elements? value with
  | none => return some []
  | some values => do
    if count = values.length then return some values
    else
      failAt .unpackCount pos (.entry .unpackArity [values.length, count, pos.line])
      return none

mutual

/-- Checks that a display that is unpacked has as many values as there are targets. -/
def checkArity : MarkedExpr → MarkedExpr → GuardedCompile Unit
  | .tuple m targets _, value | .list m targets _, value =>
    ifSome (unpacked m.pos targets.length value) (pure ()) fun values => checkArities targets values
  | _, _ => pure ()

/-- Checks targets against the values at the same place. -/
def checkArities : List MarkedExpr → List MarkedExpr → GuardedCompile Unit
  | target :: targets, value :: values => do
    checkArity target value
    checkArities targets values
  | _, _ => pure ()

end

/-! ## Statements -/

/-- The code that returns none at the end of a code object. -/
def returnNone : GuardedCompile Unit := do
  emitSpecial none
  emit .ret 0

/-- Binds a name to a code object's function or class. -/
def define (op : Opcode) (line : Nat) (code : Code) (count : Nat) (name : String) :
    GuardedCompile Unit := do
  setLine line
  emitConst (.code code)
  emit op count
  emitName .storeName name

/-- Runs the body of a loop; gives the places of its jumps. -/
def inLoop (body : GuardedCompile Unit) : GuardedCompile LoopFrame := do
  change fun s => { s with frame := { s.frame with
    loops := { tryDepth := s.frame.tries.length } :: s.frame.loops } }
  body
  let s ← state
  put { s with frame := { s.frame with loops := s.frame.loops.drop 1 } }
  return s.frame.loops.headD { tryDepth := 0 }

/-- Writes the jumps of a loop. -/
def closeLoop (l : LoopFrame) (again exit : Nat) : GuardedCompile Unit := do
  l.continues.forM fun place => patch place .jump again
  l.breaks.forM fun place => patch place .jump exit

/-- The code that leaves a round of the innermost loop, or the loop. -/
def loopControl (isBreak : Bool) : GuardedCompile Unit := do
  let s ← state
  match s.frame.loops with
  | [] =>
    failHere .loopControl
      (.entry (if isBreak then .breakOutsideLoop else .continueOutsideLoop) [s.line])
  | l :: _ =>
    let inside := s.frame.tries.take (s.frame.tries.length - l.tryDepth)
    (List.replicate (registered inside) ()).forM fun _ => emit .handle 0
    let place ← reserve
    change fun s => { s with frame := { s.frame with loops := match s.frame.loops with
      | [] => []
      | l :: loops =>
        if isBreak then { l with breaks := l.breaks ++ [place] } :: loops
        else { l with continues := l.continues ++ [place] } :: loops } }

/-- Notes how far the innermost `try` has come. -/
def setPhase (phase : TryPhase) : GuardedCompile Unit :=
  change fun s => { s with frame := { s.frame with tries := phase :: s.frame.tries.drop 1 } }

/-- The code of a target that is read before it is stored into. -/
def augAssign (target : MarkedExpr) (op : BinaryOp) (value : MarkedExpr) : GuardedCompile Unit :=
  match target with
  | .name _ id _ => do
    emitName .loadName id
    expr value
    emit .binary op.code
    emitName .storeName id
  | .attr _ object label _ => do
    expr object
    emit .dup 1
    emitName .loadAttr label
    expr value
    emit .binary op.code
    emit .rot 2
    emitName .storeAttr label
  | .subscript _ object index _ => do
    expr object
    subscriptPart index
    emit .dup 2
    emit .subscr 0
    expr value
    emit .binary op.code
    emit .rot 3
    emit .subscr 1
  | e => unsupported e.tag.label e.mark.pos

/-- The code that stores one value into several targets. -/
def assignAll : List MarkedExpr → GuardedCompile Unit
  | [] => pure ()
  | [target] => store target
  | target :: targets => do
    emit .dup 1
    store target
    assignAll targets

/-- The code that imports a module. -/
def importAlias (a : Alias Mark) : GuardedCompile Unit := do
  setLine a.mark.pos.line
  emitName .importModule a.name
  match a.asName, topName? a.name with
  | some name, _ => emitName .storeName name
  | none, some top =>
    emit .pop 0
    emitName .importModule top
    emitName .storeName top
  | none, none => emitName .storeName a.name

/-- The code that binds something from the module on top of the stack. -/
def importFromAlias (a : Alias Mark) : GuardedCompile Unit := do
  setLine a.mark.pos.line
  emitName .importFrom a.name
  if a.name = "*" then emit .pop 0
  else emitName .storeName (a.asName.getD a.name)

/-- The code that raises an exception. -/
def raise : Option MarkedExpr → Option MarkedExpr → GuardedCompile Unit
  | none, _ => emit .raise 0
  | some exc, none => do
    expr exc
    emit .raise 1
  | some exc, some cause => do
    expr exc
    expr cause
    emit .raise 2

/-- The code that checks a condition. -/
def assert (test : MarkedExpr) (msg : Option MarkedExpr) : GuardedCompile Unit := do
  expr test
  let holds ← reserve
  emitName .loadName "AssertionError"
  match msg with
  | none => emit .call (callOperand 0 0)
  | some msg =>
    expr msg
    emit .call (callOperand 1 0)
  emit .raise 1
  patchHere .jumpIfTrue [holds]

/-- The code before the body of a handler. -/
def handlerHead (type : Option MarkedExpr) (name : Option String) :
    GuardedCompile (Option Nat) := do
  let next ← match type with
    | none => pure none
    | some type => do
      emit .dup 1
      expr type
      emit .compare exceptionMatch
      some <$> reserve
  match name with
  | some name => emitName .storeName name
  | none => emit .pop 0
  return next

/-- Notes which statement is being compiled. -/
def enter (m : Mark) : GuardedCompile Unit :=
  change fun s => { s with line := m.pos.line, column := m.pos.column }

mutual

/-- The code of a statement. -/
def stmt : MarkedStmt → GuardedCompile Unit
  | .functionDef m name signature inner => do
    enter m
    reversed false signature.defaults
    let code ← nestedCode name .function m.pos.line do
      body inner
      returnNone
    define .makeFunction m.pos.line (withParams code signature) signature.defaults.length name
  | .classDef m name bases inner => do
    enter m
    reversed false bases
    let code ← nestedCode name .classBody m.pos.line do
      body inner
      returnNone
    define .makeClass m.pos.line code bases.length name
  | .ret m value => do
    enter m
    optional value
    emit .ret 0
  | .delete m targets => do
    enter m
    deletes targets
  | .assign m targets value => do
    enter m
    targets.forM fun target => checkArity target value
    expr value
    assignAll targets
  | .augAssign m target op value => do
    enter m
    augAssign target op value
  | .forLoop m target iter inner => do
    enter m
    expr iter
    emit .iter 0
    let first ← reserve
    let round ← position
    store target
    let l ← inLoop (body inner)
    setLine m.pos.line
    let again ← position
    let second ← reserve
    emit .jump round
    let exit ← position
    emit .pop 0
    patch first .next exit
    patch second .next exit
    closeLoop l again exit
  | .whileLoop m test inner => do
    enter m
    let start ← position
    expr test
    let exit ← reserve
    let l ← inLoop do
      body inner
      setLine m.pos.line
      emit .jump start
    patchHere .jumpIfFalse [exit]
    closeLoop l start (← position)
  | .ifElse m test inner orelse => do
    enter m
    expr test
    let otherwise ← reserve
    body inner
    if orelse.isEmpty then patchHere .jumpIfFalse [otherwise]
    else
      let done ← reserve
      patchHere .jumpIfFalse [otherwise]
      body orelse
      patchHere .jump [done]
  | .raise m exc cause => do
    enter m
    raise exc cause
  | .tryExcept m inner clauses orelse final => do
    enter m
    let registration ← reserve
    change fun s => { s with frame := { s.frame with tries := .body :: s.frame.tries } }
    body inner
    setLine m.pos.line
    emit .handle 0
    setPhase .final
    body orelse
    let completed ← reserve
    patchHere .try [registration]
    setPhase .handler
    let handled ← handlers clauses
    setPhase .final
    if clauses.all fun h => h.type.isSome then
      body final
      setLine m.pos.line
      emit .raise 0
    patchHere .jump (completed :: handled)
    body final
    change fun s => { s with frame := { s.frame with tries := s.frame.tries.drop 1 } }
  | .assert m test msg => do
    enter m
    assert test msg
  | .imports m names => do
    enter m
    names.forM importAlias
  | .importFrom m module names level => do
    enter m
    emitName .importModule (String.ofList (List.replicate level '.') ++ module.getD "")
    names.forM importFromAlias
    emit .pop 0
  | .expr m value => do
    enter m
    expr value
    emit .pop 0
  | .pass m => enter m
  | .breakLoop m => do
    enter m
    loopControl true
  | .continueLoop m => do
    enter m
    loopControl false

/-- The code of statements in order, up to a fault. -/
def body : List MarkedStmt → GuardedCompile Unit
  | [] => pure ()
  | s :: ss => ifCalm () do
    stmt s
    body ss

/-- The code of handlers in order; gives the places of the jumps to the final part. -/
def handlers : List (Handler Mark MarkedExpr MarkedStmt) → GuardedCompile (List Nat)
  | [] => return []
  | ⟨m, type, name, inner⟩ :: rest => do
    setLine m.pos.line
    let next ← handlerHead type name
    body inner
    setLine m.pos.line
    emit .handle 0
    let handled ← reserve
    patchHere .jumpIfFalse next.toList
    let more ← handlers rest
    return handled :: more

end

/-- The code object of a program. -/
def root : Root Mark → GuardedCompile Code
  | .module m statements => do
    setLine m.pos.line
    nestedCode "<module>" .module m.pos.line do
      body statements
      returnNone
  | .expression m e => do
    setLine m.pos.line
    nestedCode "<expression>" .expression m.pos.line do
      expr e
      emit .ret 0

/-- Compiles a tree. -/
def compileTree (file : Text) (r : Root Mark) (log : Sink) : Except Diagnostic Code × Sink :=
  let (code, s) := (root r).exec { state := { file, line := r.mark.pos.line }, log }
  match s.err with
  | some fault => (.error (fault.diagnostic file), s.log)
  | none => (.ok code, s.log.write (compiledEntry file s.state.codes code))

/-- Compiles what was parsed, with the same log. -/
def compileParsed (file : Text) :
    Option (Except Diagnostic Parsed) × Sink → Option (Except Diagnostic Code) × Sink
  | (none, log) => (none, log)
  | (some (.error d), log) => (some (.error d), log)
  | (some (.ok p), log) =>
    let (outcome, log) := compileTree file p.root log
    (some outcome, log)

/-- Parses and compiles a program. -/
def compileModule (file source : Text) (log : Sink) : Option (Except Diagnostic Code) × Sink :=
  compileParsed file (GuardedParse.parseModule file source log)

/-- Parses and compiles a single expression. -/
def compileExpression (source : Text) (log : Sink) : Option (Except Diagnostic Code) × Sink :=
  compileParsed expressionFile (GuardedParse.parseExpression expressionFile source log)

/-- Compiles what was typed at the prompt. What is written when it is compiled as an expression is
thrown away. -/
def compilePrompt (source : Text) (log : Sink) : Option (Except Diagnostic Code) × Sink :=
  match compileExpression source .nop with
  | (none, _) => (none, log)
  | (some (.ok code), _) => (some (.ok code), log)
  | (some (.error _), _) => compileModule promptFile (source ++ "\n") log

/-! ## Writing instructions follows -/

/-- Nothing is asked of the states and the faults of the compiler. -/
instance : Contract CompileState where
  Keeps _ := True
  Tells _ := True

theorem follows_change (f : CompileState → CompileState) : Matches id (change f) (modify f) :=
  follows_alter _ fun _ _ => ⟨trivial, trivial⟩

theorem raises_failAt {α : Type} (code : ErrorCode) (pos : Position) (message : Message) :
    Raises (failAt code pos message) (Compile.failAt code pos message : Compile α) :=
  raises_fail trivial

theorem raises_failHere {α : Type} (code : ErrorCode) (message : Message) :
    Raises (failHere code message) (Compile.fail code message : Compile α) :=
  .look fun _ => raises_failAt _ _ _

theorem raises_overflow {α : Type} (op : Opcode) (operand limit : Nat) :
    Raises (overflow op operand limit) (Compile.overflow op operand limit : Compile α) :=
  .look fun _ => raises_failHere _ _

theorem follows_modifyBuilder (f : CodeBuilder → CodeBuilder) :
    Matches id (modifyBuilder f) (Compile.modifyBuilder f) := follows_change _

theorem follows_note (r : CodeRequest) : Matches id (note r) (Compile.note r) := follows_change _

theorem follows_setLine (line : Nat) : Matches id (setLine line) (Compile.setLine line) :=
  follows_change _

theorem follows_position : Matches id position Compile.position :=
  follows_state.bind fun _ _ => follows_pure trivial

/-- An instruction whose operand does not fit is appended all the same. -/
theorem follows_emit (op : Opcode) (operand : Nat) :
    Matches id (emit op operand) (Compile.emit op operand) := by
  have happend (operand : Nat) : Matches id (append op operand) (do
      Compile.note (.emit (← Compile.position) ⟨op, operand⟩)
      let line := (← get).line
      Compile.modifyBuilder fun b => b.push (Instr.encode ⟨op, operand⟩) line) :=
    follows_position.bind fun _ _ => (follows_note _).bind fun _ _ => follows_state.bind fun _ _ =>
      follows_modifyBuilder _
  unfold emit Compile.emit Compile.encoded
  by_cases hlimit : operand > maxOperand
  · rw [if_pos hlimit, if_pos hlimit]
    -- the instruction with the operand zero comes after the fault
    exact ((raises_overflow _ _ _).bind _).andThen _
  · rw [if_neg hlimit, if_neg hlimit]
    exact happend operand

theorem follows_reserve : Matches id reserve Compile.reserve :=
  follows_state.bind fun _ _ => (follows_note _).bind fun _ _ => (follows_modifyBuilder _).bind
    fun _ _ => follows_pure trivial

/-- A jump whose target does not fit is written all the same. -/
theorem follows_patch (place : Nat) (op : Opcode) (target : Nat) :
    Matches id (patch place op target) (Compile.patch place op target) := by
  have hwrite (target : Nat) : Matches id (write place op target) (do
      Compile.note (.patch place ⟨op, target⟩)
      Compile.modifyBuilder fun b => b.patch place (Instr.encode ⟨op, target⟩)) :=
    (follows_note _).bind fun _ _ => follows_modifyBuilder _
  unfold patch Compile.patch Compile.encoded
  by_cases hlimit : target > maxOperand
  · rw [if_pos hlimit, if_pos hlimit]
    exact ((raises_overflow _ _ _).bind _).andThen _
  · rw [if_neg hlimit, if_neg hlimit]
    exact hwrite target

theorem follows_emitWith (op : Opcode) (k : Constant) :
    Matches id (emitWith op k) (Compile.emitWith op k) :=
  follows_state.bind fun _ _ => (follows_put trivial).bind fun _ _ => follows_emit _ _

theorem follows_emitConst (k : Constant) : Matches id (emitConst k) (Compile.emitConst k) :=
  follows_emitWith _ _

theorem follows_nestedCode (name : Text) (kind : CodeKind) (firstLine : Nat)
    {body : GuardedCompile Unit} {body' : Compile Unit} (h : Matches id body body') :
    Matches id (nestedCode name kind firstLine body)
      (Compile.nestedCode name kind firstLine body') :=
  follows_state.bind fun _ _ => (follows_change _).bind fun _ _ => h.bind fun _ _ =>
    follows_state.bind fun _ _ => (follows_put trivial).bind fun _ _ => follows_pure trivial

end GuardedCompile

end Toolchain

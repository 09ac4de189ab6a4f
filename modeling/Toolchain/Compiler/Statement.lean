import Toolchain.Compiler.Expression

/-!
# Compilation of statements

The code of a statement leaves the stack as it found it. A loop collects the places of its jumps to
the next round and to its exit and writes them when it ends; a `try` does the same with its jumps to
the final part, which is compiled twice: once for exceptions that nothing handles, which go on
afterwards, and once for all other ways.

## Main definitions

* `Compile.stmt`, `Compile.body`: the code of a statement, and of several
* `compileModule`, `compileExpression`: the code object of a program text
-/

namespace Toolchain

namespace Compile

/-- The code that returns none at the end of a code object. -/
def returnNone : Compile Unit := do
  emitSpecial none
  emit .ret 0

/-- Binds a name to a code object's function or class. -/
def define (op : Opcode) (line : Nat) (code : Code) (count : Nat) (name : String) :
    Compile Unit := do
  setLine line
  emitConst (.code code)
  emit op count
  emitName .storeName name

/-- Runs the body of a loop; gives the places of its jumps. -/
def inLoop (body : Compile Unit) : Compile LoopFrame := do
  modify fun s => { s with frame := { s.frame with
    loops := { tryDepth := s.frame.tries.length } :: s.frame.loops } }
  body
  let s ← get
  set { s with frame := { s.frame with loops := s.frame.loops.drop 1 } }
  return s.frame.loops.headD { tryDepth := 0 }

/-- Writes the jumps of a loop. -/
def closeLoop (l : LoopFrame) (again exit : Nat) : Compile Unit := do
  l.continues.forM fun place => patch place .jump again
  l.breaks.forM fun place => patch place .jump exit

/-- How many of some `try` statements, innermost first, still have their handler registered. -/
def registered (phases : List TryPhase) : Nat := phases.countP (· ≠ .final)

/-- The code that leaves a round of the innermost loop, or the loop. The handlers of the `try`
statements in between are removed first. -/
def loopControl (isBreak : Bool) : Compile Unit := do
  let s ← get
  match s.frame.loops with
  | [] =>
    fail .loopControl
      (.entry (if isBreak then .breakOutsideLoop else .continueOutsideLoop) [s.line])
  | l :: _ =>
    let inside := s.frame.tries.take (s.frame.tries.length - l.tryDepth)
    (List.replicate (registered inside) ()).forM fun _ => emit .handle 0
    let place ← reserve
    modify fun s => { s with frame := { s.frame with loops := match s.frame.loops with
      | [] => []
      | l :: loops =>
        if isBreak then { l with breaks := l.breaks ++ [place] } :: loops
        else { l with continues := l.continues ++ [place] } :: loops } }

/-- Notes how far the innermost `try` has come. -/
def setPhase (phase : TryPhase) : Compile Unit :=
  modify fun s => { s with frame := { s.frame with tries := phase :: s.frame.tries.drop 1 } }

/-- The code of a target that is read before it is stored into: its parts are evaluated once. -/
def augAssign (target : MarkedExpr) (op : BinaryOp) (value : MarkedExpr) : Compile Unit :=
  match target with
  | .name _ id _ => do
    emitName .loadName id
    expr value
    emit .binary op.code
    emitName .storeName id
  | .attr _ object label _ => do
    expr object
    emit .dup 1
    emitName .loadAttr label
    expr value
    emit .binary op.code
    emit .rot 2
    emitName .storeAttr label
  | .subscript _ object index _ => do
    expr object
    subscriptPart index
    emit .dup 2
    emit .subscr 0
    expr value
    emit .binary op.code
    emit .rot 3
    emit .subscr 1
  | e => unsupported e.tag.label e.mark.pos

/-- The code that stores one value into several targets. -/
def assignAll : List MarkedExpr → Compile Unit
  | [] => pure ()
  | [target] => store target
  | target :: targets => do
    emit .dup 1
    store target
    assignAll targets

/-- The part of a dotted name before its first point, if it has one. -/
def topName? (name : String) : Option String :=
  let cs := name.toList
  if cs.contains '.' then some (String.ofList (cs.takeWhile (· ≠ '.'))) else none

/-- The code that imports a module. Without a name of its own the module's topmost package is
bound. -/
def importAlias (a : Alias Mark) : Compile Unit := do
  setLine a.mark.pos.line
  emitName .importModule a.name
  match a.asName, topName? a.name with
  | some name, _ => emitName .storeName name
  | none, some top =>
    emit .pop 0
    emitName .importModule top
    emitName .storeName top
  | none, none => emitName .storeName a.name

/-- The code that binds something from the module on top of the stack. -/
def importFromAlias (a : Alias Mark) : Compile Unit := do
  setLine a.mark.pos.line
  emitName .importFrom a.name
  if a.name = "*" then emit .pop 0
  else emitName .storeName (a.asName.getD a.name)

/-- The code that raises an exception. -/
def raise : Option MarkedExpr → Option MarkedExpr → Compile Unit
  | none, _ => emit .raise 0
  | some exc, none => do
    expr exc
    emit .raise 1
  | some exc, some cause => do
    expr exc
    expr cause
    emit .raise 2

/-- The code that checks a condition. -/
def assert (test : MarkedExpr) (msg : Option MarkedExpr) : Compile Unit := do
  expr test
  let holds ← reserve
  emitName .loadName "AssertionError"
  match msg with
  | none => emit .call (callOperand 0 0)
  | some msg =>
    expr msg
    emit .call (callOperand 1 0)
  emit .raise 1
  patchHere .jumpIfTrue [holds]

/-- The code before the body of a handler: the test of the exception's type, if there is one, and
the name it is bound to. Gives the place of the jump to the next handler. -/
def handlerHead (type : Option MarkedExpr) (name : Option String) : Compile (Option Nat) := do
  let next ← match type with
    | none => pure none
    | some type => do
      emit .dup 1
      expr type
      emit .compare exceptionMatch
      some <$> reserve
  match name with
  | some name => emitName .storeName name
  | none => emit .pop 0
  return next

mutual

/-- The code of a statement. -/
def stmt : MarkedStmt → Compile Unit
  | .functionDef m name signature inner => do
    enter m
    reversed false signature.defaults
    let code ← nestedCode name .function m.pos.line do
      body inner
      returnNone
    define .makeFunction m.pos.line (withParams code signature) signature.defaults.length name
  | .classDef m name bases inner => do
    enter m
    reversed false bases
    let code ← nestedCode name .classBody m.pos.line do
      body inner
      returnNone
    define .makeClass m.pos.line code bases.length name
  | .ret m value => do
    enter m
    optional value
    emit .ret 0
  | .delete m targets => do
    enter m
    deletes targets
  | .assign m targets value => do
    enter m
    targets.forM fun target => checkArity target value
    expr value
    assignAll targets
  | .augAssign m target op value => do
    enter m
    augAssign target op value
  | .forLoop m target iter inner => do
    enter m
    expr iter
    emit .iter 0
    let first ← reserve
    let round ← position
    store target
    let l ← inLoop (body inner)
    setLine m.pos.line
    let again ← position
    let second ← reserve
    emit .jump round
    let exit ← position
    emit .pop 0
    patch first .next exit
    patch second .next exit
    closeLoop l again exit
  | .whileLoop m test inner => do
    enter m
    let start ← position
    expr test
    let exit ← reserve
    let l ← inLoop do
      body inner
      setLine m.pos.line
      emit .jump start
    patchHere .jumpIfFalse [exit]
    closeLoop l start (← position)
  | .ifElse m test inner orelse => do
    enter m
    expr test
    let otherwise ← reserve
    body inner
    if orelse.isEmpty then patchHere .jumpIfFalse [otherwise]
    else
      let done ← reserve
      patchHere .jumpIfFalse [otherwise]
      body orelse
      patchHere .jump [done]
  | .raise m exc cause => do
    enter m
    raise exc cause
  | .tryExcept m inner clauses orelse final => do
    enter m
    let registration ← reserve
    modify fun s => { s with frame := { s.frame with tries := .body :: s.frame.tries } }
    body inner
    setLine m.pos.line
    emit .handle 0
    setPhase .final
    body orelse
    let completed ← reserve
    patchHere .try [registration]
    setPhase .handler
    let handled ← handlers clauses
    setPhase .final
    if clauses.all fun h => h.type.isSome then
      body final
      setLine m.pos.line
      emit .raise 0
    patchHere .jump (completed :: handled)
    body final
    modify fun s => { s with frame := { s.frame with tries := s.frame.tries.drop 1 } }
  | .assert m test msg => do
    enter m
    assert test msg
  | .imports m names => do
    enter m
    names.forM importAlias
  | .importFrom m module names level => do
    enter m
    emitName .importModule (String.ofList (List.replicate level '.') ++ module.getD "")
    names.forM importFromAlias
    emit .pop 0
  | .expr m value => do
    enter m
    expr value
    emit .pop 0
  | .pass m => enter m
  | .breakLoop m => do
    enter m
    loopControl true
  | .continueLoop m => do
    enter m
    loopControl false
where
  /-- Notes which statement is being compiled. -/
  enter (m : Mark) : Compile Unit :=
    modify fun s => { s with line := m.pos.line, column := m.pos.column }

/-- The code of statements in order. -/
def body : List MarkedStmt → Compile Unit
  | [] => pure ()
  | s :: ss => do
    stmt s
    body ss

/-- The code of handlers in order; gives the places of the jumps to the final part. -/
def handlers : List (Handler Mark MarkedExpr MarkedStmt) → Compile (List Nat)
  | [] => return []
  | ⟨m, type, name, inner⟩ :: rest => do
    setLine m.pos.line
    let next ← handlerHead type name
    body inner
    setLine m.pos.line
    emit .handle 0
    let handled ← reserve
    patchHere .jumpIfFalse next.toList
    let more ← handlers rest
    return handled :: more

end

/-- The code object of a program. -/
def root : Root Mark → Compile Code
  | .module m statements => do
    setLine m.pos.line
    nestedCode "<module>" .module m.pos.line do
      body statements
      returnNone
  | .expression m e => do
    setLine m.pos.line
    nestedCode "<expression>" .expression m.pos.line do
      expr e
      emit .ret 0

end Compile

/-- What the log says about a program that was compiled to a number of code objects. -/
def compiledEntry (file : Text) (codes : Nat) (c : Code) : LogEntry :=
  ⟨.info, .plain ("compiled " ++ file ++ ": " ++ (codes : Text) ++ " code objects, " ++
    (c.size : Text) ++ " instructions")⟩

/-- Compiles a tree. -/
def compileTree (file : Text) (root : Root Mark) : Logged Code :=
  match (Compile.root root).run { file, line := root.mark.pos.line } with
  | .ok (code, s) => (.ok code, [compiledEntry file s.codes code])
  | .error fault =>
    let d := fault.diagnostic file
    (.error d, [d.logEntry])

/-- Compiles what was parsed, after the entries of the log so far. -/
def compileParsed (file : Text) : Logged Parsed → Logged Code
  | (.error d, logs) => (.error d, logs)
  | (.ok p, logs) =>
    let (outcome, more) := compileTree file p.root
    (outcome, logs ++ more)

/-- Parses and compiles a program. -/
def compileModule (file source : Text) : Logged Code :=
  compileParsed file (parseModule file source)

/-- The name under which a single expression is compiled. -/
def expressionFile : Text := "expression"

/-- Parses and compiles a single expression. -/
def compileExpression (source : Text) : Logged Code :=
  compileParsed expressionFile (parseExpression expressionFile source)

/-- The name under which what is typed at the prompt is compiled. -/
def promptFile : Text := "<stdin>"

/-- Compiles what was typed at the prompt: as an expression if it is one, and otherwise as a
program. The log knows only about the latter. -/
def compilePrompt (source : Text) : Logged Code :=
  match compileExpression source with
  | (.ok code, _) => (.ok code, [])
  | (.error _, _) => compileModule promptFile (source ++ "\n")

end Toolchain

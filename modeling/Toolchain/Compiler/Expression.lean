import Toolchain.Compiler.Basic

/-!
# Compilation of expressions

The code of an expression leaves its value on the stack. The parts of a compound value are pushed
last to first, so that they are taken from the stack in the order of the source.

## Main definitions

* `Compile.expr`: the code of an expression
* `Compile.store`, `Compile.delete`: the code that stores into a target, and that deletes it
* `Compile.checkArity`: the check that a display has as many values as there are targets for it
-/

namespace Toolchain

/-- The operand of a conversion. -/
def Conversion.code : Option Conversion → Nat
  | none => 0
  | some .str => 1
  | some .repr => 2
  | some .ascii => 3

namespace Compile

/-- Ends the compilation: a node cannot be compiled. -/
def unsupported {α : Type} (what : String) (pos : Position) : Compile α :=
  failAt .unsupportedNode pos (.entry .unsupportedNode [what, pos.line])

/-- The name under which a mapping is passed whose items are keyword arguments. -/
def mappingName : String := "**"

/-- Loads a literal. -/
def literal : Literal → Compile Unit
  | .none => emitSpecial none
  | .bool b => emitSpecial (some b)
  | .int n => emitConst (.int n)
  | .float x => emitConst (.float x)
  | .str s => emitConst (.string s)

/-- Refuses to build more values into one than an operand can say. -/
def checkCount (count : Nat) : Compile Unit := do
  if count > maxBuildCount then overflow .build count maxBuildCount

/-- Appends the instruction that builds values into one. -/
def emitBuild (kind : BuildKind) (count : Nat) : Compile Unit :=
  emit .build (buildOperand kind.number count)

/-- Whether an expression is compiled in its own way when it is a part of a subscript: it does not
set the source line, and a tuple of parts is built without regard to their number. -/
def isSubscriptPart : MarkedExpr → Bool
  | .tuple .. | .index .. | .slice .. => true
  | _ => false

mutual

/-- The code of an expression, or, if `part` is set, of a part of a subscript. -/
def code (part : Bool) (e : MarkedExpr) : Compile Unit := do
  if !(part && isSubscriptPart e) && e.mark.pos.line > 0 then setLine e.mark.pos.line
  match e with
  | .boolOp _ op values =>
    let places ← connected values
    patchHere (match op with
      | .and => .jumpIfFalse
      | .or => .jumpIfTrue) places
  | .binOp _ left op right =>
    code false left
    code false right
    emit .binary op.code
  | .unaryOp _ op operand =>
    code false operand
    emit .unary op.code
  | .lambda m ⟨params, defaults, vararg, kwarg⟩ body =>
    reversed false defaults
    let line := (← get).line
    let inner ← nestedCode "<lambda>" .lambda m.pos.line do
      code false body
      emit .ret 0
    setLine line
    emitConst (.code (withParams inner
      ({ params, vararg, kwarg } : Signature Mark MarkedExpr)))
    emit .makeFunction defaults.length
  | .dict _ pairs =>
    checkCount pairs.length
    items pairs
    emitBuild .dict pairs.length
  | .compare _ left rest =>
    code false left
    let places ← comparisons rest
    if !places.isEmpty then
      let done ← reserve
      patchHere .jumpIfFalse places
      emit .rot 2
      emit .pop 0
      patchHere .jump [done]
  | .call _ func args kws =>
    if args.length > maxPositional || kws.length > maxKeywords then
      fail .operandRange (.entry .tooManyArguments [(← get).line])
    code false func
    keywords kws
    reversed false args
    emit .call (callOperand args.length kws.length)
  | .constant _ value => literal value
  | .attr _ value label _ =>
    code false value
    emitName .loadAttr label
  | .subscript _ value index _ =>
    code false value
    code true index
    emit .subscr 0
  | .name _ id _ => emitName .loadName id
  | .list _ elts _ =>
    checkCount elts.length
    reversed false elts
    emitBuild .list elts.length
  | .tuple _ elts _ =>
    if !part then checkCount elts.length
    reversed part elts
    emitBuild .tuple elts.length
  | .slice _ lower upper step =>
    optional step
    optional upper
    optional lower
    emitBuild .slice 3
  | .index _ value => code false value
  | .formatted _ value conversion spec =>
    code false value
    match spec with
    | none => emit .format (Conversion.code conversion)
    | some spec =>
      code false spec
      emit .format (Conversion.code conversion + formatSpecBit)

/-- The code of an expression that may be missing, in whose place stands none. -/
def optional : Option MarkedExpr → Compile Unit
  | none => emitSpecial none
  | some e => code false e

/-- The code of expressions, or of parts of a subscript, last to first. -/
def reversed (part : Bool) : List MarkedExpr → Compile Unit
  | [] => pure ()
  | e :: es => do
    reversed part es
    code part e

/-- The code of the items of a dictionary, last to first, each value before its key. -/
def items : List (MarkedExpr × MarkedExpr) → Compile Unit
  | [] => pure ()
  | (key, value) :: rest => do
    items rest
    code false value
    code false key

/-- The code of keyword arguments, last to first, each value before its name. -/
def keywords : List (KeywordArg Mark MarkedExpr) → Compile Unit
  | [] => pure ()
  | ⟨_, key, value⟩ :: rest => do
    keywords rest
    code false value
    emitConst (.string (key.getD mappingName))

/-- The code of the operands of a connective; gives the places of the jumps to its end. -/
def connected : List MarkedExpr → Compile (List Nat)
  | [] => return []
  | [e] => do
    code false e
    return []
  | e :: es => do
    code false e
    emit .dup 1
    let place ← reserve
    emit .pop 0
    let places ← connected es
    return place :: places

/-- The code of a chain of comparisons after its first operand; gives the places of the jumps to
where the last operand is dropped. -/
def comparisons : List (CompareOp × MarkedExpr) → Compile (List Nat)
  | [] => return []
  | [(op, e)] => do
    code false e
    emit .compare op.code
    return []
  | (op, e) :: rest => do
    code false e
    emit .dup 1
    emit .rot 3
    emit .compare op.code
    emit .dup 1
    let place ← reserve
    emit .pop 0
    let places ← comparisons rest
    return place :: places

end

/-- The code of an expression. -/
def expr (e : MarkedExpr) : Compile Unit := code false e

/-- The code of a part of a subscript. -/
def subscriptPart (e : MarkedExpr) : Compile Unit := code true e

/-! ## Targets -/

mutual

/-- The code that takes a value from the stack and stores it into a target. A tuple or a list of
targets iterates over the value. -/
def store : MarkedExpr → Compile Unit
  | .name _ id _ => emitName .storeName id
  | .attr _ value label _ => do
    expr value
    emitName .storeAttr label
  | .subscript _ value index _ => do
    expr value
    subscriptPart index
    emit .subscr 1
  | .tuple _ elts _ | .list _ elts _ => do
    emit .iter 0
    let places ← stores elts
    let done ← position
    emit .pop 0
    places.forM fun place => patch place .next done
  | e => unsupported e.tag.label e.mark.pos

/-- The code that stores the values of an iterator into targets; gives the places where the next
value is asked for. -/
def stores : List MarkedExpr → Compile (List Nat)
  | [] => return []
  | e :: es => do
    let place ← reserve
    store e
    let places ← stores es
    return place :: places

end

mutual

/-- The code that deletes a target. -/
def delete : MarkedExpr → Compile Unit
  | .name _ id _ => emitName .deleteName id
  | .attr _ value label _ => do
    expr value
    emitName .deleteAttr label
  | .subscript _ value index _ => do
    expr value
    subscriptPart index
    emit .subscr 2
  | .tuple _ elts _ | .list _ elts _ => deletes elts
  | e => unsupported e.tag.label e.mark.pos

/-- The code that deletes targets. -/
def deletes : List MarkedExpr → Compile Unit
  | [] => pure ()
  | e :: es => do
    delete e
    deletes es

end

/-- The elements of a tuple or a list. -/
def elements? : MarkedExpr → Option (List MarkedExpr)
  | .tuple _ elts _ | .list _ elts _ => some elts
  | _ => none

/-- The values of a display that is unpacked into a number of targets, which it has to match; none
if it is no display. -/
def unpacked (pos : Position) (count : Nat) (value : MarkedExpr) : Compile (List MarkedExpr) :=
  match elements? value with
  | none => return []
  | some values =>
    if count = values.length then return values
    else failAt .unpackCount pos (.entry .unpackArity [values.length, count, pos.line])

mutual

/-- Checks that a display that is unpacked has as many values as there are targets. -/
def checkArity : MarkedExpr → MarkedExpr → Compile Unit
  | .tuple m targets _, value | .list m targets _, value => do
    checkArities targets (← unpacked m.pos targets.length value)
  | _, _ => pure ()

/-- Checks targets against the values at the same place. -/
def checkArities : List MarkedExpr → List MarkedExpr → Compile Unit
  | target :: targets, value :: values => do
    checkArity target value
    checkArities targets values
  | _, _ => pure ()

end

end Compile

end Toolchain

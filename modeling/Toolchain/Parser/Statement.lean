import Toolchain.Parser.Expression

/-!
# The grammar of simple statements

A simple statement stands on one line, ended by a newline, a semicolon or the end of the input.

## Main definitions

* `Parse.target`: an expression made a target
* `Parse.simpleStatement`: a simple statement with its end
-/

namespace Toolchain

/-- A statement with numbers and positions. -/
abbrev MarkedStmt := Stmt Mark

namespace Parse

/-- An expression at the outermost depth. -/
def anyExpr : Parse MarkedExpr := expression maxDepth

/-- Expressions with commas between them, at the outermost depth. -/
def anyExprList : Parse MarkedExpr := exprList anyExpr

/-- How a diagnostic names an expression that cannot be a target. -/
def describe : MarkedExpr → String
  | .constant .. => "literal"
  | .call .. => "function call"
  | .binOp .. | .unaryOp .. => "operator"
  | .boolOp .. => "expression"
  | .compare .. => "comparison"
  | .lambda .. => "lambda"
  | .dict .. => "dict display"
  | .formatted .. => "f-string expression"
  | e => e.tag.label

mutual

/-- The part of a target that a diagnostic is about: the first element that is not a single place,
and in it again the first such element. -/
def invalidPart : MarkedExpr → MarkedExpr
  | .tuple m elts ctx => (firstInvalid elts).getD (.tuple m elts ctx)
  | .list m elts ctx => (firstInvalid elts).getD (.list m elts ctx)
  | e => e

/-- The part that a diagnostic is about in the first of some expressions that is not a single
place. -/
def firstInvalid : List MarkedExpr → Option MarkedExpr
  | [] => none
  | e :: es => if e.isPlace then firstInvalid es else some (invalidPart e)

end

/-- An expression as a target that starts at a token. -/
def target (ctx : Context) (token : Token) (e : MarkedExpr) : Parse MarkedExpr :=
  match e.withContext? ctx with
  | some e => return e
  | none =>
    let id := if ctx = .del then .cannotDelete else .invalidTarget
    throw (Fault.atToken .invalidTarget token
      (.entry id [describe (invalidPart e), token.pos.line, token.pos.column]))

/-- A return with its value, if it has one. -/
def returnStatement : Parse MarkedStmt := do
  let word ← advance
  let value ← expr? anyExprList
  return .ret (← register .ret word.pos) value

/-- Places to be deleted. -/
def deleteStatement : Parse MarkedStmt := do
  let word ← advance
  let targets ← iterate (fun (targets : List MarkedExpr) => do
    let token ← peek
    let place ← target .del token (← anyExpr)
    let targets := targets ++ [place]
    if ← accept .comma then
      if startsExpr (← peekKind) then return .again targets else return .done targets
    else return .done targets) []
  return .delete (← register .delete word.pos) targets

/-- An exception to be raised, and what caused it. -/
def raiseStatement : Parse MarkedStmt := do
  let word ← advance
  let exc ← expr? anyExpr
  let cause ← if exc.isSome then
      if ← accept (.keyword .from) then some <$> anyExpr else pure none
    else pure none
  return .raise (← register .raise word.pos) exc cause

/-- A condition that has to hold, and what to say if it does not. -/
def assertStatement : Parse MarkedStmt := do
  let word ← advance
  let test ← anyExpr
  let msg ← if ← accept .comma then some <$> anyExpr else pure none
  return .assert (← register .assert word.pos) test msg

/-- Names with points between them. -/
def dottedName : Parse String := do
  let first ← expect .identifier
  iterate (fun (name : String) => do
    if ← accept .dot then
      let next ← expect .identifier
      return .again (name ++ "." ++ next.value)
    else return .done name) first.value

/-- The name of a module, or of something in it, and the name it is bound to. -/
def importName (name : Parse String) : Parse (Alias Mark) := do
  let token ← peek
  let name ← name
  let asName ← if ← accept (.keyword .as) then do
      let id ← expect .identifier
      pure (some id.value)
    else pure none
  return ⟨← register .importName token.pos, name, asName⟩

/-- Modules to be imported. -/
def importStatement : Parse MarkedStmt := do
  let word ← advance
  let names ← iterate (fun (names : List (Alias Mark)) => do
    let names := names ++ [← importName dottedName]
    if ← accept .comma then return .again names else return .done names) []
  return .imports (← register .imports word.pos) names

/-- An identifier. -/
def identifier : Parse String := do
  return (← expect .identifier).value

/-- Names to be imported from a module, with or without parentheses. -/
def importedNames : Parse (List (Alias Mark)) := do
  let star ← peek
  if ← accept (.binary .mult) then
    return [⟨← register .importName star.pos, "*", none⟩]
  let inParens ← accept (.opening .paren)
  let names ← iterate (fun (names : List (Alias Mark)) => do
    let names := names ++ [← importName identifier]
    if ← accept .comma then
      if inParens && (← check (.closing .paren)) then return .done names
      else return .again names
    else return .done names) []
  if inParens then
    let _ ← expect (.closing .paren)
  return names

/-- Names to be imported from a module; leading points count the levels it is relative to. -/
def importFromStatement : Parse MarkedStmt := do
  let word ← advance
  let level ← iterate (fun (level : Nat) => do
    if ← accept .dot then return .again (level + 1) else return .done level) 0
  let module ← if level = 0 || (← check .identifier) then some <$> dottedName else pure none
  let _ ← expect (.keyword .imports)
  let names ← importedNames
  return .importFrom (← register .importFrom word.pos) module names level

/-- An assignment after its first target: the further targets, each with the token it starts at, and
the value. -/
def assignment (first : Token) (e : MarkedExpr) : Parse MarkedStmt := do
  let (targets, _, value) ← iterate
    (fun ((targets, start, value) : List (Token × MarkedExpr) × Token × MarkedExpr) => do
      if ← accept .assign then
        let next ← peek
        let more ← anyExprList
        return .again (targets ++ [(start, value)], next, more)
      else return .done (targets, start, value)) ([], first, e)
  let places ← targets.mapM fun (token, e) => target .store token e
  return .assign (← register .assign first.pos) places value

/-- An expression, an assignment or an augmented assignment. -/
def exprStatement : Parse MarkedStmt := do
  let first ← peek
  let e ← anyExprList
  match ← peekKind with
  | .assign => assignment first e
  | .augmented op =>
    if e.isPlace then
      let _ ← advance
      let place := (e.withContext? .store).getD e
      let value ← anyExprList
      return .augAssign (← register .augAssign first.pos) place op value
    else
      throw (Fault.atToken .invalidTarget first
        (.entry .invalidTarget [describe e, first.pos.line, first.pos.column]))
  | _ => return .expr (← register .expr first.pos) e

/-- Takes the end of a simple statement; tells whether another one follows on the line. -/
def endStatement : Parse Bool := do
  let token ← peek
  match token.kind with
  | .newLine =>
    let _ ← advance
    return false
  | .finish => return false
  | .semicolon =>
    let _ ← advance
    if ← accept .newLine then return false
    else return !(← check .finish)
  | _ => unexpected token

/-- The statement that is nothing but a word. -/
def wordStatement (tag : NodeTag) (make : Mark → MarkedStmt) : Parse MarkedStmt := do
  let word ← advance
  return make (← register tag word.pos)

/-- A simple statement with its end; tells whether another one follows on the line. -/
def simpleStatement : Parse (MarkedStmt × Bool) := do
  let token ← peek
  let s ← match token.kind with
    | .keyword .pass => wordStatement .pass .pass
    | .keyword .break => wordStatement .breakLoop .breakLoop
    | .keyword .continue => wordStatement .continueLoop .continueLoop
    | .keyword .return => returnStatement
    | .keyword .del => deleteStatement
    | .keyword .raise => raiseStatement
    | .keyword .assert => assertStatement
    | .keyword .imports => importStatement
    | .keyword .from => importFromStatement
    | kind => if startsExpr kind then exprStatement else unexpected token
  return (s, ← endStatement)

end Parse

end Toolchain

import Toolchain.Parser.Statement

/-!
# The block structure

Blocks are told apart by the width of their indentation. The parser keeps the block it is in and,
for each block around it, the clause that the inner block is the body of. A conditional or a `try`
that may still get clauses is the open chain of its block; it is closed by any other statement and
by the end of the block.

## Main definitions

* `Chain`: a conditional or a `try` that may still get clauses
* `Block`, `Clause`, `Blocks`: the open blocks
* `Blocks.step`: reads one statement or clause, or leaves a block
* `parseModule`, `parseExpression`: the two ways to parse a text
-/

namespace Toolchain

/-- A clause of a conditional: its condition and its body. -/
structure Branch where
  mark : Mark
  test : MarkedExpr
  body : List MarkedStmt

/-- A `try` with the clauses it has so far. -/
structure TryChain where
  mark : Mark
  body : List MarkedStmt
  handlers : List (Handler Mark MarkedExpr MarkedStmt) := []
  orelse : List MarkedStmt := []

/-- A statement that may still get clauses. -/
inductive Chain where
  /-- A conditional: its last clause and the clauses before it, last first. -/
  | branches (last : Branch) (before : List Branch)
  | attempt (t : TryChain)

namespace Chain

/-- A conditional with a given alternative: each clause is the alternative of the one before it. -/
def conditional (orelse : List MarkedStmt) (last : Branch) : List Branch → MarkedStmt
  | [] => .ifElse last.mark last.test last.body orelse
  | previous :: before =>
    conditional [.ifElse last.mark last.test last.body orelse] previous before

end Chain

/-- An open block. -/
structure Block where
  /-- The width of its indentation. -/
  width : Nat
  /-- The statements before the open chain, last first. -/
  done : List MarkedStmt := []
  /-- The statement that may still get clauses. -/
  chain : Option Chain := none

/-- What an inner block is the body of. A clause that continues a chain holds the chain. -/
inductive Clause where
  | ifTest (word : Position) (test : MarkedExpr)
  | elifTest (last : Branch) (before : List Branch) (word : Position) (test : MarkedExpr)
  | otherwise (last : Branch) (before : List Branch)
  | tryBody (word : Position)
  | handler (t : TryChain) (word : Position) (type : Option MarkedExpr) (name : Option String)
  | tryElse (t : TryChain)
  | finally (t : TryChain)
  | whileTest (word : Position) (test : MarkedExpr)
  | forEach (word : Position) (target iter : MarkedExpr)
  | function (word : Position) (name : String) (signature : Signature Mark MarkedExpr)
  | classDef (word : Position) (name : String) (bases : List MarkedExpr)

/-- A block around the innermost one, with the clause the inner one is the body of. -/
structure Enclosing where
  block : Block
  clause : Clause
  /-- The newline after the colon of the clause. -/
  newline : Token

/-- The open blocks: the innermost one and those around it, from the inside out. -/
structure Blocks where
  inner : Block
  outer : List Enclosing := []

namespace Block

open Parse

/-- Ends the parse: a clause stands where it may not. -/
def misplaced {α : Type} (word : Token) (id : MessageId) : Parse α :=
  throw (Fault.placed .misplacedClause word id)

/-- Ends the parse: a clause of a chain stands after one it may not follow. -/
def outOfOrder {α : Type} (word : Token) : Parse α :=
  throw (Fault.atToken .misplacedClause word
    (.entry .clauseOrder [word.value, word.pos.line, word.pos.column]))

/-- The block with one more statement. -/
def push (b : Block) (s : MarkedStmt) : Block := { b with done := s :: b.done }

/-- Closes the open chain of a block. A `try` has to have a handler by now. -/
def closeChain (b : Block) : Parse Block :=
  let closed : Block := { b with chain := none }
  match b.chain with
  | none => return b
  | some (.branches last before) => return closed.push (Chain.conditional [] last before)
  | some (.attempt t) =>
    if t.handlers.isEmpty then
      misplaced ⟨.keyword .try, Keyword.spelling .try, t.mark.pos⟩ .tryWithoutHandler
    else return closed.push (.tryExcept t.mark t.body t.handlers t.orelse [])

/-- The block after a clause with its body. -/
def attach (b : Block) (body : List MarkedStmt) : Clause → Parse Block
  | .ifTest word test => do
    let mark ← register .ifElse word
    return { b with chain := some (.branches ⟨mark, test, body⟩ []) }
  | .elifTest last before word test => do
    let mark ← register .ifElse word
    return { b with chain := some (.branches ⟨mark, test, body⟩ (last :: before)) }
  | .otherwise last before => return b.push (Chain.conditional body last before)
  | .tryBody word => do
    let mark ← register .tryExcept word
    return { b with chain := some (.attempt { mark, body }) }
  | .handler t word type name => do
    let mark ← register .handler word
    let t := { t with handlers := t.handlers ++ [⟨mark, type, name, body⟩] }
    return { b with chain := some (.attempt t) }
  | .tryElse t => return { b with chain := some (.attempt { t with orelse := body }) }
  | .finally t => return b.push (.tryExcept t.mark t.body t.handlers t.orelse body)
  | .whileTest word test => do
    return b.push (.whileLoop (← register .whileLoop word) test body)
  | .forEach word target iter => do
    return b.push (.forLoop (← register .forLoop word) target iter body)
  | .function word name signature => do
    return b.push (.functionDef (← register .functionDef word) name signature body)
  | .classDef word name bases => do
    return b.push (.classDef (← register .classDef word) name bases body)

end Block

namespace Blocks

open Parse Block

/-- Ends the parse: a clause has no body. -/
def missingBody {α : Type} (token : Token) : Parse α :=
  throw (Fault.placed .missingBody token .missingBody)

/-- The simple statements of a body that stands on the line of its clause. -/
def inlineBody : Parse (List MarkedStmt) :=
  iterate (fun (body : List MarkedStmt) => do
    let (s, more) ← simpleStatement
    let body := body ++ [s]
    if more then return .again body else return .done body) []

/-- Reads the colon of a clause and the start of its body: the whole body if it stands on the same
line, and otherwise the indentation of a new block, which has to be wider. -/
def suite (b : Blocks) (clause : Clause) : Parse Blocks := do
  let _ ← expect .colon
  let token ← peek
  match token.kind with
  | .newLine =>
    let _ ← advance
    let indentation ← peek
    if indentation.kind = .indentation ∧ b.inner.width < indentation.width then
      return ⟨{ width := indentation.width }, ⟨b.inner, clause, token⟩ :: b.outer⟩
    else missingBody token
  | .finish => missingBody token
  | _ =>
    let body ← inlineBody
    return { b with inner := ← b.inner.attach body clause }

/-- The targets of a loop: operands with commas between them, up to `in`. -/
def loopTargets : Parse MarkedExpr := do
  let first ← peek
  let (elts, isTuple) ← iterate (fun (elts : List MarkedExpr) => do
    let elts := elts ++ [← operand maxDepth]
    if ← accept .comma then
      if ← check (.keyword .in) then return .done (elts, true) else return .again elts
    else return .done (elts, elts.length > 1)) []
  let e ← match elts, isTuple with
    | [e], false => pure e
    | elts, _ => do
      let mark ← register .tuple first.pos
      pure (.tuple mark elts .load)
  target .store first e

/-- The bases of a class, with their parentheses. -/
def classBases : Parse (List MarkedExpr) := do
  if ← accept (.opening .paren) then
    let bases ← elements anyExpr .paren
    let _ ← expect (.closing .paren)
    return bases
  else return []

/-- A statement. The open chain of the block is closed. -/
def statement (b : Blocks) (word : Token) : Parse Blocks := do
  match word.kind with
  | .keyword .if =>
    let _ ← advance
    let test ← anyExpr
    b.suite (.ifTest word.pos test)
  | .keyword .while =>
    let _ ← advance
    let test ← anyExpr
    b.suite (.whileTest word.pos test)
  | .keyword .for =>
    let _ ← advance
    let place ← loopTargets
    let _ ← expect (.keyword .in)
    let iter ← anyExprList
    b.suite (.forEach word.pos place iter)
  | .keyword .try =>
    let _ ← advance
    b.suite (.tryBody word.pos)
  | .keyword .define =>
    let _ ← advance
    let name ← expect .identifier
    let _ ← expect (.opening .paren)
    let signature ← parameters anyExpr (.closing .paren)
    let _ ← expect (.closing .paren)
    b.suite (.function word.pos name.value signature)
  | .keyword .classes =>
    let _ ← advance
    let name ← expect .identifier
    let bases ← classBases
    b.suite (.classDef word.pos name.value bases)
  | _ =>
    let (s, _) ← simpleStatement
    return { b with inner := b.inner.push s }

/-- The blocks with the open chain of the innermost one taken into a clause. -/
def continuing (b : Blocks) : Blocks := { b with inner := { b.inner with chain := none } }

/-- A clause that continues a conditional. -/
def elifClause (b : Blocks) : Parse Blocks := do
  let word ← advance
  match b.inner.chain with
  | some (.branches last before) =>
    let test ← anyExpr
    b.continuing.suite (.elifTest last before word.pos test)
  | _ => misplaced word .elifWithoutIf

/-- The alternative of a conditional, or of a `try` that has a handler and no alternative. -/
def elseClause (b : Blocks) : Parse Blocks := do
  let word ← advance
  match b.inner.chain with
  | some (.attempt t) =>
    if t.handlers.isEmpty || !t.orelse.isEmpty then outOfOrder word
    else b.continuing.suite (.tryElse t)
  | some (.branches last before) => b.continuing.suite (.otherwise last before)
  | none => misplaced word .elseWithoutIf

/-- Whether the last handler of a `try` handles all exceptions. -/
def endsInCatchAll (t : TryChain) : Bool := t.handlers.getLast?.any fun h => h.type.isNone

/-- A handler. It may not follow an alternative or a handler of all exceptions. -/
def exceptClause (b : Blocks) : Parse Blocks := do
  let word ← advance
  match b.inner.chain with
  | some (.attempt t) =>
    if !t.orelse.isEmpty || endsInCatchAll t then outOfOrder word
    else if ← check .colon then b.continuing.suite (.handler t word.pos none none)
    else
      let type ← anyExpr
      let name ← if ← accept (.keyword .as) then some <$> identifier else pure none
      b.continuing.suite (.handler t word.pos (some type) name)
  | _ => misplaced word .exceptWithoutTry

/-- What is done at the end in any case. -/
def finallyClause (b : Blocks) : Parse Blocks := do
  let word ← advance
  match b.inner.chain with
  | some (.attempt t) => b.continuing.suite (.finally t)
  | _ => misplaced word .finallyWithoutTry

/-- The widths of the open blocks, from the inside out. -/
def widths (b : Blocks) : List Nat := b.inner.width :: b.outer.map fun e => e.block.width

/-- Leaves the innermost block: its statements become the body of their clause, and those of the
outermost one are the program. -/
def leave (b : Blocks) : Parse (Next Blocks (List MarkedStmt)) := do
  let inner ← b.inner.closeChain
  let body := inner.done.reverse
  match b.outer with
  | [] => return .done body
  | e :: outer =>
    if body.isEmpty then missingBody e.newline
    else return .again ⟨← e.block.attach body e.clause, outer⟩

/-- Reads one statement or clause, or leaves a block. -/
def step (b : Blocks) : Parse (Next Blocks (List MarkedStmt)) := do
  let token ← peek
  match token.kind with
  | .finish => b.leave
  | .indentation =>
    if token.width < b.inner.width then
      if b.widths.contains token.width then b.leave
      else throw (Fault.placed .indentation token .unindentMismatch)
    else if b.inner.width < token.width then
      throw (Fault.placed .indentation token .unexpectedIndent)
    else
      let _ ← advance
      return .again b
  | .keyword .elif => return .again (← b.elifClause)
  | .keyword .else => return .again (← b.elseClause)
  | .keyword .except => return .again (← b.exceptClause)
  | .keyword .finally => return .again (← b.finallyClause)
  | _ =>
    let inner ← b.inner.closeChain
    return .again (← { b with inner }.statement token)

/-- Reads statements until the input ends. Each step takes a token or leaves a block, and a block
is entered only after tokens have been taken. -/
def run : Parse (List MarkedStmt) := do
  iterateWithin step (2 * (← get).tokens.length + 2) { inner := { width := 0 } }

end Blocks

/-- The outcome of a parse: a program and the nodes made for it. -/
structure Parsed where
  root : Root Mark
  arena : Arena

namespace Parse

/-- A whole program. -/
def module : Parse (Root Mark) := do
  let first ← peek
  let body ← Blocks.run
  return .module (← register .module first.pos) body

/-- A single expression, with nothing after it but a newline. -/
def singleExpression : Parse (Root Mark) := do
  let first ← peek
  if first.kind = .indentation then
    throw (Fault.placed .indentation first .unexpectedIndent)
  let body ← anyExprList
  if ← accept .newLine then
    let _ ← accept .indentation
  let _ ← expect .finish
  return .expression (← register .expression first.pos) body

/-- Runs a rule of the grammar on a text. -/
def run (rule : Parse (Root Mark)) (file source : Text) : Except Diagnostic Parsed :=
  match StateT.run rule (start source {}) with
  | .ok (root, s) => .ok ⟨root, s.arena⟩
  | .error fault => .error (fault.diagnostic file)

end Parse

/-- The number of statements of a program. -/
def Root.size {α : Type} : Root α → Nat
  | .module _ body => body.length
  | .expression .. => 1

/-- What the log says about a program that was parsed. -/
def Parsed.logEntry (file : Text) (p : Parsed) : LogEntry :=
  ⟨.info, .plain ("parsed " ++ file ++ ": " ++ (p.root.size : Text) ++ " statements, " ++
    (p.arena.size : Text) ++ " nodes")⟩

/-- What the log says about a diagnostic. -/
def Diagnostic.logEntry (d : Diagnostic) : LogEntry := ⟨.error, d.message⟩

/-- An outcome with the entries of the log that go with it. -/
abbrev Logged (α : Type) := Except Diagnostic α × List LogEntry

/-- Parses a program. -/
def parseModule (file source : Text) : Logged Parsed :=
  match Parse.run Parse.module file source with
  | .ok p => (.ok p, [p.logEntry file])
  | .error d => (.error d, [d.logEntry])

/-- Parses a single expression. -/
def parseExpression (file source : Text) : Logged Parsed :=
  match Parse.run Parse.singleExpression file source with
  | .ok p => (.ok p, [])
  | .error d => (.error d, [d.logEntry])

end Toolchain

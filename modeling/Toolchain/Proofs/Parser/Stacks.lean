import Toolchain.Parser.Block
import Toolchain.Proofs.Tree.Nodes

/-!
# The block structure with stacks of open chains

The block structure can be read with less in each block: a body is only its statements, and a chain
that may still get clauses is an entry on one of two stacks, one for conditionals and one for `try`.
An entry names the last node of its chain and the width of its block. The node stands in the tree
already, and a clause is put into it under its number once the suite of the clause has been read. An
entry is pushed when the statement is made, replaced by `elif`, taken off by `else` and `finally`,
and otherwise closed late: by the next statement of its block, or at the end of the block.

Nothing in here makes sure that a number that is looked up names a node, or that a stack has the
entry that is taken off. Where that fails, the reading has gone astray, which is not a fault of the
program.

## Main definitions

* `Stmt.patch`: a statement in which the statement with a given number is changed
* `ChainSite`, `Body`, `Task`, `Stacks`: the bodies that are read, what they are read for, and the
  stacks
* `Stacks.closeChains`, `Stacks.openIf?`, `Stacks.openTry?`: how the stacks are used
* `Stacks.step`, `Stacks.program`: reads one statement or clause, or leaves a body; reads a program
-/

namespace Toolchain

open Parse Block

/-! ## Changing a node in place -/

mutual

/-- A statement in which the statement with a given number is changed, wherever it stands. -/
def Stmt.patch (id : Nat) (f : MarkedStmt → MarkedStmt) (s : MarkedStmt) : MarkedStmt :=
  if s.mark.id = id then f s
  else match s with
    | .functionDef m name signature body => .functionDef m name signature (Stmt.patchAll id f body)
    | .classDef m name bases body => .classDef m name bases (Stmt.patchAll id f body)
    | .forLoop m target iter body => .forLoop m target iter (Stmt.patchAll id f body)
    | .whileLoop m test body => .whileLoop m test (Stmt.patchAll id f body)
    | .ifElse m test body orelse =>
      .ifElse m test (Stmt.patchAll id f body) (Stmt.patchAll id f orelse)
    | .tryExcept m body handlers orelse final =>
      .tryExcept m (Stmt.patchAll id f body) (Stmt.patchHandlers id f handlers)
        (Stmt.patchAll id f orelse) (Stmt.patchAll id f final)
    | s => s

/-- Statements in which the statement with a given number is changed. -/
def Stmt.patchAll (id : Nat) (f : MarkedStmt → MarkedStmt) : List MarkedStmt → List MarkedStmt
  | [] => []
  | s :: ss => Stmt.patch id f s :: Stmt.patchAll id f ss

/-- Handlers in whose bodies the statement with a given number is changed. -/
def Stmt.patchHandlers (id : Nat) (f : MarkedStmt → MarkedStmt) :
    List (Handler Mark MarkedExpr MarkedStmt) → List (Handler Mark MarkedExpr MarkedStmt)
  | [] => []
  | ⟨m, type, name, body⟩ :: rest =>
    ⟨m, type, name, Stmt.patchAll id f body⟩ :: Stmt.patchHandlers id f rest

end

namespace Stmt

/-- A conditional or a `try` with another alternative. -/
def withOrelse (orelse : List MarkedStmt) : MarkedStmt → MarkedStmt
  | .ifElse m test body _ => .ifElse m test body orelse
  | .tryExcept m body handlers _ final => .tryExcept m body handlers orelse final
  | s => s

/-- A `try` with one more handler. -/
def withHandler (h : Handler Mark MarkedExpr MarkedStmt) : MarkedStmt → MarkedStmt
  | .tryExcept m body handlers orelse final => .tryExcept m body (handlers ++ [h]) orelse final
  | s => s

/-- A `try` with another final part. -/
def withFinal (final : List MarkedStmt) : MarkedStmt → MarkedStmt
  | .tryExcept m body handlers orelse _ => .tryExcept m body handlers orelse final
  | s => s

end Stmt

/-! ## The bodies and the stacks -/

/-- An entry of a stack: the number of the last node of an open chain, and the width of the block
that it stands in. -/
structure ChainSite where
  node : Nat
  depth : Nat
  deriving DecidableEq, Repr

/-- A body that is read: the width of its block, and its statements so far, last first. -/
structure Body where
  width : Nat
  statements : List MarkedStmt := []

/-- What a suite is read for. A clause that goes on with a chain knows the entry that was looked up
before its suite. -/
inductive Task where
  | ifTest (word : Position) (test : MarkedExpr)
  | elifTest (site : ChainSite) (word : Position) (test : MarkedExpr)
  | otherwise (site : ChainSite)
  | tryBody (word : Position)
  | handler (site : ChainSite) (word : Position) (type : Option MarkedExpr) (name : Option String)
  | tryElse (site : ChainSite)
  | finally (site : ChainSite)
  | compound (tag : NodeTag) (word : Position) (make : Mark → List MarkedStmt → MarkedStmt)

/-- A body around the innermost one, with what the inner one is read for. -/
structure Caller where
  body : Body
  task : Task
  /-- The newline in front of the inner body. -/
  newline : Token

/-- The bodies that are read, the widths of the open blocks, and the stacks of the open chains, each
from the inside out. -/
structure Stacks where
  body : Body
  callers : List Caller := []
  indents : List Nat
  ifStack : List ChainSite := []
  tryStack : List ChainSite := []

namespace Body

/-- The body with one more statement. -/
def push (b : Body) (s : MarkedStmt) : Body := { b with statements := s :: b.statements }

/-- The body in which a statement is changed. -/
def patch (b : Body) (id : Nat) (f : MarkedStmt → MarkedStmt) : Body :=
  { b with statements := Stmt.patchAll id f b.statements }

end Body

namespace Stacks

/-- The body with one more statement. -/
def push (m : Stacks) (s : MarkedStmt) : Stacks := { m with body := m.body.push s }

/-- Changes the statement with a given number, whichever body it stands in. -/
def patch (m : Stacks) (id : Nat) (f : MarkedStmt → MarkedStmt) : Stacks :=
  { m with
    body := m.body.patch id f
    callers := m.callers.map fun c => { c with body := c.body.patch id f } }

/-- All bodies that are read. -/
def bodies (m : Stacks) : List Body := m.body :: m.callers.map Caller.body

/-- The statement with a given number. -/
def node? (m : Stacks) (id : Nat) : Option MarkedStmt :=
  (Stmt.subtreesAll (m.bodies.flatMap Body.statements)).find? fun s => s.mark.id == id

/-- The alternative of the conditional with a given number. -/
def ifOrelse? (m : Stacks) (id : Nat) : Option (List MarkedStmt) :=
  match m.node? id with
  | some (.ifElse _ _ _ orelse) => some orelse
  | _ => none

/-- The `try` with a given number, and its final part. -/
def tryChain? (m : Stacks) (id : Nat) : Option (TryChain × List MarkedStmt) :=
  match m.node? id with
  | some (.tryExcept mark body handlers orelse final) =>
    some (⟨mark, body, handlers, orelse⟩, final)
  | _ => none

/-- The conditional that may get a clause at the width of the innermost body. -/
def openIf? (m : Stacks) : Option ChainSite :=
  m.ifStack.head?.filter fun site => site.depth = m.body.width

/-- The `try` that may get a clause at the width of the innermost body. -/
def openTry? (m : Stacks) : Option ChainSite :=
  m.tryStack.head?.filter fun site => site.depth = m.body.width

/-- Takes the `try` chains of a width or more off their stack. Each has to have a handler or a final
part by now. -/
def closeTries (m : Stacks) : List ChainSite → Parse (Option (List ChainSite))
  | [] => return some []
  | site :: rest => do
    if site.depth < m.body.width then return some (site :: rest)
    match m.tryChain? site.node with
    | none => return none
    | some (t, final) =>
      if t.handlers.isEmpty && final.isEmpty then
        misplaced ⟨.keyword .try, Keyword.spelling .try, t.mark.pos⟩ .tryWithoutHandler
      else m.closeTries rest

/-- Closes the chains of the width of the innermost body or more. -/
def closeChains (m : Stacks) : Parse (Option Stacks) := do
  match ← m.closeTries m.tryStack with
  | none => return none
  | some tryStack =>
    let ifStack := m.ifStack.dropWhile fun site => m.body.width ≤ site.depth
    return some { m with ifStack, tryStack }

/-- Does what a suite was read for. -/
def finish (m : Stacks) (suite : List MarkedStmt) : Task → Parse (Option Stacks)
  | .ifTest word test => do
    let mark ← register .ifElse word
    let ifStack := ⟨mark.id, m.body.width⟩ :: m.ifStack
    return some { m.push (.ifElse mark test suite []) with ifStack }
  | .elifTest site word test => do
    match m.ifOrelse? site.node, m.ifStack with
    | some orelse, _ :: below =>
      if !orelse.isEmpty then outOfOrder ⟨.keyword .elif, Keyword.spelling .elif, word⟩
      else
        let mark ← register .ifElse word
        let patched := m.patch site.node (Stmt.withOrelse [.ifElse mark test suite []])
        return some { patched with ifStack := ⟨mark.id, m.body.width⟩ :: below }
    | _, _ => return none
  | .otherwise site =>
    match m.ifStack with
    | _ :: below => return some { m.patch site.node (Stmt.withOrelse suite) with ifStack := below }
    | [] => return none
  | .tryBody word => do
    let mark ← register .tryExcept word
    let tryStack := ⟨mark.id, m.body.width⟩ :: m.tryStack
    return some { m.push (.tryExcept mark suite [] [] []) with tryStack }
  | .handler site word type name => do
    let mark ← register .handler word
    return some (m.patch site.node (Stmt.withHandler ⟨mark, type, name, suite⟩))
  | .tryElse site => return some (m.patch site.node (Stmt.withOrelse suite))
  | .finally site =>
    match m.tryChain? site.node, m.tryStack with
    | some _, _ :: below =>
      return some { m.patch site.node (Stmt.withFinal suite) with tryStack := below }
    | _, _ => return none
  | .compound tag word make => do
    let mark ← register tag word
    return some (m.push (make mark suite))

/-- Reads the suite of a clause up to the first token of its first line, or to its end if it stands
on the line of the clause. -/
def suite (m : Stacks) (task : Task) : Parse (Option Stacks) := do
  let _ ← expect .colon
  let token ← peek
  match token.kind with
  | .newLine =>
    let _ ← advance
    let indentation ← peek
    if indentation.kind = .indentation ∧ m.body.width < indentation.width then
      return some { m with
        body := { width := indentation.width }
        callers := ⟨m.body, task, token⟩ :: m.callers
        indents := indentation.width :: m.indents }
    else Blocks.missingBody token
  | .finish => Blocks.missingBody token
  | _ => m.finish (← Blocks.inlineBody) task

/-- A statement of the innermost body. -/
def statement (m : Stacks) (word : Token) : Parse (Option Stacks) := do
  match word.kind with
  | .keyword .if =>
    let _ ← advance
    let test ← anyExpr
    m.suite (.ifTest word.pos test)
  | .keyword .while =>
    let _ ← advance
    let test ← anyExpr
    m.suite (.compound .whileLoop word.pos fun mark body => .whileLoop mark test body)
  | .keyword .for =>
    let _ ← advance
    let place ← Blocks.loopTargets
    let _ ← expect (.keyword .in)
    let iter ← anyExprList
    m.suite (.compound .forLoop word.pos fun mark body => .forLoop mark place iter body)
  | .keyword .try =>
    let _ ← advance
    m.suite (.tryBody word.pos)
  | .keyword .define =>
    let _ ← advance
    let name ← expect .identifier
    let _ ← expect (.opening .paren)
    let signature ← parameters anyExpr (.closing .paren)
    let _ ← expect (.closing .paren)
    m.suite (.compound .functionDef word.pos fun mark body =>
      .functionDef mark name.value signature body)
  | .keyword .classes =>
    let _ ← advance
    let name ← expect .identifier
    let bases ← Blocks.classBases
    m.suite (.compound .classDef word.pos fun mark body => .classDef mark name.value bases body)
  | _ =>
    let (s, _) ← simpleStatement
    return some (m.push s)

/-- A clause that goes on with the open conditional. -/
def elifClause (m : Stacks) : Parse (Option Stacks) := do
  let word ← advance
  match m.openIf? with
  | none => misplaced word .elifWithoutIf
  | some site =>
    let test ← anyExpr
    m.suite (.elifTest site word.pos test)

/-- The alternative of the open `try`, or else of the open conditional. -/
def elseClause (m : Stacks) : Parse (Option Stacks) := do
  let word ← advance
  match m.openTry? with
  | some site =>
    match m.tryChain? site.node with
    | none => return none
    | some (t, final) =>
      if t.handlers.isEmpty || !t.orelse.isEmpty || !final.isEmpty then outOfOrder word
      else m.suite (.tryElse site)
  | none =>
    match m.openIf? with
    | none => misplaced word .elseWithoutIf
    | some site =>
      match m.ifOrelse? site.node with
      | none => return none
      | some orelse =>
        if !orelse.isEmpty then outOfOrder word else m.suite (.otherwise site)

/-- A handler of the open `try`. -/
def exceptClause (m : Stacks) : Parse (Option Stacks) := do
  let word ← advance
  match m.openTry? with
  | none => misplaced word .exceptWithoutTry
  | some site =>
    match m.tryChain? site.node with
    | none => return none
    | some (t, _) =>
      if !t.orelse.isEmpty || Blocks.endsInCatchAll t then outOfOrder word
      else if ← check .colon then m.suite (.handler site word.pos none none)
      else
        let type ← anyExpr
        let name ← if ← accept (.keyword .as) then some <$> identifier else pure none
        m.suite (.handler site word.pos (some type) name)

/-- The final part of the open `try`. -/
def finallyClause (m : Stacks) : Parse (Option Stacks) := do
  let word ← advance
  match m.openTry? with
  | none => misplaced word .finallyWithoutTry
  | some site => m.suite (.finally site)

/-- Goes on with the next token, unless the reading has gone astray. -/
def next : Option Stacks → Next Stacks (Option (List MarkedStmt))
  | some m => .again m
  | none => .done none

/-- Leaves the innermost body. -/
def leave (m : Stacks) : Parse (Next Stacks (Option (List MarkedStmt))) := do
  match ← m.closeChains with
  | none => return .done none
  | some m =>
    let suite := m.body.statements.reverse
    match m.callers with
    | [] => return .done (some suite)
    | c :: callers =>
      if suite.isEmpty then Blocks.missingBody c.newline
      else
        let outer := { m with body := c.body, callers, indents := m.indents.tail }
        return next (← outer.finish suite c.task)

/-- Looks at the next token, and reads one statement or clause or leaves a body. -/
def step (m : Stacks) : Parse (Next Stacks (Option (List MarkedStmt))) := do
  let token ← peek
  match token.kind with
  | .finish => m.leave
  | .indentation =>
    if token.width < m.body.width then
      if m.indents.contains token.width then m.leave
      else throw (Fault.placed .indentation token .unindentMismatch)
    else if m.body.width < token.width then
      throw (Fault.placed .indentation token .unexpectedIndent)
    else
      let _ ← advance
      return .again m
  | .keyword .elif => return next (← m.elifClause)
  | .keyword .else => return next (← m.elseClause)
  | .keyword .except => return next (← m.exceptClause)
  | .keyword .finally => return next (← m.finallyClause)
  | _ =>
    match ← m.closeChains with
    | none => return .done none
    | some m => return next (← m.statement token)

/-- The start of a program. -/
def start : Stacks := { body := { width := 0 }, indents := [0] }

/-- Reads statements until the input ends. -/
def run : Parse (Option (List MarkedStmt)) := do
  iterateWithin step (2 * (← get).tokens.length + 2) start

/-- A whole program. -/
def program : Parse (Option (Root Mark)) := do
  let first ← peek
  match ← run with
  | none => return none
  | some body => return some (.module (← register .module first.pos) body)

/-- What is reached in the reading of a program, each time that a token is looked at: no fault has
been found, and the reading has not gone astray. -/
inductive Reached (source : Text) : Stacks → ParseState → Prop where
  | start : Reached source start (Parse.start source {})
  | step {m m' : Stacks} {s s' : ParseState} (h : Reached source m s)
      (hrun : StateT.run m.step s = .ok (.again m', s')) : Reached source m' s'

end Stacks

end Toolchain

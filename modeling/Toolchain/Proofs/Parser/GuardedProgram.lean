import Toolchain.Proofs.Parser.Stacked

/-!
# Reading programs after a fault

The block structure is read with stacks by a parser that goes on after a fault: a body that is left
at an indentation no open block has closes its chains all the same, and each `try` among them that
has neither a handler nor a final part is a fault of its own. After a fault the bodies are left one
by one: what each was read for is done as far as it does not look whether there is a fault.

## Main definitions

* `GuardedParse.closeChains`, `GuardedParse.suite`, `GuardedParse.finish`: what is done with the
  stacks
* `GuardedParse.resume`: leaves a body that was read, with a fault or without
* `GuardedParse.step`, `GuardedParse.program`: reads one statement or clause, or leaves a body;
  reads a program
* `GuardedParse.parseModule`, `GuardedParse.parseExpression`: the two ways to parse a text, with a
  sink for the log

## Main results

* `GuardedParse.follows_step`: reading one statement or clause, or leaving a body, follows the step
  that ends in a fault
* `GuardedParse.parseModule_eq`, `GuardedParse.parseExpression_eq`: **parsing gives the same outcome
  and writes the same entries as the parser that ends in a fault**
-/

namespace Toolchain

namespace Stacks

open Parse

/-- Leaves the innermost body, whose chains are closed. -/
def resume (m : Stacks) : Parse (Next Stacks (Option (List MarkedStmt))) :=
  match m.callers with
  | [] => return .done (some m.body.statements.reverse)
  | c :: callers =>
    if m.body.statements.reverse.isEmpty then Blocks.missingBody c.newline
    else do
      let outer := { m with body := c.body, callers, indents := m.indents.tail }
      return next (← outer.finish m.body.statements.reverse c.task)

theorem leave_eq (m : Stacks) :
    m.leave = (do
      match ← m.closeChains with
      | none => return .done none
      | some m => m.resume) := rfl

end Stacks

namespace GuardedParse

open Guarded Parse

/-! ## The block structure -/

/-- Finds that a clause stands where it may not. -/
def misplaced (word : Token) (id : MessageId) : GuardedParse Unit :=
  fail (.placed .misplacedClause word id)

/-- Finds that a clause of a chain stands after one it may not follow. -/
def outOfOrder (word : Token) : GuardedParse Unit :=
  fail (.atToken .misplacedClause word
    (.entry .clauseOrder [word.value, word.pos.line, word.pos.column]))

/-- Finds that a clause has no body. -/
def missingBody (token : Token) : GuardedParse Unit :=
  fail (.placed .missingBody token .missingBody)

/-- Takes the `try` chains of a width or more off their stack. Each has to have a handler or a final
part by now; those that have none are taken off as well. -/
def closeTries (m : Stacks) : List ChainSite → GuardedParse (Option (List ChainSite))
  | [] => return some []
  | site :: rest => do
    if site.depth < m.body.width then return some (site :: rest)
    else
      match m.tryChain? site.node with
      | none => return none
      | some (t, final) =>
        if t.handlers.isEmpty && final.isEmpty then
          misplaced ⟨.keyword .try, Keyword.spelling .try, t.mark.pos⟩ .tryWithoutHandler
          closeTries m rest
        else closeTries m rest

/-- Closes the chains of the width of the innermost body or more. -/
def closeChains (m : Stacks) : GuardedParse (Option Stacks) := do
  match ← closeTries m m.tryStack with
  | none => return none
  | some tryStack =>
    let ifStack := m.ifStack.dropWhile fun site => m.body.width ≤ site.depth
    return some { m with ifStack, tryStack }

/-- Does what a suite was read for. The alternatives do not look whether there is a fault. -/
def finish (m : Stacks) (suite : List MarkedStmt) : Task → GuardedParse (Option Stacks)
  | .ifTest word test => ifCalm (some m) do
    let mark ← register .ifElse word
    let ifStack := ⟨mark.id, m.body.width⟩ :: m.ifStack
    return some { m.push (.ifElse mark test suite []) with ifStack }
  | .elifTest site word test => ifCalm (some m) do
    match m.ifOrelse? site.node, m.ifStack with
    | some orelse, _ :: below =>
      if !orelse.isEmpty then
        outOfOrder ⟨.keyword .elif, Keyword.spelling .elif, word⟩
        return some m
      else
        let mark ← register .ifElse word
        let patched := m.patch site.node (Stmt.withOrelse [.ifElse mark test suite []])
        return some { patched with ifStack := ⟨mark.id, m.body.width⟩ :: below }
    | _, _ => return none
  | .otherwise site =>
    match m.ifStack with
    | _ :: below => return some { m.patch site.node (Stmt.withOrelse suite) with ifStack := below }
    | [] => return none
  | .tryBody word => ifCalm (some m) do
    let mark ← register .tryExcept word
    let tryStack := ⟨mark.id, m.body.width⟩ :: m.tryStack
    return some { m.push (.tryExcept mark suite [] [] []) with tryStack }
  | .handler site word type name => ifCalm (some m) do
    let mark ← register .handler word
    return some (m.patch site.node (Stmt.withHandler ⟨mark, type, name, suite⟩))
  | .tryElse site => return some (m.patch site.node (Stmt.withOrelse suite))
  | .finally site => ifCalm (some m) <|
    match m.tryChain? site.node, m.tryStack with
    | some _, _ :: below =>
      return some { m.patch site.node (Stmt.withFinal suite) with tryStack := below }
    | _, _ => return none
  | .compound tag word make => ifCalm (some m) do
    let mark ← register tag word
    return some (m.push (make mark suite))

/-- Reads the suite of a clause up to the first token of its first line, or to its end if it stands
on the line of the clause. A suite that cannot be read is empty. -/
def suite (m : Stacks) (task : Task) : GuardedParse (Option Stacks) :=
  ifSome (consume .colon) (finish m [] task) fun _ => do
    let token ← peek
    match token.kind with
    | .newLine =>
      let _ ← advance
      let indentation ← peek
      if indentation.kind = .indentation ∧ m.body.width < indentation.width then
        return some { m with
          body := { width := indentation.width }
          callers := ⟨m.body, task, token⟩ :: m.callers
          indents := indentation.width :: m.indents }
      else
        missingBody token
        finish m [] task
    | .finish =>
      missingBody token
      finish m [] task
    | _ => finish m (← inlineBody) task

/-- A statement of the innermost body. -/
def statement (m : Stacks) (word : Token) : GuardedParse (Option Stacks) := do
  match word.kind with
  | .keyword .if =>
    let _ ← advance
    let test ← anyExpr
    suite m (.ifTest word.pos test)
  | .keyword .while =>
    let _ ← advance
    let test ← anyExpr
    suite m (.compound .whileLoop word.pos fun mark body => .whileLoop mark test body)
  | .keyword .for =>
    let _ ← advance
    let place ← loopTargets
    ifCalm (some m) <| ifSome (consume (.keyword .in)) (return some m) fun _ => do
      let iter ← anyExprList
      suite m (.compound .forLoop word.pos fun mark body => .forLoop mark place iter body)
  | .keyword .try =>
    let _ ← advance
    suite m (.tryBody word.pos)
  | .keyword .define =>
    let _ ← advance
    ifSome (consume .identifier) (return some m) fun name =>
      ifSome (consume (.opening .paren)) (return some m) fun _ => do
        let signature ← parameters anyExpr (.closing .paren)
        ifSome (consume (.closing .paren)) (return some m) fun _ =>
          suite m (.compound .functionDef word.pos fun mark body =>
            .functionDef mark name.value signature body)
  | .keyword .classes =>
    let _ ← advance
    ifSome (consume .identifier) (return some m) fun name =>
      ifSome classBases (return some m) fun bases =>
        suite m (.compound .classDef word.pos fun mark body =>
          .classDef mark name.value bases body)
  | _ => ifSome simpleStatement (return some m) fun (s, _) => return some (m.push s)

/-- A clause that goes on with the open conditional. -/
def elifClause (m : Stacks) : GuardedParse (Option Stacks) := do
  let word ← advance
  match m.openIf? with
  | none =>
    misplaced word .elifWithoutIf
    return some m
  | some site =>
    let test ← anyExpr
    suite m (.elifTest site word.pos test)

/-- The alternative of the open `try`, or else of the open conditional. -/
def elseClause (m : Stacks) : GuardedParse (Option Stacks) := do
  let word ← advance
  match m.openTry? with
  | some site =>
    match m.tryChain? site.node with
    | none => return none
    | some (t, final) =>
      if t.handlers.isEmpty || !t.orelse.isEmpty || !final.isEmpty then
        outOfOrder word
        return some m
      else suite m (.tryElse site)
  | none =>
    match m.openIf? with
    | none =>
      misplaced word .elseWithoutIf
      return some m
    | some site =>
      match m.ifOrelse? site.node with
      | none => return none
      | some orelse =>
        if !orelse.isEmpty then
          outOfOrder word
          return some m
        else suite m (.otherwise site)

/-- A handler of the open `try`. -/
def exceptClause (m : Stacks) : GuardedParse (Option Stacks) := do
  let word ← advance
  match m.openTry? with
  | none =>
    misplaced word .exceptWithoutTry
    return some m
  | some site =>
    match m.tryChain? site.node with
    | none => return none
    | some (t, _) =>
      if !t.orelse.isEmpty || Blocks.endsInCatchAll t then
        outOfOrder word
        return some m
      else if ← check .colon then suite m (.handler site word.pos none none)
      else
        let type ← anyExpr
        if ← accept (.keyword .as) then
          ifSome identifier (return some m) fun name =>
            suite m (.handler site word.pos (some type) (some name))
        else suite m (.handler site word.pos (some type) none)

/-- The final part of the open `try`. -/
def finallyClause (m : Stacks) : GuardedParse (Option Stacks) := do
  let word ← advance
  match m.openTry? with
  | none =>
    misplaced word .finallyWithoutTry
    return some m
  | some site => suite m (.finally site)

/-- Leaves the innermost body, whose chains are closed or left open. A body has to have a statement,
unless there is a fault already. -/
def resume (m : Stacks) : GuardedParse (Next Stacks (Option (List MarkedStmt))) :=
  match m.callers with
  | [] => return .done (some m.body.statements.reverse)
  | c :: callers => do
    let outer := { m with body := c.body, callers, indents := m.indents.tail }
    if m.body.statements.reverse.isEmpty then
      missingBody c.newline
      return Stacks.next (← finish outer [] c.task)
    else return Stacks.next (← finish outer m.body.statements.reverse c.task)

/-- Leaves the innermost body at its end. -/
def leave (m : Stacks) : GuardedParse (Next Stacks (Option (List MarkedStmt))) := do
  match ← closeChains m with
  | none => return .done none
  | some m => resume m

/-- A token that was looked at before, as it looks now. -/
def again (token : Token) : GuardedParse Token := do
  return if ← panicking then ⟨.finish, "", {}⟩ else token

/-- Looks at the next token, and reads one statement or clause or leaves a body. After a fault a
body is left as it is. -/
def step (m : Stacks) : GuardedParse (Next Stacks (Option (List MarkedStmt))) := do
  if ← panicking then resume m
  else
    let token ← peek
    match token.kind with
    | .finish => leave m
    | .indentation =>
      if token.width < m.body.width then
        if m.indents.contains token.width then leave m
        else
          fail (.placed .indentation token .unindentMismatch)
          leave m
      else if m.body.width < token.width then
        fail (.placed .indentation token .unexpectedIndent)
        resume m
      else
        let _ ← advance
        return .again m
    | .keyword .elif => return Stacks.next (← elifClause m)
    | .keyword .else => return Stacks.next (← elseClause m)
    | .keyword .except => return Stacks.next (← exceptClause m)
    | .keyword .finally => return Stacks.next (← finallyClause m)
    | _ =>
      match ← closeChains m with
      | none => return .done none
      | some m => return Stacks.next (← statement m (← again token))

/-- Reads statements until the input ends. -/
def run : GuardedParse (Option (List MarkedStmt)) := do
  iterateWithin none step (2 * (← state).tokens.length + 2) Stacks.start

/-- A whole program. -/
def program : GuardedParse (Option (Root Mark)) := do
  let first ← peek
  match ← run with
  | none => return none
  | some body => ifCalm none do
    return some (.module (← register .module first.pos) body)

/-- What is given back after a rule has been run on a text, and the log. -/
def outcome (rule : GuardedParse (Option (Root Mark))) (file source : Text) (log : Sink) :
    Option (Except Diagnostic Parsed) × Sink :=
  let (root?, s) := rule.exec { state := start source {}, log }
  match s.err with
  | some fault => (some (.error (fault.diagnostic file)), s.log)
  | none => (root?.map fun root => .ok ⟨root, s.state.arena⟩, s.log)

/-- Parses a program. -/
def parseModule (file source : Text) (log : Sink) : Option (Except Diagnostic Parsed) × Sink :=
  match outcome program file source log with
  | (some (.ok p), log) => (some (.ok p), log.write (p.logEntry file))
  | (other, log) => (other, log)

/-- Parses a single expression. -/
def parseExpression (file source : Text) (log : Sink) :
    Option (Except Diagnostic Parsed) × Sink :=
  outcome singleExpression file source log

/-! ## The block structure follows -/

theorem raises_misplaced {α : Type} (word : Token) {id : MessageId}
    (hid : (id, 0) ∈ MessageId.placing) :
    Raises (misplaced word id) (Block.misplaced word id : Parse α) :=
  raises_fail (Fault.placed_placed rfl word hid)

theorem raises_outOfOrder {α : Type} (word : Token) :
    Raises (outOfOrder word) (Block.outOfOrder word : Parse α) :=
  raises_fail (Fault.placed_named rfl word _ (by decide))

theorem raises_missingBody {α : Type} (token : Token) :
    Raises (missingBody token) (Blocks.missingBody token : Parse α) :=
  raises_fail (Fault.placed_placed rfl token (by decide))

/-- The first `try` that is closed too early is noted; those under it are closed as well. -/
theorem follows_closeTries (m : Stacks) (sites : List ChainSite) :
    Matches id (closeTries m sites) (m.closeTries sites) := by
  induction sites with
  | nil => exact follows_pure trivial
  | cons site rest ih =>
    rw [closeTries, Stacks.closeTries]
    refine .ite (follows_pure trivial) ?_
    cases m.tryChain? site.node with
    | none => exact follows_pure trivial
    | some chain => exact .ite ((raises_misplaced _ (by decide)).andThen _) ih

theorem follows_closeChains (m : Stacks) : Matches id (closeChains m) m.closeChains := by
  refine (follows_closeTries m m.tryStack).bind fun tryStack _ => ?_
  cases tryStack with
  | none => exact follows_pure trivial
  | some tryStack => exact follows_pure trivial

theorem follows_finish (m : Stacks) (suite : List MarkedStmt) (task : Task) :
    Matches id (finish m suite task) (m.finish suite task) := by
  cases task with
  | ifTest word test => exact .ifCalm (follows_made _ _ fun _ => trivial) _
  | elifTest site word test =>
    rw [finish, Stacks.finish]
    refine .ifCalm ?_ _
    cases m.ifOrelse? site.node with
    | none => exact follows_pure trivial
    | some orelse =>
      cases m.ifStack with
      | nil => exact follows_pure trivial
      | cons top below =>
        exact .ite ((raises_outOfOrder _).andThen _) (follows_made _ _ fun _ => trivial)
  | otherwise site =>
    rw [finish, Stacks.finish]
    cases m.ifStack with
    | nil => exact follows_pure trivial
    | cons top below => exact follows_pure trivial
  | tryBody word => exact .ifCalm (follows_made _ _ fun _ => trivial) _
  | handler site word type name => exact .ifCalm (follows_made _ _ fun _ => trivial) _
  | tryElse site => exact follows_pure trivial
  | «finally» site =>
    rw [finish, Stacks.finish]
    refine .ifCalm ?_ _
    cases m.tryChain? site.node with
    | none => exact follows_pure trivial
    | some chain =>
      cases m.tryStack with
      | nil => exact follows_pure trivial
      | cons top below => exact follows_pure trivial
  | compound tag word make => exact .ifCalm (follows_made _ _ fun _ => trivial) _

/-- A suite that cannot be read is empty, and what it was read for is done. -/
theorem follows_suite (m : Stacks) (task : Task) :
    Matches id (suite m task) (m.suite task) := by
  -- the fault of a missing body comes first, so what the empty body becomes does not matter
  have hmissing (token : Token) : Matches id (do missingBody token; finish m [] task)
      (Blocks.missingBody token) := (raises_missingBody token).andThen _
  refine (follows_expected _).ifSome fun _ _ => follows_next.bind fun token _ => ?_
  have hinline : Matches id (do finish m (← inlineBody) task)
      (do m.finish (← Blocks.inlineBody) task) :=
    follows_inlineBody.bind fun body _ => follows_finish m body task
  generalize token.kind = kind
  cases kind with
  | newLine =>
    refine follows_taken.bind fun _ _ => follows_next.bind fun indentation _ => ?_
    exact .ite (follows_pure trivial) (hmissing token)
  | finish => exact hmissing token
  | _ => exact hinline

theorem follows_statement (m : Stacks) (word : Token) :
    Matches id (statement m word) (m.statement word) := by
  have hsimple : Matches id (ifSome simpleStatement (return some m) fun (s, _) =>
        return some (m.push s))
      (do let (s, _) ← Parse.simpleStatement; return some (m.push s)) :=
    follows_simpleStatement.ifSome fun (s, _) _ => follows_pure trivial
  unfold statement Stacks.statement
  generalize word.kind = kind
  cases kind with
  | keyword k =>
    cases k with
    | «if» => exact follows_taken.bind fun _ _ => follows_anyExpr.bind fun _ _ => follows_suite _ _
    | «while» =>
      exact follows_taken.bind fun _ _ => follows_anyExpr.bind fun _ _ => follows_suite _ _
    | «for» =>
      exact follows_taken.bind fun _ _ => follows_loopTargets.bind fun place _ =>
        .ifCalm ((follows_expected _).ifSome fun _ _ => follows_anyExprList.bind fun iter _ =>
          follows_suite _ _) _
    | «try» => exact follows_taken.bind fun _ _ => follows_suite _ _
    | define =>
      exact follows_taken.bind fun _ _ => (follows_expected _).ifSome fun name _ =>
        (follows_expected _).ifSome fun _ _ => (follows_parameters follows_anyExpr _).bind
          fun signature _ => (follows_expected _).ifSome fun _ _ => follows_suite _ _
    | classes =>
      exact follows_taken.bind fun _ _ => (follows_expected _).ifSome fun name _ =>
        follows_classBases.ifSome fun bases _ => follows_suite _ _
    | _ => exact hsimple
  | _ => exact hsimple

theorem follows_elifClause (m : Stacks) : Matches id (elifClause m) m.elifClause := by
  refine follows_taken.bind fun word _ => ?_
  cases m.openIf? with
  | none => exact (raises_misplaced _ (by decide)).andThen _
  | some site => exact follows_anyExpr.bind fun test _ => follows_suite _ _

theorem follows_elseClause (m : Stacks) : Matches id (elseClause m) m.elseClause := by
  refine follows_taken.bind fun word _ => ?_
  cases m.openTry? with
  | some site =>
    dsimp only
    cases m.tryChain? site.node with
    | none => exact follows_pure trivial
    | some chain => exact .ite ((raises_outOfOrder _).andThen _) (follows_suite _ _)
  | none =>
    dsimp only
    cases m.openIf? with
    | none => exact (raises_misplaced _ (by decide)).andThen _
    | some site =>
      dsimp only
      cases m.ifOrelse? site.node with
      | none => exact follows_pure trivial
      | some orelse => exact .ite ((raises_outOfOrder _).andThen _) (follows_suite _ _)

theorem follows_exceptClause (m : Stacks) : Matches id (exceptClause m) m.exceptClause := by
  refine follows_taken.bind fun word _ => ?_
  cases m.openTry? with
  | none => exact (raises_misplaced _ (by decide)).andThen _
  | some site =>
    dsimp only
    cases m.tryChain? site.node with
    | none => exact follows_pure trivial
    | some chain =>
      refine .ite ((raises_outOfOrder _).andThen _) ((follows_check _).bind fun all _ => ?_)
      refine .ite (follows_suite _ _) (follows_anyExpr.bind fun type _ => ?_)
      refine (follows_accept _).bind fun «as» _ => .ite ?_ (follows_suite _ _)
      rw [bind_map_left]
      exact follows_name.ifSome fun name _ => follows_suite _ _

theorem follows_finallyClause (m : Stacks) : Matches id (finallyClause m) m.finallyClause := by
  refine follows_taken.bind fun word _ => ?_
  cases m.openTry? with
  | none => exact (raises_misplaced _ (by decide)).andThen _
  | some site => exact follows_suite _ _

theorem matches_again (m : Stacks) : Matches (viewNext id)
    (pure (.again m) : GuardedParse (Next Stacks (Option (List MarkedStmt)))) (pure (.again m)) :=
  follows_pure (v := viewNext id) (a := .again m) trivial

theorem matches_done (body : Option (List MarkedStmt)) : Matches (viewNext id)
    (pure (.done body) : GuardedParse (Next Stacks _)) (pure (.done body)) :=
  follows_pure (v := viewNext id) (a := .done body) trivial

theorem matches_next (m? : Option Stacks) :
    Matches (viewNext id) (pure (Stacks.next m?) : GuardedParse _) (pure (Stacks.next m?)) := by
  cases m? with
  | none => exact matches_done _
  | some m => exact matches_again _

theorem follows_resume (m : Stacks) : Matches (viewNext id) (resume m) m.resume := by
  unfold resume Stacks.resume
  cases m.callers with
  | nil => exact matches_done _
  | cons c callers =>
    let outer := { m with body := c.body, callers, indents := m.indents.tail }
    have hfinish (body : List MarkedStmt) :=
      (follows_finish outer body c.task).bind fun m? _ => matches_next m?
    exact .ite ((raises_missingBody _).andThen _) (hfinish _)

theorem follows_leave (m : Stacks) : Matches (viewNext id) (leave m) m.leave := by
  rw [Stacks.leave_eq]
  refine (follows_closeChains m).bind fun m? _ => ?_
  cases m? with
  | none => exact matches_done _
  | some m => exact follows_resume m

theorem follows_lookAgain (token : Token) : Matches id (again token) (pure token) := by
  refine follows_of_run (fun t => (token, t)) (fun _ => rfl) (fun s hs => ?_)
    fun _ ht => ⟨ht, trivial⟩
  have hexec : (again token).exec s = (if s.panicking then ⟨.finish, "", {}⟩ else token, s) := rfl
  rw [hexec, if_neg (Bool.eq_false_iff.mp hs)]
  rfl

/-- **Reading one statement or clause, or leaving a body, follows the step that ends in a
fault.** -/
theorem follows_step (m : Stacks) : Matches (viewNext id) (step m) m.step := by
  have hclause {clause : GuardedParse (Option Stacks)} {clause' : Parse (Option Stacks)}
      (h : Matches id clause clause') : Matches (viewNext id) (do return Stacks.next (← clause))
        (do return Stacks.next (← clause')) := h.bind fun m? _ => matches_next m?
  refine .unlessPanicking _ (follows_next.bind fun token _ => ?_)
  have hstatement : Matches (viewNext id)
      (do
        match ← closeChains m with
        | none => return .done none
        | some m => return Stacks.next (← statement m (← again token)))
      (do
        match ← m.closeChains with
        | none => return .done none
        | some m => return Stacks.next (← m.statement token)) := by
    refine (follows_closeChains m).bind fun m? _ => ?_
    cases m? with
    | none => exact matches_done _
    | some m =>
      -- closing the chains may have found a fault, so the token is looked at once more
      have hagain := (follows_lookAgain token).bind fun token _ =>
        hclause (follows_statement m token)
      rwa [pure_bind] at hagain
  generalize token.kind = kind
  cases kind with
  | finish => exact follows_leave m
  | indentation =>
    refine .ite (.ite (follows_leave m) ?_) (.ite ?_ ?_)
    · exact (raises_fail (Fault.placed_placed rfl token (by decide))).andThen _
    · exact (raises_fail (Fault.placed_placed rfl token (by decide))).andThen _
    · exact follows_taken.bind fun _ _ => matches_again _
  | keyword k =>
    cases k with
    | «elif» => exact hclause (follows_elifClause m)
    | «else» => exact hclause (follows_elseClause m)
    | «except» => exact hclause (follows_exceptClause m)
    | «finally» => exact hclause (follows_finallyClause m)
    | _ => exact hstatement
  | _ => exact hstatement

theorem follows_run : Matches id run Stacks.run :=
  follows_state.bind fun _ _ => follows_iterateWithin (I := fun _ => True) (Q := fun _ => True)
    (fun m _ => (follows_step m).imp fun next _ => by cases next <;> trivial) none _ trivial

theorem follows_program : Matches id program Stacks.program := by
  refine follows_next.bind fun first _ => follows_run.bind fun body? _ => ?_
  cases body? with
  | none => exact follows_pure trivial
  | some body => exact .ifCalm (follows_made _ _ fun _ => trivial) _

/-! ## Parsing a text -/

section Outcome

variable {α : Type} {v : α → Option (Root Mark)} {rule : GuardedParse (Option (Root Mark))}
  {p : Parse α} {Q : α → Prop}

theorem outcome_of_ok (h : Follows v Q rule p) (file : Text) {source : Text} (log : Sink) {a : α}
    {t : ParseState} (hrun : StateT.run p (start source {}) = .ok (a, t)) :
    outcome rule file source log = ((v a).map fun root => .ok ⟨root, t.arena⟩, log) := by
  have hrepeats := h { state := start source {}, log } (proper_start source {}) rfl
  rw [hrun] at hrepeats
  rw [outcome, hrepeats.2.2]

theorem outcome_of_error (h : Follows v Q rule p) (file : Text) {source : Text} (log : Sink)
    {f : Fault} (hrun : StateT.run p (start source {}) = .error f) :
    outcome rule file source log =
      (some (.error (f.diagnostic file)), log.write (f.diagnostic file).logEntry) := by
  rw [Fault.logEntry_diagnostic]
  have hrepeats := h { state := start source {}, log } (proper_start source {}) rfl
  rw [hrun] at hrepeats
  obtain ⟨herr, hlog⟩ := Prod.mk.inj hrepeats.2
  rw [outcome]
  generalize rule.exec { state := start source {}, log } = r at herr hlog ⊢
  obtain ⟨root?, s⟩ := r
  change s.err = some f at herr
  change s.log = _ at hlog
  simp only [herr, hlog]

end Outcome

/-- **A program is parsed with the same outcome as by the parser that ends in a fault**, and the
same entries are written: what the bodies do that are left after a fault writes nothing. -/
theorem parseModule_eq (file source : Text) (log : Sink) :
    parseModule file source log =
      (some (Toolchain.parseModule file source).1,
        log.writeAll (Toolchain.parseModule file source).2) := by
  -- the parser with stacks stands between the two: it ends in a fault, but has their steps
  have hrun := Stacks.program_eq (proper_start source {})
  rw [StateT.run_map] at hrun
  rw [parseModule, Toolchain.parseModule, Parse.run]
  cases hmodule : StateT.run Parse.module (start source {}) with
  | error f =>
    rw [hmodule] at hrun
    rw [outcome_of_error follows_program file log hrun]
    rfl
  | ok r =>
    rw [hmodule] at hrun
    rw [outcome_of_ok follows_program file log hrun]
    rfl

/-- **An expression is parsed with the same outcome as by the parser that ends in a fault.** -/
theorem parseExpression_eq (file source : Text) (log : Sink) :
    parseExpression file source log =
      (some (Toolchain.parseExpression file source).1,
        log.writeAll (Toolchain.parseExpression file source).2) := by
  rw [parseExpression, Toolchain.parseExpression, Parse.run]
  cases hrun : StateT.run Parse.singleExpression (start source {}) with
  | error f =>
    rw [outcome_of_error follows_singleExpression file log hrun]
    rfl
  | ok r =>
    rw [outcome_of_ok follows_singleExpression file log hrun]
    rfl

end GuardedParse

end Toolchain

import Toolchain.Proofs.Parser.Expression

/-!
# Simple statements

Simple statements are yielded well formed one by one, and they are read after a fault as expressions
are. A statement that was not read is not made; where several targets are looked at one after
another, all of them are, and the first that is none is what is noted.

## Main definitions

* `GuardedParse.target`: an expression made a target
* `GuardedParse.simpleStatement`: a simple statement with its end
* `GuardedParse.loopTargets`, `GuardedParse.classBases`, `GuardedParse.inlineBody`: parts of
  compound statements

## Main results

* `GuardedParse.follows_simpleStatement`: simple statements are well formed, and reading one follows
  the parser that ends in a fault
-/

namespace Toolchain

/-- A body: statements, at least one. -/
def IsBody (body : List MarkedStmt) : Prop := body ≠ [] ∧ Stmt.AllWellFormed body

namespace Parse

/-- A program is a well-formed expression. -/
def IsExpression (r : Root Mark) : Prop := ∃ m body, r = .expression m body ∧ body.WellFormed

end Parse

namespace GuardedParse

open Guarded Parse

/-! ## Simple statements -/

/-- What stands for a statement that was not made. -/
instance : Inhabited MarkedStmt := ⟨.pass ⟨0, {}⟩⟩

/-- An expression at the outermost depth. -/
def anyExpr : GuardedParse MarkedExpr := expression maxDepth

/-- Expressions with commas between them, at the outermost depth. -/
def anyExprList : GuardedParse MarkedExpr := exprList anyExpr

/-- An expression as a target that starts at a token. -/
def target (ctx : Context) (token : Token) (e : MarkedExpr) : GuardedParse MarkedExpr :=
  ifCalm e <| match e.withContext? ctx with
  | some e => return e
  | none => do
    let id := if ctx = .del then .cannotDelete else .invalidTarget
    fail (.atToken .invalidTarget token
      (.entry id [describe (invalidPart e), token.pos.line, token.pos.column]))
    return e

/-- A return with its value, if it has one. -/
def returnStatement : GuardedParse MarkedStmt := do
  let word ← advance
  let value ← expr? anyExprList
  return .ret (← register .ret word.pos) value

/-- Places to be deleted. -/
def deleteStatement : GuardedParse MarkedStmt := do
  let word ← advance
  let targets ← iterate [] (fun (targets : List MarkedExpr) => do
    let token ← peek
    let e ← anyExpr
    ifCalm (.done []) do
      let place ← target .del token e
      if ← accept .comma then
        if startsExpr (← peekKind) then return .again (targets ++ [place])
        else return .done (targets ++ [place])
      else return .done (targets ++ [place])) []
  ifCalm default do
    return .delete (← register .delete word.pos) targets

/-- An exception to be raised, and what caused it. -/
def raiseStatement : GuardedParse MarkedStmt := do
  let word ← advance
  let exc ← expr? anyExpr
  let cause ← if exc.isSome then
      if ← accept (.keyword .from) then some <$> anyExpr else pure none
    else pure none
  return .raise (← register .raise word.pos) exc cause

/-- A condition that has to hold, and what to say if it does not. -/
def assertStatement : GuardedParse MarkedStmt := do
  let word ← advance
  let test ← anyExpr
  let msg ← if ← accept .comma then some <$> anyExpr else pure none
  return .assert (← register .assert word.pos) test msg

/-- Names with points between them. -/
def dottedName : GuardedParse (Option String) :=
  ifSome (consume .identifier) (return none) fun first =>
    iterate none (fun (name : String) => do
      if ← accept .dot then
        ifSome (consume .identifier) (return .done none) fun next =>
          return .again (name ++ "." ++ next.value)
      else return .done (some name)) first.value

/-- An identifier. -/
def identifier : GuardedParse (Option String) :=
  ifSome (consume .identifier) (return none) fun token => return some token.value

/-- The name of a module, or of something in it, and the name it is bound to. -/
def importName (name : GuardedParse (Option String)) : GuardedParse (Option (Alias Mark)) := do
  let token ← peek
  ifSome name (return none) fun name => do
    let make (asName : Option String) : GuardedParse (Option (Alias Mark)) := do
      return some ⟨← register .importName token.pos, name, asName⟩
    if ← accept (.keyword .as) then
      ifSome (consume .identifier) (return none) fun id => make (some id.value)
    else make none

/-- Modules to be imported. -/
def importStatement : GuardedParse MarkedStmt := do
  let word ← advance
  let names ← iterate [] (fun (names : List (Alias Mark)) =>
    ifSome (importName dottedName) (return .done []) fun name => do
      if ← accept .comma then return .again (names ++ [name])
      else return .done (names ++ [name])) []
  ifCalm default do
    return .imports (← register .imports word.pos) names

/-- Names to be imported from a module, with or without parentheses. -/
def importedNames : GuardedParse (Option (List (Alias Mark))) := do
  let star ← peek
  if ← accept (.binary .mult) then
    return some [⟨← register .importName star.pos, "*", none⟩]
  else
    let inParens ← accept (.opening .paren)
    let names ← iterate [] (fun (names : List (Alias Mark)) =>
      ifSome (importName identifier) (return .done []) fun name => do
        if ← accept .comma then
          if inParens && (← check (.closing .paren)) then return .done (names ++ [name])
          else return .again (names ++ [name])
        else return .done (names ++ [name])) []
    ifCalm none do
      if inParens then
        ifSome (consume (.closing .paren)) (return none) fun _ => return some names
      else return some names

/-- Names to be imported from a module; leading points count the levels it is relative to. -/
def importFromStatement : GuardedParse MarkedStmt := do
  let word ← advance
  let level ← iterate 0 (fun (level : Nat) => do
    if ← accept .dot then return .again (level + 1) else return .done level) 0
  let named ← check .identifier
  let rest (module : Option String) : GuardedParse MarkedStmt :=
    ifSome (consume (.keyword .imports)) (return default) fun _ =>
      ifSome importedNames (return default) fun names => do
        return .importFrom (← register .importFrom word.pos) module names level
  if level = 0 || named then ifSome dottedName (return default) fun name => rest (some name)
  else rest none

/-- An assignment after its first target: the further targets, each with the token it starts at, and
the value. -/
def assignment (first : Token) (e : MarkedExpr) : GuardedParse MarkedStmt := do
  let (targets, _, value) ← iterate ([], first, e)
    (fun ((targets, start, value) : List (Token × MarkedExpr) × Token × MarkedExpr) => do
      if ← accept .assign then
        let next ← peek
        let more ← anyExprList
        ifCalm (.done ([], first, e)) (return .again (targets ++ [(start, value)], next, more))
      else return .done (targets, start, value)) ([], first, e)
  ifCalm default do
    let places ← targets.mapM fun (token, e) => target .store token e
    return .assign (← register .assign first.pos) places value

/-- An expression, an assignment or an augmented assignment. -/
def exprStatement : GuardedParse MarkedStmt := do
  let first ← peek
  let e ← anyExprList
  ifCalm default do
    match ← peekKind with
    | .assign => assignment first e
    | .augmented op =>
      if e.isPlace then
        let _ ← advance
        let place := (e.withContext? .store).getD e
        let value ← anyExprList
        return .augAssign (← register .augAssign first.pos) place op value
      else
        fail (.atToken .invalidTarget first
          (.entry .invalidTarget [describe e, first.pos.line, first.pos.column]))
        return default
    | _ => return .expr (← register .expr first.pos) e

/-- Takes the end of a simple statement; tells whether another one follows on the line. -/
def endStatement : GuardedParse Bool := do
  let token ← peek
  match token.kind with
  | .newLine =>
    let _ ← advance
    return false
  | .finish => return false
  | .semicolon =>
    let _ ← advance
    if ← accept .newLine then return false
    else return !(← check .finish)
  | _ =>
    unexpected token
    return false

/-- The statement that is nothing but a word. -/
def wordStatement (tag : NodeTag) (make : Mark → MarkedStmt) : GuardedParse MarkedStmt := do
  let word ← advance
  return make (← register tag word.pos)

/-- A simple statement without its end. -/
def unendedStatement (token : Token) : GuardedParse MarkedStmt :=
  match token.kind with
  | .keyword .pass => wordStatement .pass .pass
  | .keyword .break => wordStatement .breakLoop .breakLoop
  | .keyword .continue => wordStatement .continueLoop .continueLoop
  | .keyword .return => returnStatement
  | .keyword .del => deleteStatement
  | .keyword .raise => raiseStatement
  | .keyword .assert => assertStatement
  | .keyword .imports => importStatement
  | .keyword .from => importFromStatement
  | kind => do
    if startsExpr kind then exprStatement
    else
      unexpected token
      return default

/-- A simple statement with its end; tells whether another one follows on the line. -/
def simpleStatement : GuardedParse (Option (MarkedStmt × Bool)) := do
  let s ← unendedStatement (← peek)
  ifCalm none do
    return some (s, ← endStatement)

/-- The simple statements of a body that stands on the line of its clause. -/
def inlineBody : GuardedParse (List MarkedStmt) :=
  iterate [] (fun (body : List MarkedStmt) =>
    ifSome simpleStatement (return .done []) fun (s, more) => do
      let body := body ++ [s]
      if more then return .again body else return .done body) []

/-- The targets of a loop: operands with commas between them, up to `in`. -/
def loopTargets : GuardedParse MarkedExpr := do
  let first ← peek
  let (elts, isTuple) ← iterate ([], false) (fun (elts : List MarkedExpr) => do
    let e ← operand maxDepth
    ifCalm (.done ([], false)) do
      let elts := elts ++ [e]
      if ← accept .comma then
        if ← check (.keyword .in) then return .done (elts, true) else return .again elts
      else return .done (elts, elts.length > 1)) []
  ifCalm default do
    let e ← match elts, isTuple with
      | [e], false => pure e
      | elts, _ => do
        let mark ← register .tuple first.pos
        pure (.tuple mark elts .load)
    target .store first e

/-- The bases of a class, with their parentheses. -/
def classBases : GuardedParse (Option (List MarkedExpr)) := do
  if ← accept (.opening .paren) then
    let bases ← elements anyExpr .paren
    ifSome (consume (.closing .paren)) (return none) fun _ => return some bases
  else return some []

/-- A single expression, with nothing after it but a newline. -/
def singleExpression : GuardedParse (Option (Root Mark)) := do
  let first ← peek
  if first.kind = .indentation then
    fail (.placed .indentation first .unexpectedIndent)
    return none
  else
    let body ← anyExprList
    if ← accept .newLine then
      let _ ← accept .indentation
    ifSome (consume .finish) (return none) fun _ => do
      return some (.expression (← register .expression first.pos) body)

/-! ## Simple statements follow -/

open Expr

theorem follows_anyExpr : Follows id WellFormed anyExpr Parse.anyExpr := follows_expression maxDepth

theorem follows_anyExprList : Follows id WellFormed anyExprList Parse.anyExprList :=
  follows_exprList follows_anyExpr

theorem follows_target (ctx : Context) (token : Token) {e : MarkedExpr} (he : e.WellFormed) :
    Follows id (IsTarget ctx) (target ctx token e) (Parse.target ctx token e) := by
  refine Follows.ifCalm ?_ _
  unfold Parse.target
  cases hplace : e.withContext? ctx with
  | some place => exact follows_pure ⟨e, he, hplace⟩
  | none =>
    refine follows_fail (Fault.placed_named rfl token _ ?_) _
    cases ctx <;> decide

theorem follows_returnStatement :
    Follows id Stmt.WellFormed returnStatement Parse.returnStatement :=
  follows_taken.bind fun _ _ => (follows_expr? follows_anyExprList).bind fun _ hvalue =>
    follows_made _ _ fun _ => hvalue

theorem follows_deleteStatement :
    Follows id Stmt.WellFormed deleteStatement Parse.deleteStatement := by
  refine follows_taken.bind fun word _ =>
    (follows_iterate (I := fun ts => ∀ t ∈ ts, IsTarget .del t)
    (Q := fun ts => ts ≠ [] ∧ ∀ t ∈ ts, IsTarget .del t) (fun targets htargets => ?_) _
      (by simp)).bind fun targets htargets => .ifCalm
        (follows_made _ _ fun _ => ⟨htargets.1, htargets.2⟩) _
  refine follows_next.bind fun token _ => follows_anyExpr.bind fun e he => .ifCalm ?_ _
  refine (follows_target _ _ he).bind fun place hplace => (follows_accept _).bind fun comma _ => ?_
  have hall : ∀ t ∈ targets ++ [place], IsTarget .del t :=
    List.forall_mem_append.mpr ⟨htargets, List.forall_mem_singleton.mpr hplace⟩
  have hdone : targets ++ [place] ≠ [] ∧ ∀ t ∈ targets ++ [place], IsTarget .del t :=
    ⟨by simp, hall⟩
  exact .ite (follows_peekKind.bind fun _ _ => .ite (follows_again hall) (follows_done hdone))
    (follows_done hdone)

theorem follows_raiseStatement :
    Follows id Stmt.WellFormed raiseStatement Parse.raiseStatement := by
  refine follows_taken.bind fun word _ => (follows_expr? follows_anyExpr).bind fun exc hexc => ?_
  have hraise (cause : Option MarkedExpr)
      (hcause : OptionWellFormed cause ∧ (exc = none → cause = none)) : Follows id Stmt.WellFormed
      (do return .raise (← register .raise word.pos) exc cause : GuardedParse MarkedStmt)
      (do return .raise (← Parse.register .raise word.pos) exc cause) :=
    follows_made _ _ fun _ => ⟨hexc, hcause.1, hcause.2⟩
  cases exc with
  | none => exact hraise none ⟨trivial, fun _ => rfl⟩
  | some exc =>
    refine (follows_accept _).bind fun «from» _ => .ite ?_ ?_
    · rw [bind_map_left, bind_map_left]
      exact follows_anyExpr.bind fun cause h => hraise (some cause) ⟨h, nofun⟩
    · exact hraise none ⟨trivial, fun _ => rfl⟩

theorem follows_assertStatement :
    Follows id Stmt.WellFormed assertStatement Parse.assertStatement := by
  refine follows_taken.bind fun word _ => follows_anyExpr.bind fun test htest => ?_
  have hassert (msg : Option MarkedExpr) (hmsg : OptionWellFormed msg) : Follows id Stmt.WellFormed
      (do return .assert (← register .assert word.pos) test msg : GuardedParse MarkedStmt)
      (do return .assert (← Parse.register .assert word.pos) test msg) :=
    follows_made _ _ fun _ => ⟨htest, hmsg⟩
  refine (follows_accept _).bind fun comma _ => .ite ?_ (hassert none trivial)
  rw [bind_map_left, bind_map_left]
  exact follows_anyExpr.bind fun msg h => hassert (some msg) h

theorem follows_dottedName : Follows some IsDotted dottedName Parse.dottedName := by
  refine follows_identifier.ifSome fun first hfirst =>
    follows_iterate (I := IsDotted) (fun name hname => ?_) _ (.one hfirst)
  refine (follows_accept _).bind fun dot _ => .ite ?_ (follows_done hname)
  exact follows_identifier.ifSome fun next hnext => follows_again (.more hname hnext)

theorem follows_name : Follows some IsIdentifier identifier Parse.identifier :=
  follows_identifier.ifSome fun _ h => follows_pure h

theorem follows_importName {name : GuardedParse (Option String)} {name' : Parse String}
    {named : String → Prop} (hname : Follows some named name name') :
    Follows some (Alias.WellFormed named) (importName name) (Parse.importName name') := by
  refine follows_next.bind fun token _ => hname.ifSome fun id hid => ?_
  extract_lets make make'
  have hmake (asName : Option String) (has : ∀ id ∈ asName, IsIdentifier id) :
      Follows some (Alias.WellFormed named) (make asName) (make' asName) :=
    follows_made _ _ fun _ => ⟨hid, has⟩
  refine (follows_accept _).bind fun «as» _ => .ite ?_ (hmake none (by simp))
  exact follows_identifier.ifSome fun id h => hmake (some id.value) (by simpa using h)

theorem follows_importStatement :
    Follows id Stmt.WellFormed importStatement Parse.importStatement := by
  refine follows_taken.bind fun word _ => (follows_iterate
    (I := fun as => ∀ a ∈ as, a.WellFormed IsDotted)
    (Q := fun as => as ≠ [] ∧ ∀ a ∈ as, a.WellFormed IsDotted) (fun names hnames => ?_) _
      (by simp)).bind fun names hnames => .ifCalm (follows_made _ _ fun _ => ⟨hnames.1, hnames.2⟩) _
  refine (follows_importName follows_dottedName).ifSome fun name hname => ?_
  have hall : ∀ a ∈ names ++ [name], a.WellFormed IsDotted :=
    List.forall_mem_append.mpr ⟨hnames, List.forall_mem_singleton.mpr hname⟩
  exact (follows_accept _).bind fun comma _ => .ite (follows_again hall)
    (follows_done ⟨by simp, hall⟩)

theorem follows_importedNames :
    Follows some Alias.Imported importedNames Parse.importedNames := by
  refine follows_next.bind fun star _ => (follows_accept _).bind fun all _ => .ite ?_ ?_
  · exact follows_made _ _ fun m => .inl ⟨m, rfl⟩
  · refine (follows_accept _).bind fun inParens _ => (follows_iterate
      (I := fun as => ∀ a ∈ as, a.WellFormed IsIdentifier)
      (Q := fun as => as ≠ [] ∧ ∀ a ∈ as, a.WellFormed IsIdentifier) (fun names hnames => ?_) _
        (by simp)).bind fun names hnames => .ifCalm ?_ _
    · refine (follows_importName follows_name).ifSome fun name hname => ?_
      have hall : ∀ a ∈ names ++ [name], a.WellFormed IsIdentifier :=
        List.forall_mem_append.mpr ⟨hnames, List.forall_mem_singleton.mpr hname⟩
      have hmade : names ++ [name] ≠ [] ∧ ∀ a ∈ names ++ [name], a.WellFormed IsIdentifier :=
        ⟨by simp, hall⟩
      refine (follows_accept _).bind fun comma _ => .ite ?_ (follows_done hmade)
      exact (follows_check _).bind fun closed _ => .ite (follows_done hmade) (follows_again hall)
    · exact .ite ((follows_expected _).ifSome fun _ _ => follows_pure (.inr hnames))
        (follows_pure (.inr hnames))

theorem follows_importFromStatement :
    Follows id Stmt.WellFormed importFromStatement Parse.importFromStatement := by
  refine follows_taken.bind fun word _ => (follows_iterate (I := fun _ => True)
    (Q := fun _ => True) (fun level _ => ?_) _ trivial).bind fun level _ =>
      (follows_check _).bind fun named _ => ?_
  · exact (follows_accept _).bind fun dot _ => .ite (follows_again trivial) (follows_done trivial)
  · extract_lets rest rest'
    have hrest (module : Option String)
        (hmodule : (∀ m ∈ module, IsDotted m) ∧ (module = none → 0 < level)) :
        Follows id Stmt.WellFormed (rest module) (rest' module) :=
      (follows_expected _).ifSome fun _ _ => follows_importedNames.ifSome fun names hnames =>
        follows_made _ _ fun _ => ⟨hmodule.1, hnames, hmodule.2⟩
    split
    · rw [bind_map_left]
      exact follows_dottedName.ifSome fun name h =>
        hrest (some name) ⟨by simpa using h, by simp⟩
    · next hlevel =>
      refine hrest none ⟨by simp, fun _ => ?_⟩
      simp only [Bool.or_eq_true, decide_eq_true_eq, not_or] at hlevel
      exact Nat.pos_of_ne_zero hlevel.1

theorem follows_mapM_target {targets : List (Token × MarkedExpr)}
    (h : ∀ t ∈ targets, t.2.WellFormed) :
    Follows id (fun places => (∀ p ∈ places, IsTarget .store p) ∧ places.length = targets.length)
      (targets.mapM fun (token, e) => target .store token e)
      (targets.mapM fun (token, e) => Parse.target .store token e) := by
  induction targets with
  | nil => exact follows_pure ⟨by simp, rfl⟩
  | cons t targets ih =>
    rw [List.forall_mem_cons] at h
    rw [List.mapM_cons, List.mapM_cons]
    refine (follows_target _ _ h.1).bind fun place hplace => (ih h.2).bind fun places hplaces =>
      follows_pure ⟨?_, by simp [hplaces.2]⟩
    rw [List.forall_mem_cons]
    exact ⟨hplace, hplaces.1⟩

/-- A single place can be assigned to. -/
theorem isTarget_of_isPlace {e : MarkedExpr} (he : e.WellFormed) (hplace : e.isPlace = true) :
    ((e.withContext? .store).getD e).isPlace = true ∧
      IsTarget .store ((e.withContext? .store).getD e) := by
  cases e with
  | name m id ctx => exact ⟨rfl, _, he, rfl⟩
  | attr m value label ctx => exact ⟨rfl, _, he, rfl⟩
  | subscript m value part ctx => exact ⟨rfl, _, he, rfl⟩
  | _ => cases hplace

/-- What was read of an assignment is well formed: the targets, each with its first token, and what
stands behind the last sign. -/
def PartsWellFormed (p : List (Token × MarkedExpr) × Token × MarkedExpr) : Prop :=
  (∀ t ∈ p.1, t.2.WellFormed) ∧ p.2.2.WellFormed

theorem follows_assignment (first : Token) {e : MarkedExpr} (he : e.WellFormed) :
    Matches id (assignment first e) (Parse.assignment first e) := by
  refine (follows_iterate (I := PartsWellFormed) (Q := PartsWellFormed)
    (fun (targets, start, value) h => ?_) _ ⟨by simp, he⟩).bind
      fun (targets, _, value) h => .ifCalm ?_ _
  · refine (follows_accept _).bind fun assign _ => .ite ?_ (follows_done h)
    refine follows_next.bind fun next _ => follows_anyExprList.bind fun more hmore => .ifCalm ?_ _
    -- what was the value so far is one more target
    refine follows_again ⟨?_, hmore⟩
    exact List.forall_mem_append.mpr ⟨h.1, List.forall_mem_singleton.mpr h.2⟩
  · exact (follows_mapM_target h.1).bind fun _ _ => follows_made _ _ fun _ => trivial

/-- An assignment has a target, since a sign of assignment follows its first one. -/
theorem meets_assignment (first : Token) {e : MarkedExpr} (he : e.WellFormed) {s : ParseState}
    (hs : s.Proper) (hnext : s.next.kind = .assign) :
    Meets Stmt.WellFormed (StateT.run (Parse.assignment first e) s) := by
  -- the first round of the loop is run by hand: it takes the sign that is known to be there
  have hmore : Parse.anyExprList.Yields WellFormed := follows_anyExprList.yields
  unfold Parse.assignment Parse.iterate
  simp only [bind_assoc]
  rw [StateT.run_bind, StateT.run_get]
  simp only [pure_bind, Parse.iterateWithin, bind_assoc]
  rw [run_accept_bind hnext]
  refine Yields.bind (Q := Stmt.WellFormed) yields_taken (fun _ _ => ?_) s hs
  simp only [if_true, bind_assoc, pure_bind]
  refine yields_next.bind fun next _ => hmore.bind fun more hvalue => ?_
  refine Yields.bind (R := fun p => p.1 ≠ [] ∧ PartsWellFormed p)
    (yields_iterateWithin (I := fun p => p.1 ≠ [] ∧ PartsWellFormed p) ?_ _ ?_) ?_
  · rintro ⟨targets, start, value⟩ ⟨hne, htargets, hvalue⟩
    refine (yields_accept _).bind fun b _ => ?_
    split
    · refine yields_next.bind fun next _ => hmore.bind fun more hmore => ?_
      refine yields_pure ⟨by simp, ?_, hmore⟩
      exact List.forall_mem_append.mpr ⟨htargets, List.forall_mem_singleton.mpr hvalue⟩
    · exact yields_pure ⟨hne, htargets, hvalue⟩
  · exact ⟨by simp, by simpa using he, hvalue⟩
  · rintro ⟨targets, start, value⟩ ⟨hne, htargets, hvalue⟩
    refine (follows_mapM_target htargets).yields.bind fun places hplaces => ?_
    refine yields_made fun m => ⟨?_, hplaces.1, hvalue⟩
    rw [← List.length_pos_iff, hplaces.2, List.length_pos_iff]
    exact hne

theorem follows_exprStatement :
    Follows id Stmt.WellFormed exprStatement Parse.exprStatement := by
  refine follows_next.bind fun first _ => follows_anyExprList.bind fun e he => .ifCalm ?_ _
  refine Follows.gives (R := fun _ => True) ?_ (yields_peekKind_bind fun s hs => ?_)
  · refine follows_peekKind.bind fun kind _ => ?_
    cases kind with
    | assign => exact follows_assignment first he
    | augmented op =>
      refine .ite ?_ (follows_fail (Fault.placed_named rfl first _ (by decide)) _)
      exact follows_taken.bind fun _ _ => follows_anyExprList.bind fun value _ =>
        follows_made _ _ fun _ => trivial
    | _ => exact follows_made _ _ fun _ => trivial
  · split
    · next hnext => exact meets_assignment first he hs hnext
    · next op _ =>
      split
      · next hplace =>
        obtain ⟨hplace', htarget⟩ := isTarget_of_isPlace he hplace
        refine Yields.bind (Q := Stmt.WellFormed) yields_taken (fun _ _ => ?_) s hs
        refine follows_anyExprList.yields.bind fun value hvalue => ?_
        exact yields_made fun m => ⟨hplace', htarget, hvalue⟩
      · exact yields_throw (Fault.placed_named rfl first _ (by decide)) s hs
    · exact yields_made (f := fun m => .expr m e) (Q := Stmt.WellFormed) (fun _ => by exact he) s hs

theorem follows_endStatement : Matches id endStatement Parse.endStatement := by
  refine follows_next.bind fun token _ => ?_
  generalize token.kind = kind
  cases kind with
  | newLine => exact follows_taken.bind fun _ _ => follows_pure trivial
  | finish => exact follows_pure trivial
  | semicolon =>
    refine follows_taken.bind fun _ _ => (follows_accept _).bind fun newLine _ => ?_
    exact .ite (follows_pure trivial) ((follows_check _).bind fun _ _ => follows_pure trivial)
  | _ => exact follows_unexpected _ _

theorem follows_wordStatement (tag : NodeTag) {make : Mark → MarkedStmt}
    (h : ∀ m, (make m).WellFormed) :
    Follows id Stmt.WellFormed (wordStatement tag make) (Parse.wordStatement tag make) :=
  follows_taken.bind fun _ _ => follows_made _ _ h

theorem follows_simpleStatement :
    Follows some (fun p => p.1.WellFormed) simpleStatement Parse.simpleStatement := by
  refine follows_next.bind fun token _ => ?_
  extract_lets rest
  have hrest (s : MarkedStmt) (hs : s.WellFormed) : Follows some (fun p => p.1.WellFormed)
      (ifCalm none do return some (s, ← endStatement)) (rest s) :=
    .ifCalm (follows_endStatement.bind fun more _ => follows_pure (a := (s, more)) hs) _
  have hother (kind : TokenKind) : Follows some (fun p => p.1.WellFormed)
      ((if startsExpr kind then exprStatement else do unexpected token; return default) >>=
        fun s => ifCalm none do return some (s, ← endStatement))
      (if startsExpr kind then Parse.exprStatement >>= rest
        else Parse.unexpected token >>= rest) := by
    cases startsExpr kind with
    | true => exact follows_exprStatement.bind hrest
    | false =>
      exact ((raises_unexpected (α := MarkedStmt) token).bind rest).andThen
        (ifCalm none do return some (default, ← endStatement))
  unfold unendedStatement
  generalize token.kind = kind
  cases kind with
  | keyword k =>
    cases k with
    | pass => exact (follows_wordStatement _ fun _ => by trivial).bind hrest
    | «break» => exact (follows_wordStatement _ fun _ => by trivial).bind hrest
    | «continue» => exact (follows_wordStatement _ fun _ => by trivial).bind hrest
    | «return» => exact follows_returnStatement.bind hrest
    | del => exact follows_deleteStatement.bind hrest
    | raise => exact follows_raiseStatement.bind hrest
    | assert => exact follows_assertStatement.bind hrest
    | imports => exact follows_importStatement.bind hrest
    | «from» => exact follows_importFromStatement.bind hrest
    | _ => exact hother _
  | _ => exact hother _

/-! ## Parts of compound statements follow -/

theorem follows_inlineBody : Follows id IsBody inlineBody Blocks.inlineBody := by
  refine follows_iterate (I := Stmt.AllWellFormed) (fun body hbody => ?_) _ trivial
  refine follows_simpleStatement.ifSome fun (s, more) hs => ?_
  have hall : Stmt.AllWellFormed (body ++ [s]) := by
    rw [Stmt.allWellFormed_iff] at hbody ⊢
    exact List.forall_mem_append.mpr ⟨hbody, List.forall_mem_singleton.mpr hs⟩
  exact .ite (follows_again hall) (follows_done ⟨by simp, hall⟩)

theorem follows_loopTargets : Follows id (IsTarget .store) loopTargets Blocks.loopTargets := by
  refine follows_next.bind fun first _ => (follows_iterate (I := AllWellFormed)
    (Q := fun p => AllWellFormed p.1) (s := []) (fun elts helts => ?_) _ trivial).bind
      fun (elts, isTuple) helts => .ifCalm ?_ _
  · refine (follows_operand _).bind fun e he => .ifCalm ?_ _
    have hall := allWellFormed_append_singleton helts he
    refine (follows_accept _).bind fun comma _ => .ite ?_ (follows_done hall)
    exact (follows_check _).bind fun _ _ => .ite (follows_done hall) (follows_again hall)
  · have htuple (elts : List MarkedExpr) (helts : AllWellFormed elts) : Follows id (IsTarget .store)
        (do
          let mark ← register .tuple first.pos
          let e ← pure (.tuple mark elts .load)
          target .store first e)
        (do
          let mark ← Parse.register .tuple first.pos
          let e ← pure (.tuple mark elts .load)
          Parse.target .store first e) :=
      (follows_register _ _).bind fun _ _ => follows_target _ _ ⟨helts, rfl⟩
    cases elts with
    | nil => exact htuple [] helts
    | cons e rest =>
      cases rest with
      | cons e' rest => exact htuple _ helts
      | nil =>
        cases isTuple with
        | true => exact htuple [e] helts
        | false => exact follows_target _ _ helts.1

theorem follows_classBases : Follows some AllWellFormed classBases Blocks.classBases := by
  refine (follows_accept _).bind fun paren _ => .ite ?_ (follows_pure trivial)
  exact (follows_elements follows_anyExpr _).bind fun bases hbases =>
    (follows_expected _).ifSome fun _ _ => follows_pure hbases

theorem follows_singleExpression :
    Follows some IsExpression singleExpression Parse.singleExpression := by
  refine follows_next.bind fun first _ => ?_
  extract_lets rest
  refine .ite (((raises_fail (Fault.placed_placed rfl first (by decide))).bind rest).andThen _) ?_
  refine follows_anyExprList.bind fun body hbody => (follows_accept _).bind fun newLine _ => ?_
  extract_lets ending ending'
  have hend (u : Unit) : Follows some IsExpression (ending u) (ending' u) :=
    (follows_expected _).ifSome fun _ _ => follows_made _ _ fun m => ⟨m, body, rfl, hbody⟩
  exact .ite ((follows_accept _).bind fun _ _ => hend ()) (hend ())

end GuardedParse

end Toolchain

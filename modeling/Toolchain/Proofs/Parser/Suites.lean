import Toolchain.Proofs.Parser.Sentences

/-!
# What the rules for blocks read

The parser has no rule for a block: it goes through the lines of the program with a stack of the
blocks that are open, and the indentation of a line tells how many of them it closes. So a statement
about lines is one about this stack. Lines at some level take a block at that level to the same
block with more statements in it; deeper blocks that they open may still be open at the end, and the
next line that is not as deep closes them. A line is told by its level and its tokens, where a
deeper level has a longer margin.

What a block may still get is told as well: `elif` and `else` after a conditional, and the clauses
of a `try`. So a compound statement is read in two parts, its first clause and what else belongs to
it.

## Main definitions

* `Pending`: the clauses that a block may still get
* `Block.Holds`: what an open block holds
* `AsClause`: the tokens of the line of a clause
* `Line`, `lineFaces`: the lines of a program and their tokens
* `Blocks.Reaches`, `Blocks.Runs`: runs over lines, to a stack of blocks or to the end
* `AsLines`, `AsTail`, `AsProgram`: lines that are read as statements, as further clauses, as a
  program

## Main results

* the lemmas `asClause_*`: the line of each sort of clause
* `asLines_simple`, `asLines_clause`, `AsTail.clause`, `AsLines.append`: how lines are put together
* `ends_module`: **lines that are read as a program are parsed as that program**
-/

namespace Toolchain

open Parse

/-! ## What an open block holds -/

/-- What may still get clauses in a block, without annotations: what a conditional becomes with an
alternative, or the parts of a `try`. -/
inductive Pending where
  | none
  | conditional (complete : List (Stmt Unit) → Stmt Unit)
  | attempt (body : List (Stmt Unit)) (handlers : List (Handler Unit (Expr Unit) (Stmt Unit)))
      (orelse : List (Stmt Unit))

namespace Pending

/-- What a chain is without annotations. -/
def Is : Option Chain → Pending → Prop
  | .none, none => True
  | some (.branches last before), conditional complete =>
    ∀ orelse, (Chain.conditional orelse last before).erase = complete (orelse.map Stmt.erase)
  | some (.attempt t), attempt body handlers orelse =>
    t.body.map Stmt.erase = body ∧ t.handlers.map Handler.erase = handlers ∧
      t.orelse.map Stmt.erase = orelse
  | _, _ => False

/-- A `try` is closed only behind a handler. -/
def Closable : Pending → Prop
  | attempt _ handlers _ => handlers ≠ []
  | _ => True

/-- The statement that a chain becomes when it is closed. -/
def closed : Pending → List (Stmt Unit)
  | none => []
  | conditional complete => [complete []]
  | attempt body handlers orelse => [.tryExcept () body handlers orelse []]

end Pending

/-- What an open block holds: its statements, and a chain. -/
structure Block.Holds (b : Block) (width : Nat) (ss : List (Stmt Unit)) (p : Pending) : Prop where
  width : b.width = width
  done : b.done.reverse.map Stmt.erase = ss
  chain : p.Is b.chain

/-- A clause with a body makes statements of the body, and leaves a chain. -/
structure Clause.Adds (c : Clause) (f : List (Stmt Unit) → List (Stmt Unit) × Pending) : Prop where
  attach : ∀ {bad : Fault → Prop} {b : Block} {width : Nat} {ss : List (Stmt Unit)}
    (body : List MarkedStmt)
    (rest : List Face), b.Holds width ss .none → Reads bad (b.attach body c) True [] rest
      fun b' => b'.Holds width (ss ++ (f (body.map Stmt.erase)).1) (f (body.map Stmt.erase)).2

section Attach

variable {bad : Fault → Prop} {rest : List Face} {b : Block} {width : Nat}
  {ss : List (Stmt Unit)} {p : Pending}

/-- One more statement. -/
theorem Block.Holds.push (h : b.Holds width ss p) {s : MarkedStmt} {t : Stmt Unit}
    (hs : s.erase = t) :
    (b.push s).Holds width (ss ++ [t]) p where
  width := h.width
  done := by
    show ((s :: b.done).reverse).map Stmt.erase = _
    rw [List.reverse_cons, List.map_append, h.done, List.map_singleton, hs]
  chain := h.chain

theorem Block.Holds.withChain (h : b.Holds width ss p) {q : Pending} {c : Option Chain}
    (hc : q.Is c) :
    Block.Holds { b with chain := c } width ss q where
  width := h.width
  done := h.done
  chain := hc

/-- An open chain is closed. -/
theorem Block.Holds.reads_closeChain (h : b.Holds width ss p) (hp : p.Closable) :
    Reads bad b.closeChain True [] rest fun b' => b'.Holds width (ss ++ p.closed) .none := by
  have hchain := h.chain
  unfold Block.closeChain
  cases hc : b.chain with
  | none =>
    rw [hc] at hchain
    cases p with
    | none =>
      refine reads_pure ?_
      rw [Pending.closed, List.append_nil]
      exact h
    | _ => exact hchain.elim
  | some c =>
    rw [hc] at hchain
    have hnone : Block.Holds { b with chain := none } width ss .none := h.withChain trivial
    cases c with
    | branches last before =>
      cases p with
      | conditional complete => exact reads_pure (hnone.push (hchain []))
      | _ => exact hchain.elim
    | attempt t =>
      cases p with
      | attempt body handlers orelse =>
        obtain ⟨hbody, hhandlers, horelse⟩ := hchain
        have hsome : t.handlers.isEmpty = false := by
          rw [List.isEmpty_eq_false_iff]
          rintro hnil
          rw [hnil] at hhandlers
          exact hp hhandlers.symm
        simp only [hsome, Bool.false_eq_true, if_false]
        refine reads_pure (hnone.push ?_)
        rw [Stmt.erase_tryExcept, hbody, hhandlers, horelse]
        rfl
      | _ => exact hchain.elim

end Attach

/-! ## Clauses with their bodies -/

namespace Clause

/-- A clause that makes a statement of its body. -/
theorem adds_of_push {c : Clause} {k : List (Stmt Unit) → Stmt Unit} {tag : NodeTag}
    {pos : Position}
    {make : Mark → List MarkedStmt → MarkedStmt}
    (hattach : ∀ (b : Block) (body : List MarkedStmt),
      b.attach body c = do return b.push (make (← register tag pos) body))
    (hmake : ∀ m body, (make m body).erase = k (body.map Stmt.erase)) :
    c.Adds fun body => ([k body], .none) := by
  refine ⟨fun body rest h => ?_⟩
  rw [hattach]
  refine reads_register_bind fun m => ?_
  exact reads_pure (h.push (hmake m body))

theorem adds_while {pos : Position} {test : MarkedExpr} :
    (whileTest pos test).Adds fun body => ([.whileLoop () test.erase body], .none) :=
  adds_of_push (fun _ _ => rfl) fun m body => Stmt.erase_whileLoop m test body

theorem adds_for {pos : Position} {place iter : MarkedExpr} :
    (forEach pos place iter).Adds fun body => ([.forLoop () place.erase iter.erase body], .none) :=
  adds_of_push (fun _ _ => rfl) fun m body => Stmt.erase_forLoop m place iter body

theorem adds_function {pos : Position} {name : String} {s : Signature Mark MarkedExpr} :
    (function pos name s).Adds fun body => ([.functionDef () name s.erase body], .none) :=
  adds_of_push (fun _ _ => rfl) fun m body => Stmt.erase_functionDef m name s body

theorem adds_class {pos : Position} {name : String} {bases : List MarkedExpr} :
    (classDef pos name bases).Adds fun body =>
      ([.classDef () name (bases.map Expr.erase) body], .none) :=
  adds_of_push (fun _ _ => rfl) fun m body => Stmt.erase_classDef m name bases body

theorem adds_if {pos : Position} {test : MarkedExpr} :
    (ifTest pos test).Adds fun body =>
      ([], .conditional fun orelse => .ifElse () test.erase body orelse) := by
  refine ⟨fun body rest h => ?_⟩
  refine reads_register_bind fun m => reads_pure ?_
  rw [List.append_nil]
  exact h.withChain fun orelse => Stmt.erase_ifElse m test body orelse

section Chains

variable {last : Branch} {before : List Branch} {complete : List (Stmt Unit) → Stmt Unit}
  {t : TryChain}
  {body₀ orelse₀ : List (Stmt Unit)} {handlers₀ : List (Handler Unit (Expr Unit) (Stmt Unit))}

theorem adds_elif (h : (Pending.conditional complete).Is (some (.branches last before)))
    {pos : Position}
    {test : MarkedExpr} :
    (elifTest last before pos test).Adds fun body =>
      ([], .conditional fun orelse => complete [.ifElse () test.erase body orelse]) := by
  refine ⟨fun body rest hb => ?_⟩
  refine reads_register_bind fun m => reads_pure ?_
  rw [List.append_nil]
  refine hb.withChain fun orelse => ?_
  rw [Chain.conditional, h, List.map_singleton, Stmt.erase_ifElse]

theorem adds_otherwise (h : (Pending.conditional complete).Is (some (.branches last before))) :
    (otherwise last before).Adds fun body => ([complete body], .none) := by
  refine ⟨fun body rest hb => ?_⟩
  exact reads_pure (hb.push (h body))

theorem adds_try {pos : Position} : (tryBody pos).Adds fun body => ([], .attempt body [] []) := by
  refine ⟨fun body rest hb => ?_⟩
  refine reads_register_bind fun m => reads_pure ?_
  rw [List.append_nil]
  exact hb.withChain ⟨rfl, rfl, rfl⟩

theorem adds_handler (h : (Pending.attempt body₀ handlers₀ orelse₀).Is (some (.attempt t)))
    {pos : Position}
    {type : Option MarkedExpr} {name : Option String} :
    (handler t pos type name).Adds fun body =>
      ([], .attempt body₀ (handlers₀ ++ [⟨(), type.map Expr.erase, name, body⟩]) orelse₀) := by
  obtain ⟨hbody, hhandlers, horelse⟩ := h
  refine ⟨fun body rest hb => ?_⟩
  refine reads_register_bind fun m => reads_pure ?_
  rw [List.append_nil]
  refine hb.withChain ⟨hbody, ?_, horelse⟩
  rw [List.map_append, hhandlers]
  rfl

theorem adds_tryElse (h : (Pending.attempt body₀ handlers₀ orelse₀).Is (some (.attempt t))) :
    (tryElse t).Adds fun body => ([], .attempt body₀ handlers₀ body) := by
  obtain ⟨hbody, hhandlers, -⟩ := h
  refine ⟨fun body rest hb => ?_⟩
  refine reads_pure ?_
  rw [List.append_nil]
  exact hb.withChain ⟨hbody, hhandlers, rfl⟩

theorem adds_finally (h : (Pending.attempt body₀ handlers₀ orelse₀).Is (some (.attempt t))) :
    (Clause.finally t).Adds fun body => ([.tryExcept () body₀ handlers₀ orelse₀ body], .none) := by
  obtain ⟨hbody, hhandlers, horelse⟩ := h
  refine ⟨fun body rest hb => ?_⟩
  refine reads_pure (hb.push ?_)
  rw [Stmt.erase_tryExcept, hbody, hhandlers, horelse]

end Chains

end Clause

/-! ## The lines of clauses -/

/-- The faces behind the words of a clause. -/
def Parse.clauseEnd : List Face := [TokenKind.face .colon, newLineFace]

/-- The tokens of the line of a clause up to its colon, in a block that holds a chain. Behind them
the block that is the body of the clause is open, and the statements that the chain was closed to
are kept. -/
structure AsClause (n : Nat) (fs : List Face) (p : Pending) (kept : List (Stmt Unit))
    (f : List (Stmt Unit) → List (Stmt Unit) × Pending) : Prop where
  reads : ∀ (b : Blocks) {width : Nat} {ss : List (Stmt Unit)} {ind : Face} (rest : List Face),
    b.inner.Holds width ss p → ind.1 = .indentation → width < ind.2.utf8ByteSize →
    Reads IsTooDeep b.step (n ≤ maxDepth) (fs ++ clauseEnd) (ind :: rest) fun r => ∃ inner c token,
      r = .again ⟨{ width := ind.2.utf8ByteSize }, ⟨inner, c, token⟩ :: b.outer⟩ ∧
        inner.Holds width (ss ++ kept) .none ∧ c.Adds f

namespace Parse

variable {bad : Fault → Prop} {fs rest : List Face} {n : Nat} {b : Blocks} {width : Nat}
  {ss kept : List (Stmt Unit)} {p : Pending} {ind : Face}
  {f : List (Stmt Unit) → List (Stmt Unit) × Pending}

/-- The body of a clause begins on the next line. -/
theorem reads_suite (h : b.inner.Holds width ss .none) (hind : ind.1 = .indentation)
    (hwider : width < ind.2.utf8ByteSize) (c : Clause) :
    Reads bad (b.suite c) True clauseEnd (ind :: rest) fun b' => ∃ token,
      b' = ⟨{ width := ind.2.utf8ByteSize }, ⟨b.inner, c, token⟩ :: b.outer⟩ := by
  refine reads_expect_bind rfl (by nofun) fun _ _ => ?_
  refine reads_peek_bind fun token htoken => ?_
  have hkind : token.kind = .newLine := congrArg Prod.fst htoken
  simp only [hkind]
  refine reads_advance_bind (by nofun) fun _ _ => ?_
  refine reads_peek_bind fun indentation hface => ?_
  have hface : indentation.face = ind := hface
  have hwidth : indentation.width = ind.2.utf8ByteSize := by
    rw [← hface]
    rfl
  have hopen : indentation.kind = .indentation ∧ b.inner.width < indentation.width := by
    rw [hwidth, h.width]
    exact ⟨(congrArg Prod.fst hface).trans hind, hwider⟩
  rw [if_pos hopen, hwidth]
  exact reads_pure ⟨token, rfl⟩

/-! ### Clauses that open a statement -/

/-- Whether a statement begins with a token. -/
def startsStatement : TokenKind → Bool
  | .finish | .indentation | .keyword .elif | .keyword .else | .keyword .except
  | .keyword .finally => false
  | _ => true

/-- The step at a token with which a statement begins. -/
def statementStep (b : Blocks) (token : Token) : Parse (Next Blocks (List MarkedStmt)) := do
  let inner ← b.inner.closeChain
  return .again (← Blocks.statement { b with inner } token)

theorem reads_step {F : Prop} {Q : Next Blocks (List MarkedStmt) → Prop}
    (hstarts : startsStatement (front (fs ++ rest)).1 = true)
    (h : ∀ token : Token, token.kind = (front (fs ++ rest)).1 →
      Reads bad (statementStep b token) F fs rest Q) :
    Reads bad b.step F fs rest Q := by
  refine reads_peek_bind fun token htoken => ?_
  have hkind : token.kind = (front (fs ++ rest)).1 := congrArg Prod.fst htoken
  have hstatement := h token hkind
  rw [← hkind] at hstarts
  split
  case h_7 => exact hstatement
  all_goals
    next heq =>
    rw [heq] at hstarts
    cases hstarts

/-- A clause that opens a statement, with the chain before it closed. -/
theorem asClause_opening {k : Keyword} (rule : Token → Parse Clause) (hsome : fs ≠ [])
    (hfront : (front fs).1 = .keyword k) (hstarts : startsStatement (.keyword k) = true)
    (hrule : ∀ (b : Blocks) (word : Token), word.kind = .keyword k →
      b.statement word = do b.suite (← rule word))
    (hreads : ∀ (word : Token) (rest : List Face), front rest = TokenKind.face .colon →
      Reads IsTooDeep (rule word) (n ≤ maxDepth) fs rest fun c => c.Adds f) (hp : p.Closable) :
    AsClause n fs p p.closed f where
  reads b width ss ind rest h hind hwider := by
    have hkind : (front (fs ++ clauseEnd ++ ind :: rest)).1 = .keyword k := by
      rw [List.append_assoc, front_append hsome, hfront]
    refine reads_step (by rw [hkind]; exact hstarts) fun word hword => ?_
    have hstatement (inner : Block) (hinner : inner.Holds width (ss ++ p.closed) .none) :
        Reads IsTooDeep (do return Next.again (← Blocks.statement { b with inner } word))
          (n ≤ maxDepth)
          (fs ++ clauseEnd) (ind :: rest) fun r => ∃ inner c token,
            (r : Next Blocks (List MarkedStmt)) =
              .again ⟨{ width := ind.2.utf8ByteSize }, ⟨inner, c, token⟩ :: b.outer⟩ ∧
              inner.Holds width (ss ++ p.closed) .none ∧ c.Adds f := by
      rw [hrule _ _ (hword.trans hkind), bind_assoc]
      refine ((hreads word (clauseEnd ++ ind :: rest) rfl).bind (G := True) fun c hc => ?_).congr
        (and_iff_left trivial)
      apply (reads_suite hinner hind hwider c).last
      rintro _ ⟨token, rfl⟩
      exact reads_pure ⟨inner, c, token, rfl, hinner, hc⟩
    exact (h.reads_closeChain hp).silent hstatement

theorem startsStatement_of_startsSimple {k : TokenKind} (h : startsSimple k = true) :
    startsStatement k = true := by
  unfold startsStatement
  split
  case h_7 => rfl
  all_goals cases h

/-- A simple statement is what stands where no clause stands. -/
theorem statement_of_startsSimple {word : Token} (h : startsSimple word.kind = true) :
    b.statement word = do
      let (s, _) ← simpleStatement
      return { b with inner := b.inner.push s } := by
  unfold Blocks.statement
  split
  case h_7 => rfl
  all_goals
    next heq =>
    rw [heq] at h
    cases h

theorem asClause_if {test : Item} (htest : test.Sound) (hp : p.Closable) :
    AsClause test.levels (TokenKind.face (.keyword .if) :: test.faces) p p.closed
      fun body => ([], .conditional fun orelse => .ifElse () test.value body orelse) := by
  refine asClause_opening (fun word => do
    let _ ← advance
    let test ← anyExpr
    return .ifTest word.pos test) (by simp) rfl rfl (fun b word hword => ?_)
      (fun word rest hrest => ?_) hp
  · unfold Blocks.statement
    simp only [hword, bind_assoc, pure_bind]
  · refine reads_advance_bind (by nofun) fun _ _ => ?_
    apply (htest.reads maxDepth _ (stops_of_kind (.inr (.inl (by rw [hrest]; rfl))))).last
    intro r hr
    refine reads_pure ?_
    rw [← hr]
    exact Clause.adds_if

theorem asClause_while {test : Item} (htest : test.Sound) (hp : p.Closable) :
    AsClause test.levels (TokenKind.face (.keyword .while) :: test.faces) p p.closed
      fun body => ([.whileLoop () test.value body], .none) := by
  refine asClause_opening (fun word => do
    let _ ← advance
    let test ← anyExpr
    return .whileTest word.pos test) (by simp) rfl rfl (fun b word hword => ?_)
      (fun word rest hrest => ?_) hp
  · unfold Blocks.statement
    simp only [hword, bind_assoc, pure_bind]
  · refine reads_advance_bind (by nofun) fun _ _ => ?_
    apply (htest.reads maxDepth _ (stops_of_kind (.inr (.inl (by rw [hrest]; rfl))))).last
    intro r hr
    refine reads_pure ?_
    rw [← hr]
    exact Clause.adds_while

theorem asClause_try (hp : p.Closable) :
    AsClause 0 [TokenKind.face (.keyword .try)] p p.closed fun body =>
      ([], .attempt body [] []) := by
  refine asClause_opening (fun word => do
    let _ ← advance
    return .tryBody word.pos) (by simp) rfl rfl (fun b word hword => ?_)
      (fun word rest hrest => ?_) hp
  · unfold Blocks.statement
    simp only [hword, bind_assoc, pure_bind]
  · refine Reads.congr (F := True) ?_ (iff_of_true trivial (Nat.zero_le _))
    refine reads_advance_bind (by nofun) fun _ _ => ?_
    exact reads_pure Clause.adds_try

/-! ### Loops over the values of an expression -/

/-- The value of the targets of a loop: a single one stays as it is. -/
def loopValue : List Item → Expr Unit
  | [i] => i.value
  | is => .tuple () (is.map Item.value) .load

/-- One round of the loop over the targets of a loop. -/
def loopTargetStep (elts : List MarkedExpr) :
    Parse (Next (List MarkedExpr) (List MarkedExpr × Bool)) := do
  let elts := elts ++ [← operand maxDepth]
  if ← accept .comma then
    if ← check (.keyword .in) then return .done (elts, true) else return .again elts
  else return .done (elts, elts.length > 1)

theorem loopTargets_eq :
    Blocks.loopTargets = (do
      let first ← peek
      let x ← iterate loopTargetStep []
      match x.1, x.2 with
      | [e], false => target .store first e
      | elts, _ => do
        let mark ← register .tuple first.pos
        target .store first (.tuple mark elts .load)) := by
  congr! 4

/-- The targets of a loop. Operands are nested one less deep than expressions. -/
theorem reads_loopTargets {is : List Item} {place : Expr Unit} (hsome : is ≠ [])
    (his : ∀ i ∈ is, AsOperand i.levels i.faces i.value)
    (hplace : (loopValue is).withContext? .store = some place) (rest : List Face)
    (hrest : (front rest).1 = .keyword .in) :
    ReadsAs Blocks.loopTargets (depthOf is - 1 ≤ maxDepth) (Format.commaFaces (is.map Item.faces))
      rest place := by
  have hne (i : Item) (hi : i ∈ is) : i.faces ≠ [] := by
    intro hnil
    have hstarts := (his i hi).starts
    rw [hnil] at hstarts
    cases hstarts
  -- one target is taken as it is, and several make a tuple, after the loop has read them
  suffices hloop : Loops IsTooDeep loopTargetStep [] (∀ i ∈ is, i.levels ≤ maxDepth + 1)
      (Format.commaFaces (is.map Item.faces)) rest
      fun x => x.1.map Expr.erase = is.map Item.value ∧ x.2 = decide (x.1.length > 1) by
    rw [loopTargets_eq]
    refine reads_peek_bind fun first _ => ?_
    refine ((reads_iterate hloop).last fun x hx => ?_).congr ?_
    · obtain ⟨elts, isTuple⟩ := x
      obtain ⟨helts, htuple⟩ := hx
      have helts : elts.map Expr.erase = is.map Item.value := helts
      match elts, isTuple, helts, htuple with
      | [e], _, helts, rfl =>
        obtain ⟨i, rfl⟩ : ∃ i, is = [i] := by
          apply List.length_eq_one_iff.mp
          have hlength := congrArg List.length helts
          simpa using hlength.symm
        apply reads_target
        rw [(List.cons.inj helts).1]
        exact hplace
      | [], _, helts, _ =>
        exact absurd (List.map_eq_nil_iff.mp helts.symm) hsome
      | e :: e' :: elts, isTuple, helts, htuple =>
        refine reads_register_bind fun m => ?_
        apply reads_target
        rw [Expr.erase_tuple, helts]
        rcases is with _ | ⟨i, _ | ⟨j, is⟩⟩
        · exact absurd rfl hsome
        · exact absurd (congrArg List.length helts) (by simp)
        · exact hplace
    · rw [← depthOf_le_iff]
      omega
  refine loops_commas Item.faces _ (I := fun left (elts : List MarkedExpr) =>
    elts.map Expr.erase ++ left.map Item.value = is.map Item.value) hsome hne ?_ ?_ (a := []) rfl
  · intro i elts hi helts
    have hcloses : Closes (front rest) := by
      unfold Closes
      rw [hrest]
      exact ⟨nofun, nofun, nofun, nofun⟩
    apply ((his i hi).reads maxDepth _ hcloses).last
    intro r hr
    apply reads_accept_neg
    · rw [List.nil_append, hrest]
      nofun
    · refine reads_pure ⟨_, rfl, ?_, rfl⟩
      rw [List.map_append, List.map_singleton, hr]
      exact helts
  · intro i j left elts gs hi hj helts hgs
    have hoperand := (his i hi).reads maxDepth ([TokenKind.face .comma] ++ gs)
      ⟨nofun, nofun, nofun, nofun⟩
    refine (hoperand.bind (G := True) fun r hr => ?_).congr (and_iff_left trivial)
    refine reads_accept_pos rfl (by nofun) ?_
    simp only [if_true]
    apply reads_check_neg
    · rw [List.nil_append, hgs]
      exact front_ne (his j hj).starts rfl
    · refine reads_pure ⟨_, rfl, ?_⟩
      rw [← helts]
      simp [hr]

theorem asClause_for {is : List Item} {place : Expr Unit} {iter : Item} (hsome : is ≠ [])
    (his : ∀ i ∈ is, AsOperand i.levels i.faces i.value)
    (hplace : (loopValue is).withContext? .store = some place) (hiter : iter.Listed)
    (hp : p.Closable) :
    AsClause (max (depthOf is - 1) iter.levels)
      (TokenKind.face (.keyword .for) :: Format.commaFaces (is.map Item.faces) ++
        TokenKind.face (.keyword .in) :: iter.faces) p p.closed
      fun body => ([.forLoop () place iter.value body], .none) := by
  refine asClause_opening (fun word => do
    let _ ← advance
    let place ← Blocks.loopTargets
    let _ ← expect (.keyword .in)
    let iter ← anyExprList
    return .forEach word.pos place iter) (by simp) rfl rfl (fun b word hword => ?_)
      (fun word rest hrest => ?_) hp
  · unfold Blocks.statement
    simp only [hword, bind_assoc, pure_bind]
  · refine reads_advance_bind (by nofun) fun _ _ => ?_
    have htargets :=
      reads_loopTargets hsome his hplace (TokenKind.face (.keyword .in) :: iter.faces ++ rest) rfl
    refine (htargets.bind (G := iter.levels ≤ maxDepth) fun r hr => ?_).congr Nat.max_le.symm
    refine reads_expect_bind rfl (by nofun) fun _ _ => ?_
    have hcolon : (front rest).1 = .colon := by
      rw [hrest]
      rfl
    apply (hiter.reads maxDepth _ (stops_of_kind (.inr (.inl hcolon))) (by rw [hcolon]; nofun)).last
    intro v hv
    refine reads_pure ?_
    rw [← hr, ← hv]
    exact Clause.adds_for

/-! ### Definitions -/

theorem asClause_function {name : String} {ps : List ParameterItem}
    (hps : ∀ q ∈ ps, ∀ i ∈ q.value?, i.Sound) (hfollow : ParameterItem.AllFollow {} ps)
    (hp : p.Closable) :
    AsClause (depthOf (ps.filterMap ParameterItem.value?))
      (TokenKind.face (.keyword .define) :: Format.nameFace name ::
        Format.enclosed .paren (Format.commaFaces (ps.map ParameterItem.faces))) p p.closed
      fun body => ([.functionDef () name (ps.foldl ParameterItem.push {}) body], .none) := by
  refine asClause_opening (fun word => do
    let _ ← advance
    let name ← expect .identifier
    let _ ← expect (.opening .paren)
    let signature ← parameters anyExpr (.closing .paren)
    let _ ← expect (.closing .paren)
    return .function word.pos name.value signature) (by simp) rfl rfl (fun b word hword => ?_)
    (fun word rest hrest => ?_) hp
  · unfold Blocks.statement
    simp only [hword, bind_assoc, pure_bind]
  · refine reads_advance_bind (by nofun) fun _ _ => ?_
    refine reads_expect_bind rfl (by nofun) fun token htoken => ?_
    rw [enclosed_eq]
    refine reads_expect_bind rfl (by nofun) fun _ _ => ?_
    have hparameters := reads_parameters (d := maxDepth) (.inr rfl) hps hfollow
      ([TokenKind.face (.closing .paren)] ++ rest) rfl
    refine (hparameters.bind (G := True) fun s hs => ?_).congr (and_iff_left trivial)
    refine reads_expect_bind rfl (by nofun) fun _ _ => ?_
    refine reads_pure ?_
    have hvalue : token.value = name := congrArg Prod.snd htoken
    rw [hvalue, ← hs]
    exact Clause.adds_function

/-- The bases of a class; without any there are no parentheses. -/
def baseFaces : List Item → List Face
  | [] => []
  | is => Format.enclosed .paren (Format.commaFaces (is.map Item.faces))

theorem reads_classBases {is : List Item} (his : ∀ i ∈ is, i.Sound)
    (hrest : (front rest).1 ≠ .opening .paren) :
    Reads IsTooDeep Blocks.classBases (depthOf is ≤ maxDepth) (baseFaces is) rest
      fun es => es.map Expr.erase = is.map Item.value := by
  cases is with
  | nil =>
    refine Reads.congr (F := True) ?_ (iff_of_true trivial (Nat.zero_le _))
    apply reads_accept_neg
    · exact hrest
    · exact reads_pure rfl
  | cons i is =>
    rw [baseFaces, enclosed_eq]
    · refine reads_accept_pos rfl (by nofun) ?_
      simp only [if_true]
      have helements := reads_elements (d := maxDepth) his
        ([TokenKind.face (.closing .paren)] ++ rest) rfl
      refine (helements.bind (G := True) fun es hes => ?_).congr ?_
      · refine reads_expect_bind rfl (by nofun) fun _ _ => ?_
        exact reads_pure hes
      · rw [depthOf_le_iff, and_iff_left trivial]
    · nofun

theorem asClause_class {name : String} {is : List Item} (his : ∀ i ∈ is, i.Sound)
    (hp : p.Closable) :
    AsClause (depthOf is)
      (TokenKind.face (.keyword .classes) :: Format.nameFace name :: baseFaces is) p p.closed
      fun body => ([.classDef () name (is.map Item.value) body], .none) := by
  refine asClause_opening (fun word => do
    let _ ← advance
    let name ← expect .identifier
    let bases ← Blocks.classBases
    return .classDef word.pos name.value bases) (by simp) rfl rfl (fun b word hword => ?_)
    (fun word rest hrest => ?_) hp
  · unfold Blocks.statement
    simp only [hword, bind_assoc, pure_bind]
  · refine reads_advance_bind (by nofun) fun _ _ => ?_
    refine reads_expect_bind rfl (by nofun) fun token htoken => ?_
    apply (reads_classBases his (by rw [hrest]; nofun)).last
    intro es hes
    refine reads_pure ?_
    have hvalue : token.value = name := congrArg Prod.snd htoken
    rw [hvalue, ← hes]
    exact Clause.adds_class

/-! ### Clauses that continue a statement -/

theorem continuing_holds (h : b.inner.Holds width ss p) :
    b.continuing.inner.Holds width (ss ++ []) .none := by
  rw [List.append_nil]
  exact h.withChain trivial

/-- The body of a clause that continues a statement. -/
theorem reads_continuing {c : Clause} (h : b.inner.Holds width ss p) (hind : ind.1 = .indentation)
    (hwider : width < ind.2.utf8ByteSize) (hc : c.Adds f) :
    Reads bad (do return Next.again (← b.continuing.suite c)) True clauseEnd (ind :: rest)
      fun r => ∃ inner c token,
        (r : Next Blocks (List MarkedStmt)) =
          .again ⟨{ width := ind.2.utf8ByteSize }, ⟨inner, c, token⟩ :: b.outer⟩ ∧
          inner.Holds width (ss ++ []) .none ∧ c.Adds f := by
  apply (reads_suite (continuing_holds h) hind hwider c).last
  rintro _ ⟨token, rfl⟩
  exact reads_pure ⟨b.continuing.inner, c, token, rfl, continuing_holds h, hc⟩

section Continuing

variable {complete : List (Stmt Unit) → Stmt Unit} {body₀ orelse₀ : List (Stmt Unit)}
  {handlers₀ : List (Handler Unit (Expr Unit) (Stmt Unit))}

/-- A block holds a conditional. -/
theorem exists_branches (h : b.inner.Holds width ss (.conditional complete)) :
    ∃ last before, b.inner.chain = some (.branches last before) ∧
      (Pending.conditional complete).Is (some (.branches last before)) := by
  have hchain := h.chain
  cases hc : b.inner.chain with
  | none =>
    rw [hc] at hchain
    exact hchain.elim
  | some c =>
    rw [hc] at hchain
    cases c with
    | branches last before => exact ⟨last, before, rfl, hchain⟩
    | attempt t => exact hchain.elim

/-- A block holds a `try`. -/
theorem exists_attempt (h : b.inner.Holds width ss (.attempt body₀ handlers₀ orelse₀)) :
    ∃ t, b.inner.chain = some (.attempt t) ∧
      (Pending.attempt body₀ handlers₀ orelse₀).Is (some (.attempt t)) := by
  have hchain := h.chain
  cases hc : b.inner.chain with
  | none =>
    rw [hc] at hchain
    exact hchain.elim
  | some c =>
    rw [hc] at hchain
    cases c with
    | branches last before => exact hchain.elim
    | attempt t => exact ⟨t, rfl, hchain⟩

theorem asClause_elif {test : Item} (htest : test.Sound) :
    AsClause test.levels (TokenKind.face (.keyword .elif) :: test.faces) (.conditional complete) []
      fun body => ([], .conditional fun orelse => complete [.ifElse () test.value body orelse])
        where
  reads b width ss ind rest h hind hwider := by
    obtain ⟨last, before, hchain, his⟩ := exists_branches h
    refine reads_peek_bind fun token htoken => ?_
    have hkind : token.kind = .keyword .elif := congrArg Prod.fst htoken
    simp only [hkind, Blocks.elifClause, bind_assoc]
    refine reads_advance_bind (by nofun) fun word _ => ?_
    simp only [hchain, bind_assoc]
    have htest := htest.reads maxDepth (clauseEnd ++ ind :: rest) (stops_of_kind (.inr (.inl rfl)))
    refine (htest.bind (G := True) fun r hr => ?_).congr (and_iff_left trivial)
    refine reads_continuing h hind hwider ?_
    rw [← hr]
    exact Clause.adds_elif his

theorem asClause_else :
    AsClause 0 [TokenKind.face (.keyword .else)] (.conditional complete) []
      fun body => ([complete body], .none) where
  reads b width ss ind rest h hind hwider := by
    obtain ⟨last, before, hchain, his⟩ := exists_branches h
    refine Reads.congr (F := True) ?_ (iff_of_true trivial (Nat.zero_le _))
    refine reads_peek_bind fun token htoken => ?_
    have hkind : token.kind = .keyword .else := congrArg Prod.fst htoken
    simp only [hkind, Blocks.elseClause, bind_assoc]
    refine reads_advance_bind (by nofun) fun word _ => ?_
    simp only [hchain]
    exact reads_continuing h hind hwider (Clause.adds_otherwise his)

theorem asClause_tryElse (hhandlers : handlers₀ ≠ []) :
    AsClause 0 [TokenKind.face (.keyword .else)] (.attempt body₀ handlers₀ []) []
      fun body => ([], .attempt body₀ handlers₀ body) where
  reads b width ss ind rest h hind hwider := by
    obtain ⟨t, hchain, his⟩ := exists_attempt h
    refine Reads.congr (F := True) ?_ (iff_of_true trivial (Nat.zero_le _))
    refine reads_peek_bind fun token htoken => ?_
    have hkind : token.kind = .keyword .else := congrArg Prod.fst htoken
    simp only [hkind, Blocks.elseClause, bind_assoc]
    refine reads_advance_bind (by nofun) fun word _ => ?_
    have hplace : (t.handlers.isEmpty || !t.orelse.isEmpty) = false := by
      obtain ⟨-, hmap, horelse⟩ := his
      have hempty : t.orelse = [] := List.map_eq_nil_iff.mp horelse
      have hsome : t.handlers ≠ [] := by
        rintro hnil
        rw [hnil] at hmap
        exact hhandlers hmap.symm
      simp [hempty, hsome]
    simp only [hchain, hplace, Bool.false_eq_true, if_false]
    exact reads_continuing h hind hwider (Clause.adds_tryElse his)

theorem asClause_finally :
    AsClause 0 [TokenKind.face (.keyword .finally)] (.attempt body₀ handlers₀ orelse₀) []
      fun body => ([.tryExcept () body₀ handlers₀ orelse₀ body], .none) where
  reads b width ss ind rest h hind hwider := by
    obtain ⟨t, hchain, his⟩ := exists_attempt h
    refine Reads.congr (F := True) ?_ (iff_of_true trivial (Nat.zero_le _))
    refine reads_peek_bind fun token htoken => ?_
    have hkind : token.kind = .keyword .finally := congrArg Prod.fst htoken
    simp only [hkind, Blocks.finallyClause, bind_assoc]
    refine reads_advance_bind (by nofun) fun word _ => ?_
    simp only [hchain]
    exact reads_continuing h hind hwider (Clause.adds_finally his)

/-- The faces of a handler: what it handles, and what the exception is called. -/
def handlerFaces (type : Option Item) (name : Option String) : List Face :=
  TokenKind.face (.keyword .except) :: type.elim [] fun i =>
    i.faces ++ name.elim [] fun id => [TokenKind.face (.keyword .as), Format.nameFace id]

theorem asClause_except {type : Option Item} {name : Option String} (htype : ∀ i ∈ type, i.Sound)
    (hname : type = none → name = none) (hlast : ∀ h ∈ handlers₀.getLast?, h.type ≠ none) :
    AsClause (depthOf type.toList) (handlerFaces type name) (.attempt body₀ handlers₀ []) []
      fun body => ([], .attempt body₀ (handlers₀ ++ [⟨(), type.map Item.value, name, body⟩]) [])
        where
  reads b width ss ind rest h hind hwider := by
    obtain ⟨t, hchain, his⟩ := exists_attempt h
    refine reads_peek_bind fun token htoken => ?_
    have hkind : token.kind = .keyword .except := congrArg Prod.fst htoken
    simp only [hkind, Blocks.exceptClause, bind_assoc]
    refine reads_advance_bind (by nofun) fun word _ => ?_
    have hplace : (!t.orelse.isEmpty || Blocks.endsInCatchAll t) = false := by
      obtain ⟨-, hmap, horelse⟩ := his
      have hempty : t.orelse = [] := List.map_eq_nil_iff.mp horelse
      have hcatch : Blocks.endsInCatchAll t = false := by
        unfold Blocks.endsInCatchAll
        rw [← hmap, List.getLast?_map] at hlast
        cases hgot : t.handlers.getLast? with
        | none => rfl
        | some k =>
          rw [hgot] at hlast
          have hsome := hlast k.erase rfl
          cases htype : k.type with
          | none => exact absurd (by simp [Handler.erase, htype]) hsome
          | some e => simp [htype]
      simp [hempty, hcatch]
    simp only [hchain, hplace, Bool.false_eq_true, if_false, bind_assoc]
    cases type with
    | none =>
      obtain rfl := hname rfl
      refine Reads.congr (F := True) ?_ (iff_of_true trivial (Nat.zero_le _))
      refine reads_check_pos rfl ?_
      simp only [if_true]
      exact reads_continuing h hind hwider (Clause.adds_handler his)
    | some i =>
      have hi := htype i rfl
      -- what stands behind the type
      let tail := (name.elim [] fun id => [TokenKind.face (.keyword .as), Format.nameFace id]) ++
        clauseEnd
      show Reads _ _ _
        ((i.faces ++ name.elim [] fun id => [TokenKind.face (.keyword .as), Format.nameFace id]) ++
          clauseEnd) _ _
      rw [List.append_assoc]
      have hstops : Stops (front (tail ++ ind :: rest)) := by
        cases name with
        | none => exact stops_of_kind (.inr (.inl rfl))
        | some id => exact stops_keyword rfl
      apply reads_check_neg
      · rw [List.append_assoc, front_eq hi.starts]
        exact front_ne hi.starts rfl
      simp only [Bool.false_eq_true, if_false, bind_assoc]
      refine ((hi.reads maxDepth _ hstops).bind (G := True) fun r hr => ?_).congr ?_
      · have hadds {name : Option String} : (Clause.handler t word.pos (some r) name).Adds
            fun body => ([],
              .attempt body₀ (handlers₀ ++ [⟨(), some i.value, name, body⟩]) []) := by
          rw [← hr]
          exact Clause.adds_handler his
        cases name with
        | none =>
          apply reads_accept_neg
          · nofun
          · exact reads_continuing h hind hwider hadds
        | some id =>
          refine reads_accept_pos rfl (by nofun) ?_
          simp only [if_true, bind_assoc]
          have hidentifier : Reads IsTooDeep (some <$> identifier) True [Format.nameFace id]
              (clauseEnd ++ ind :: rest) fun r => r = some id := by
            refine Reads.map (R := fun r => r = id) ?_ (fun a ha => congrArg some ha)
            refine reads_expect_bind rfl (by nofun) fun token htoken => ?_
            exact reads_pure (congrArg Prod.snd htoken)
          refine Reads.next hidentifier ?_
          rintro _ rfl
          exact reads_continuing h hind hwider hadds
      · simp [depthOf]

end Continuing

end Parse

/-! ## Runs over lines -/

/-- A line of a program: how deep it is indented, and its tokens. -/
structure Line where
  level : Nat
  faces : List Face

/-- How deep the first of some lines is indented; behind the last one nothing is. -/
def firstLevel (ls : List Line) : Nat := (ls.head?.map Line.level).getD 0

theorem firstLevel_append {ls : List Line} (h : ls ≠ []) (rest : List Line) :
    firstLevel (ls ++ rest) = firstLevel ls := by
  obtain ⟨l, ls, rfl⟩ := List.exists_cons_of_ne_nil h
  rfl

section Margin

variable (margin : Nat → String)

/-- The tokens from the first of some lines on, behind its indentation. -/
def lineFaces : List Line → List Face
  | [] => [endFace]
  | l :: ls => l.faces ++ newLineFace :: (.indentation, margin (firstLevel ls)) :: lineFaces ls

/-- The tokens from the indentation of the first of some lines on. -/
def indentedFaces (ls : List Line) : List Face :=
  (.indentation, margin (firstLevel ls)) :: lineFaces margin ls

/-- The widths of the blocks around one at a level. -/
def openWidths : Nat → List Nat
  | 0 => []
  | level + 1 => (margin level).utf8ByteSize :: openWidths level

theorem mem_openWidths {level n : Nat} (h : n < level) :
    (margin n).utf8ByteSize ∈ openWidths margin level := by
  induction level with
  | zero => cases h
  | succ level ih =>
    rcases Nat.lt_succ_iff_lt_or_eq.mp h with h | rfl
    · exact List.mem_cons_of_mem _ (ih h)
    · exact List.mem_cons_self

/-- From some open blocks on, the tokens that are left are read as a program if it fits; otherwise
an expression is found to be nested too deeply. -/
def Blocks.Runs (b : Blocks) (fits : Prop) (fs : List Face) (Q : List MarkedStmt → Prop) : Prop :=
  ∀ n s, s.faces = fs → 2 * fs.length + b.outer.length < n →
    Ends IsTooDeep fits [endFace] Q (StateT.run (iterateWithin Blocks.step n b) s)

/-- From some open blocks and some tokens on others are reached, if what stands between them
fits. -/
structure Blocks.Reaches (b : Blocks) (fits : Prop) (fs gs : List Face)
    (R : Blocks → Prop) : Prop where
  runs : ∀ {G : Prop} {Q : List MarkedStmt → Prop}, (∀ b', R b' → b'.Runs G gs Q) →
    b.Runs (fits ∧ G) fs Q

variable {margin} {b : Blocks} {F G : Prop} {fs gs hs : List Face} {R S : Blocks → Prop}

theorem Blocks.Reaches.congr (h : b.Reaches F fs gs R) (hfits : F ↔ G) : b.Reaches G fs gs R := by
  rwa [propext hfits] at h

theorem Blocks.Reaches.trans (h : b.Reaches F fs gs R) (h' : ∀ b', R b' → b'.Reaches G gs hs S) :
    b.Reaches (F ∧ G) fs hs S where
  runs hQ := by
    rw [and_assoc]
    exact h.runs fun b' hb' => (h' b' hb').runs hQ

theorem Blocks.reaches_refl (h : R b) : b.Reaches True fs fs R where
  runs hQ := by
    rw [true_and]
    exact hQ b h

/-- A single step. It takes a token or leaves a block, and opens one block at most. -/
theorem Blocks.reaches_of_step
    (h : Reads IsTooDeep b.step F fs gs fun r => ∃ b', r = .again b' ∧ R b')
    (hless : ∀ b', R b' → b'.outer.length < 2 * fs.length + b.outer.length) :
    b.Reaches F (fs ++ gs) gs R := by
  refine ⟨fun hQ n s hs hn => ?_⟩
  rw [List.length_append] at hn
  obtain ⟨n, rfl⟩ : ∃ m, n = m + 1 := ⟨n - 1, by omega⟩
  rw [iterateWithin, StateT.run_bind]
  obtain ⟨hok, hfault⟩ := h s hs
  by_cases hF : F
  · obtain ⟨_, s', hrun, hs', b', rfl, hb'⟩ := hok hF
    have hless := hless b' hb'
    obtain ⟨hok', hfault'⟩ := hQ b' hb' n s' hs' (by omega)
    rw [hrun]
    exact ⟨fun h => hok' h.2, fun h => hfault' fun hG => h ⟨hF, hG⟩⟩
  · obtain ⟨e, hrun, he⟩ := hfault hF
    rw [hrun]
    exact ⟨fun h => absurd h.1 hF, fun _ => ⟨e, rfl, he⟩⟩

variable (margin)

/-- Open blocks of which the innermost one is at a level and holds statements and a chain. -/
structure Blocks.At (b : Blocks) (outer : List Enclosing) (level : Nat) (ss : List (Stmt Unit))
    (p : Pending) : Prop where
  around : b.outer = outer
  widths : outer.map (fun e => e.block.width) = openWidths margin level
  inner : b.inner.Holds (margin level).utf8ByteSize ss p

/-- Open blocks of which the innermost one holds some statements once its chain is closed. -/
def Blocks.Settles (b : Blocks) (outer : List Enclosing) (level : Nat)
    (ss : List (Stmt Unit)) : Prop :=
  ∃ ss' p, b.At margin outer level ss' p ∧ p.Closable ∧ ss' ++ p.closed = ss

/-- Some lines are read as statements at a level. -/
structure AsLines (level : Nat) (ls : List Line) (n : Nat) (ss : List (Stmt Unit)) : Prop where
  some : ls ≠ []
  first : firstLevel ls = level
  reaches : ∀ {b : Blocks} {outer : List Enclosing} {before : List (Stmt Unit)} {rest : List Line},
    b.Settles margin outer level before → firstLevel rest ≤ level →
    b.Reaches (n ≤ maxDepth) (lineFaces margin (ls ++ rest)) (indentedFaces margin rest)
      fun b' => b'.Settles margin outer level (before ++ ss)

/-- Some lines are read as the clauses that a chain still gets; they make statements of the
chain. -/
structure AsTail (level : Nat) (ls : List Line) (n : Nat) (p : Pending)
    (added : List (Stmt Unit)) : Prop where
  first : ls ≠ [] → firstLevel ls = level
  reaches : ∀ {b : Blocks} {outer : List Enclosing} {ss : List (Stmt Unit)} {rest : List Line},
    b.At margin outer level ss p → firstLevel rest ≤ level →
    b.Reaches (n ≤ maxDepth) (indentedFaces margin (ls ++ rest)) (indentedFaces margin rest)
      fun b' => b'.Settles margin outer level (ss ++ added)

variable {margin} {outer : List Enclosing} {level n m k : Nat}
  {ss ss' body : List (Stmt Unit)} {p : Pending}
  {ls ls' rest : List Line}

theorem Blocks.At.settles (h : b.At margin outer level ss p) (hp : p.Closable) :
    b.Settles margin outer level (ss ++ p.closed) := ⟨ss, p, h, hp, rfl⟩

/-- The indentation of a line in the same block. -/
theorem Blocks.At.reaches_line (h : b.At margin outer level ss p) (ls : List Line)
    (hlevel : firstLevel ls = level) :
    b.Reaches True (indentedFaces margin ls) (lineFaces margin ls) fun b' => b' = b := by
  have hstep : Reads IsTooDeep b.step True [(.indentation, margin (firstLevel ls))]
    (lineFaces margin ls)
      fun r => ∃ b', r = .again b' ∧ b' = b := by
    refine reads_peek_bind fun token htoken => ?_
    have hkind : token.kind = .indentation := congrArg Prod.fst htoken
    have hwidth : token.width = b.inner.width := by
      have hvalue : token.value = margin (firstLevel ls) := congrArg Prod.snd htoken
      rw [Token.width, hvalue, hlevel, h.inner.width]
    simp only [hkind, hwidth, lt_self_iff_false, if_false]
    refine reads_advance_bind (by simp) fun _ _ => ?_
    exact reads_pure ⟨b, rfl, rfl⟩
  refine Blocks.reaches_of_step hstep ?_
  rintro _ rfl
  simp

theorem AsLines.append (h : AsLines margin level ls n ss) (h' : AsLines margin level ls' m ss') :
    AsLines margin level (ls ++ ls') (max n m) (ss ++ ss') where
  some := by simp [h.some]
  first := by rw [firstLevel_append h.some, h.first]
  reaches {b outer before rest} hb hrest := by
    have hlevel : firstLevel (ls' ++ rest) = level := by rw [firstLevel_append h'.some, h'.first]
    rw [List.append_assoc]
    have hfirst := h.reaches hb (Nat.le_of_eq hlevel)
    refine Blocks.Reaches.congr (hfirst.trans fun b' hb' => ?_) Nat.max_le.symm
    obtain ⟨ss₁, p, hat, hp, hss⟩ := hb'
    have hline := (hat.reaches_line _ hlevel).trans (G := m ≤ maxDepth)
      (S := fun b'' => b''.Settles margin outer level (before ++ (ss ++ ss'))) (by
        rintro _ rfl
        have hsecond := h'.reaches ⟨ss₁, p, hat, hp, hss⟩ hrest
        rwa [List.append_assoc] at hsecond)
    exact hline.congr (and_iff_right trivial)

/-- A simple statement on a line. -/
theorem asLines_simple {fs : List Face} {s : Stmt Unit} (h : AsSimple n fs s) :
    AsLines margin level [⟨level, fs⟩] n [s] where
  some := by simp
  first := rfl
  reaches {b outer before rest} hb _ := by
    obtain ⟨ss, p, hat, hp, rfl⟩ := hb
    have hsome : fs ≠ [] := by
      rintro rfl
      cases h.starts
    have hkind : (front (fs ++ [newLineFace] ++ indentedFaces margin rest)).1 = (front fs).1 := by
      rw [List.append_assoc, front_append hsome]
    have hstep : Reads IsTooDeep b.step (n ≤ maxDepth) (fs ++ [newLineFace])
      (indentedFaces margin rest)
        fun r => ∃ b', r = .again b' ∧ b'.Settles margin outer level (ss ++ p.closed ++ [s]) := by
      refine reads_step (by rw [hkind]; exact startsStatement_of_startsSimple h.starts)
        fun word hword => ?_
      refine (hat.inner.reads_closeChain hp).silent fun inner hinner => ?_
      rw [statement_of_startsSimple (by rw [hword, hkind]; exact h.starts), bind_assoc]
      apply (h.reads (indentedFaces margin rest)).last
      rintro ⟨r, more⟩ ⟨hr, -⟩
      refine reads_pure
        ⟨_, rfl, ss ++ p.closed ++ [s], .none, ⟨hat.around, hat.widths, ?_⟩, trivial, ?_⟩
      · exact hinner.push hr
      · exact List.append_nil _
    have hreaches := Blocks.reaches_of_step hstep (by
      rintro b' ⟨_, _, hat', _, _⟩
      rw [hat'.around, hat.around]
      simp)
    simpa [lineFaces, indentedFaces] using hreaches

section Suites

variable (hmargin : ∀ {i j : Nat}, i < j → (margin i).utf8ByteSize < (margin j).utf8ByteSize)

include hmargin

/-- A block that is the body of a clause is left where the next line is indented less deep. -/
theorem Blocks.Settles.reaches_leave {inner : Block} {c : Clause} {token : Token}
    {f : List (Stmt Unit) → List (Stmt Unit) × Pending}
    (hb : b.Settles margin (⟨inner, c, token⟩ :: outer) (level + 1) body) (hbody : body ≠ [])
    (hinner : inner.Holds (margin level).utf8ByteSize ss .none) (hc : c.Adds f)
    (hrest : firstLevel rest ≤ level) :
    b.Reaches True (indentedFaces margin rest) (indentedFaces margin rest)
      fun b' => b'.At margin outer level (ss ++ (f body).1) (f body).2 := by
  obtain ⟨ss', p, hat, hp, rfl⟩ := hb
  have hwidths := hat.widths
  rw [List.map_cons, openWidths] at hwidths
  have houter := (List.cons.inj hwidths).2
  have hstep : Reads IsTooDeep b.step True [] (indentedFaces margin rest)
      fun r => ∃ b', r = .again b' ∧
        b'.At margin outer level (ss ++ (f (ss' ++ p.closed)).1) (f (ss' ++ p.closed)).2 := by
    refine reads_peek_bind fun token' htoken => ?_
    have hkind : token'.kind = .indentation := congrArg Prod.fst htoken
    have hwidth : token'.width = (margin (firstLevel rest)).utf8ByteSize := by
      have hvalue : token'.value = margin (firstLevel rest) := congrArg Prod.snd htoken
      rw [Token.width, hvalue]
    have hless : token'.width < b.inner.width := by
      rw [hwidth, hat.inner.width]
      exact hmargin (Nat.lt_succ_of_le hrest)
    have hknown : b.widths.contains token'.width = true := by
      rw [List.contains_iff_mem, Blocks.widths, hat.around, hat.widths, hwidth]
      exact List.mem_cons_of_mem _ (mem_openWidths margin (Nat.lt_succ_of_le hrest))
    simp only [hkind, hless, hknown, if_true]
    apply (hat.inner.reads_closeChain hp).last
    intro closed hclosed
    have hsome : closed.done.reverse.isEmpty = false := by
      rw [List.isEmpty_eq_false_iff]
      intro hnil
      have hdone := hclosed.done
      rw [hnil] at hdone
      exact hbody hdone.symm
    simp only [hat.around, hsome, Bool.false_eq_true, if_false]
    apply (hc.attach closed.done.reverse (indentedFaces margin rest) hinner).last
    intro inner' hinner'
    rw [hclosed.done] at hinner'
    exact reads_pure ⟨_, rfl, rfl, houter, hinner'⟩
  refine Blocks.reaches_of_step hstep ?_
  intro b' hat'
  rw [hat'.around, hat.around]
  simp

/-- A clause with its body on the lines below it. -/
theorem reaches_clause {fs : List Face} {kept : List (Stmt Unit)}
    {f : List (Stmt Unit) → List (Stmt Unit) × Pending} (hclause : AsClause n fs p kept f)
    (hbody : AsLines margin (level + 1) ls m body) (hsome : body ≠ [])
    (hb : b.At margin outer level ss p)
    (hrest : firstLevel rest ≤ level) :
    b.Reaches (n ≤ maxDepth ∧ m ≤ maxDepth)
      (lineFaces margin (⟨level, fs ++ [TokenKind.face .colon]⟩ :: ls ++ rest))
        (indentedFaces margin rest)
      fun b' => b'.At margin outer level (ss ++ kept ++ (f body).1) (f body).2 := by
  have hdeeper : firstLevel (ls ++ rest) = level + 1 := by
    rw [firstLevel_append hbody.some, hbody.first]
  let ind : Face := (.indentation, margin (firstLevel (ls ++ rest)))
  have hwidth : ind.2.utf8ByteSize = (margin (level + 1)).utf8ByteSize := by
    rw [← hdeeper]
  have hwider : (margin level).utf8ByteSize < ind.2.utf8ByteSize := by
    rw [hwidth]
    exact hmargin (Nat.lt_succ_self level)
  have hstep := hclause.reads b (lineFaces margin (ls ++ rest)) hb.inner rfl hwider
  have hopen : b.Reaches (n ≤ maxDepth)
    (lineFaces margin (⟨level, fs ++ [TokenKind.face .colon]⟩ :: ls ++ rest))
      (indentedFaces margin (ls ++ rest)) fun b' => ∃ inner c token,
        b'.At margin (⟨inner, c, token⟩ :: outer) (level + 1) [] .none ∧
          inner.Holds (margin level).utf8ByteSize (ss ++ kept) .none ∧ c.Adds f := by
    have hfaces : lineFaces margin (⟨level, fs ++ [TokenKind.face .colon]⟩ :: ls ++ rest) =
        fs ++ clauseEnd ++ indentedFaces margin (ls ++ rest) := by
      simp [lineFaces, indentedFaces, clauseEnd]
    rw [hfaces]
    refine Blocks.reaches_of_step (hstep.imp ?_) ?_
    · rintro _ ⟨inner, c, token, rfl, hinner, hc⟩
      refine ⟨_, rfl, inner, c, token, ⟨?_, ?_, ?_⟩, hinner, hc⟩
      · rw [hb.around]
      · rw [List.map_cons, hb.widths, openWidths, hinner.width]
      · exact ⟨hwidth, rfl, trivial⟩
    · rintro b' ⟨inner, c, token, hat, -, -⟩
      rw [hat.around, hb.around]
      simp [clauseEnd]
      omega
  refine hopen.trans fun b₁ h₁ => ?_
  obtain ⟨inner, c, token, hat, hinner, hc⟩ := h₁
  have hline := (hat.reaches_line _ hdeeper).trans (G := m ≤ maxDepth)
    (S := fun b' => b'.At margin outer level (ss ++ kept ++ (f body).1) (f body).2) (by
      rintro b₁ rfl
      have hsettles := hat.settles trivial
      have hlines := (hbody.reaches hsettles (Nat.le_succ_of_le hrest)).trans (G := True)
        (S := fun b' => b'.At margin outer level (ss ++ kept ++ (f body).1) (f body).2)
          fun b₂ h₂ => by
          rw [Pending.closed, List.append_nil, List.nil_append] at h₂
          exact h₂.reaches_leave hmargin hsome hinner hc hrest
      exact hlines.congr (and_iff_left trivial))
  exact hline.congr (and_iff_right trivial)

/-- A statement of several clauses. -/
theorem asLines_clause {fs : List Face} {f : List (Stmt Unit) → List (Stmt Unit) × Pending}
    {added : List (Stmt Unit)} (hclause : ∀ p : Pending, p.Closable → AsClause n fs p p.closed f)
    (hbody : AsLines margin (level + 1) ls m body) (hsome : body ≠ [])
    (htail : AsTail margin level ls' k (f body).2 added) :
    AsLines margin level (⟨level, fs ++ [TokenKind.face .colon]⟩ :: ls ++ ls') (max n (max m k))
      ((f body).1 ++ added) where
  some := by simp
  first := rfl
  reaches {b outer before rest} hb hrest := by
    obtain ⟨ss, p, hat, hp, rfl⟩ := hb
    have hbehind : firstLevel (ls' ++ rest) ≤ level := by
      by_cases hls : ls' = []
      · rwa [hls, List.nil_append]
      · rw [firstLevel_append hls, htail.first hls]
    have hfirst := reaches_clause hmargin (hclause p hp) hbody hsome hat hbehind
    have hall := hfirst.trans (G := k ≤ maxDepth)
      (S := fun b' => b'.Settles margin outer level (ss ++ p.closed ++ ((f body).1 ++ added)))
        fun b' hat' => by
        have hmore := htail.reaches hat' hrest
        rwa [List.append_assoc (ss ++ p.closed)] at hmore
    rw [List.append_assoc]
    apply hall.congr
    rw [Nat.max_le, Nat.max_le, and_assoc]

/-- One more clause of a chain. -/
theorem AsTail.clause {fs : List Face} {f : List (Stmt Unit) → List (Stmt Unit) × Pending}
    {added : List (Stmt Unit)} (hclause : AsClause n fs p [] f)
    (hbody : AsLines margin (level + 1) ls m body) (hsome : body ≠ [])
    (htail : AsTail margin level ls' k (f body).2 added) :
    AsTail margin level (⟨level, fs ++ [TokenKind.face .colon]⟩ :: ls ++ ls') (max n (max m k)) p
      ((f body).1 ++ added) where
  first _ := rfl
  reaches {b outer ss rest} hat hrest := by
    have hbehind : firstLevel (ls' ++ rest) ≤ level := by
      by_cases hls : ls' = []
      · rwa [hls, List.nil_append]
      · rw [firstLevel_append hls, htail.first hls]
    rw [List.append_assoc]
    have hline := (hat.reaches_line
      (⟨level, fs ++ [TokenKind.face .colon]⟩ :: ls ++ (ls' ++ rest)) rfl).trans
      (G := (n ≤ maxDepth ∧ m ≤ maxDepth) ∧ k ≤ maxDepth)
      (S := fun b' => b'.Settles margin outer level (ss ++ ((f body).1 ++ added))) (by
        rintro _ rfl
        refine (reaches_clause hmargin hclause hbody hsome hat hbehind).trans fun b' hat' => ?_
        have hmore := htail.reaches hat' hrest
        rwa [List.append_nil, List.append_assoc] at hmore)
    apply hline.congr
    rw [Nat.max_le, Nat.max_le, and_iff_right trivial, and_assoc]

end Suites

/-- A chain gets no more clauses. -/
theorem asTail_nil (hp : p.Closable) : AsTail margin level [] 0 p p.closed where
  first h := absurd rfl h
  reaches {b outer ss rest} hat _ := by
    have hrefl : b.Reaches True (indentedFaces margin rest) (indentedFaces margin rest)
        fun b' => b'.Settles margin outer level (ss ++ p.closed) :=
          Blocks.reaches_refl (hat.settles hp)
    exact hrefl.congr (iff_of_true trivial (Nat.zero_le _))

/-! ## Whole programs -/

/-- At the end of the input the program is what the outermost block holds. -/
theorem Blocks.At.runs_finish (h : b.At margin [] 0 ss p) (hp : p.Closable) :
    b.Runs True [endFace] fun body => body.map Stmt.erase = ss ++ p.closed := by
  intro n s hs hn
  obtain ⟨n, rfl⟩ : ∃ m, n = m + 1 := ⟨n - 1, by omega⟩
  have hstep : Reads IsTooDeep b.step True [] [endFace]
      fun r => ∃ body : List MarkedStmt, r = .done body ∧ body.map Stmt.erase = ss ++ p.closed := by
    refine reads_peek_bind fun token htoken => ?_
    have hkind : token.kind = .finish := congrArg Prod.fst htoken
    simp only [hkind]
    apply (h.inner.reads_closeChain hp).last
    intro closed hclosed
    simp only [h.around]
    exact reads_pure ⟨_, rfl, hclosed.done⟩
  obtain ⟨_, s', hrun, hs', body, rfl, hbody⟩ := (hstep s hs).ok trivial
  rw [iterateWithin, StateT.run_bind, hrun]
  exact ⟨fun _ => ⟨body, s', rfl, hs', hbody⟩, fun h => absurd trivial h⟩

/-- Some lines are read as the statements of a program, which may have none. -/
def AsProgram (margin : Nat → String) (ls : List Line) (n : Nat) (ss : List (Stmt Unit)) : Prop :=
  if ls = [] then n = 0 ∧ ss = [] else AsLines margin 0 ls n ss

theorem AsProgram.runs (h : AsProgram margin ls n ss) (hb : b.At margin [] 0 [] .none) :
    b.Runs (n ≤ maxDepth) (lineFaces margin ls) fun body => body.map Stmt.erase = ss := by
  unfold AsProgram at h
  split at h
  · next hls =>
    obtain ⟨rfl, rfl⟩ := h
    rw [hls, ← propext (iff_of_true trivial (Nat.zero_le maxDepth))]
    exact hb.runs_finish trivial
  · have hempty : firstLevel [] ≤ 0 := Nat.le_refl 0
    have hlines := h.reaches (hb.settles trivial) hempty
    have hruns := hlines.runs (G := True) (Q := fun body => body.map Stmt.erase = ss)
      fun b' hb' => ?_
    · rwa [and_iff_left trivial, List.append_nil] at hruns
    · obtain ⟨ss', p, hat, hp, hss⟩ := hb'
      rw [Pending.closed, List.append_nil, List.nil_append] at hss
      have hend := (hat.reaches_line [] rfl).runs (G := True)
        (Q := fun body => body.map Stmt.erase = ss) fun b'' hb'' => ?_
      · rwa [and_iff_left trivial] at hend
      · rw [hb'', ← hss]
        exact hat.runs_finish hp

/-- **A program is read from the tokens of its lines** if its expressions are not nested too deeply;
otherwise that is the fault that is found. -/
theorem ends_module (hroot : margin 0 = "") (h : AsProgram margin ls n ss) {s : ParseState}
    (hs : s.faces = lineFaces margin ls) :
    Ends IsTooDeep (n ≤ maxDepth) [endFace] (fun r => r.erase = .module () ss)
      (StateT.run module s) := by
  have hb : Blocks.At margin { inner := { width := 0 } } [] 0 [] .none := by
    refine ⟨rfl, rfl, ⟨?_, rfl, trivial⟩⟩
    rw [hroot]
    rfl
  have hlength : s.tokens.length = (lineFaces margin ls).length := by
    rw [← hs, ParseState.faces, List.length_map]
  have hruns := h.runs hb (2 * s.tokens.length + 2) s hs (by
    rw [hlength]
    exact Nat.lt_add_of_pos_right Nat.two_pos)
  have hrun : StateT.run module s =
      (StateT.run (iterateWithin Blocks.step (2 * s.tokens.length + 2) { inner := { width := 0 } })
        s >>= fun r =>
        StateT.run (do return .module (← register .module s.next.pos) r.1) r.2) := rfl
  rw [hrun]
  by_cases hn : n ≤ maxDepth
  · obtain ⟨body, s', hok, hs', hbody⟩ := hruns.ok hn
    rw [hok]
    refine ⟨fun _ => ⟨_, _, rfl, hs', ?_⟩, fun h => absurd hn h⟩
    rw [Root.erase_module, hbody]
  · obtain ⟨e, herror, he⟩ := hruns.fault hn
    rw [herror]
    exact ⟨fun h => absurd h hn, fun _ => ⟨e, rfl, he⟩⟩

end Margin

end Toolchain

import Toolchain.Proofs.Parser.GuardedStatement

/-!
# Parsed programs are well formed

The simple statements are yielded well formed one by one. For the block structure, the open blocks
carry an invariant: the statements they hold are well formed, and a clause that waits for its body
makes a well-formed statement once it gets one.

## Main definitions

* `Block.WellFormed`, `Clause.WellFormed`, `Blocks.WellFormed`: the invariant of the open blocks

## Main results

* `Parse.yields_simpleStatement`: simple statements are well formed
* `Blocks.yields_step`: a step keeps the invariant
* `isModule_of_parseModule`, `isExpression_of_parseExpression`: **every parsed program is well
  formed**
-/

namespace Toolchain

namespace Parse

open Expr

/-! ## Simple statements -/

theorem yields_identifier : (expect .identifier).Yields fun t => IsIdentifier t.value :=
  GuardedParse.follows_identifier.yields

theorem yields_anyExpr : anyExpr.Yields WellFormed := GuardedParse.follows_anyExpr.yields

theorem yields_anyExprList : anyExprList.Yields WellFormed :=
  GuardedParse.follows_anyExprList.yields

theorem yields_parameters (stop : TokenKind) :
    (parameters anyExpr stop).Yields Signature.WellFormed :=
  (GuardedParse.follows_parameters GuardedParse.follows_anyExpr stop).yields

theorem yields_simpleStatement : simpleStatement.Yields fun p => p.1.WellFormed :=
  GuardedParse.follows_simpleStatement.yields

end Parse

/-! ## The block structure -/

/-- A clause of a conditional that is well formed. -/
structure Branch.WellFormed (b : Branch) : Prop where
  test : b.test.WellFormed
  body : IsBody b.body

/-- A `try` that is well formed so far. -/
structure TryChain.WellFormed (t : TryChain) : Prop where
  body : IsBody t.body
  handlers : Stmt.HandlersWellFormed t.handlers
  orelse : Stmt.AllWellFormed t.orelse
  order : t.handlers = [] → t.orelse = []

/-- A chain that is well formed so far. -/
def Chain.WellFormed : Chain → Prop
  | .branches last before => last.WellFormed ∧ ∀ b ∈ before, b.WellFormed
  | .attempt t => t.WellFormed

/-- A block that is well formed so far. -/
structure Block.WellFormed (b : Block) : Prop where
  done : ∀ s ∈ b.done, s.WellFormed
  chain : ∀ c ∈ b.chain, c.WellFormed

/-- A clause that lacks only its body. -/
def Clause.WellFormed : Clause → Prop
  | .ifTest _ test => test.WellFormed
  | .elifTest last before _ test =>
    last.WellFormed ∧ (∀ b ∈ before, b.WellFormed) ∧ test.WellFormed
  | .otherwise last before => last.WellFormed ∧ ∀ b ∈ before, b.WellFormed
  | .tryBody _ => True
  | .handler t _ type name =>
    t.WellFormed ∧ (∀ h ∈ t.handlers, h.type ≠ none) ∧ Expr.OptionWellFormed type ∧
      (∀ id ∈ name, IsIdentifier id) ∧ (type = none → name = none)
  | .tryElse t => t.WellFormed ∧ t.handlers ≠ []
  | .finally t => t.WellFormed
  | .whileTest _ test => test.WellFormed
  | .forEach _ target iter => target.IsTarget .store ∧ iter.WellFormed
  | .function _ name signature => IsIdentifier name ∧ signature.WellFormed
  | .classDef _ name bases => IsIdentifier name ∧ Expr.AllWellFormed bases

/-- Open blocks that are well formed so far. -/
structure Blocks.WellFormed (b : Blocks) : Prop where
  inner : b.inner.WellFormed
  outer : ∀ e ∈ b.outer, e.block.WellFormed ∧ e.clause.WellFormed

theorem Chain.wellFormed_conditional {orelse : List MarkedStmt}
    (horelse : Stmt.AllWellFormed orelse)
    {last : Branch} (hlast : last.WellFormed) {before : List Branch}
    (hbefore : ∀ b ∈ before, b.WellFormed) : (conditional orelse last before).WellFormed := by
  induction before generalizing last orelse with
  | nil => exact ⟨hlast.test, hlast.body.1, hlast.body.2, horelse⟩
  | cons previous before ih =>
    rw [List.forall_mem_cons] at hbefore
    refine ih ?_ hbefore.1 hbefore.2
    exact ⟨⟨hlast.test, hlast.body.1, hlast.body.2, horelse⟩, trivial⟩

namespace Block

open Parse

theorem WellFormed.push {b : Block} (hb : b.WellFormed) {s : MarkedStmt} (hs : s.WellFormed) :
    (b.push s).WellFormed :=
  ⟨by simpa [Block.push] using ⟨hs, hb.done⟩, hb.chain⟩

theorem WellFormed.withChain {b : Block} (hb : b.WellFormed) {c : Chain} (hc : c.WellFormed) :
    WellFormed { b with chain := some c } :=
  ⟨hb.done, by simpa using hc⟩

theorem yields_misplaced {α : Type} {Q : α → Prop} (word : Token) {id : MessageId}
    (hid : (id, 0) ∈ MessageId.placing) : (misplaced word id : Parse α).Yields Q :=
  yields_placed rfl word hid

theorem yields_outOfOrder {α : Type} {Q : α → Prop} (word : Token) :
    (outOfOrder word : Parse α).Yields Q :=
  yields_throw (Fault.placed_named rfl word _ (by decide))

theorem yields_closeChain {b : Block} (hb : b.WellFormed) :
    (closeChain b).Yields fun b => b.WellFormed ∧ b.chain = none := by
  have hclosed : WellFormed { b with chain := none } := ⟨hb.done, by simp⟩
  unfold closeChain
  simp only
  split
  · next hnone => exact yields_pure ⟨hb, hnone⟩
  · next last before hsome =>
    have hchain := hb.chain _ hsome
    refine yields_pure ⟨hclosed.push (Chain.wellFormed_conditional ?_ hchain.1 hchain.2), rfl⟩
    trivial
  · next t hsome =>
    have ht : t.WellFormed := hb.chain _ hsome
    split
    · exact yields_misplaced _ (by decide)
    · next hne =>
      refine yields_pure ⟨hclosed.push ?_, rfl⟩
      exact ⟨ht.body.1, ht.body.2, ht.handlers, ht.orelse, trivial,
        fun hnil => absurd (List.isEmpty_iff.mpr hnil) hne⟩

theorem yields_attach {b : Block} (hb : b.WellFormed) {body : List MarkedStmt} (hbody : IsBody body)
    {clause : Clause} (hclause : clause.WellFormed) :
    (b.attach body clause).Yields WellFormed := by
  cases clause with
  | ifTest word test =>
    exact yields_made fun m => hb.withChain ⟨⟨hclause, hbody⟩, by simp⟩
  | elifTest last before word test =>
    obtain ⟨hlast, hbefore, htest⟩ := hclause
    refine yields_made fun m => hb.withChain ⟨⟨htest, hbody⟩, ?_⟩
    rw [List.forall_mem_cons]
    exact ⟨hlast, hbefore⟩
  | otherwise last before =>
    exact yields_pure (hb.push (Chain.wellFormed_conditional hbody.2 hclause.1 hclause.2))
  | tryBody word =>
    exact yields_made fun m => hb.withChain ⟨hbody, trivial, trivial, fun _ => rfl⟩
  | handler t word type name =>
    obtain ⟨ht, htypes, htype, hname, hbare⟩ := hclause
    refine yields_made fun m => hb.withChain ?_
    refine ⟨ht.body, ?_, ht.orelse, by simp⟩
    rw [Stmt.handlersWellFormed_append]
    exact ⟨ht.handlers, htypes, htype, hname, fun h => ⟨hbare h, rfl⟩, hbody.1, hbody.2, trivial⟩
  | tryElse t =>
    obtain ⟨ht, hne⟩ := hclause
    exact yields_pure (hb.withChain ⟨ht.body, ht.handlers, hbody.2, fun hnil => absurd hnil hne⟩)
  | «finally» t =>
    refine yields_pure (hb.push ?_)
    exact ⟨hclause.body.1, hclause.body.2, hclause.handlers, hclause.orelse, hbody.2,
      fun hnil => ⟨hclause.order hnil, hbody.1⟩⟩
  | whileTest word test =>
    exact yields_made fun m => hb.push ⟨hclause, hbody⟩
  | forEach word target iter =>
    exact yields_made fun m => hb.push ⟨hclause.1, hclause.2, hbody⟩
  | function word name signature =>
    exact yields_made fun m => hb.push ⟨hclause.1, hclause.2, hbody⟩
  | classDef word name bases =>
    exact yields_made fun m => hb.push ⟨hclause.1, hclause.2, hbody⟩

end Block

namespace Blocks

open Parse Block

theorem yields_missingBody {α : Type} {Q : α → Prop} (token : Token) :
    (missingBody token : Parse α).Yields Q :=
  yields_placed rfl token (by decide)

theorem yields_inlineBody : inlineBody.Yields IsBody := GuardedParse.follows_inlineBody.yields

theorem yields_suite {b : Blocks} (hb : b.WellFormed) {clause : Clause}
    (hclause : clause.WellFormed) : (b.suite clause).Yields WellFormed := by
  refine (yields_expected _).bind fun _ _ => yields_next.bind fun token _ => ?_
  split
  · refine yields_taken.bind fun _ _ => yields_next.bind fun indentation _ => ?_
    split
    · refine yields_pure ⟨⟨by simp, by simp⟩, ?_⟩
      rw [List.forall_mem_cons]
      exact ⟨⟨hb.inner, hclause⟩, hb.outer⟩
    · exact yields_missingBody _
  · exact yields_missingBody _
  · refine yields_inlineBody.bind fun body hbody => ?_
    exact (yields_attach hb.inner hbody hclause).bind fun inner hinner =>
      yields_pure ⟨hinner, hb.outer⟩

theorem yields_loopTargets : loopTargets.Yields (Expr.IsTarget .store) :=
  GuardedParse.follows_loopTargets.yields

theorem yields_classBases : classBases.Yields Expr.AllWellFormed :=
  GuardedParse.follows_classBases.yields

theorem yields_statement {b : Blocks} (hb : b.WellFormed) (word : Token) :
    (b.statement word).Yields WellFormed := by
  unfold statement
  split
  · exact yields_taken.bind fun _ _ => yields_anyExpr.bind fun test htest => yields_suite hb htest
  · exact yields_taken.bind fun _ _ => yields_anyExpr.bind fun test htest => yields_suite hb htest
  · refine yields_taken.bind fun _ _ => yields_loopTargets.bind fun place hplace => ?_
    refine (yields_expected _).bind fun _ _ => yields_anyExprList.bind fun iter hiter => ?_
    exact yields_suite hb ⟨hplace, hiter⟩
  · exact yields_taken.bind fun _ _ => yields_suite hb trivial
  · refine yields_taken.bind fun _ _ => yields_identifier.bind fun name hname => ?_
    refine (yields_expected _).bind fun _ _ => ?_
    refine (yields_parameters _).bind fun signature hsignature => ?_
    exact (yields_expected _).bind fun _ _ => yields_suite hb ⟨hname, hsignature⟩
  · refine yields_taken.bind fun _ _ => yields_identifier.bind fun name hname => ?_
    exact yields_classBases.bind fun bases hbases => yields_suite hb ⟨hname, hbases⟩
  · exact yields_simpleStatement.bind fun p hp => yields_pure ⟨hb.inner.push hp, hb.outer⟩

theorem WellFormed.continuing {b : Blocks} (hb : b.WellFormed) : b.continuing.WellFormed :=
  ⟨⟨hb.inner.done, by simp [Blocks.continuing]⟩, hb.outer⟩

theorem yields_elifClause {b : Blocks} (hb : b.WellFormed) : b.elifClause.Yields WellFormed := by
  refine yields_taken.bind fun word _ => ?_
  split
  · next last before hchain =>
    obtain ⟨hlast, hbefore⟩ := hb.inner.chain _ hchain
    exact yields_anyExpr.bind fun test htest =>
      yields_suite hb.continuing ⟨hlast, hbefore, htest⟩
  · exact yields_misplaced _ (by decide)

theorem yields_elseClause {b : Blocks} (hb : b.WellFormed) : b.elseClause.Yields WellFormed := by
  refine yields_taken.bind fun word _ => ?_
  split
  · next t hchain =>
    split
    · exact yields_outOfOrder _
    · next horder =>
      refine yields_suite hb.continuing ⟨hb.inner.chain _ hchain, fun hnil => horder ?_⟩
      simp [hnil]
  · next last before hchain => exact yields_suite hb.continuing (hb.inner.chain _ hchain)
  · exact yields_misplaced _ (by decide)

/-- All handlers name a type if the last one does. -/
theorem type_ne_none {hs : List (Handler Mark MarkedExpr MarkedStmt)}
    (hwf : Stmt.HandlersWellFormed hs) (hlast : ∀ h ∈ hs.getLast?, h.type ≠ none) :
    ∀ h ∈ hs, h.type ≠ none := by
  induction hs with
  | nil => simp
  | cons k hs ih =>
    obtain ⟨-, -, hbare, -, -, hrest⟩ := hwf
    rw [List.forall_mem_cons]
    refine ⟨fun hnone => ?_, ih hrest fun h hh => ?_⟩
    · obtain rfl := (hbare hnone).2
      exact hlast k (by simp) hnone
    · refine hlast h ?_
      rw [List.getLast?_cons, Option.mem_def.mp hh]
      rfl

theorem yields_exceptClause {b : Blocks} (hb : b.WellFormed) :
    b.exceptClause.Yields WellFormed := by
  refine yields_taken.bind fun word _ => ?_
  split
  · next t hchain =>
    have ht : t.WellFormed := hb.inner.chain _ hchain
    split
    · exact yields_outOfOrder _
    · next horder =>
      have htypes : ∀ h ∈ t.handlers, h.type ≠ none := by
        refine type_ne_none ht.handlers fun h hh hnone => horder ?_
        simp [endsInCatchAll, Option.mem_def.mp hh, hnone]
      refine (yields_check _).bind fun colon _ => ?_
      split
      · exact yields_suite hb.continuing ⟨ht, htypes, trivial, by simp, fun _ => rfl⟩
      · refine yields_anyExpr.bind fun type htype => (yields_accept _).bind fun named _ => ?_
        have hfinish (name : Option String) (hname : ∀ id ∈ name, IsIdentifier id) :
            (b.continuing.suite (.handler t word.pos (some type) name)).Yields WellFormed :=
          yields_suite hb.continuing ⟨ht, htypes, htype, hname, by simp⟩
        split
        · refine Yields.bind (R := fun name => ∀ id ∈ name, IsIdentifier id) (Yields.map ?_) hfinish
          exact yields_identifier.bind fun t ht => yields_pure (by simpa using ht)
        · exact yields_pure_bind (hfinish none (by simp))
  · exact yields_misplaced _ (by decide)

theorem yields_finallyClause {b : Blocks} (hb : b.WellFormed) :
    b.finallyClause.Yields WellFormed := by
  refine yields_taken.bind fun word _ => ?_
  split
  · next t hchain => exact yields_suite hb.continuing (hb.inner.chain _ hchain)
  · exact yields_misplaced _ (by decide)

theorem yields_leave {b : Blocks} (hb : b.WellFormed) :
    b.leave.Yields (Next.Holds WellFormed Stmt.AllWellFormed) := by
  refine (yields_closeChain hb.inner).bind fun inner hinner => ?_
  have hbody : Stmt.AllWellFormed inner.done.reverse := by
    rw [Stmt.allWellFormed_iff]
    exact fun s hs => hinner.1.done s (List.mem_reverse.mp hs)
  have houter := hb.outer
  simp only
  split
  · exact yields_pure hbody
  · next e outer heq =>
    rw [heq, List.forall_mem_cons] at houter
    split
    · exact yields_missingBody _
    · next hne =>
      have hne' : inner.done.reverse ≠ [] := fun hnil => hne (List.isEmpty_iff.mpr hnil)
      exact (yields_attach houter.1.1 ⟨hne', hbody⟩ houter.1.2).bind fun inner hinner =>
        yields_pure ⟨hinner, houter.2⟩

/-- A step keeps the open blocks well formed, and the last one gives a well-formed program. -/
theorem yields_step {b : Blocks} (hb : b.WellFormed) :
    b.step.Yields (Next.Holds WellFormed Stmt.AllWellFormed) := by
  refine yields_next.bind fun token _ => ?_
  split
  · exact yields_leave hb
  · split
    · split
      · exact yields_leave hb
      · exact yields_placed rfl token (by decide)
    · split
      · exact yields_placed rfl token (by decide)
      · exact yields_taken.bind fun _ _ => yields_pure hb
  · exact (yields_elifClause hb).bind fun b hb => yields_pure hb
  · exact (yields_elseClause hb).bind fun b hb => yields_pure hb
  · exact (yields_exceptClause hb).bind fun b hb => yields_pure hb
  · exact (yields_finallyClause hb).bind fun b hb => yields_pure hb
  · refine (yields_closeChain hb.inner).bind fun inner hinner => ?_
    have hclosed : WellFormed { b with inner } := ⟨hinner.1, hb.outer⟩
    exact (yields_statement hclosed token).bind fun b hb => yields_pure hb

theorem yields_run : Blocks.run.Yields Stmt.AllWellFormed :=
  (yields_get fun _ _ => trivial).bind fun _ _ =>
    yields_iterateWithin (fun _ hb => yields_step hb) _ ⟨⟨by simp, by simp⟩, by simp⟩

end Blocks

namespace Parse

/-- A program is a module of well-formed statements. -/
def IsModule (r : Root Mark) : Prop := ∃ m body, r = .module m body ∧ Stmt.AllWellFormed body

theorem yields_module : module.Yields IsModule :=
  yields_next.bind fun _ _ => Blocks.yields_run.bind fun body hbody =>
    yields_made fun m => ⟨m, body, rfl, hbody⟩

theorem of_run {rule : Parse (Root Mark)} {Q : Root Mark → Prop} (hrule : rule.Yields Q)
    {file source : Text} {p : Parsed} (h : Parse.run rule file source = .ok p) : Q p.root := by
  have hmeets := hrule _ (proper_start source {})
  unfold Parse.run at h
  split at h
  · next root s hrun =>
    cases h
    rw [hrun] at hmeets
    exact hmeets.2
  · cases h

end Parse

theorem Parse.IsModule.wellFormed {r : Root Mark} (h : Parse.IsModule r) : r.WellFormed := by
  obtain ⟨m, body, rfl, hbody⟩ := h
  exact hbody

theorem Parse.IsExpression.wellFormed {r : Root Mark} (h : Parse.IsExpression r) :
    r.WellFormed := by
  obtain ⟨m, body, rfl, hbody⟩ := h
  exact hbody

/-- **Every parsed program is a well-formed module.** -/
theorem isModule_of_parseModule {file source : Text} {p : Parsed}
    (h : (parseModule file source).1 = .ok p) : Parse.IsModule p.root := by
  unfold parseModule at h
  split at h
  · next hrun =>
    cases h
    exact Parse.of_run Parse.yields_module hrun
  · cases h

/-- **Every expression that is parsed alone is well formed.** -/
theorem isExpression_of_parseExpression {file source : Text} {p : Parsed}
    (h : (parseExpression file source).1 = .ok p) : Parse.IsExpression p.root := by
  unfold parseExpression at h
  split at h
  · next hrun =>
    cases h
    exact Parse.of_run GuardedParse.follows_singleExpression.yields hrun
  · cases h

end Toolchain

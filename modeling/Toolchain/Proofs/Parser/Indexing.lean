import Toolchain.Parser.Block
import Toolchain.Proofs.Parser.Making

/-!
# The arena indexes the tree

Simple statements make their nodes like expressions do. For the block structure, the open blocks
hold the nodes of the statements read so far, those of the open chains and those of the clauses that
wait for a body: a step turns the nodes that are held into those that are held after it, so that no
clause is attached twice, however late it is attached.

## Main definitions

* `Blocks.nodes`: the nodes that the open blocks hold
* `Parsed.Indexed`: the arena of a parse is the index of its tree

## Main results

* `Parse.makes_simpleStatement`: simple statements make their nodes
* `Blocks.turns_step`: a step turns the nodes that the open blocks hold into those held after it
* `indexed_of_parse`: **the arena of every parse indexes its tree**
-/

namespace Toolchain

attribute [local simp] Expr.nodesAll Expr.nodesOption Stmt.nodes Stmt.nodesAll Stmt.nodesHandlers
  Stmt.tag Stmt.mark Alias.node Expr.nodesAll_append Stmt.nodesAll_append Stmt.nodesHandlers_append
  Parse.Next.nodes List.count_append List.count_cons

namespace Parse

open Expr

/-! ## Simple statements -/

theorem makes_anyExpr : Makes anyExpr Expr.nodes := makes_expression _

theorem makes_anyExprList : Makes anyExprList Expr.nodes := makes_exprList makes_anyExpr

/-- A target has the nodes of the expression it is made of. -/
theorem turns_target (ctx : Context) (token : Token) (e : MarkedExpr) :
    Turns e.nodes (target ctx token e) Expr.nodes := by
  unfold target
  split
  · next place hplace =>
    rw [← nodes_withContext? hplace]
    exact turns_pure (.refl _)
  · exact turns_throw _

theorem makes_returnStatement : Makes returnStatement Stmt.nodes := by
  refine idle_advance.bind fun word => (makes_expr? makes_anyExprList).bind fun value => ?_
  exact turns_made _ _ fun m x => by simp

theorem makes_deleteStatement : Makes deleteStatement Stmt.nodes := by
  refine idle_advance.bind fun word => ?_
  refine Turns.bind (f := nodesAll) (turns_iterate nodesAll (fun targets => ?_) [])
    fun targets => ?_
  · refine idle_peek.bind fun token => makes_anyExpr.bind fun e => ?_
    refine ((turns_target .del token e).beside _).bind fun place => (idle_accept _).bind fun b => ?_
    have hmore : (nodesAll (targets ++ [place])).Subperm (place.nodes ++ nodesAll targets) := by
      refine subperm_of_count fun x => ?_
      simp
      omega
    split
    · exact idle_peekKind.bind fun kind => .ite (turns_pure hmore) (turns_pure hmore)
    · exact turns_pure hmore
  · exact turns_made _ _ fun m x => by simp

theorem makes_raiseStatement : Makes raiseStatement Stmt.nodes := by
  refine idle_advance.bind fun word => (makes_expr? makes_anyExpr).bind fun exc => ?_
  have hfinish (cause : Option MarkedExpr) : Turns (nodesOption cause ++ (nodesOption exc ++ []))
      (do return .raise (← register .raise word.pos) exc cause : Parse MarkedStmt) Stmt.nodes := by
    refine turns_made _ _ fun m x => ?_
    simp
    omega
  split
  · refine (idle_accept _).bind fun b => .ite ?_ ?_
    · exact (Makes.bind (f := nodesOption) (Turns.map makes_anyExpr) hfinish)
    · exact turns_pure_bind (hfinish none)
  · exact turns_pure_bind (hfinish none)

theorem makes_assertStatement : Makes assertStatement Stmt.nodes := by
  refine idle_advance.bind fun word => makes_anyExpr.bind fun test => ?_
  have hfinish (msg : Option MarkedExpr) : Turns (nodesOption msg ++ (test.nodes ++ []))
      (do return .assert (← register .assert word.pos) test msg : Parse MarkedStmt) Stmt.nodes := by
    refine turns_made _ _ fun m x => ?_
    simp
    omega
  refine (idle_accept _).bind fun b => .ite ?_ ?_
  · exact (Makes.bind (f := nodesOption) (Turns.map makes_anyExpr) hfinish)
  · exact turns_pure_bind (hfinish none)

theorem idle_identifier : Idle identifier := (idle_expect _).andThen fun _ => idle_pure _

theorem idle_dottedName : Idle dottedName := by
  refine (idle_expect _).andThen fun first => idle_iterate (fun name => ?_) first.value
  refine (idle_accept _).andThen fun b => ?_
  split
  · exact (idle_expect _).andThen fun next => idle_pure _
  · exact idle_pure _

theorem makes_importName {name : Parse String} (hname : Idle name) :
    Makes (importName name) fun a => [a.node] := by
  refine idle_peek.bind fun token => hname.bind fun id => (idle_accept _).bind fun b => ?_
  split
  · refine (idle_expect _).bind fun as => turns_pure_bind ?_
    exact (makes_register _ _).bind fun m => turns_pure (.refl _)
  · exact turns_pure_bind ((makes_register _ _).bind fun m => turns_pure (.refl _))

theorem makes_importStatement : Makes importStatement Stmt.nodes := by
  refine idle_advance.bind fun word => ?_
  refine Turns.bind (f := List.map Alias.node)
    (turns_iterate (List.map Alias.node) (fun names => ?_) []) fun names => ?_
  · refine (makes_importName idle_dottedName).bind fun a => (idle_accept _).bind fun b => ?_
    have hmore : ((names ++ [a]).map Alias.node).Subperm ([a.node] ++ names.map Alias.node) := by
      rw [List.map_append]
      exact List.perm_append_comm.subperm
    split
    · exact turns_pure hmore
    · exact turns_pure hmore
  · exact turns_made _ _ fun m x => by simp

theorem makes_importedNames : Makes importedNames (List.map Alias.node) := by
  refine idle_peek.bind fun star => (idle_accept _).bind fun b => ?_
  split
  · exact (makes_register _ _).bind fun m => turns_pure (.refl _)
  refine (idle_accept _).bind fun inParens => ?_
  refine Turns.bind (f := List.map Alias.node)
    (turns_iterate (List.map Alias.node) (fun names => ?_) []) fun names => ?_
  · refine (makes_importName idle_identifier).bind fun a => (idle_accept _).bind fun b => ?_
    have hmore : ((names ++ [a]).map Alias.node).Subperm ([a.node] ++ names.map Alias.node) := by
      rw [List.map_append]
      exact List.perm_append_comm.subperm
    split
    · exact (idle_check _).bind fun b => .ite (turns_pure hmore) (turns_pure hmore)
    · exact turns_pure hmore
  · split
    · exact (idle_expect _).bind fun _ => turns_pure (.refl _)
    · exact turns_pure (.refl _)

theorem makes_importFromStatement : Makes importFromStatement Stmt.nodes := by
  refine idle_advance.bind fun word => ?_
  refine Idle.bind (idle_iterate (fun level => ?_) 0) fun level => ?_
  · exact (idle_accept _).andThen fun b => .ite (idle_pure _) (idle_pure _)
  · have hfinish (module : Option String) : Makes (do
        let _ ← expect (.keyword .imports)
        let names ← importedNames
        return .importFrom (← register .importFrom word.pos) module names level :
          Parse MarkedStmt) Stmt.nodes := by
      refine (idle_expect _).bind fun _ => makes_importedNames.bind fun names => ?_
      exact turns_made _ _ fun m x => by simp
    exact (idle_check _).bind fun b =>
      .ite ((idle_dottedName.map some).bind hfinish) (turns_pure_bind (hfinish none))

theorem turns_mapM_target (targets : List (Token × MarkedExpr)) :
    Turns (targets.flatMap fun t => t.2.nodes)
      (targets.mapM fun (token, e) => target .store token e) nodesAll := by
  induction targets with
  | nil => exact turns_pure (.refl _)
  | cons t targets ih =>
    rw [List.mapM_cons]
    refine ((turns_target .store t.1 t.2).beside _).bind fun place => ?_
    refine ((ih.beside place.nodes).of_subperm List.perm_append_comm.subperm).bind fun places => ?_
    exact turns_pure List.perm_append_comm.subperm

theorem turns_assignment (first : Token) (e : MarkedExpr) :
    Turns e.nodes (assignment first e) Stmt.nodes := by
  let held (p : List (Token × MarkedExpr) × Token × MarkedExpr) : List TreeNode :=
    p.1.flatMap (fun t => t.2.nodes) ++ p.2.2.nodes
  refine Turns.bind (f := held) (turns_iterate held ?_ ([], first, e)) ?_
  · rintro ⟨targets, start, value⟩
    refine (idle_accept _).bind fun b => ?_
    split
    · refine idle_peek.bind fun next => makes_anyExprList.bind fun more => ?_
      refine turns_counted fun x => ?_
      simp [held]
      omega
    · exact turns_pure (.refl _)
  · rintro ⟨targets, start, value⟩
    refine ((turns_mapM_target targets).beside value.nodes).bind fun places => ?_
    exact turns_made _ _ fun m x => by simp

/-- An expression that is made a target if it can be has the same nodes as before. -/
theorem nodes_getD_withContext? (ctx : Context) (e : MarkedExpr) :
    ((e.withContext? ctx).getD e).nodes = e.nodes := by
  cases hplace : e.withContext? ctx with
  | none => rfl
  | some place => exact nodes_withContext? hplace

theorem makes_exprStatement : Makes exprStatement Stmt.nodes := by
  refine idle_peek.bind fun first => Turns.bind makes_anyExprList fun e => ?_
  refine idle_peekKind.bind fun kind => ?_
  split
  · exact turns_assignment first e
  · split
    · refine idle_advance.bind fun _ => makes_anyExprList.bind fun value => ?_
      refine turns_made _ _ fun m x => ?_
      simp [nodes_getD_withContext?]
      omega
    · exact turns_throw _
  · exact turns_made _ _ fun m x => by simp

theorem idle_endStatement : Idle endStatement := by
  refine idle_peek.andThen fun token => ?_
  split
  · exact idle_advance.andThen fun _ => idle_pure _
  · exact idle_pure _
  · exact idle_advance.andThen fun _ => (idle_accept _).andThen fun b =>
      .ite (idle_pure _) ((idle_check _).andThen fun _ => idle_pure _)
  · exact idle_unexpected _

theorem makes_wordStatement {tag : NodeTag} {make : Mark → MarkedStmt}
    (h : ∀ m, (make m).nodes = [⟨tag, m⟩]) : Makes (wordStatement tag make) Stmt.nodes := by
  refine idle_advance.bind fun _ => (makes_register _ _).bind fun m => turns_pure ?_
  rw [h m]
  exact .refl _

theorem makes_simpleStatement : Makes simpleStatement fun p => p.1.nodes := by
  refine idle_peek.bind fun token => ?_
  have hfinish (s : MarkedStmt) : Turns s.nodes (do
      return (s, ← endStatement) : Parse (MarkedStmt × Bool)) fun p => p.1.nodes :=
    idle_endStatement.bind fun b => turns_pure (.refl _)
  extract_lets finish
  split
  · exact Turns.bind (makes_wordStatement fun m => by simp) hfinish
  · exact Turns.bind (makes_wordStatement fun m => by simp) hfinish
  · exact Turns.bind (makes_wordStatement fun m => by simp) hfinish
  · exact Turns.bind makes_returnStatement hfinish
  · exact Turns.bind makes_deleteStatement hfinish
  · exact Turns.bind makes_raiseStatement hfinish
  · exact Turns.bind makes_assertStatement hfinish
  · exact Turns.bind makes_importStatement hfinish
  · exact Turns.bind makes_importFromStatement hfinish
  · split
    · exact Turns.bind makes_exprStatement hfinish
    · exact Turns.bind (turns_unexpected _) hfinish

end Parse

/-! ## What the open blocks hold -/

/-- The nodes of a clause of a conditional. -/
def Branch.nodes (b : Branch) : List TreeNode :=
  ⟨.ifElse, b.mark⟩ :: (b.test.nodes ++ Stmt.nodesAll b.body)

/-- The nodes of a `try` with the clauses it has so far. -/
def TryChain.nodes (t : TryChain) : List TreeNode :=
  ⟨.tryExcept, t.mark⟩ ::
    (Stmt.nodesAll t.body ++ Stmt.nodesHandlers t.handlers ++ Stmt.nodesAll t.orelse)

/-- The nodes of an open chain. -/
def Chain.nodes : Chain → List TreeNode
  | .branches last before => last.nodes ++ before.flatMap Branch.nodes
  | .attempt t => t.nodes

/-- The nodes of a block. -/
def Block.nodes (b : Block) : List TreeNode :=
  Stmt.nodesAll b.done ++ b.chain.toList.flatMap Chain.nodes

/-- The nodes of a clause that waits for its body, with the chain that it continues. -/
def Clause.nodes : Clause → List TreeNode
  | .ifTest _ test | .whileTest _ test => test.nodes
  | .elifTest last before _ test => last.nodes ++ before.flatMap Branch.nodes ++ test.nodes
  | .otherwise last before => last.nodes ++ before.flatMap Branch.nodes
  | .tryBody _ => []
  | .handler t _ type _ => t.nodes ++ Expr.nodesOption type
  | .tryElse t | .finally t => t.nodes
  | .forEach _ target iter => target.nodes ++ iter.nodes
  | .function _ _ signature => signature.nodes
  | .classDef _ _ bases => Expr.nodesAll bases

/-- The nodes of a block around another one, and of the clause that waits for that one. -/
def Enclosing.nodes (e : Enclosing) : List TreeNode := e.block.nodes ++ e.clause.nodes

/-- The nodes that the open blocks hold. -/
def Blocks.nodes (b : Blocks) : List TreeNode := b.inner.nodes ++ b.outer.flatMap Enclosing.nodes

attribute [local simp] Branch.nodes TryChain.nodes Chain.nodes Block.nodes Blocks.nodes

/-- A conditional has the nodes of its clauses and of its alternative. -/
theorem Chain.count_nodes_conditional (x : TreeNode) (orelse : List MarkedStmt) (last : Branch)
    (before : List Branch) :
    (conditional orelse last before).nodes.count x =
      (last.nodes ++ before.flatMap Branch.nodes ++ Stmt.nodesAll orelse).count x := by
  induction before generalizing orelse last with
  | nil => simp [conditional]
  | cons previous before ih =>
    rw [conditional, ih]
    simp
    omega

namespace Block

open Parse

theorem nodes_push (b : Block) (s : MarkedStmt) : (b.push s).nodes = s.nodes ++ b.nodes := by
  simp [push]

theorem turns_closeChain (b : Block) : Turns b.nodes b.closeChain Block.nodes := by
  unfold closeChain
  simp only
  split
  · exact turns_pure (.refl _)
  · next last before hchain =>
    refine turns_counted fun x => ?_
    rw [nodes_push, List.count_append, Chain.count_nodes_conditional]
    simp [hchain]
    omega
  · next t hchain =>
    split
    · exact turns_throw _
    · refine turns_counted fun x => ?_
      rw [nodes_push, List.count_append]
      simp [hchain]
      omega

/-- A clause is attached once: with its body it makes the statement or the chain that it waited to
be. -/
theorem turns_attach (b : Block) (body : List MarkedStmt) (clause : Clause) :
    Turns (Stmt.nodesAll body ++ (b.nodes ++ clause.nodes)) (b.attach body clause) Block.nodes := by
  cases clause with
  | ifTest word test =>
    refine turns_made _ _ fun m x => ?_
    simp [Clause.nodes]
    omega
  | elifTest last before word test =>
    refine turns_made _ _ fun m x => ?_
    simp [Clause.nodes]
    omega
  | otherwise last before =>
    refine turns_counted fun x => ?_
    rw [nodes_push, List.count_append, Chain.count_nodes_conditional]
    simp [Clause.nodes]
    omega
  | tryBody word =>
    refine turns_made _ _ fun m x => ?_
    simp [Clause.nodes]
    omega
  | handler t word type name =>
    refine turns_made _ _ fun m x => ?_
    simp [Clause.nodes]
    omega
  | tryElse t =>
    refine turns_counted fun x => ?_
    simp [Clause.nodes]
    omega
  | «finally» t =>
    refine turns_counted fun x => ?_
    rw [nodes_push]
    simp [Clause.nodes]
    omega
  | whileTest word test =>
    refine turns_made _ _ fun m x => ?_
    rw [nodes_push]
    simp [Clause.nodes]
    omega
  | forEach word target iter =>
    refine turns_made _ _ fun m x => ?_
    rw [nodes_push]
    simp [Clause.nodes]
    omega
  | function word name signature =>
    refine turns_made _ _ fun m x => ?_
    rw [nodes_push]
    simp [Clause.nodes]
    omega
  | classDef word name bases =>
    refine turns_made _ _ fun m x => ?_
    rw [nodes_push]
    simp [Clause.nodes]
    omega

end Block

namespace Blocks

open Parse Block

theorem makes_inlineBody : Makes inlineBody Stmt.nodesAll := by
  refine turns_iterate Stmt.nodesAll (fun body => ?_) []
  refine makes_simpleStatement.bind fun p => ?_
  have hmore : (Stmt.nodesAll (body ++ [p.1])).Subperm (p.1.nodes ++ Stmt.nodesAll body) := by
    refine subperm_of_count fun x => ?_
    simp
    omega
  simp only
  split
  · exact turns_pure hmore
  · exact turns_pure hmore

theorem turns_suite (b : Blocks) (clause : Clause) :
    Turns (b.nodes ++ clause.nodes) (b.suite clause) Blocks.nodes := by
  refine (idle_expect _).bind fun _ => idle_peek.bind fun token => ?_
  split
  · refine idle_advance.bind fun _ => idle_peek.bind fun indentation => ?_
    split
    · refine turns_counted fun x => ?_
      simp [Enclosing.nodes]
      omega
    · exact turns_throw _
  · exact turns_throw _
  · refine makes_inlineBody.bind fun body => ?_
    have hattach := (turns_attach b.inner body clause).beside
      (b.outer.flatMap Enclosing.nodes)
    refine (hattach.of_subperm (subperm_of_count fun x => ?_)).bind fun inner => ?_
    · simp
      omega
    · exact turns_pure (.refl _)

theorem makes_loopTargets : Makes loopTargets Expr.nodes := by
  refine idle_peek.bind fun first => ?_
  have helts : Makes (iterate (fun (elts : List MarkedExpr) => do
      let elts := elts ++ [← operand maxDepth]
      if ← accept .comma then
        if ← check (.keyword .in) then return .done (elts, true) else return .again elts
      else return .done (elts, decide (elts.length > 1))) []) fun p => Expr.nodesAll p.1 := by
    refine turns_iterate Expr.nodesAll (fun elts => ?_) []
    refine (makes_operand _).bind fun e => (idle_accept _).bind fun b => ?_
    have hmore : (Expr.nodesAll (elts ++ [e])).Subperm (e.nodes ++ Expr.nodesAll elts) := by
      refine subperm_of_count fun x => ?_
      simp
      omega
    split
    · exact (idle_check _).bind fun b => .ite (turns_pure hmore) (turns_pure hmore)
    · exact turns_pure hmore
  refine Turns.bind helts ?_
  rintro ⟨elts, isTuple⟩
  simp only
  split
  · next e =>
    exact turns_pure_bind ((turns_target _ _ _).of_subperm (subperm_of_count fun x => by simp))
  · refine (makes_register _ _).bind fun m => turns_pure_bind ?_
    refine (turns_target _ _ _).of_subperm (subperm_of_count fun x => ?_)
    simp [Expr.nodes, Expr.tag, Expr.mark]

theorem makes_classBases : Makes classBases Expr.nodesAll := by
  refine (idle_accept _).bind fun b => ?_
  split
  · exact Turns.bind (makes_elements makes_anyExpr _) fun bases =>
      (idle_expect _).bind fun _ => turns_pure (.refl _)
  · exact turns_pure (.refl _)

/-- A clause whose parts have been read waits for its body. -/
theorem turns_suite_of_count (b : Blocks) (clause : Clause) {given : List TreeNode}
    (h : ∀ x, (b.nodes ++ clause.nodes).count x ≤ given.count x) :
    Turns given (b.suite clause) Blocks.nodes :=
  (turns_suite b clause).of_subperm (subperm_of_count h)

theorem turns_statement (b : Blocks) (word : Token) :
    Turns b.nodes (b.statement word) Blocks.nodes := by
  unfold statement
  split
  · refine idle_advance.bind fun _ => makes_anyExpr.bind fun test => turns_suite_of_count
      _ _ fun x => ?_
    simp [Clause.nodes]
    omega
  · refine idle_advance.bind fun _ => makes_anyExpr.bind fun test => turns_suite_of_count
      _ _ fun x => ?_
    simp [Clause.nodes]
    omega
  · refine idle_advance.bind fun _ => makes_loopTargets.bind fun place => ?_
    refine (idle_expect _).bind fun _ => makes_anyExprList.bind fun iter => ?_
    refine turns_suite_of_count _ _ fun x => ?_
    simp [Clause.nodes]
    omega
  · exact idle_advance.bind fun _ => turns_suite_of_count _ _ fun x => by simp [Clause.nodes]
  · refine idle_advance.bind fun _ => (idle_expect _).bind fun name =>
      (idle_expect _).bind fun _ => ?_
    refine (makes_parameters makes_anyExpr _).bind fun signature => (idle_expect _).bind fun _ => ?_
    refine turns_suite_of_count _ _ fun x => ?_
    simp [Clause.nodes]
    omega
  · refine idle_advance.bind fun _ => (idle_expect _).bind fun name => ?_
    refine makes_classBases.bind fun bases => turns_suite_of_count _ _ fun x => ?_
    simp [Clause.nodes]
    omega
  · refine makes_simpleStatement.bind fun p => turns_counted fun x => ?_
    simp [push]

/-- The chain that a clause continues is held by the clause. -/
theorem count_continuing {b : Blocks} {c : Chain} (h : b.inner.chain = some c) (x : TreeNode) :
    (b.continuing.nodes ++ c.nodes).count x = b.nodes.count x := by
  simp [continuing, h]
  omega

theorem turns_elifClause (b : Blocks) : Turns b.nodes b.elifClause Blocks.nodes := by
  refine idle_advance.bind fun word => ?_
  split
  · next last before hchain =>
    refine makes_anyExpr.bind fun test => turns_suite_of_count _ _ fun x => ?_
    have hcount := count_continuing hchain x
    simp only [Clause.nodes, Chain.nodes, List.count_append] at hcount ⊢
    omega
  · exact turns_throw _

theorem turns_elseClause (b : Blocks) : Turns b.nodes b.elseClause Blocks.nodes := by
  refine idle_advance.bind fun word => ?_
  split
  · next t hchain =>
    split
    · exact turns_throw _
    · exact turns_suite_of_count _ _ fun x => Nat.le_of_eq (count_continuing hchain x)
  · next last before hchain =>
    exact turns_suite_of_count _ _ fun x => Nat.le_of_eq (count_continuing hchain x)
  · exact turns_throw _

theorem turns_exceptClause (b : Blocks) : Turns b.nodes b.exceptClause Blocks.nodes := by
  refine idle_advance.bind fun word => ?_
  split
  · next t hchain =>
    have hcount := count_continuing hchain
    have hsuite (type : Option MarkedExpr) (name : Option String) :
        Turns (Expr.nodesOption type ++ b.nodes)
          (b.continuing.suite (.handler t word.pos type name)) Blocks.nodes := by
      refine turns_suite_of_count _ _ fun x => ?_
      have hx := hcount x
      simp only [Clause.nodes, Chain.nodes, List.count_append] at hx ⊢
      omega
    split
    · exact turns_throw _
    · refine (idle_check _).bind fun colon => ?_
      split
      · exact hsuite none none
      · refine makes_anyExpr.bind fun type => (idle_accept _).bind fun named => .ite ?_ ?_
        · exact (idle_identifier.map some).bind fun name => hsuite (some type) name
        · exact turns_pure_bind (hsuite (some type) none)
  · exact turns_throw _

theorem turns_finallyClause (b : Blocks) : Turns b.nodes b.finallyClause Blocks.nodes := by
  refine idle_advance.bind fun word => ?_
  split
  · next t hchain =>
    exact turns_suite_of_count _ _ fun x => Nat.le_of_eq (count_continuing hchain x)
  · exact turns_throw _

theorem turns_leave (b : Blocks) :
    Turns b.nodes b.leave (Next.nodes Blocks.nodes Stmt.nodesAll) := by
  refine ((turns_closeChain b.inner).beside _).bind fun inner => ?_
  have hbody := Stmt.nodesAll_reverse_perm inner.done
  simp only
  split
  · refine turns_counted fun x => ?_
    have hcount := hbody.count_eq x
    simp [hcount]
  · next e outer heq =>
    split
    · exact turns_throw _
    · have hattach := (turns_attach e.block inner.done.reverse e.clause).beside
        (outer.flatMap Enclosing.nodes)
      refine (hattach.of_subperm (subperm_of_count fun x => ?_)).bind fun inner => ?_
      · have hcount := hbody.count_eq x
        simp [heq, hcount, Enclosing.nodes]
      · exact turns_pure (.refl _)

/-- A step turns the nodes that the open blocks hold into those that are held after it. -/
theorem turns_step (b : Blocks) : Turns b.nodes b.step (Next.nodes Blocks.nodes Stmt.nodesAll) := by
  refine idle_peek.bind fun token => ?_
  split
  · exact turns_leave b
  · split
    · split
      · exact turns_leave b
      · exact turns_throw _
    · split
      · exact turns_throw _
      · exact idle_advance.bind fun _ => turns_pure (.refl _)
  · exact (turns_elifClause b).bind fun b => turns_pure (.refl _)
  · exact (turns_elseClause b).bind fun b => turns_pure (.refl _)
  · exact (turns_exceptClause b).bind fun b => turns_pure (.refl _)
  · exact (turns_finallyClause b).bind fun b => turns_pure (.refl _)
  · refine ((turns_closeChain b.inner).beside _).bind fun inner => ?_
    exact (turns_statement { b with inner } token).bind fun b => turns_pure (.refl _)

theorem makes_run : Makes Blocks.run Stmt.nodesAll := by
  intro others s r s' hs hrun
  exact turns_iterateWithin turns_step _ { inner := { width := 0 } } others s r s' hs hrun

end Blocks

/-! ## Whole parses -/

namespace Parse

theorem makes_module : Makes module Root.nodes :=
  idle_peek.bind fun _ => Turns.bind Blocks.makes_run fun _ =>
    (makes_register _ _).bind fun _ => turns_pure (.refl _)

theorem makes_singleExpression : Makes singleExpression Root.nodes := by
  refine idle_peek.bind fun first => ?_
  have hwhole : Makes (do
      let body ← anyExprList
      if ← accept .newLine then
        let _ ← accept .indentation
      let _ ← expect .finish
      return .expression (← register .expression first.pos) body :
        Parse (Root Mark)) Root.nodes := by
    refine Turns.bind makes_anyExprList fun body => (idle_accept _).bind fun b => ?_
    have hend : Turns body.nodes (do
        let _ ← expect .finish
        return .expression (← register .expression first.pos) body :
          Parse (Root Mark)) Root.nodes :=
      (idle_expect _).bind fun _ => (makes_register _ _).bind fun m => turns_pure (.refl _)
    split
    · exact (idle_accept _).bind fun _ => hend
    · exact hend
  split
  · exact (idle_throw _).bind fun _ => hwhole
  · exact hwhole

/-- The arena of a run indexes the nodes that the rule has made. -/
theorem indexes_of_run {rule : Parse (Root Mark)} (hrule : Makes rule Root.nodes)
    {file source : Text} {p : Parsed} (h : Parse.run rule file source = .ok p) :
    p.arena.Indexes p.root.nodes := by
  unfold Parse.run at h
  split at h
  · next root s hrun =>
    cases h
    have hindexes := hrule [] _ root s (Arena.indexes_nil _) hrun
    rwa [List.append_nil] at hindexes
  · cases h

end Parse

/-- The arena of a parse is the index of its tree: `made` are the nodes in the order in which they
were registered. -/
structure Parsed.Indexed (p : Parsed) (made : List TreeNode) : Prop where
  filled : Arena.Filled made p.arena
  /-- The node in a slot has the number of the slot, and is looked up under it. -/
  numbered : ∀ i < p.arena.size, ∃ n, made[i]? = some n ∧ n.mark.id = i ∧
    p.arena.get? i = some n.entry
  /-- The nodes are counted by class, each in exactly one. -/
  counted : ∀ c, p.arena.count c = made.countP fun n => n.tag.nodeClass == c
  total : p.arena.total = p.arena.size
  /-- No two nodes of the tree have one number. -/
  distinct : (p.root.nodes.map fun n => n.mark.id).Nodup
  /-- A node of the tree is the one that was registered under its number, of the same kind and at
  the same position. -/
  found : ∀ n ∈ p.root.nodes, n.mark.id < p.arena.size ∧ made[n.mark.id]? = some n

/-- **The arena of every parse indexes its tree**, with the nodes of replacement fields among
them. -/
theorem indexed_of_parse {file source : Text} {p : Parsed}
    (h : (parseModule file source).1 = .ok p ∨ (parseExpression file source).1 = .ok p) :
    ∃ made, p.Indexed made := by
  have hindexes : p.arena.Indexes p.root.nodes := by
    rcases h with h | h
    · unfold parseModule at h
      split at h
      · next hrun =>
        cases h
        exact Parse.indexes_of_run Parse.makes_module hrun
      · cases h
    · unfold parseExpression at h
      split at h
      · next hrun =>
        cases h
        exact Parse.indexes_of_run Parse.makes_singleExpression hrun
      · cases h
  obtain ⟨made, hfilled⟩ := p.arena.exists_filled
  refine ⟨made, hfilled, fun i hi => ?_, hfilled.count_eq, p.arena.total_eq_size, hindexes.nodup,
    fun n hn => ⟨hindexes.lt_size hn, hindexes.getElem?_filled hfilled hn⟩⟩
  rw [← hfilled.length_eq] at hi
  have hn := List.getElem?_eq_getElem hi
  refine ⟨made[i], hn, hfilled.numbered hn, ?_⟩
  rw [hfilled.get?_eq, hn]
  rfl

/-- A conditional and a `try` whose clauses are attached late, with a replacement field inside
another one and the name of a keyword argument, whose node is left behind. -/
def lateClauses : Text :=
  "if f(k=1): pass\nelif f\"\x7ba:\x7bb\x7d\x7d\": pass\nelse: pass\ntry: pass\nexcept e: pass\n"

theorem indexed_of_parse_lateClauses :
    ∃ p made, (parseModule "m" lateClauses).1 = .ok p ∧ p.Indexed made ∧
      p.root.nodes.length + 1 = made.length := by
  obtain ⟨p, hp, hleft⟩ : ∃ p, (parseModule "m" lateClauses).1 = .ok p ∧
      decide (p.root.nodes.length + 1 = p.arena.size) = true :=
    exists_of_any (q := fun p : Parsed => decide (p.root.nodes.length + 1 = p.arena.size))
      (by decide +kernel)
  obtain ⟨made, hindexed⟩ := indexed_of_parse (.inl hp)
  refine ⟨p, made, hp, hindexed, ?_⟩
  rw [hindexed.filled.length_eq]
  exact of_decide_eq_true hleft

end Toolchain

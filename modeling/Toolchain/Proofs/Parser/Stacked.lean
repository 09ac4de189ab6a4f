import Toolchain.Proofs.Parser.Indexing
import Toolchain.Proofs.Parser.Program
import Toolchain.Proofs.Parser.Stacks

/-!
# Reading with stacks is reading block by block

The open blocks tell what the bodies and the stacks are: the statement of an open chain stands in
its body already, and a clause that waits for its suite has the entry of the chain it goes on with.
What the stacks do to a node in place, the blocks do by building the chain once it is closed. The
two agree since no two nodes have one number, so that a number that is looked up names the node at
the end of its chain and nothing else.

## Main definitions

* `Blocks.asStacks`: the bodies and the stacks of open blocks
* `Blocks.Sound`: the blocks grow wider from the outside in, and only the innermost one has a chain
  that is not held by a clause
* `Parse.Mirrors`: two rules do the same, up to how their results are seen

## Main results

* `Blocks.node?_asStacks`: a number names one statement
* `Blocks.patch_asStacks`: a node at the end of a chain is changed, and nothing else is
* `Blocks.mirrors_step`: a step with stacks is a step block by block
* `Stacks.Reached.exists_blocks`, `Stacks.program_eq`: **so is the reading of a program**
-/

namespace Toolchain

open Parse

/-! ## Statements by their numbers -/

/-- The node of a statement. -/
def Stmt.node (s : MarkedStmt) : TreeNode := ⟨s.tag, s.mark⟩

theorem Stmt.node_mem_nodes (s : MarkedStmt) : s.node ∈ s.nodes := by
  rw [Stmt.nodes.eq_def]
  exact List.mem_cons_self

mutual

/-- The statements inside a statement are among its nodes. -/
theorem Stmt.subtrees_sublist (s : MarkedStmt) : (s.subtrees.map Stmt.node).Sublist s.nodes := by
  cases s with
  | functionDef m name signature body =>
    exact ((Stmt.subtreesAll_sublist body).trans (List.sublist_append_right _ _)).cons_cons _
  | classDef m name bases body =>
    exact ((Stmt.subtreesAll_sublist body).trans (List.sublist_append_right _ _)).cons_cons _
  | forLoop m target iter body =>
    exact ((Stmt.subtreesAll_sublist body).trans (List.sublist_append_right _ _)).cons_cons _
  | whileLoop m test body =>
    exact ((Stmt.subtreesAll_sublist body).trans (List.sublist_append_right _ _)).cons_cons _
  | ifElse m test body orelse =>
    rw [Stmt.subtrees, Stmt.nodes, List.map_cons, List.map_append]
    have hbody := (Stmt.subtreesAll_sublist body).trans (List.sublist_append_right test.nodes _)
    exact (hbody.append (Stmt.subtreesAll_sublist orelse)).cons_cons _
  | tryExcept m body handlers orelse final =>
    rw [Stmt.subtrees, Stmt.nodes]
    simp only [List.map_cons, List.map_append]
    have hhandlers :=
      (Stmt.subtreesAll_sublist body).append (Stmt.subtreesHandlers_sublist handlers)
    have horelse := hhandlers.append (Stmt.subtreesAll_sublist orelse)
    exact (horelse.append (Stmt.subtreesAll_sublist final)).cons_cons _
  | _ =>
    rw [Stmt.subtrees.eq_def, Stmt.nodes.eq_def, List.map_cons]
    exact (List.nil_sublist _).cons_cons _

theorem Stmt.subtreesAll_sublist (ss : List MarkedStmt) :
    ((Stmt.subtreesAll ss).map Stmt.node).Sublist (Stmt.nodesAll ss) := by
  cases ss with
  | nil => exact List.nil_sublist _
  | cons s ss =>
    rw [Stmt.subtreesAll, Stmt.nodesAll, List.map_append]
    exact (Stmt.subtrees_sublist s).append (Stmt.subtreesAll_sublist ss)

theorem Stmt.subtreesHandlers_sublist (hs : List (Handler Mark MarkedExpr MarkedStmt)) :
    ((Stmt.subtreesHandlers hs).map Stmt.node).Sublist (Stmt.nodesHandlers hs) := by
  cases hs with
  | nil => exact List.nil_sublist _
  | cons h hs =>
    obtain ⟨m, type, name, body⟩ := h
    rw [Stmt.subtreesHandlers, Stmt.nodesHandlers, List.map_append]
    have hbody := (Stmt.subtreesAll_sublist body).trans
      (List.sublist_append_right (⟨.handler, m⟩ :: Expr.nodesOption type) _)
    exact hbody.append (Stmt.subtreesHandlers_sublist hs)

end

section Patch

variable {id : Nat} {f : MarkedStmt → MarkedStmt}

theorem Stmt.patch_self (s : MarkedStmt) (f : MarkedStmt → MarkedStmt) :
    s.patch s.mark.id f = f s := by
  rw [Stmt.patch.eq_def, if_pos rfl]

mutual

/-- A statement without the number stays as it is. -/
theorem Stmt.patch_of_fresh {s : MarkedStmt} (h : ∀ n ∈ s.nodes, n.mark.id ≠ id) :
    s.patch id f = s := by
  have hself : s.mark.id ≠ id := h s.node s.node_mem_nodes
  cases s with
  | functionDef m name signature body =>
    have hbody : ∀ n ∈ Stmt.nodesAll body, n.mark.id ≠ id :=
      fun n hn => h n (by simp [Stmt.nodes, hn])
    rw [Stmt.patch, if_neg hself, Stmt.patchAll_of_fresh hbody]
  | classDef m name bases body =>
    have hbody : ∀ n ∈ Stmt.nodesAll body, n.mark.id ≠ id :=
      fun n hn => h n (by simp [Stmt.nodes, hn])
    rw [Stmt.patch, if_neg hself, Stmt.patchAll_of_fresh hbody]
  | forLoop m target iter body =>
    have hbody : ∀ n ∈ Stmt.nodesAll body, n.mark.id ≠ id :=
      fun n hn => h n (by simp [Stmt.nodes, hn])
    rw [Stmt.patch, if_neg hself, Stmt.patchAll_of_fresh hbody]
  | whileLoop m test body =>
    have hbody : ∀ n ∈ Stmt.nodesAll body, n.mark.id ≠ id :=
      fun n hn => h n (by simp [Stmt.nodes, hn])
    rw [Stmt.patch, if_neg hself, Stmt.patchAll_of_fresh hbody]
  | ifElse m test body orelse =>
    have hbody : ∀ n ∈ Stmt.nodesAll body, n.mark.id ≠ id :=
      fun n hn => h n (by simp [Stmt.nodes, hn])
    have horelse : ∀ n ∈ Stmt.nodesAll orelse, n.mark.id ≠ id :=
      fun n hn => h n (by simp [Stmt.nodes, hn])
    rw [Stmt.patch, if_neg hself, Stmt.patchAll_of_fresh hbody, Stmt.patchAll_of_fresh horelse]
  | tryExcept m body handlers orelse final =>
    have hbody : ∀ n ∈ Stmt.nodesAll body, n.mark.id ≠ id :=
      fun n hn => h n (by simp [Stmt.nodes, hn])
    have hhandlers : ∀ n ∈ Stmt.nodesHandlers handlers, n.mark.id ≠ id :=
      fun n hn => h n (by simp [Stmt.nodes, hn])
    have horelse : ∀ n ∈ Stmt.nodesAll orelse, n.mark.id ≠ id :=
      fun n hn => h n (by simp [Stmt.nodes, hn])
    have hfinal : ∀ n ∈ Stmt.nodesAll final, n.mark.id ≠ id :=
      fun n hn => h n (by simp [Stmt.nodes, hn])
    rw [Stmt.patch, if_neg hself, Stmt.patchAll_of_fresh hbody,
      Stmt.patchHandlers_of_fresh hhandlers,
      Stmt.patchAll_of_fresh horelse, Stmt.patchAll_of_fresh hfinal]
  | _ => rw [Stmt.patch.eq_def, if_neg hself]

theorem Stmt.patchAll_of_fresh {ss : List MarkedStmt} (h : ∀ n ∈ Stmt.nodesAll ss, n.mark.id ≠ id) :
    Stmt.patchAll id f ss = ss := by
  cases ss with
  | nil => rfl
  | cons s ss =>
    rw [Stmt.nodesAll, List.forall_mem_append] at h
    rw [Stmt.patchAll, Stmt.patch_of_fresh h.1, Stmt.patchAll_of_fresh h.2]

theorem Stmt.patchHandlers_of_fresh {hs : List (Handler Mark MarkedExpr MarkedStmt)}
    (h : ∀ n ∈ Stmt.nodesHandlers hs, n.mark.id ≠ id) : Stmt.patchHandlers id f hs = hs := by
  cases hs with
  | nil => rfl
  | cons x hs =>
    obtain ⟨m, type, name, body⟩ := x
    rw [Stmt.nodesHandlers, List.forall_mem_append, List.forall_mem_append] at h
    rw [Stmt.patchHandlers, Stmt.patchAll_of_fresh h.1.2, Stmt.patchHandlers_of_fresh h.2]

end

end Patch

/-! ## Chains in place -/

namespace Chain

/-- The statement that a chain is if it gets no more clauses. -/
def statement : Chain → MarkedStmt
  | .branches last before => conditional [] last before
  | .attempt t => .tryExcept t.mark t.body t.handlers t.orelse []

/-- The node at the end of a chain, which clauses are put into. -/
def endNode : Chain → TreeNode
  | .branches last _ => ⟨.ifElse, last.mark⟩
  | .attempt t => ⟨.tryExcept, t.mark⟩

/-- A statement as all of the alternative of a conditional, that one as all of the alternative of
the conditional before it, and so on. -/
def enclose (s : MarkedStmt) : List Branch → MarkedStmt
  | [] => s
  | previous :: before => enclose (.ifElse previous.mark previous.test previous.body [s]) before

theorem conditional_eq_enclose (orelse : List MarkedStmt) (last : Branch) (before : List Branch) :
    conditional orelse last before =
      enclose (.ifElse last.mark last.test last.body orelse) before := by
  induction before generalizing orelse last with
  | nil => rfl
  | cons previous before ih => rw [conditional, ih, enclose]

theorem mem_subtrees_enclose {x s : MarkedStmt} (h : x ∈ s.subtrees) (before : List Branch) :
    x ∈ (enclose s before).subtrees := by
  induction before generalizing s with
  | nil => exact h
  | cons previous before ih =>
    refine ih ?_
    simp [Stmt.subtrees, Stmt.subtreesAll, h]

/-- A node at the end of a chain of conditionals is changed in its place. -/
theorem patch_enclose {id : Nat} {f : MarkedStmt → MarkedStmt} {s : MarkedStmt}
    {before : List Branch}
    (h : ∀ n ∈ before.flatMap Branch.nodes, n.mark.id ≠ id) :
    (enclose s before).patch id f = enclose (s.patch id f) before := by
  induction before generalizing s with
  | nil => rfl
  | cons previous before ih =>
    rw [List.flatMap_cons, List.forall_mem_append] at h
    have hself : (Stmt.ifElse previous.mark previous.test previous.body [s]).mark.id ≠ id :=
      h.1 ⟨.ifElse, previous.mark⟩ List.mem_cons_self
    have hbody : ∀ n ∈ Stmt.nodesAll previous.body, n.mark.id ≠ id :=
      fun n hn => h.1 n (by simp [Branch.nodes, hn])
    rw [enclose, ih h.2, Stmt.patch, if_neg hself, Stmt.patchAll_of_fresh hbody, Stmt.patchAll,
      Stmt.patchAll, enclose]

theorem exists_nodes_eq (c : Chain) : ∃ rest, c.nodes = c.endNode :: rest := by
  cases c with
  | branches last before => exact ⟨_, rfl⟩
  | attempt t => exact ⟨_, rfl⟩

theorem count_nodes_statement (c : Chain) (x : TreeNode) :
    c.statement.nodes.count x = c.nodes.count x := by
  cases c with
  | branches last before =>
    rw [statement, count_nodes_conditional, Stmt.nodesAll, List.append_nil]
    rfl
  | attempt t => simp [statement, Stmt.nodes, Stmt.nodesAll, Stmt.tag, Stmt.mark, nodes,
    TryChain.nodes]

variable {a : Arena}

theorem patch_branches {last : Branch} {before : List Branch}
    (h : a.Indexes (branches last before).nodes) (orelse : List MarkedStmt) :
    (branches last before).statement.patch last.mark.id (Stmt.withOrelse orelse) =
      conditional orelse last before := by
  have hfresh : ∀ n ∈ before.flatMap Branch.nodes, n.mark.id ≠ last.mark.id := by
    have hall : a.Indexes (⟨.ifElse, last.mark⟩ :: before.flatMap Branch.nodes) := by
      refine h.subperm (subperm_of_count fun x => ?_)
      simp only [nodes, Branch.nodes, List.count_cons, List.count_append]
      omega
    exact fun n hn => hall.ne_of_mem hn
  have hself : Stmt.patch last.mark.id (Stmt.withOrelse orelse)
      (.ifElse last.mark last.test last.body []) = .ifElse last.mark last.test last.body orelse :=
    Stmt.patch_self (.ifElse last.mark last.test last.body []) _
  rw [statement, conditional_eq_enclose, patch_enclose hfresh, hself, ← conditional_eq_enclose]

theorem patch_attempt (t : TryChain) (f : MarkedStmt → MarkedStmt) :
    (attempt t).statement.patch t.mark.id f =
      f (.tryExcept t.mark t.body t.handlers t.orelse []) :=
  Stmt.patch_self (.tryExcept t.mark t.body t.handlers t.orelse []) f

end Chain

/-! ## The stacks of open blocks -/

/-- The chain that a clause goes on with. -/
def Clause.chain? : Clause → Option Chain
  | .elifTest last before _ _ | .otherwise last before => some (.branches last before)
  | .handler t _ _ _ | .tryElse t | .finally t => some (.attempt t)
  | _ => none

/-- What the suite of a clause is read for, at a width. -/
def Clause.task (depth : Nat) : Clause → Task
  | .ifTest word test => .ifTest word test
  | .elifTest last _ word test => .elifTest ⟨last.mark.id, depth⟩ word test
  | .otherwise last _ => .otherwise ⟨last.mark.id, depth⟩
  | .tryBody word => .tryBody word
  | .handler t word type name => .handler ⟨t.mark.id, depth⟩ word type name
  | .tryElse t => .tryElse ⟨t.mark.id, depth⟩
  | .finally t => .finally ⟨t.mark.id, depth⟩
  | .whileTest word test => .compound .whileLoop word fun mark body => .whileLoop mark test body
  | .forEach word target iter =>
    .compound .forLoop word fun mark body => .forLoop mark target iter body
  | .function word name signature =>
    .compound .functionDef word fun mark body => .functionDef mark name signature body
  | .classDef word name bases =>
    .compound .classDef word fun mark body => .classDef mark name bases body

namespace Block

/-- The block with the chain that a clause holds. -/
def holding (b : Block) (clause : Clause) : Block := { b with chain := clause.chain? }

/-- The body of a block: the statement of the open chain stands in it. -/
def asBody (b : Block) : Body := ⟨b.width, (b.chain.map Chain.statement).toList ++ b.done⟩

/-- The entry of the open conditional of a block. -/
def ifSites (b : Block) : List ChainSite :=
  match b.chain with
  | some (.branches last _) => [⟨last.mark.id, b.width⟩]
  | _ => []

/-- The entry of the open `try` of a block. -/
def trySites (b : Block) : List ChainSite :=
  match b.chain with
  | some (.attempt t) => [⟨t.mark.id, b.width⟩]
  | _ => []

theorem count_nodes_asBody (b : Block) (x : TreeNode) :
    (Stmt.nodesAll b.asBody.statements).count x = b.nodes.count x := by
  obtain ⟨width, done, chain⟩ := b
  cases chain with
  | none => simp [asBody, nodes]
  | some c =>
    have hcount := c.count_nodes_statement x
    simp [asBody, nodes, Stmt.nodesAll, hcount]
    omega

end Block

/-- A block around another one, with the chain that the clause holds. -/
def Enclosing.whole (e : Enclosing) : Block := e.block.holding e.clause

theorem Clause.count_nodes_chain? (clause : Clause) (x : TreeNode) :
    (clause.chain?.toList.flatMap Chain.nodes).count x ≤ clause.nodes.count x := by
  cases clause <;> simp [chain?, nodes, Chain.nodes]

theorem Enclosing.count_nodes_whole (e : Enclosing) (x : TreeNode) :
    e.whole.nodes.count x ≤ e.nodes.count x := by
  have hcount := e.clause.count_nodes_chain? x
  simp only [whole, nodes, Block.holding, Block.nodes, List.count_append]
  omega

namespace Blocks

/-- The open blocks, each with its open chain. -/
def whole (b : Blocks) : List Block := b.inner :: b.outer.map Enclosing.whole

/-- The bodies and the stacks of open blocks. -/
def asStacks (b : Blocks) : Stacks where
  body := b.inner.asBody
  callers := b.outer.map fun e => ⟨e.whole.asBody, e.clause.task e.block.width, e.newline⟩
  indents := b.widths
  ifStack := b.whole.flatMap Block.ifSites
  tryStack := b.whole.flatMap Block.trySites

/-- The open blocks, the chain that a clause holds given back to the innermost one. -/
def holding (b : Blocks) (clause : Clause) : Blocks := { b with inner := b.inner.holding clause }

/-- The blocks grow wider from the outside in, and the chain of a block around another one is held
by its clause. -/
structure Sound (b : Blocks) : Prop where
  wider : b.widths.Pairwise (· > ·)
  held : ∀ e ∈ b.outer, e.block.chain = none

variable {a : Arena} {b : Blocks} {c : Chain}

theorem holding_continuing {clause : Clause} (h : b.inner.chain = clause.chain?) :
    b.continuing.holding clause = b := by
  obtain ⟨⟨width, done, chain⟩, outer⟩ := b
  obtain rfl : chain = clause.chain? := h
  rfl

theorem count_nodes_holding (b : Blocks) (clause : Clause) (x : TreeNode) :
    (b.holding clause).nodes.count x ≤ (b.nodes ++ clause.nodes).count x := by
  have hcount := clause.count_nodes_chain? x
  simp only [holding, nodes, Block.holding, Block.nodes, List.count_append]
  omega

/-- The nodes of the bodies are held by the blocks. -/
theorem count_nodes_bodies (b : Blocks) (x : TreeNode) :
    (Stmt.nodesAll (b.asStacks.bodies.flatMap Body.statements)).count x ≤ b.nodes.count x := by
  have houter (es : List Enclosing) :
      (Stmt.nodesAll (es.flatMap fun e => e.whole.asBody.statements)).count x ≤
        (es.flatMap Enclosing.nodes).count x := by
    induction es with
    | nil => exact Nat.le_refl _
    | cons e es ih =>
      have hcount := e.whole.count_nodes_asBody x
      have hwhole := e.count_nodes_whole x
      simp only [List.flatMap_cons, Stmt.nodesAll_append, List.count_append]
      omega
  have hinner := b.inner.count_nodes_asBody x
  have houter := houter b.outer
  simp only [asStacks, Stacks.bodies, List.flatMap_cons, List.map_map, List.flatMap_map,
    Stmt.nodesAll_append, nodes, List.count_append, Function.comp_def]
  omega

/-- A number names one statement. -/
theorem node?_asStacks (h : a.Indexes b.nodes) {s : MarkedStmt}
    (hs : s ∈ Stmt.subtreesAll (b.asStacks.bodies.flatMap Body.statements)) :
    b.asStacks.node? s.mark.id = some s := by
  have hnodup : ((Stmt.subtreesAll (b.asStacks.bodies.flatMap Body.statements)).map
      fun s => s.mark.id).Nodup := by
    have hsub := (Stmt.subtreesAll_sublist (b.asStacks.bodies.flatMap Body.statements)).map
      fun n => n.mark.id
    rw [List.map_map] at hsub
    exact (h.subperm (subperm_of_count b.count_nodes_bodies)).nodup.sublist hsub
  unfold Stacks.node?
  cases hfind : (Stmt.subtreesAll (b.asStacks.bodies.flatMap Body.statements)).find?
      fun t => t.mark.id == s.mark.id with
  | none => exact absurd (List.find?_eq_none.mp hfind s hs) (by simp)
  | some t =>
    have hid : t.mark.id = s.mark.id := by simpa using List.find?_some hfind
    have ht := List.mem_of_find?_eq_some hfind
    rw [List.inj_on_of_nodup_map hnodup ht hs hid]

/-- What stands in an open chain stands in a body. -/
theorem mem_subtreesAll_of_chain (hchain : b.inner.chain = some c) {s : MarkedStmt}
    (hs : s ∈ c.statement.subtrees) :
    s ∈ Stmt.subtreesAll (b.asStacks.bodies.flatMap Body.statements) := by
  rw [Stmt.mem_subtreesAll]
  refine ⟨c.statement, ?_, hs⟩
  simp [asStacks, Stacks.bodies, Block.asBody, hchain]

theorem ifOrelse?_asStacks (h : a.Indexes b.nodes) (last : Branch) (before : List Branch)
    (hchain : b.inner.chain = some (.branches last before)) :
    b.asStacks.ifOrelse? last.mark.id = some [] := by
  have hs : .ifElse last.mark last.test last.body [] ∈
      (Chain.branches last before).statement.subtrees := by
    rw [Chain.statement, Chain.conditional_eq_enclose]
    exact Chain.mem_subtrees_enclose (Stmt.mem_subtrees_self _) before
  have hnode : b.asStacks.node? last.mark.id = some (.ifElse last.mark last.test last.body []) :=
    node?_asStacks h (mem_subtreesAll_of_chain hchain hs)
  rw [Stacks.ifOrelse?, hnode]

theorem tryChain?_asStacks (h : a.Indexes b.nodes) {t : TryChain}
    (hchain : b.inner.chain = some (.attempt t)) :
      b.asStacks.tryChain? t.mark.id = some (t, []) := by
  have hnode : b.asStacks.node? t.mark.id =
      some (.tryExcept t.mark t.body t.handlers t.orelse []) :=
    node?_asStacks h (mem_subtreesAll_of_chain hchain (Stmt.mem_subtrees_self _))
  rw [Stacks.tryChain?, hnode]

/-- The node at the end of an open chain is changed, and nothing outside the chain is. -/
theorem patch_asStacks (h : a.Indexes b.nodes) (hchain : b.inner.chain = some c)
    (f : MarkedStmt → MarkedStmt) :
    b.asStacks.patch c.endNode.mark.id f = { b.asStacks with
      body := ⟨b.inner.width, c.statement.patch c.endNode.mark.id f :: b.inner.done⟩ } := by
  obtain ⟨rest, hrest⟩ := c.exists_nodes_eq
  have hall : a.Indexes (c.endNode ::
      (Stmt.nodesAll b.inner.done ++ b.outer.flatMap Enclosing.nodes)) := by
    refine h.subperm (subperm_of_count fun x => ?_)
    simp only [nodes, Block.nodes, hchain, Option.toList_some, List.flatMap_singleton, hrest,
      List.count_cons, List.count_append]
    omega
  have hdone : Stmt.patchAll c.endNode.mark.id f b.inner.done = b.inner.done :=
    Stmt.patchAll_of_fresh fun n hn => hall.ne_of_mem (List.mem_append_left _ hn)
  have hcaller : ∀ e ∈ b.outer,
      e.whole.asBody.patch c.endNode.mark.id f = e.whole.asBody := by
    intro e he
    have hsub : (Stmt.nodesAll e.whole.asBody.statements).Subperm e.nodes :=
      subperm_of_count fun x => (e.whole.count_nodes_asBody x).trans_le (e.count_nodes_whole x)
    rw [Body.patch, Stmt.patchAll_of_fresh]
    intro n hn
    have hmem : n ∈ b.outer.flatMap Enclosing.nodes :=
      List.mem_flatMap.mpr ⟨e, he, hsub.subset hn⟩
    exact hall.ne_of_mem (List.mem_append_right _ hmem)
  have hcallers : b.asStacks.callers.map (fun k =>
      { k with body := k.body.patch c.endNode.mark.id f }) = b.asStacks.callers := by
    rw [asStacks, List.map_map]
    refine List.map_congr_left fun e he => ?_
    simp only [Function.comp_apply, hcaller e he]
  have hbody : b.asStacks.body.patch c.endNode.mark.id f =
      ⟨b.inner.width, c.statement.patch c.endNode.mark.id f :: b.inner.done⟩ := by
    simp [asStacks, Block.asBody, hchain, Body.patch, Stmt.patchAll, hdone]
  rw [Stacks.patch, hcallers, hbody]

theorem patch_asStacks_branches (h : a.Indexes b.nodes) (last : Branch) (before : List Branch)
    (hchain : b.inner.chain = some (.branches last before)) (orelse : List MarkedStmt) :
    b.asStacks.patch last.mark.id (Stmt.withOrelse orelse) = { b.asStacks with
      body := ⟨b.inner.width, Chain.conditional orelse last before :: b.inner.done⟩ } := by
  have hnodes : a.Indexes (Chain.branches last before).nodes := by
    refine h.subperm (subperm_of_count fun x => ?_)
    simp only [nodes, Block.nodes, hchain, Option.toList_some, List.flatMap_singleton,
      List.count_append]
    omega
  rw [← Chain.patch_branches hnodes]
  exact patch_asStacks h hchain _

theorem patch_asStacks_attempt (h : a.Indexes b.nodes) {t : TryChain}
    (hchain : b.inner.chain = some (.attempt t)) (f : MarkedStmt → MarkedStmt) :
    b.asStacks.patch t.mark.id f = { b.asStacks with
      body := ⟨b.inner.width, f (.tryExcept t.mark t.body t.handlers t.orelse []) ::
        b.inner.done⟩ } := by
  rw [← Chain.patch_attempt t f]
  exact patch_asStacks h hchain f

/-! ## What is open at a width -/

theorem Sound.lt_width (hb : b.Sound) {e : Enclosing} (he : e ∈ b.outer) :
    e.block.width < b.inner.width :=
  List.rel_of_pairwise_cons hb.wider (List.mem_map_of_mem he)

theorem depth_of_mem_ifSites {block : Block} {site : ChainSite} (h : site ∈ block.ifSites) :
    site.depth = block.width := by
  unfold Block.ifSites at h
  split at h
  · obtain rfl := List.mem_singleton.mp h
    rfl
  · cases h

theorem depth_of_mem_trySites {block : Block} {site : ChainSite} (h : site ∈ block.trySites) :
    site.depth = block.width := by
  unfold Block.trySites at h
  split at h
  · obtain rfl := List.mem_singleton.mp h
    rfl
  · cases h

/-- The entries of the blocks around the innermost one are at smaller widths. -/
theorem Sound.lt_of_mem_outer (hb : b.Sound) (sites : Block → List ChainSite)
    (hsites : ∀ {block site}, site ∈ sites block → site.depth = block.width) {site : ChainSite}
    (h : site ∈ (b.outer.map Enclosing.whole).flatMap sites) : site.depth < b.inner.width := by
  obtain ⟨block, hblock, hsite⟩ := List.mem_flatMap.mp h
  obtain ⟨e, he, rfl⟩ := List.mem_map.mp hblock
  rw [hsites hsite]
  exact hb.lt_width he

theorem openIf?_asStacks {last : Branch} {before : List Branch}
    (hchain : b.inner.chain = some (.branches last before)) :
    b.asStacks.openIf? = some ⟨last.mark.id, b.inner.width⟩ := by
  simp [Stacks.openIf?, asStacks, whole, Block.ifSites, Block.asBody, hchain]

theorem openTry?_asStacks {t : TryChain} (hchain : b.inner.chain = some (.attempt t)) :
    b.asStacks.openTry? = some ⟨t.mark.id, b.inner.width⟩ := by
  simp [Stacks.openTry?, asStacks, whole, Block.trySites, Block.asBody, hchain]

/-- Without an entry of the innermost block no entry is at its width. -/
theorem Sound.filter_head? (hb : b.Sound) (sites : Block → List ChainSite)
    (hsites : ∀ {block site}, site ∈ sites block → site.depth = block.width)
    (hnil : sites b.inner = []) :
    ((b.whole.flatMap sites).head?.filter fun site => site.depth = b.inner.width) = none := by
  rw [whole, List.flatMap_cons, hnil, List.nil_append]
  cases hhead : ((b.outer.map Enclosing.whole).flatMap sites).head? with
  | none => rfl
  | some site =>
    have hlt := hb.lt_of_mem_outer sites hsites (List.mem_of_head? hhead)
    simp [Nat.ne_of_lt hlt]

theorem Sound.openIf?_eq_none (hb : b.Sound) (hnil : b.inner.ifSites = []) :
    b.asStacks.openIf? = none :=
  hb.filter_head? _ depth_of_mem_ifSites hnil

theorem Sound.openTry?_eq_none (hb : b.Sound) (hnil : b.inner.trySites = []) :
    b.asStacks.openTry? = none :=
  hb.filter_head? _ depth_of_mem_trySites hnil

end Blocks

/-! ## Rules that do the same -/

namespace Parse

variable {α β γ δ ε : Type} {given : List TreeNode} {q : Parse α} {p : Parse β} {v : β → α}

/-- From every state whose arena indexes some nodes, two rules take the same tokens, make the same
nodes and end in the same fault, and the result of the second one, seen through a function, is that
of the first one. -/
def Mirrors (given : List TreeNode) (q : Parse α) (p : Parse β) (v : β → α) : Prop :=
  ∀ s, s.arena.Indexes given → StateT.run q s = StateT.run (v <$> p) s

theorem mirrors_pure {a : α} {b : β} (h : a = v b) : Mirrors given (pure a) (pure b) v := by
  rintro s -
  rw [h]
  rfl

theorem mirrors_throw (e : Fault) : Mirrors given (throw e) (throw e) v := fun _ _ => rfl

theorem mirrors_unexpected (token : Token) :
    Mirrors given (unexpected token) (unexpected token) v := by
  rintro s -
  unfold unexpected
  extract_lets shown message
  by_cases hinvalid : token.kind = .invalid
  · rw [if_pos hinvalid, if_pos hinvalid]
    rfl
  · rw [if_neg hinvalid, if_neg hinvalid]
    rfl

theorem mirrors_ite {c : Prop} [Decidable c] {q' : Parse α} {p' : Parse β}
    (h : c → Mirrors given q p v) (h' : ¬c → Mirrors given q' p' v) :
    Mirrors given (if c then q else q') (if c then p else p') v := by
  by_cases hc : c
  · rw [if_pos hc, if_pos hc]
    exact h hc
  · rw [if_neg hc, if_neg hc]
    exact h' hc

theorem Mirrors.of_subperm {given' : List TreeNode} (h : Mirrors given q p v)
    (hgiven : given.Subperm given') : Mirrors given' q p v :=
  fun s hs => h s (hs.subperm hgiven)

/-- What is known of an arena that indexes the nodes may be used. -/
theorem mirrors_of_indexes (h : ∀ a : Arena, a.Indexes given → Mirrors given q p v) :
    Mirrors given q p v :=
  fun s hs => h s.arena hs s hs

/-- A step that both rules begin with. -/
theorem Makes.mirrors {r : Parse γ} {f : γ → List TreeNode} (hr : Makes r f) {k : γ → Parse α}
    {k' : γ → Parse β} (hk : ∀ c, Mirrors (f c ++ given) (k c) (k' c) v) :
    Mirrors given (r >>= k) (r >>= k') v := by
  intro s hs
  rw [map_bind, StateT.run_bind, StateT.run_bind]
  cases hrun : StateT.run r s with
  | error e => rfl
  | ok x =>
    obtain ⟨c, s'⟩ := x
    exact hk c s' (hr given s c s' hs hrun)

theorem Idle.mirrors {r : Parse γ} (hr : Idle r) {k : γ → Parse α} {k' : γ → Parse β}
    (hk : ∀ c, Mirrors given (k c) (k' c) v) : Mirrors given (r >>= k) (r >>= k') v := by
  intro s hs
  rw [map_bind, StateT.run_bind, StateT.run_bind]
  cases hrun : StateT.run r s with
  | error e => rfl
  | ok x =>
    obtain ⟨c, s'⟩ := x
    refine hk c s' ?_
    rw [hr s c s' hrun]
    exact hs

/-- What is done with the results. -/
theorem Mirrors.andThen (h : Mirrors given q p v) {g : α → γ} {k : β → δ} {w : δ → γ}
    (hk : ∀ b, g (v b) = w (k b)) :
    Mirrors given (q >>= fun a => pure (g a)) (p >>= fun b => pure (k b)) w := by
  intro s hs
  rw [map_bind, StateT.run_bind, StateT.run_bind, h s hs, StateT.run_map]
  cases StateT.run p s with
  | error e => rfl
  | ok x =>
    obtain ⟨b, s'⟩ := x
    exact congrArg (fun c => Except.ok (c, s')) (hk b)

end Parse

namespace Blocks

variable {b : Blocks}

/-- What the result of reading block by block is with stacks: nothing goes astray. -/
def view (b : Blocks) : Option Stacks := some b.asStacks

/-! ## Closing chains -/

/-- The entries of conditionals around the innermost block. -/
def outerIfs (b : Blocks) : List ChainSite := (b.outer.map Enclosing.whole).flatMap Block.ifSites

/-- The entries of `try` chains around the innermost block. -/
def outerTries (b : Blocks) : List ChainSite :=
  (b.outer.map Enclosing.whole).flatMap Block.trySites

/-- The entries of the other blocks stay on the stack of conditionals. -/
theorem Sound.dropWhile_ifStack (hb : b.Sound) :
    b.asStacks.ifStack.dropWhile (fun site => b.asStacks.body.width ≤ site.depth) = b.outerIfs := by
  have houter : b.outerIfs.dropWhile (fun site => b.inner.width ≤ site.depth) = b.outerIfs := by
    cases hsites : b.outerIfs with
    | nil => rfl
    | cons site rest =>
      have hmem : site ∈ b.outerIfs := hsites ▸ List.mem_cons_self
      have hlt := hb.lt_of_mem_outer _ depth_of_mem_ifSites hmem
      exact List.dropWhile_cons_of_neg (by simpa using hlt)
  have hinner : ∀ site ∈ b.inner.ifSites, decide (b.inner.width ≤ site.depth) = true := by
    intro site hsite
    rw [depth_of_mem_ifSites hsite]
    exact decide_eq_true (Nat.le_refl _)
  exact (List.dropWhile_append_of_pos hinner).trans houter

/-- The entries of the other blocks stay on the stack of `try` chains. -/
theorem Sound.closeTries_outerTries (hb : b.Sound) :
    b.asStacks.closeTries b.outerTries = pure (some b.outerTries) := by
  cases hsites : b.outerTries with
  | nil => rfl
  | cons site rest =>
    have hmem : site ∈ b.outerTries := hsites ▸ List.mem_cons_self
    have hlt : site.depth < b.asStacks.body.width :=
      hb.lt_of_mem_outer _ depth_of_mem_trySites hmem
    rw [Stacks.closeTries, if_pos hlt]

/-- A block whose open chain is closed has the body it had before, and no entry. -/
theorem asStacks_of_closed {inner : Block} (hchain : inner.chain = none)
    (hbody : inner.asBody = b.inner.asBody) :
    asStacks { b with inner } =
      { b.asStacks with ifStack := b.outerIfs, tryStack := b.outerTries } := by
  have hwidth : inner.width = b.inner.width := congrArg Body.width hbody
  simp [asStacks, whole, widths, Block.ifSites, Block.trySites, outerIfs, outerTries, hchain, hbody,
    hwidth]

/-- Closing the open chain of the innermost block takes its entry off its stack. -/
theorem Sound.closeChains_asStacks (hb : b.Sound) {a : Arena} (h : a.Indexes b.nodes) :
    (∃ e, b.inner.closeChain = throw e ∧ b.asStacks.closeChains = throw e) ∨
      ∃ inner : Block, inner.chain = none ∧ inner.width = b.inner.width ∧
        b.inner.closeChain = pure inner ∧
        b.asStacks.closeChains = pure (view { b with inner }) := by
  -- once no `try` without a handler is in the way, the entry is taken off and the body stays
  have hclosed {inner : Block} (hchain : inner.chain = none) (hbody : inner.asBody = b.inner.asBody)
      (htries : b.asStacks.closeTries b.asStacks.tryStack = pure (some b.outerTries)) :
      b.asStacks.closeChains = pure (view { b with inner }) := by
    rw [Stacks.closeChains, htries, pure_bind, view, asStacks_of_closed hchain hbody,
      hb.dropWhile_ifStack]
  cases hchain : b.inner.chain with
  | none =>
    have htries : b.asStacks.tryStack = b.outerTries := by
      simp [asStacks, whole, Block.trySites, hchain, outerTries]
    refine .inr ⟨b.inner, hchain, rfl, by simp [Block.closeChain, hchain], hclosed hchain rfl ?_⟩
    rw [htries, hb.closeTries_outerTries]
  | some c =>
    cases c with
    | branches last before =>
      have htries : b.asStacks.tryStack = b.outerTries := by
        simp [asStacks, whole, Block.trySites, hchain, outerTries]
      refine .inr ⟨Block.push { b.inner with chain := none }
        (Chain.conditional [] last before), rfl,
        rfl, by simp only [Block.closeChain, hchain], hclosed rfl ?_ ?_⟩
      · simp [Block.asBody, Block.push, hchain, Chain.statement]
      · rw [htries, hb.closeTries_outerTries]
    | attempt t =>
      have htries : b.asStacks.tryStack = ⟨t.mark.id, b.inner.width⟩ :: b.outerTries := by
        simp [asStacks, whole, Block.trySites, hchain, outerTries]
      have hlt : ¬b.inner.width < b.asStacks.body.width := Nat.lt_irrefl _
      by_cases hnone : t.handlers.isEmpty = true
      · refine .inl ⟨_, by simp only [Block.closeChain, hchain, hnone, if_true]; rfl, ?_⟩
        rw [Stacks.closeChains, htries, Stacks.closeTries, if_neg hlt, tryChain?_asStacks h hchain]
        simp only [hnone]
        rfl
      · refine .inr ⟨Block.push { b.inner with chain := none }
          (.tryExcept t.mark t.body t.handlers t.orelse []), rfl, rfl,
          by simp only [Block.closeChain, hchain, if_neg hnone], hclosed rfl ?_ ?_⟩
        · simp [Block.asBody, Block.push, hchain, Chain.statement]
        · rw [htries, Stacks.closeTries, if_neg hlt, tryChain?_asStacks h hchain]
          simp only [hnone, Bool.false_and, hb.closeTries_outerTries]
          rfl

/-! ## Clauses with their suites -/

/-- A clause that has read its suite does the same in place as on the chain that it holds. -/
theorem mirrors_finish (b : Blocks) (hb : b.inner.chain = none) (suite : List MarkedStmt)
    (clause : Clause) :
    Mirrors (Stmt.nodesAll suite ++ (b.nodes ++ clause.nodes))
      ((b.holding clause).asStacks.finish suite (clause.task b.inner.width))
      (do return { b with inner := ← b.inner.attach suite clause }) view := by
  refine mirrors_of_indexes fun a ha => ?_
  have hnodes : a.Indexes (b.holding clause).nodes := by
    refine ha.subperm (subperm_of_count fun x => ?_)
    have hcount := b.count_nodes_holding clause x
    simp only [List.count_append] at hcount ⊢
    omega
  obtain ⟨⟨width, done, chain⟩, outer⟩ := b
  obtain rfl : chain = none := hb
  cases clause with
  | ifTest word test =>
    simp only [Block.attach, bind_assoc, pure_bind]
    exact (makes_register _ _).mirrors fun mark => mirrors_pure rfl
  | elifTest last before word test =>
    have horelse := ifOrelse?_asStacks hnodes last before rfl
    simp only [Block.attach, bind_assoc, pure_bind]
    simp only [Clause.task, Stacks.finish, horelse]
    refine (makes_register _ _).mirrors fun mark => mirrors_pure ?_
    rw [patch_asStacks_branches hnodes last before rfl]
    rfl
  | otherwise last before =>
    simp only [Block.attach, pure_bind]
    refine mirrors_pure ?_
    rw [patch_asStacks_branches hnodes last before rfl]
    rfl
  | tryBody word =>
    simp only [Block.attach, bind_assoc, pure_bind]
    exact (makes_register _ _).mirrors fun mark => mirrors_pure rfl
  | handler t word type name =>
    simp only [Block.attach, bind_assoc, pure_bind]
    refine (makes_register _ _).mirrors fun mark => mirrors_pure ?_
    rw [patch_asStacks_attempt hnodes rfl]
    rfl
  | tryElse t =>
    simp only [Block.attach, pure_bind]
    refine mirrors_pure ?_
    rw [patch_asStacks_attempt hnodes rfl]
    rfl
  | «finally» t =>
    have htry := tryChain?_asStacks hnodes (t := t) rfl
    simp only [Block.attach, pure_bind]
    simp only [Clause.task, Stacks.finish, htry]
    refine mirrors_pure ?_
    rw [patch_asStacks_attempt hnodes rfl]
    rfl
  | whileTest word test =>
    simp only [Block.attach, bind_assoc, pure_bind]
    exact (makes_register _ _).mirrors fun mark => mirrors_pure rfl
  | forEach word target iter =>
    simp only [Block.attach, bind_assoc, pure_bind]
    exact (makes_register _ _).mirrors fun mark => mirrors_pure rfl
  | function word name signature =>
    simp only [Block.attach, bind_assoc, pure_bind]
    exact (makes_register _ _).mirrors fun mark => mirrors_pure rfl
  | classDef word name bases =>
    simp only [Block.attach, bind_assoc, pure_bind]
    exact (makes_register _ _).mirrors fun mark => mirrors_pure rfl

/-- A clause whose suite is read. -/
theorem mirrors_suite (b : Blocks) (hb : b.inner.chain = none) (clause : Clause) :
    Mirrors (b.nodes ++ clause.nodes)
      ((b.holding clause).asStacks.suite (clause.task b.inner.width)) (b.suite clause) view := by
  refine (idle_expect _).mirrors fun _ => idle_peek.mirrors fun token => ?_
  cases token.kind with
  | newLine =>
    refine idle_advance.mirrors fun _ => idle_peek.mirrors fun indentation => ?_
    exact mirrors_ite (fun _ => mirrors_pure rfl) fun _ => mirrors_throw _
  | finish => exact mirrors_throw _
  | _ => exact makes_inlineBody.mirrors fun body => mirrors_finish b hb body clause

/-- A clause that takes the open chain out of the innermost block. -/
theorem mirrors_continuing (clause : Clause) (hchain : b.inner.chain = clause.chain?)
    {given : List TreeNode}
    (h : ∀ x, (b.continuing.nodes ++ clause.nodes).count x ≤ given.count x) :
    Mirrors given (b.asStacks.suite (clause.task b.inner.width))
      (b.continuing.suite clause) view := by
  have hsuite := mirrors_suite b.continuing rfl clause
  rw [holding_continuing hchain] at hsuite
  exact hsuite.of_subperm (subperm_of_count h)

/-- A clause that begins a statement of a block without an open chain. -/
theorem mirrors_opening (hb : b.inner.chain = none) (clause : Clause)
    (hchain : clause.chain? = none)
    {given : List TreeNode} (h : ∀ x, (b.nodes ++ clause.nodes).count x ≤ given.count x) :
    Mirrors given (b.asStacks.suite (clause.task b.inner.width)) (b.suite clause) view := by
  have hsuite := mirrors_suite b hb clause
  rw [holding, Block.holding, hchain, ← hb] at hsuite
  exact hsuite.of_subperm (subperm_of_count h)

theorem mirrors_statement (hb : b.inner.chain = none) (word : Token) :
    Mirrors b.nodes (b.asStacks.statement word) (b.statement word) view := by
  have hsimple : Mirrors b.nodes
      (simpleStatement >>= fun p => pure (some (b.asStacks.push p.1)))
      (simpleStatement >>= fun p => pure { b with inner := b.inner.push p.1 }) view := by
    refine makes_simpleStatement.mirrors fun p => mirrors_pure ?_
    obtain ⟨⟨width, done, chain⟩, outer⟩ := b
    obtain rfl : chain = none := hb
    rfl
  unfold Stacks.statement statement
  cases word.kind with
  | keyword k =>
    cases k with
    | «if» =>
      refine idle_advance.mirrors fun _ => makes_anyExpr.mirrors fun test => ?_
      refine mirrors_opening hb (.ifTest word.pos test) rfl fun x => ?_
      simp only [Clause.nodes, List.count_append]
      omega
    | «while» =>
      refine idle_advance.mirrors fun _ => makes_anyExpr.mirrors fun test => ?_
      refine mirrors_opening hb (.whileTest word.pos test) rfl fun x => ?_
      simp only [Clause.nodes, List.count_append]
      omega
    | «for» =>
      refine idle_advance.mirrors fun _ => makes_loopTargets.mirrors fun place => ?_
      refine (idle_expect _).mirrors fun _ => makes_anyExprList.mirrors fun iter => ?_
      refine mirrors_opening hb (.forEach word.pos place iter) rfl fun x => ?_
      simp only [Clause.nodes, List.count_append]
      omega
    | «try» =>
      refine idle_advance.mirrors fun _ => ?_
      refine mirrors_opening hb (.tryBody word.pos) rfl fun x => ?_
      simp only [Clause.nodes, List.append_nil, Nat.le_refl]
    | define =>
      refine idle_advance.mirrors fun _ => (idle_expect _).mirrors fun name => ?_
      refine (idle_expect _).mirrors fun _ => (makes_parameters makes_anyExpr _).mirrors fun s => ?_
      refine (idle_expect _).mirrors fun _ => ?_
      refine mirrors_opening hb (.function word.pos name.value s) rfl fun x => ?_
      simp only [Clause.nodes, List.count_append]
      omega
    | classes =>
      refine idle_advance.mirrors fun _ => (idle_expect _).mirrors fun name => ?_
      refine makes_classBases.mirrors fun bases => ?_
      refine mirrors_opening hb (.classDef word.pos name.value bases) rfl fun x => ?_
      simp only [Clause.nodes, List.count_append]
      omega
    | _ => exact hsimple
  | _ => exact hsimple

/-! ## Clauses that go on with a chain -/

theorem Sound.mirrors_elifClause (hb : b.Sound) :
    Mirrors b.nodes b.asStacks.elifClause b.elifClause view := by
  refine idle_advance.mirrors fun word => ?_
  cases hchain : b.inner.chain with
  | none =>
    rw [hb.openIf?_eq_none (by rw [Block.ifSites, hchain])]
    exact mirrors_throw _
  | some c =>
    cases c with
    | branches last before =>
      rw [openIf?_asStacks hchain]
      refine makes_anyExpr.mirrors fun test => ?_
      refine mirrors_continuing (.elifTest last before word.pos test) hchain fun x => ?_
      have hcount := count_continuing hchain x
      simp only [Clause.nodes, Chain.nodes, List.count_append] at hcount ⊢
      omega
    | attempt t =>
      rw [hb.openIf?_eq_none (by rw [Block.ifSites, hchain])]
      exact mirrors_throw _

theorem Sound.mirrors_elseClause (hb : b.Sound) :
    Mirrors b.nodes b.asStacks.elseClause b.elseClause view := by
  refine mirrors_of_indexes fun a ha => idle_advance.mirrors fun word => ?_
  cases hchain : b.inner.chain with
  | none =>
    rw [hb.openTry?_eq_none (by rw [Block.trySites, hchain])]
    rw [hb.openIf?_eq_none (by rw [Block.ifSites, hchain])]
    exact mirrors_throw _
  | some c =>
    cases c with
    | branches last before =>
      rw [hb.openTry?_eq_none (by rw [Block.trySites, hchain])]
      rw [openIf?_asStacks hchain]
      simp only
      rw [ifOrelse?_asStacks ha last before hchain]
      exact mirrors_continuing (.otherwise last before) hchain fun x =>
        Nat.le_of_eq (count_continuing hchain x)
    | attempt t =>
      rw [openTry?_asStacks hchain]
      simp only
      rw [tryChain?_asStacks ha hchain]
      simp only [List.isEmpty_nil, Bool.not_true, Bool.or_false]
      refine mirrors_ite (fun _ => mirrors_throw _) fun _ => ?_
      exact mirrors_continuing (.tryElse t) hchain fun x =>
        Nat.le_of_eq (count_continuing hchain x)

theorem Sound.mirrors_exceptClause (hb : b.Sound) :
    Mirrors b.nodes b.asStacks.exceptClause b.exceptClause view := by
  refine mirrors_of_indexes fun a ha => idle_advance.mirrors fun word => ?_
  cases hchain : b.inner.chain with
  | none =>
    rw [hb.openTry?_eq_none (by rw [Block.trySites, hchain])]
    exact mirrors_throw _
  | some c =>
    cases c with
    | branches last before =>
      rw [hb.openTry?_eq_none (by rw [Block.trySites, hchain])]
      exact mirrors_throw _
    | attempt t =>
      rw [openTry?_asStacks hchain]
      simp only
      rw [tryChain?_asStacks ha hchain]
      have hsuite (type : Option MarkedExpr) (name : Option String) :
          Mirrors (Expr.nodesOption type ++ b.nodes)
            (b.asStacks.suite (.handler ⟨t.mark.id, b.inner.width⟩ word.pos type name))
            (b.continuing.suite (.handler t word.pos type name)) view := by
        refine mirrors_continuing (.handler t word.pos type name) hchain fun x => ?_
        have hcount := count_continuing hchain x
        simp only [Clause.nodes, Chain.nodes, List.count_append] at hcount ⊢
        omega
      refine mirrors_ite (fun _ => mirrors_throw _) fun _ => (idle_check _).mirrors fun colon => ?_
      refine mirrors_ite (fun _ => hsuite none none) fun _ => ?_
      refine makes_anyExpr.mirrors fun type => (idle_accept _).mirrors fun named => ?_
      refine mirrors_ite (fun _ => ?_) fun _ => ?_
      · exact (idle_identifier.map some).mirrors fun name => hsuite (some type) name
      · exact hsuite (some type) none

theorem Sound.mirrors_finallyClause (hb : b.Sound) :
    Mirrors b.nodes b.asStacks.finallyClause b.finallyClause view := by
  refine idle_advance.mirrors fun word => ?_
  cases hchain : b.inner.chain with
  | none =>
    rw [hb.openTry?_eq_none (by rw [Block.trySites, hchain])]
    exact mirrors_throw _
  | some c =>
    cases c with
    | branches last before =>
      rw [hb.openTry?_eq_none (by rw [Block.trySites, hchain])]
      exact mirrors_throw _
    | attempt t =>
      rw [openTry?_asStacks hchain]
      exact mirrors_continuing (.finally t) hchain fun x =>
        Nat.le_of_eq (count_continuing hchain x)

/-! ## Steps -/

/-- What the result of a step block by block is with stacks. -/
def viewNext : Next Blocks (List MarkedStmt) → Next Stacks (Option (List MarkedStmt))
  | .again b => .again b.asStacks
  | .done body => .done (some body)

/-- The nodes are held while the open chain of the innermost block is closed. -/
theorem indexes_of_closeChain {a : Arena} {inner : Block} (hclose : b.inner.closeChain = pure inner)
    (h : a.Indexes b.nodes) : a.Indexes (nodes { b with inner }) := by
  have hturns := Block.turns_closeChain b.inner
  rw [hclose] at hturns
  exact hturns _ ⟨[], [], a⟩ inner ⟨[], [], a⟩ h rfl

theorem Sound.mirrors_leave (hb : b.Sound) : Mirrors b.nodes b.asStacks.leave b.leave viewNext := by
  intro s hs
  rcases hb.closeChains_asStacks hs with ⟨e, hclose, hclose'⟩ | ⟨inner, hchain, -, hclose, hclose'⟩
  · rw [Stacks.leave, leave, hclose, hclose']
    rfl
  · have hnodes := indexes_of_closeChain hclose hs
    rw [Stacks.leave, leave, hclose, hclose', pure_bind, pure_bind]
    obtain ⟨width, done, chain⟩ := inner
    obtain rfl : chain = none := hchain
    obtain ⟨block, outer⟩ := b
    cases outer with
    | nil => rfl
    | cons e outer =>
      have hfinish := mirrors_finish ⟨e.block, outer⟩ (hb.held e List.mem_cons_self)
        done.reverse e.clause
      have hnext := hfinish.andThen (g := Stacks.next) (k := .again) (w := viewNext) fun _ => rfl
      simp only [bind_assoc, pure_bind] at hnext
      refine mirrors_ite (fun _ => mirrors_throw _) (fun _ => hnext) s ?_
      refine hnodes.subperm (subperm_of_count fun x => ?_)
      have hdone := (Stmt.nodesAll_reverse_perm done).count_eq x
      simp only [nodes, Block.nodes, Enclosing.nodes, Option.toList_none, List.flatMap_nil,
        List.flatMap_cons, List.count_append, List.count_nil, hdone]
      omega

/-- The step at a token that begins a statement. -/
def stepAtStatement (m : Stacks) (token : Token) :
    Parse (Next Stacks (Option (List MarkedStmt))) := do
  match ← m.closeChains with
  | none => return .done none
  | some m => return Stacks.next (← m.statement token)

/-- **A step with stacks is a step block by block.** -/
theorem Sound.mirrors_step (hb : b.Sound) : Mirrors b.nodes b.asStacks.step b.step viewNext := by
  refine idle_peek.mirrors fun token => ?_
  have hnext {q : Parse (Option Stacks)} {p : Parse Blocks} (h : Mirrors b.nodes q p view) :
      Mirrors b.nodes (do return Stacks.next (← q)) (do return .again (← p)) viewNext :=
    h.andThen fun _ => rfl
  have hstatement : Mirrors b.nodes (stepAtStatement b.asStacks token)
      (do
        let inner ← b.inner.closeChain
        return .again (← statement { b with inner } token)) viewNext := by
    intro s hs
    rcases hb.closeChains_asStacks
      hs with ⟨e, hclose, hclose'⟩ | ⟨inner, hchain, -, hclose, hclose'⟩
    · rw [stepAtStatement, hclose, hclose']
      rfl
    · rw [stepAtStatement, hclose, hclose', pure_bind, pure_bind]
      have hstep := mirrors_statement (b := { b with inner }) hchain token
      have hnext := hstep.andThen (g := Stacks.next) (k := .again) (w := viewNext) fun _ => rfl
      exact hnext s (indexes_of_closeChain hclose hs)
  cases token.kind with
  | finish => exact hb.mirrors_leave
  | indentation =>
    refine mirrors_ite (fun _ => ?_) fun _ => mirrors_ite (fun _ => mirrors_throw _) fun _ => ?_
    · exact mirrors_ite (fun _ => hb.mirrors_leave) fun _ => mirrors_throw _
    · exact idle_advance.mirrors fun _ => mirrors_pure rfl
  | keyword k =>
    cases k with
    | elif => exact hnext hb.mirrors_elifClause
    | «else» => exact hnext hb.mirrors_elseClause
    | except => exact hnext hb.mirrors_exceptClause
    | «finally» => exact hnext hb.mirrors_finallyClause
    | _ => exact hstatement
  | _ => exact hstatement

/-! ## Widths -/

theorem Sound.of_width (hb : b.Sound) {inner : Block} (h : inner.width = b.inner.width) :
    Sound { b with inner } := by
  refine ⟨?_, hb.held⟩
  have hwider := hb.wider
  rw [widths, ← h] at hwider
  exact hwider

theorem yields_width_attach (b : Block) (body : List MarkedStmt) (clause : Clause) :
    (b.attach body clause).Yields fun c => c.width = b.width := by
  cases clause with
  | otherwise last before => exact yields_pure rfl
  | tryElse t => exact yields_pure rfl
  | «finally» t => exact yields_pure rfl
  | _ => exact (yields_register _ _).bind fun _ _ => yields_pure rfl

/-- An inner block is wider than those around it. -/
theorem Sound.yields_suite (hb : b.Sound) (hchain : b.inner.chain = none) (clause : Clause) :
    (b.suite clause).Yields Sound := by
  refine (yields_expected _).bind fun _ _ => yields_next.bind fun token _ => ?_
  split
  · refine yields_taken.bind fun _ _ => yields_next.bind fun indentation _ => ?_
    split
    · next hwider =>
      refine yields_pure ⟨?_, ?_⟩
      · refine List.pairwise_cons.mpr ⟨fun w hw => ?_, hb.wider⟩
        rcases List.mem_cons.mp hw with rfl | hw
        · exact hwider.2
        · exact Nat.lt_trans (List.rel_of_pairwise_cons hb.wider hw) hwider.2
      · rw [List.forall_mem_cons]
        exact ⟨hchain, hb.held⟩
    · exact yields_missingBody _
  · exact yields_missingBody _
  · refine yields_inlineBody.bind fun body _ => ?_
    exact (yields_width_attach _ _ _).bind fun inner hwidth => yields_pure (hb.of_width hwidth)

theorem Sound.yields_statement (hb : b.Sound) (hchain : b.inner.chain = none) (word : Token) :
    (b.statement word).Yields Sound := by
  unfold statement
  split
  · exact yields_taken.bind fun _ _ => yields_anyExpr.bind fun _ _ => hb.yields_suite hchain _
  · exact yields_taken.bind fun _ _ => yields_anyExpr.bind fun _ _ => hb.yields_suite hchain _
  · refine yields_taken.bind fun _ _ => yields_loopTargets.bind fun _ _ => ?_
    refine (yields_expected _).bind fun _ _ => yields_anyExprList.bind fun _ _ => ?_
    exact hb.yields_suite hchain _
  · exact yields_taken.bind fun _ _ => hb.yields_suite hchain _
  · refine yields_taken.bind fun _ _ => (yields_expected _).bind fun _ _ => ?_
    refine (yields_expected _).bind fun _ _ =>
      (yields_parameters _).bind fun _ _ => ?_
    exact (yields_expected _).bind fun _ _ => hb.yields_suite hchain _
  · refine yields_taken.bind fun _ _ => (yields_expected _).bind fun _ _ => ?_
    exact yields_classBases.bind fun _ _ => hb.yields_suite hchain _
  · exact yields_simpleStatement.bind fun _ _ => yields_pure (hb.of_width rfl)

theorem Sound.continuing (hb : b.Sound) : b.continuing.Sound := hb.of_width rfl

theorem Sound.yields_elifClause (hb : b.Sound) : b.elifClause.Yields Sound := by
  refine yields_taken.bind fun word _ => ?_
  split
  · exact yields_anyExpr.bind fun _ _ => hb.continuing.yields_suite rfl _
  · exact Block.yields_misplaced _ (by decide)

theorem Sound.yields_elseClause (hb : b.Sound) : b.elseClause.Yields Sound := by
  refine yields_taken.bind fun word _ => ?_
  split
  · split
    · exact Block.yields_outOfOrder _
    · exact hb.continuing.yields_suite rfl _
  · exact hb.continuing.yields_suite rfl _
  · exact Block.yields_misplaced _ (by decide)

theorem Sound.yields_exceptClause (hb : b.Sound) : b.exceptClause.Yields Sound := by
  refine yields_taken.bind fun word _ => ?_
  split
  · split
    · exact Block.yields_outOfOrder _
    · refine (yields_check _).bind fun colon _ => ?_
      split
      · exact hb.continuing.yields_suite rfl _
      · refine yields_anyExpr.bind fun type _ => (yields_accept _).bind fun named _ => ?_
        split
        · have hname : identifier.Yields fun _ => True :=
            (yields_expected _).bind fun _ _ => yields_pure trivial
          exact Yields.bind (R := fun _ => True) (Yields.map hname) fun _ _ =>
            hb.continuing.yields_suite rfl _
        · exact yields_pure_bind (hb.continuing.yields_suite rfl _)
  · exact Block.yields_misplaced _ (by decide)

theorem Sound.yields_finallyClause (hb : b.Sound) : b.finallyClause.Yields Sound := by
  refine yields_taken.bind fun word _ => ?_
  split
  · exact hb.continuing.yields_suite rfl _
  · exact Block.yields_misplaced _ (by decide)

/-- Closing a chain keeps the width of a block, and leaves no chain. -/
theorem yields_closed (b : Block) :
    b.closeChain.Yields fun c => c.chain = none ∧ c.width = b.width := by
  unfold Block.closeChain
  simp only
  split
  · next hnone => exact yields_pure ⟨hnone, rfl⟩
  · exact yields_pure ⟨rfl, rfl⟩
  · split
    · exact Block.yields_misplaced _ (by decide)
    · exact yields_pure ⟨rfl, rfl⟩

theorem Sound.outer {e : Enclosing} {outer : List Enclosing} (hb : b.Sound)
    (h : b.outer = e :: outer) :
    Sound ⟨e.block, outer⟩ := by
  have hwider := hb.wider
  have hheld := hb.held
  rw [widths, h, List.map_cons] at hwider
  rw [h, List.forall_mem_cons] at hheld
  exact ⟨hwider.of_cons, hheld.2⟩

theorem Sound.yields_leave (hb : b.Sound) : b.leave.Yields (Next.Holds Sound fun _ => True) := by
  refine (yields_closed _).bind fun inner _ => ?_
  simp only
  split
  · exact yields_pure trivial
  · next e outer heq =>
    split
    · exact yields_missingBody _
    · exact (yields_width_attach _ _ _).bind fun _ hwidth =>
        yields_pure ((hb.outer heq).of_width hwidth)

theorem Sound.yields_step (hb : b.Sound) : b.step.Yields (Next.Holds Sound fun _ => True) := by
  refine yields_next.bind fun token _ => ?_
  split
  · exact hb.yields_leave
  · split
    · split
      · exact hb.yields_leave
      · exact yields_placed rfl token (by decide)
    · split
      · exact yields_placed rfl token (by decide)
      · exact yields_taken.bind fun _ _ => yields_pure hb
  · exact hb.yields_elifClause.bind fun _ hb => yields_pure hb
  · exact hb.yields_elseClause.bind fun _ hb => yields_pure hb
  · exact hb.yields_exceptClause.bind fun _ hb => yields_pure hb
  · exact hb.yields_finallyClause.bind fun _ hb => yields_pure hb
  · refine (yields_closed _).bind fun inner hinner => ?_
    have hclosed : Sound { b with inner } := hb.of_width hinner.2
    exact (hclosed.yields_statement hinner.1 token).bind fun _ hb => yields_pure hb

/-! ## Runs -/

/-- What a reading block by block keeps: the blocks are sound, and the arena indexes their nodes. -/
structure Kept (b : Blocks) (s : ParseState) : Prop where
  sound : b.Sound
  indexes : s.arena.Indexes b.nodes
  proper : s.Proper

/-- The block that a program begins in. -/
def start : Blocks := { inner := { width := 0 } }

theorem nodes_start : start.nodes = [] := by
  simp [start, nodes, Block.nodes, Stmt.nodesAll]

theorem sound_start : start.Sound := by
  constructor
  · simp [start, widths]
  · simp [start]

theorem kept_start {s : ParseState} (hproper : s.Proper) : start.Kept s := by
  refine ⟨sound_start, ?_, hproper⟩
  rw [nodes_start]
  exact Arena.indexes_nil _

theorem Kept.step {b b' : Blocks} {s s' : ParseState} (h : b.Kept s)
    (hrun : StateT.run b.step s = .ok (.again b', s')) : b'.Kept s' := by
  have hmeets := h.sound.yields_step s h.proper
  rw [hrun] at hmeets
  have hindexes := turns_step b [] s _ _ (by rw [List.append_nil]; exact h.indexes) hrun
  rw [List.append_nil] at hindexes
  exact ⟨hmeets.2, hindexes, hmeets.1⟩

/-- What a step with stacks ends in is seen from what the step block by block ends in. -/
theorem Kept.exists_of_run_step {s s' : ParseState} (h : b.Kept s)
    {r : Next Stacks (Option (List MarkedStmt))}
    (hrun : StateT.run b.asStacks.step s = .ok (r, s')) :
    ∃ next, StateT.run b.step s = .ok (next, s') ∧ r = viewNext next := by
  rw [h.sound.mirrors_step s h.indexes, StateT.run_map] at hrun
  cases hstep : StateT.run b.step s with
  | error e =>
    rw [hstep] at hrun
    cases hrun
  | ok x =>
    rw [hstep] at hrun
    cases hrun
    exact ⟨x.1, rfl, rfl⟩

theorem Kept.iterateWithin_step {s : ParseState} (h : b.Kept s) (n : Nat) :
    StateT.run (iterateWithin Stacks.step n b.asStacks) s =
      StateT.run (some <$> iterateWithin Blocks.step n b) s := by
  induction n generalizing b s with
  | zero =>
    have hstuck : Mirrors b.nodes (peek >>= unexpected)
        (peek >>= unexpected : Parse (List MarkedStmt)) some :=
      idle_peek.mirrors fun token => mirrors_unexpected token
    exact hstuck s h.indexes
  | succ n ih =>
    rw [iterateWithin, iterateWithin, map_bind, StateT.run_bind, StateT.run_bind,
      h.sound.mirrors_step s h.indexes, StateT.run_map]
    cases hrun : StateT.run b.step s with
    | error e => rfl
    | ok x =>
      obtain ⟨next, s'⟩ := x
      cases next with
      | again b' => exact ih (h.step hrun)
      | done body => rfl

end Blocks

namespace Stacks

/-- Whatever is reached with stacks is reached block by block. -/
theorem Reached.exists_blocks {source : Text} {m : Stacks} {s : ParseState}
    (h : Reached source m s) :
    ∃ b : Blocks, b.Kept s ∧ m = b.asStacks := by
  induction h with
  | start => exact ⟨_, Blocks.kept_start (proper_start source {}), rfl⟩
  | @step m m' s s' _ hrun ih =>
    obtain ⟨b, hkept, rfl⟩ := ih
    obtain ⟨next, hstep, hview⟩ := hkept.exists_of_run_step hrun
    cases next with
    | again b' =>
      obtain rfl := Next.again.inj hview
      exact ⟨b', hkept.step hstep, rfl⟩
    | done body => cases hview

/-- Reading statements with stacks is reading them block by block. -/
theorem run_eq {s : ParseState} (hproper : s.Proper) :
    StateT.run run s = StateT.run (some <$> Blocks.run) s :=
  (Blocks.kept_start hproper).iterateWithin_step _

/-- **Reading a program with stacks is reading it block by block**: the tree and the arena are the
same, or the fault is. -/
theorem program_eq {s : ParseState} (hproper : s.Proper) :
    StateT.run program s = StateT.run (some <$> Parse.module) s := by
  have hpeek := run_peek s
  rw [program, Parse.module, map_bind, Outcome.run_bind_ok hpeek,
    Outcome.run_bind_ok hpeek, map_bind,
    StateT.run_bind, StateT.run_bind, run_eq hproper, StateT.run_map]
  cases StateT.run Blocks.run s with
  | error e => rfl
  | ok x => rfl

end Stacks

end Toolchain

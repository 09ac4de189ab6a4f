import Toolchain.Proofs.Parser.Stacked

/-!
# The stacks of open chains stay in step with the open blocks

Whatever is reached with stacks is what some open blocks tell, and what the blocks tell is in step:
each block has at most one entry, at its own width, and the entry names the node that its body ends
in. So the widths of the blocks order both stacks, and what is on top once the chains of a suite are
closed is what was on top before the suite.

## Main definitions

* `Stmt.EndsInIf`, `Stmt.IsOpenTry`: a statement that the entry of a stack is about
* `Stacks.InStep`: the stacks are in step with the bodies that are read

## Main results

* `Blocks.Kept.inStep`: what open blocks tell is in step
* `Stacks.reached_inStep`: **so is whatever is reached**, and a program is read as block by block
-/

namespace Toolchain

open Parse

/-- A chain of conditionals that ends in the one with a given number: that one has no alternative,
and each of those before it has the next one as all of its alternative. -/
inductive Stmt.EndsInIf (id : Nat) : MarkedStmt → Prop where
  | last {m : Mark} {test : MarkedExpr} {body : List MarkedStmt} (h : m.id = id) :
      EndsInIf id (.ifElse m test body [])
  | more {m : Mark} {test : MarkedExpr} {body : List MarkedStmt} {s : MarkedStmt}
      (h : EndsInIf id s) : EndsInIf id (.ifElse m test body [s])

/-- The `try` with a given number, without a final part. -/
inductive Stmt.IsOpenTry (id : Nat) : MarkedStmt → Prop where
  | intro {m : Mark} {body : List MarkedStmt} {handlers : List (Handler Mark MarkedExpr MarkedStmt)}
      {orelse : List MarkedStmt} (h : m.id = id) :
        IsOpenTry id (.tryExcept m body handlers orelse [])

/-- The last statement of a body has a property. -/
def Body.EndsWith (b : Body) (P : MarkedStmt → Prop) : Prop := ∃ s ∈ b.statements.head?, P s

/-- The conditional that a suite is read for a clause of. -/
def Task.ifSite? : Task → Option ChainSite
  | .elifTest site _ _ | .otherwise site => some site
  | _ => none

/-- The `try` that a suite is read for a clause of. -/
def Task.trySite? : Task → Option ChainSite
  | .handler site _ _ _ | .tryElse site | .finally site => some site
  | _ => none

/-- The stacks are in step with the bodies that are read, the nodes being those of an arena. -/
structure Stacks.InStep (m : Stacks) (a : Arena) : Prop where
  /-- The widths of the open blocks are those of the bodies, the innermost first. -/
  indents_eq : m.indents = m.bodies.map Body.width
  innermost : m.indents.head? = some m.body.width
  /-- The open blocks grow strictly wider from the outside in. -/
  indents : m.indents.Pairwise (· > ·)
  ifDepths : (m.ifStack.map ChainSite.depth).Pairwise (· > ·)
  tryDepths : (m.tryStack.map ChainSite.depth).Pairwise (· > ·)
  /-- No entry is deeper than the innermost block, and each is at the width of an open one. -/
  bounded : ∀ site ∈ m.ifStack ++ m.tryStack,
    site.depth ≤ m.body.width ∧ site.depth ∈ m.indents
  /-- No width is on both stacks. -/
  apart : ∀ x ∈ m.ifStack, ∀ y ∈ m.tryStack, x.depth ≠ y.depth
  /-- An entry names a node of its kind, which the body at its width ends in. -/
  ifAttached : ∀ site ∈ m.ifStack, a.holds .ifElse site.node = true ∧
    ∃ b ∈ m.bodies, b.width = site.depth ∧ b.EndsWith (Stmt.EndsInIf site.node)
  tryAttached : ∀ site ∈ m.tryStack, a.holds .tryExcept site.node = true ∧
    ∃ b ∈ m.bodies, b.width = site.depth ∧ b.EndsWith (Stmt.IsOpenTry site.node)
  /-- A clause goes on with the chain that the innermost body ends in. -/
  ifExtends : ∀ site, m.openIf? = some site → m.body.EndsWith (Stmt.EndsInIf site.node)
  tryExtends : ∀ site, m.openTry? = some site → m.body.EndsWith (Stmt.IsOpenTry site.node)
  /-- Once the chains of the suite of a clause are closed, what is on top is the entry that was
  looked up before the suite: it is the one that is replaced or taken off. -/
  ifReplaces : ∀ c site, m.callers.head? = some c → c.task.ifSite? = some site →
    ∀ s m' s', StateT.run m.closeChains s = .ok (some m', s') → m'.ifStack.head? = some site
  tryReplaces : ∀ c site, m.callers.head? = some c → c.task.trySite? = some site →
    ∀ s m' s', StateT.run m.closeChains s = .ok (some m', s') → m'.tryStack.head? = some site

/-! ## Entries of one block -/

theorem Chain.endsInIf_enclose {id : Nat} {s : MarkedStmt} (h : s.EndsInIf id)
    (before : List Branch) : (enclose s before).EndsInIf id := by
  induction before generalizing s with
  | nil => exact h
  | cons previous before ih => exact ih (.more h)

namespace Block

variable {b : Block} {site : ChainSite}

/-- A block has at most one entry on the stack of conditionals, at its width. -/
theorem ifSites_sublist (b : Block) : (b.ifSites.map ChainSite.depth).Sublist [b.width] := by
  unfold ifSites
  split
  · exact .refl _
  · exact List.nil_sublist _

theorem trySites_sublist (b : Block) : (b.trySites.map ChainSite.depth).Sublist [b.width] := by
  unfold trySites
  split
  · exact .refl _
  · exact List.nil_sublist _

/-- The body of a block with an open conditional ends in that conditional. -/
theorem endsWith_of_mem_ifSites (h : site ∈ b.ifSites) :
    b.asBody.EndsWith (Stmt.EndsInIf site.node) := by
  unfold ifSites at h
  split at h
  · next last before hchain =>
    obtain rfl := List.mem_singleton.mp h
    refine ⟨Chain.conditional [] last before, by simp [asBody, hchain, Chain.statement], ?_⟩
    rw [Chain.conditional_eq_enclose]
    exact Chain.endsInIf_enclose (.last rfl) before
  · cases h

theorem endsWith_of_mem_trySites (h : site ∈ b.trySites) :
    b.asBody.EndsWith (Stmt.IsOpenTry site.node) := by
  unfold trySites at h
  split at h
  · next t hchain =>
    obtain rfl := List.mem_singleton.mp h
    refine ⟨(Chain.attempt t).statement, by simp [asBody, hchain], ?_⟩
    exact .intro rfl
  · cases h

/-- The entry of an open conditional names a node of the block. -/
theorem exists_node_of_mem_ifSites (h : site ∈ b.ifSites) :
    ∃ n ∈ b.nodes, n.tag = .ifElse ∧ n.mark.id = site.node := by
  unfold ifSites at h
  split at h
  · next last before hchain =>
    obtain rfl := List.mem_singleton.mp h
    exact ⟨⟨.ifElse, last.mark⟩, by simp [nodes, hchain, Chain.nodes, Branch.nodes], rfl, rfl⟩
  · cases h

theorem exists_node_of_mem_trySites (h : site ∈ b.trySites) :
    ∃ n ∈ b.nodes, n.tag = .tryExcept ∧ n.mark.id = site.node := by
  unfold trySites at h
  split at h
  · next t hchain =>
    obtain rfl := List.mem_singleton.mp h
    exact ⟨⟨.tryExcept, t.mark⟩, by simp [nodes, hchain, Chain.nodes, TryChain.nodes], rfl, rfl⟩
  · cases h

/-- A block has one open chain. -/
theorem trySites_eq_nil_of_mem_ifSites (h : site ∈ b.ifSites) : b.trySites = [] := by
  unfold ifSites at h
  split at h
  · next last before hchain => rw [trySites, hchain]
  · cases h

/-- The clause that holds a chain waits at the entry of the chain. -/
theorem ifSites_holding (b : Block) {clause : Clause}
    (h : (clause.task b.width).ifSite? = some site) : (b.holding clause).ifSites = [site] := by
  cases clause with
  | elifTest last before word test =>
    obtain rfl := Option.some.inj h
    rfl
  | otherwise last before =>
    obtain rfl := Option.some.inj h
    rfl
  | _ => cases h

theorem trySites_holding (b : Block) {clause : Clause}
    (h : (clause.task b.width).trySite? = some site) : (b.holding clause).trySites = [site] := by
  cases clause with
  | handler t word type name =>
    obtain rfl := Option.some.inj h
    rfl
  | tryElse t =>
    obtain rfl := Option.some.inj h
    rfl
  | «finally» t =>
    obtain rfl := Option.some.inj h
    rfl
  | _ => cases h

end Block

/-- A node that an arena indexes is of its kind in the arena. -/
theorem Arena.Indexes.holds {a : Arena} {ns : List TreeNode} (h : a.Indexes ns) {n : TreeNode}
    (hn : n ∈ ns) : a.holds n.tag n.mark.id = true := by
  have hfound := h.found n hn
  rw [Arena.holds, Arena.get?, if_neg (Int.not_lt.mpr (Int.natCast_nonneg _)), Int.toNat_natCast,
    hfound]
  exact beq_self_eq_true n.tag

namespace Blocks

variable {b : Blocks} {s : ParseState} {site : ChainSite}

/-! ## Entries of all blocks -/

theorem map_width_whole (b : Blocks) : b.whole.map Block.width = b.widths := by
  simp [whole, widths, Enclosing.whole, Block.holding, Function.comp_def]

theorem bodies_asStacks (b : Blocks) : b.asStacks.bodies = b.whole.map Block.asBody := by
  simp [Stacks.bodies, asStacks, whole, Function.comp_def]

/-- The entries of the blocks are at widths of blocks, in their order. -/
theorem depths_sublist {sites : Block → List ChainSite}
    (hsites : ∀ block : Block, ((sites block).map ChainSite.depth).Sublist [block.width])
    (blocks : List Block) :
    ((blocks.flatMap sites).map ChainSite.depth).Sublist (blocks.map Block.width) := by
  induction blocks with
  | nil => exact List.nil_sublist _
  | cons block blocks ih =>
    rw [List.flatMap_cons, List.map_append]
    exact (hsites block).append ih

theorem mem_nodes_of_mem_whole {block : Block} (h : block ∈ b.whole) {n : TreeNode}
    (hn : n ∈ block.nodes) : n ∈ b.nodes := by
  rcases List.mem_cons.mp h with rfl | h
  · exact List.mem_append_left _ hn
  · obtain ⟨e, he, rfl⟩ := List.mem_map.mp h
    have hsub : e.whole.nodes.Subperm e.nodes := subperm_of_count e.count_nodes_whole
    exact List.mem_append_right _ (List.mem_flatMap.mpr ⟨e, he, hsub.subset hn⟩)

/-- Two blocks of one width are the same. -/
theorem Sound.eq_of_width (hb : b.Sound) {x y : Block} (hx : x ∈ b.whole) (hy : y ∈ b.whole)
    (h : x.width = y.width) : x = y := by
  have hnodup : (b.whole.map Block.width).Nodup := by
    rw [map_width_whole]
    exact hb.wider.imp Nat.ne_of_gt
  exact List.inj_on_of_nodup_map hnodup hx hy h

theorem Sound.le_width (hb : b.Sound) {w : Nat} (hw : w ∈ b.widths) : w ≤ b.inner.width := by
  rcases List.mem_cons.mp hw with rfl | hw
  · exact Nat.le_refl _
  · exact Nat.le_of_lt (List.rel_of_pairwise_cons hb.wider hw)

/-- An entry that is open at the width of the innermost block is one of that block. -/
theorem Sound.mem_of_filter_head? (hb : b.Sound) (sites : Block → List ChainSite)
    (hsites : ∀ {block site}, site ∈ sites block → site.depth = block.width)
    (h : ((b.whole.flatMap sites).head?.filter fun site => site.depth = b.inner.width) =
      some site) :
    site ∈ sites b.inner := by
  cases hinner : sites b.inner with
  | nil =>
    rw [hb.filter_head? sites hsites hinner] at h
    cases h
  | cons first rest =>
    have hhead : (b.whole.flatMap sites).head? = some first := by simp [whole, hinner]
    rw [hhead] at h
    obtain rfl := Option.some.inj (Option.filter_eq_some_iff.mp h).1
    exact List.mem_cons_self

/-- What is left on the stacks once the chains of a suite are closed. -/
theorem Kept.exists_of_closeChains (h : b.Kept s) {t t' : ParseState} {m : Stacks}
    (hrun : StateT.run b.asStacks.closeChains t = .ok (some m, t')) :
    m.ifStack = b.outerIfs ∧ m.tryStack = b.outerTries := by
  rcases h.sound.closeChains_asStacks h.indexes with ⟨e, -, hclose⟩ | ⟨inner, hchain, -, -, hclose⟩
  · rw [hclose] at hrun
    cases hrun
  · rw [hclose] at hrun
    cases hrun
    have hifs : inner.ifSites = [] := by rw [Block.ifSites, hchain]
    have htries : inner.trySites = [] := by rw [Block.trySites, hchain]
    constructor
    · simp [asStacks, whole, hifs, outerIfs]
    · simp [asStacks, whole, htries, outerTries]

/-- The block around the innermost one has the clause that the suite is read for. -/
theorem exists_of_head?_callers {c : Caller} (h : b.asStacks.callers.head? = some c) :
    ∃ e outer, b.outer = e :: outer ∧ c.task = e.clause.task e.block.width := by
  cases houter : b.outer with
  | nil =>
    rw [asStacks, houter] at h
    cases h
  | cons e outer =>
    rw [asStacks, houter] at h
    cases h
    exact ⟨e, outer, rfl, rfl⟩

/-- **What open blocks tell is in step.** -/
theorem Kept.inStep (h : b.Kept s) : b.asStacks.InStep s.arena := by
  have hifs := depths_sublist Block.ifSites_sublist b.whole
  have htries := depths_sublist Block.trySites_sublist b.whole
  rw [map_width_whole] at hifs htries
  constructor
  case indents_eq =>
    rw [bodies_asStacks, List.map_map]
    exact b.map_width_whole.symm
  case innermost => rfl
  case indents => exact h.sound.wider
  case ifDepths => exact h.sound.wider.sublist hifs
  case tryDepths => exact h.sound.wider.sublist htries
  case bounded =>
    intro site hsite
    have hwidth : site.depth ∈ b.widths := by
      rcases List.mem_append.mp hsite with hsite | hsite
      · exact hifs.subset (List.mem_map_of_mem hsite)
      · exact htries.subset (List.mem_map_of_mem hsite)
    exact ⟨h.sound.le_width hwidth, hwidth⟩
  case apart =>
    intro x hx y hy hdepth
    obtain ⟨block, hblock, hx⟩ := List.mem_flatMap.mp hx
    obtain ⟨block', hblock', hy⟩ := List.mem_flatMap.mp hy
    rw [depth_of_mem_ifSites hx, depth_of_mem_trySites hy] at hdepth
    obtain rfl := h.sound.eq_of_width hblock hblock' hdepth
    -- both chains would be open in one block, which has one open statement at most
    rw [Block.trySites_eq_nil_of_mem_ifSites hx] at hy
    cases hy
  case ifAttached =>
    intro site hsite
    obtain ⟨block, hblock, hsite⟩ := List.mem_flatMap.mp hsite
    obtain ⟨n, hn, htag, hid⟩ := Block.exists_node_of_mem_ifSites hsite
    have hholds := h.indexes.holds (mem_nodes_of_mem_whole hblock hn)
    rw [htag, hid] at hholds
    refine ⟨hholds, block.asBody, ?_, (depth_of_mem_ifSites hsite).symm,
      Block.endsWith_of_mem_ifSites hsite⟩
    rw [bodies_asStacks]
    exact List.mem_map_of_mem hblock
  case tryAttached =>
    intro site hsite
    obtain ⟨block, hblock, hsite⟩ := List.mem_flatMap.mp hsite
    obtain ⟨n, hn, htag, hid⟩ := Block.exists_node_of_mem_trySites hsite
    have hholds := h.indexes.holds (mem_nodes_of_mem_whole hblock hn)
    rw [htag, hid] at hholds
    refine ⟨hholds, block.asBody, ?_, (depth_of_mem_trySites hsite).symm,
      Block.endsWith_of_mem_trySites hsite⟩
    rw [bodies_asStacks]
    exact List.mem_map_of_mem hblock
  case ifExtends =>
    intro site hopen
    exact Block.endsWith_of_mem_ifSites (h.sound.mem_of_filter_head? _ depth_of_mem_ifSites hopen)
  case tryExtends =>
    intro site hopen
    exact Block.endsWith_of_mem_trySites (h.sound.mem_of_filter_head? _ depth_of_mem_trySites hopen)
  case ifReplaces =>
    intro c site hc hsite t m t' hrun
    obtain ⟨e, outer, houter, htask⟩ := exists_of_head?_callers hc
    rw [htask] at hsite
    rw [(h.exists_of_closeChains hrun).1, outerIfs, houter, List.map_cons, List.flatMap_cons,
      Enclosing.whole, Block.ifSites_holding _ hsite]
    rfl
  case tryReplaces =>
    intro c site hc hsite t m t' hrun
    obtain ⟨e, outer, houter, htask⟩ := exists_of_head?_callers hc
    rw [htask] at hsite
    rw [(h.exists_of_closeChains hrun).2, outerTries, houter, List.map_cons, List.flatMap_cons,
      Enclosing.whole, Block.trySites_holding _ hsite]
    rfl

end Blocks

namespace Stacks

/-- What is reached after some steps, if the reading does not end before. -/
def after : Nat → Stacks → Parse (Option Stacks)
  | 0, m => return some m
  | n + 1, m => do
    match ← m.step with
    | .again m => m.after n
    | .done _ => return none

theorem Reached.after {source : Text} {m m' : Stacks} {s s' : ParseState} (h : Reached source m s)
    (n : Nat) (hrun : StateT.run (m.after n) s = .ok (some m', s')) : Reached source m' s' := by
  induction n generalizing m s with
  | zero =>
    cases hrun
    exact h
  | succ n ih =>
    obtain ⟨next, s₁, hstep, hrun⟩ := exists_of_run_bind hrun
    cases next with
    | again m₁ => exact ih (h.step hstep) hrun
    | done result => cases hrun

/-- **The stacks stay in step.** Whenever a token is looked at in the reading of a program, the
stacks are in step with the bodies that are read, and the reading goes on without going astray; and
the program is read as block by block. -/
theorem reached_inStep (source : Text) :
    (∀ m s, Reached source m s →
      m.InStep s.arena ∧ ∀ s', StateT.run m.step s ≠ .ok (.done none, s')) ∧
      StateT.run program (Parse.start source {}) =
        StateT.run (some <$> Parse.module) (Parse.start source {}) := by
  refine ⟨fun m s h => ?_, program_eq (proper_start source {})⟩
  obtain ⟨b, hkept, rfl⟩ := h.exists_blocks
  refine ⟨hkept.inStep, fun s' hrun => ?_⟩
  obtain ⟨next, -, hview⟩ := hkept.exists_of_run_step hrun
  cases next with
  | again b' => cases hview
  | done body => cases hview

/-- A `try` in a loop in the last clause of a conditional in a handler. -/
def nestedClauses : Text :=
  "try: pass\nexcept e:\n if a: pass\n elif b:\n  while c:\n   try: pass\n   except: pass\n"

theorem reached_inStep_nestedClauses :
    ∃ m s, Reached nestedClauses m s ∧ m.InStep s.arena ∧ m.indents = [3, 2, 1, 0] ∧
      m.ifStack = [⟨5, 1⟩] ∧ m.tryStack = [⟨9, 3⟩, ⟨1, 0⟩] := by
  obtain ⟨⟨reached, s⟩, hrun, hsites⟩ :
      ∃ x, StateT.run (start.after 13) (Parse.start nestedClauses {}) = .ok x ∧
        (x.1.any fun m => decide (m.indents = [3, 2, 1, 0] ∧ m.ifStack = [⟨5, 1⟩] ∧
          m.tryStack = [⟨9, 3⟩, ⟨1, 0⟩])) = true :=
    exists_of_any (by decide +kernel)
  obtain ⟨m, rfl, hsites⟩ := (Option.any_eq_true _ _).mp hsites
  have hreached := Reached.start.after 13 hrun
  exact ⟨m, s, hreached, ((reached_inStep nestedClauses).1 m s hreached).1,
    of_decide_eq_true hsites⟩

end Stacks

end Toolchain

import Mathlib.Data.List.Induction
import Mathlib.Data.List.Perm.Subperm
import Toolchain.Tree.Arena

/-!
# The nodes of a tree and of an arena

A tree fresh from the parser carries the number and the position of each of its nodes. An arena
indexes some nodes if no two of them have one number and each stands in the slot of its number, with
its kind and its position. Registering a node makes one more node that the arena indexes, and which
nodes are looked at, and in which order, does not matter.

## Main definitions

* `TreeNode`: a node with its kind, its number and its position
* `Expr.nodes`, `Stmt.nodes`, `Root.nodes`: the nodes of an expression, of a statement and of a
  program
* `Stmt.subtrees`: a statement with the statements inside it
* `Arena.Filled`: an arena with the nodes that were registered in it, in order
* `Arena.Indexes`: an arena indexes some nodes

## Main results

* `Arena.Filled.numbered`: the node in slot `i` has the number `i`
* `Arena.total_eq_size`: every node is of exactly one class
* `Arena.Indexes.register`, `Arena.Indexes.subperm`: what an arena indexes after one more node
-/

namespace Toolchain

/-- A node of a tree: its kind, its number and its position. -/
structure TreeNode where
  tag : NodeTag
  mark : Mark
  deriving DecidableEq, Repr

/-- What an arena knows of a node. -/
def TreeNode.entry (n : TreeNode) : ArenaEntry := ⟨n.tag, n.mark.pos⟩

/-- The node of a parameter. -/
def Param.node (p : Param Mark) : TreeNode := ⟨.arg, p.mark⟩

/-- The node of a name in an import. -/
def Alias.node (a : Alias Mark) : TreeNode := ⟨.importName, a.mark⟩

mutual

/-- The nodes of an expression. -/
def Expr.nodes (e : Expr Mark) : List TreeNode :=
  ⟨e.tag, e.mark⟩ ::
    match e with
    | .boolOp _ _ values => Expr.nodesAll values
    | .binOp _ left _ right => left.nodes ++ right.nodes
    | .unaryOp _ _ operand => operand.nodes
    | .lambda _ ⟨params, defaults, vararg, kwarg⟩ body =>
      (params ++ vararg.toList ++ kwarg.toList).map Param.node ++
        Expr.nodesAll defaults ++ body.nodes
    | .dict _ items => Expr.nodesItems items
    | .compare _ left rest => left.nodes ++ Expr.nodesRest rest
    | .call _ func args keywords =>
      func.nodes ++ Expr.nodesAll args ++ Expr.nodesKeywords keywords
    | .constant .. | .name .. => []
    | .attr _ value _ _ => value.nodes
    | .subscript _ value part _ => value.nodes ++ part.nodes
    | .list _ elts _ | .tuple _ elts _ => Expr.nodesAll elts
    | .slice _ lower upper step =>
      Expr.nodesOption lower ++ Expr.nodesOption upper ++ Expr.nodesOption step
    | .index _ value => value.nodes
    | .formatted _ value _ spec => value.nodes ++ Expr.nodesOption spec

/-- The nodes of some expressions. -/
def Expr.nodesAll : List (Expr Mark) → List TreeNode
  | [] => []
  | e :: es => e.nodes ++ Expr.nodesAll es

/-- The nodes of an expression that may be missing. -/
def Expr.nodesOption : Option (Expr Mark) → List TreeNode
  | none => []
  | some e => e.nodes

/-- The nodes of the items of a dictionary. -/
def Expr.nodesItems : List (Expr Mark × Expr Mark) → List TreeNode
  | [] => []
  | (key, value) :: rest => key.nodes ++ value.nodes ++ Expr.nodesItems rest

/-- The nodes of the operands of a chain of comparisons. -/
def Expr.nodesRest : List (CompareOp × Expr Mark) → List TreeNode
  | [] => []
  | (_, e) :: rest => e.nodes ++ Expr.nodesRest rest

/-- The nodes of keyword arguments, each with its value. -/
def Expr.nodesKeywords : List (KeywordArg Mark (Expr Mark)) → List TreeNode
  | [] => []
  | ⟨m, _, value⟩ :: rest => ⟨.keyword, m⟩ :: value.nodes ++ Expr.nodesKeywords rest

end

/-- The nodes of a signature: those of the parameters and those of the defaults. -/
def Signature.nodes (s : Signature Mark (Expr Mark)) : List TreeNode :=
  (s.params ++ s.vararg.toList ++ s.kwarg.toList).map Param.node ++ Expr.nodesAll s.defaults

mutual

/-- The nodes of a statement. -/
def Stmt.nodes (s : Stmt Mark) : List TreeNode :=
  ⟨s.tag, s.mark⟩ ::
    match s with
    | .functionDef _ _ signature body => signature.nodes ++ Stmt.nodesAll body
    | .classDef _ _ bases body => Expr.nodesAll bases ++ Stmt.nodesAll body
    | .ret _ value => Expr.nodesOption value
    | .delete _ targets => Expr.nodesAll targets
    | .assign _ targets value => Expr.nodesAll targets ++ value.nodes
    | .augAssign _ target _ value => target.nodes ++ value.nodes
    | .forLoop _ target iter body => target.nodes ++ iter.nodes ++ Stmt.nodesAll body
    | .whileLoop _ test body => test.nodes ++ Stmt.nodesAll body
    | .ifElse _ test body orelse => test.nodes ++ Stmt.nodesAll body ++ Stmt.nodesAll orelse
    | .raise _ exc cause => Expr.nodesOption exc ++ Expr.nodesOption cause
    | .tryExcept _ body handlers orelse final =>
      Stmt.nodesAll body ++ Stmt.nodesHandlers handlers ++ Stmt.nodesAll orelse ++
        Stmt.nodesAll final
    | .assert _ test msg => test.nodes ++ Expr.nodesOption msg
    | .imports _ names | .importFrom _ _ names _ => names.map Alias.node
    | .expr _ value => value.nodes
    | .pass _ | .breakLoop _ | .continueLoop _ => []

/-- The nodes of some statements. -/
def Stmt.nodesAll : List (Stmt Mark) → List TreeNode
  | [] => []
  | s :: ss => s.nodes ++ Stmt.nodesAll ss

/-- The nodes of some handlers. -/
def Stmt.nodesHandlers : List (Handler Mark (Expr Mark) (Stmt Mark)) → List TreeNode
  | [] => []
  | ⟨m, type, _, body⟩ :: rest =>
    ⟨.handler, m⟩ :: Expr.nodesOption type ++ Stmt.nodesAll body ++ Stmt.nodesHandlers rest

end

/-- The nodes of a program. -/
def Root.nodes : Root Mark → List TreeNode
  | .module m body => ⟨.module, m⟩ :: Stmt.nodesAll body
  | .expression m e => ⟨.expression, m⟩ :: e.nodes

/-! ## Statements inside statements -/

mutual

/-- A statement and the statements inside it. -/
def Stmt.subtrees {α : Type} (s : Stmt α) : List (Stmt α) :=
  s ::
    match s with
    | .functionDef _ _ _ body | .classDef _ _ _ body | .forLoop _ _ _ body
    | .whileLoop _ _ body => Stmt.subtreesAll body
    | .ifElse _ _ body orelse => Stmt.subtreesAll body ++ Stmt.subtreesAll orelse
    | .tryExcept _ body handlers orelse final =>
      Stmt.subtreesAll body ++ Stmt.subtreesHandlers handlers ++ Stmt.subtreesAll orelse ++
        Stmt.subtreesAll final
    | _ => []

/-- Some statements and the statements inside them. -/
def Stmt.subtreesAll {α : Type} : List (Stmt α) → List (Stmt α)
  | [] => []
  | s :: ss => s.subtrees ++ Stmt.subtreesAll ss

/-- The statements inside some handlers. -/
def Stmt.subtreesHandlers {α : Type} : List (Handler α (Expr α) (Stmt α)) → List (Stmt α)
  | [] => []
  | ⟨_, _, _, body⟩ :: rest => Stmt.subtreesAll body ++ Stmt.subtreesHandlers rest

end

theorem Stmt.mem_subtreesAll {α : Type} {x : Stmt α} {ss : List (Stmt α)} :
    x ∈ Stmt.subtreesAll ss ↔ ∃ s ∈ ss, x ∈ s.subtrees := by
  induction ss with
  | nil => simp [Stmt.subtreesAll]
  | cons s ss ih => simp [Stmt.subtreesAll, ih]

theorem Stmt.mem_subtrees_self {α : Type} (s : Stmt α) : s ∈ s.subtrees := by
  rw [Stmt.subtrees.eq_def]
  exact List.mem_cons_self

/-! ## Nodes of several subtrees -/

theorem Expr.nodesAll_append (es fs : List (Expr Mark)) :
    Expr.nodesAll (es ++ fs) = Expr.nodesAll es ++ Expr.nodesAll fs := by
  induction es with
  | nil => rfl
  | cons e es ih => simp [Expr.nodesAll, ih]

theorem Expr.nodesAll_reverse_perm (es : List (Expr Mark)) :
    (Expr.nodesAll es.reverse).Perm (Expr.nodesAll es) := by
  induction es with
  | nil => exact .rfl
  | cons e es ih =>
    rw [List.reverse_cons, Expr.nodesAll_append, Expr.nodesAll, Expr.nodesAll, Expr.nodesAll,
      List.append_nil]
    exact List.perm_append_comm.trans (ih.append_left _)

theorem Expr.nodesItems_append (is js : List (Expr Mark × Expr Mark)) :
    Expr.nodesItems (is ++ js) = Expr.nodesItems is ++ Expr.nodesItems js := by
  induction is with
  | nil => rfl
  | cons i is ih => simp [Expr.nodesItems, ih]

theorem Expr.nodesRest_append (ps qs : List (CompareOp × Expr Mark)) :
    Expr.nodesRest (ps ++ qs) = Expr.nodesRest ps ++ Expr.nodesRest qs := by
  induction ps with
  | nil => rfl
  | cons p ps ih => simp [Expr.nodesRest, ih]

theorem Expr.nodesKeywords_append (ks ls : List (KeywordArg Mark (Expr Mark))) :
    Expr.nodesKeywords (ks ++ ls) = Expr.nodesKeywords ks ++ Expr.nodesKeywords ls := by
  induction ks with
  | nil => rfl
  | cons k ks ih => simp [Expr.nodesKeywords, ih]

theorem Stmt.nodesAll_append (ss ts : List (Stmt Mark)) :
    Stmt.nodesAll (ss ++ ts) = Stmt.nodesAll ss ++ Stmt.nodesAll ts := by
  induction ss with
  | nil => rfl
  | cons s ss ih => simp [Stmt.nodesAll, ih]

theorem Stmt.nodesAll_reverse_perm (ss : List (Stmt Mark)) :
    (Stmt.nodesAll ss.reverse).Perm (Stmt.nodesAll ss) := by
  induction ss with
  | nil => exact .rfl
  | cons s ss ih =>
    rw [List.reverse_cons, Stmt.nodesAll_append, Stmt.nodesAll, Stmt.nodesAll, Stmt.nodesAll,
      List.append_nil]
    exact List.perm_append_comm.trans (ih.append_left _)

theorem Stmt.nodesHandlers_append (hs is : List (Handler Mark (Expr Mark) (Stmt Mark))) :
    Stmt.nodesHandlers (hs ++ is) = Stmt.nodesHandlers hs ++ Stmt.nodesHandlers is := by
  induction hs with
  | nil => rfl
  | cons h hs ih => simp [Stmt.nodesHandlers, ih]

theorem Expr.nodes_lambda (m : Mark) (s : Signature Mark (Expr Mark)) (body : Expr Mark) :
    (Expr.lambda m s body).nodes = ⟨.lambda, m⟩ :: (s.nodes ++ body.nodes) := by
  cases s
  rfl

mutual

/-- An expression made a target has the nodes it had before. -/
theorem Expr.nodes_withContext? {ctx : Context} {e place : Expr Mark}
    (h : e.withContext? ctx = some place) : place.nodes = e.nodes := by
  cases e with
  | name m id c =>
    obtain rfl := Option.some.inj h
    simp [Expr.nodes, Expr.tag, Expr.mark]
  | attr m value label c =>
    obtain rfl := Option.some.inj h
    simp [Expr.nodes, Expr.tag, Expr.mark]
  | subscript m value part c =>
    obtain rfl := Option.some.inj h
    simp [Expr.nodes, Expr.tag, Expr.mark]
  | list m elts c =>
    simp only [Expr.withContext?, Option.map_eq_some_iff] at h
    obtain ⟨places, hplaces, rfl⟩ := h
    simp [Expr.nodes, Expr.tag, Expr.mark, Expr.nodesAll_withContexts? hplaces]
  | tuple m elts c =>
    simp only [Expr.withContext?, Option.map_eq_some_iff] at h
    obtain ⟨places, hplaces, rfl⟩ := h
    simp [Expr.nodes, Expr.tag, Expr.mark, Expr.nodesAll_withContexts? hplaces]
  | _ => cases h

/-- Expressions made targets have the nodes they had before. -/
theorem Expr.nodesAll_withContexts? {ctx : Context} {es places : List (Expr Mark)}
    (h : Expr.withContexts? ctx es = some places) : Expr.nodesAll places = Expr.nodesAll es := by
  cases es with
  | nil =>
    obtain rfl := Option.some.inj h
    rfl
  | cons e es =>
    simp only [Expr.withContexts?] at h
    split at h
    · next place hplace =>
      obtain ⟨rest, hrest, rfl⟩ := Option.map_eq_some_iff.mp h
      rw [Expr.nodesAll, Expr.nodesAll, Expr.nodes_withContext? hplace,
        Expr.nodesAll_withContexts? hrest]
    · cases h

end

namespace Arena

variable {a : Arena} {ns : List TreeNode}

/-! ## Filling an arena -/

/-- An arena filled by registering nodes, with the nodes as they were handed out. -/
inductive Filled : List TreeNode → Arena → Prop where
  | empty : Filled [] {}
  | register {made : List TreeNode} {a : Arena} (h : Filled made a) (tag : NodeTag)
      (pos : Position) :
      Filled (made ++ [⟨tag, (a.register tag pos).1⟩]) (a.register tag pos).2

/-- Nothing but registering fills an arena. -/
theorem exists_filled (a : Arena) : ∃ made, Filled made a := by
  obtain ⟨⟨entries⟩⟩ := a
  induction entries using List.reverseRecOn with
  | nil => exact ⟨[], .empty⟩
  | append_singleton entries e ih =>
    obtain ⟨made, h⟩ := ih
    have hregister := h.register e.tag e.pos
    rw [Arena.register, List.push_toArray] at hregister
    exact ⟨_, hregister⟩

namespace Filled

variable {made : List TreeNode}

theorem length_eq (h : Filled made a) : made.length = a.size := by
  induction h with
  | empty => rfl
  | register h tag pos ih => simp [ih]

/-- The node in a slot has the number of the slot. -/
theorem numbered (h : Filled made a) {i : Nat} {n : TreeNode} (hn : made[i]? = some n) :
    n.mark.id = i := by
  induction h with
  | empty => cases hn
  | @register made a h tag pos ih =>
    rcases Nat.lt_trichotomy i made.length with hlt | rfl | hgt
    · rw [List.getElem?_append_left hlt] at hn
      exact ih hn
    · rw [List.getElem?_concat_length] at hn
      obtain rfl := Option.some.inj hn
      rw [register_id, h.length_eq]
    · rw [List.getElem?_eq_none (by rw [List.length_append]; exact hgt)] at hn
      cases hn

/-- A slot knows the kind and the position of its node. -/
theorem entries_eq (h : Filled made a) : a.entries.toList = made.map TreeNode.entry := by
  induction h with
  | empty => rfl
  | register h tag pos ih => simp [Arena.register, TreeNode.entry, ih]

/-- A node is looked up under its number. -/
theorem get?_eq (h : Filled made a) (i : Nat) : a.get? i = made[i]?.map TreeNode.entry := by
  rw [Arena.get?, if_neg (Int.not_lt.mpr (Int.natCast_nonneg i)), Int.toNat_natCast,
    ← Array.getElem?_toList, h.entries_eq, List.getElem?_map]

/-- The nodes of a class are counted. -/
theorem count_eq (h : Filled made a) (c : NodeClass) :
    a.count c = made.countP fun n => n.tag.nodeClass == c := by
  rw [Arena.count, ← Array.countP_toList, h.entries_eq, List.countP_map]
  rfl

end Filled

/-- Every node is counted in exactly one class. -/
theorem total_eq_size (a : Arena) : a.total = a.size := by
  obtain ⟨made, h⟩ := a.exists_filled
  rw [total, h.count_eq, h.count_eq, h.count_eq, h.count_eq, ← h.length_eq]
  clear h
  induction made with
  | nil => rfl
  | cons n made ih =>
    simp only [List.countP_cons, List.length_cons]
    cases hclass : n.tag.nodeClass <;> simp <;> omega

/-! ## Indexing -/

/-- An arena indexes some nodes: no two of them have one number, and each stands in the slot of its
number. -/
structure Indexes (a : Arena) (ns : List TreeNode) : Prop where
  nodup : (ns.map fun n => n.mark.id).Nodup
  found : ∀ n ∈ ns, a.entries[n.mark.id]? = some n.entry

theorem indexes_nil (a : Arena) : a.Indexes [] := ⟨.nil, nofun⟩

/-- Fewer nodes are indexed too, in any order. -/
theorem Indexes.subperm {ms : List TreeNode} (h : a.Indexes ns) (hms : ms.Subperm ns) :
    a.Indexes ms := by
  obtain ⟨ls, hperm, hsub⟩ := hms
  constructor
  · exact ((hperm.map _).nodup_iff).mp (h.nodup.sublist (hsub.map _))
  · intro n hn
    exact h.found n (hsub.subset (hperm.mem_iff.mpr hn))

theorem Indexes.lt_size (h : a.Indexes ns) {n : TreeNode} (hn : n ∈ ns) : n.mark.id < a.size :=
  (Array.getElem?_eq_some_iff.mp (h.found n hn)).1

theorem Indexes.ne_of_mem {n m : TreeNode} (h : a.Indexes (n :: ns)) (hm : m ∈ ns) :
    m.mark.id ≠ n.mark.id := by
  intro hid
  have hnodup := List.nodup_cons.mp h.nodup
  exact hnodup.1 (List.mem_map.mpr ⟨m, hm, hid⟩)

/-- A node that is registered is indexed beside those before it. -/
theorem Indexes.register (h : a.Indexes ns) (tag : NodeTag) (pos : Position) :
    (a.register tag pos).2.Indexes (⟨tag, (a.register tag pos).1⟩ :: ns) := by
  constructor
  · rw [List.map_cons, List.nodup_cons]
    refine ⟨fun hmem => ?_, h.nodup⟩
    obtain ⟨n, hn, hid⟩ := List.mem_map.mp hmem
    have hlt := h.lt_size hn
    rw [hid] at hlt
    exact Nat.lt_irrefl _ hlt
  · intro n hn
    rcases List.mem_cons.mp hn with rfl | hn
    · exact Array.getElem?_push_size
    · have hlt : n.mark.id < a.entries.size := h.lt_size hn
      exact (Array.getElem?_push_lt hlt).trans
        ((Array.getElem?_eq_getElem hlt).symm.trans (h.found n hn))

/-- A node that is indexed is the one that was registered in the slot of its number. -/
theorem Indexes.getElem?_filled {made : List TreeNode} (h : a.Indexes ns) (hfilled : Filled made a)
    {n : TreeNode} (hn : n ∈ ns) : made[n.mark.id]? = some n := by
  have hfound := h.found n hn
  rw [← Array.getElem?_toList, hfilled.entries_eq, List.getElem?_map,
    Option.map_eq_some_iff] at hfound
  obtain ⟨m, hm, hentry⟩ := hfound
  have hid := hfilled.numbered hm
  obtain ⟨tag, id, pos⟩ := m
  obtain ⟨tag', id', pos'⟩ := n
  cases hentry
  cases hid
  exact hm

end Arena

end Toolchain

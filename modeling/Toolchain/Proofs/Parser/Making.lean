import Toolchain.Parser.Expression
import Toolchain.Proofs.Outcome
import Toolchain.Proofs.Tree.Nodes

/-!
# The nodes that the grammar of expressions makes

A rule of the grammar turns the nodes of what it is given into those of its result: whatever other
nodes there are, the arena still indexes the nodes of the result beside them. Every node of the
result is therefore one of those that were given, used at most once, or one that the rule has
registered. A node that is registered and not used is left behind, as is the name of a keyword
argument.

## Main definitions

* `Parse.Turns`: a rule turns some nodes into those of its result
* `Parse.Makes`: a rule needs no nodes for those of its result
* `Parse.Idle`: a rule registers no node

## Main results

* `Parse.Turns.bind`, `Parse.Makes.bind`: a rule after another one
* `Parse.turns_iterate`: a rule that repeats a step, by the nodes that the loop holds
* `Parse.makes_expression`, `Parse.makes_operand`: expressions and operands of every depth
-/

namespace Toolchain.Parse

open Expr Outcome

variable {α β σ : Type} {given others : List TreeNode} {p : Parse α} {k : α → Parse β}
  {f : α → List TreeNode} {g : β → List TreeNode}

/-- A rule turns the nodes it is given into those of its result: if the arena indexes the former
beside others, then after the rule it indexes the latter beside the others. -/
def Turns (given : List TreeNode) (p : Parse α) (f : α → List TreeNode) : Prop :=
  ∀ others s r s', s.arena.Indexes (given ++ others) → StateT.run p s = .ok (r, s') →
    s'.arena.Indexes (f r ++ others)

/-- A rule makes all nodes of its result. -/
abbrev Makes (p : Parse α) (f : α → List TreeNode) : Prop := Turns [] p f

/-- A rule registers no node. -/
def Idle (p : Parse α) : Prop :=
  ∀ s r s', StateT.run p s = .ok (r, s') → s'.arena = s.arena

/-- The nodes that a loop holds after a step, or those of its result. -/
def Next.nodes (f : σ → List TreeNode) (g : β → List TreeNode) : Next σ β → List TreeNode
  | .again s => f s
  | .done b => g b

/-- No node is used more often than it is there. -/
theorem subperm_of_count {ms ns : List TreeNode} (h : ∀ x, ms.count x ≤ ns.count x) :
    ms.Subperm ns :=
  List.subperm_ext_iff.mpr fun x _ => h x

/-! ## Rules after rules -/

theorem exists_of_run_bind {s s' : ParseState} {r : β} (h : StateT.run (p >>= k) s = .ok (r, s')) :
    ∃ a s₁, StateT.run p s = .ok (a, s₁) ∧ StateT.run (k a) s₁ = .ok (r, s') := by
  rw [StateT.run_bind, bind_eq_ok_iff] at h
  obtain ⟨⟨a, s₁⟩, hp, hk⟩ := h
  exact ⟨a, s₁, hp, hk⟩

theorem Turns.bind (hp : Turns given p f) (hk : ∀ a, Turns (f a) (k a) g) :
    Turns given (p >>= k) g := by
  intro others s r s' hs hrun
  obtain ⟨a, s₁, hrun, hrun'⟩ := exists_of_run_bind hrun
  exact hk a others s₁ r s' (hp others s a s₁ hs hrun) hrun'

/-- A rule leaves other nodes as they are. -/
theorem Turns.beside (hp : Turns given p f) (rest : List TreeNode) :
    Turns (given ++ rest) p fun a => f a ++ rest := by
  intro others s r s' hs hrun
  rw [List.append_assoc] at hs ⊢
  exact hp (rest ++ others) s r s' hs hrun

theorem Makes.bind (hp : Makes p f) (hk : ∀ a, Turns (f a ++ given) (k a) g) :
    Turns given (p >>= k) g :=
  Turns.bind (hp.beside given) hk

theorem Idle.bind (hp : Idle p) (hk : ∀ a, Turns given (k a) g) : Turns given (p >>= k) g := by
  intro others s r s' hs hrun
  obtain ⟨a, s₁, hrun, hrun'⟩ := exists_of_run_bind hrun
  refine hk a others s₁ r s' ?_ hrun'
  rw [hp s a s₁ hrun]
  exact hs

theorem Idle.andThen {k : α → Parse β} (hp : Idle p) (hk : ∀ a, Idle (k a)) : Idle (p >>= k) := by
  intro s r s' hrun
  obtain ⟨a, s₁, hrun, hrun'⟩ := exists_of_run_bind hrun
  rw [hk a s₁ r s' hrun', hp s a s₁ hrun]

/-- More nodes may be given, and fewer used. -/
theorem Turns.imp {given' : List TreeNode} {f' : α → List TreeNode} (hp : Turns given p f)
    (hgiven : given.Subperm given') (hf : ∀ a, (f' a).Subperm (f a)) : Turns given' p f' := by
  intro others s r s' hs hrun
  have hgiven' : (given ++ others).Subperm (given' ++ others) :=
    (List.subperm_append_right others).mpr hgiven
  have hf' : (f' r ++ others).Subperm (f r ++ others) :=
    (List.subperm_append_right others).mpr (hf r)
  exact (hp others s r s' (hs.subperm hgiven') hrun).subperm hf'

theorem Turns.of_subperm {given' : List TreeNode} (hp : Turns given p f)
    (hgiven : given.Subperm given') : Turns given' p f :=
  hp.imp hgiven fun _ => .refl _

theorem turns_pure {a : α} (h : (f a).Subperm given) : Turns given (pure a) f := by
  rintro others s r s' hs ⟨⟩
  exact hs.subperm ((List.subperm_append_right others).mpr h)

/-- A value uses no node more often than it was given. -/
theorem turns_counted {a : α} (h : ∀ x, (f a).count x ≤ given.count x) :
    Turns given (pure a) f :=
  turns_pure (subperm_of_count h)

theorem turns_pure_bind {a : α} (h : Turns given (k a) g) : Turns given (pure a >>= k) g := by
  rwa [pure_bind]

theorem Turns.map {h : α → β} (hp : Turns given p fun a => g (h a)) : Turns given (h <$> p) g := by
  rw [← bind_pure_comp]
  exact Turns.bind hp fun a => turns_pure (.refl _)

theorem turns_throw (e : Fault) : Turns given (throw e : Parse α) f := by
  rintro others s r s' hs ⟨⟩

theorem Turns.ite {c : Prop} [Decidable c] {q : Parse α} (hp : Turns given p f)
    (hq : Turns given q f) : Turns given (if c then p else q) f := by
  split
  · exact hp
  · exact hq

theorem Idle.ite {c : Prop} [Decidable c] {q : Parse α} (hp : Idle p) (hq : Idle q) :
    Idle (if c then p else q) := by
  split
  · exact hp
  · exact hq

/-! ## Reading tokens and making nodes -/

theorem idle_pure (a : α) : Idle (pure a : Parse α) := by
  rintro s r s' ⟨⟩
  rfl

theorem Idle.map (hp : Idle p) (h : α → β) : Idle (h <$> p) := by
  rw [← bind_pure_comp]
  exact hp.andThen fun _ => idle_pure _

theorem idle_peek : Idle peek := by
  rintro s r s' ⟨⟩
  rfl

theorem idle_peekKind : Idle peekKind := idle_peek.andThen fun _ => idle_pure _

theorem idle_advance : Idle advance := by
  refine idle_peek.andThen fun token => ?_
  split
  · exact idle_pure _
  · rintro s r s' ⟨⟩
    rfl

theorem idle_check (kind : TokenKind) : Idle (check kind) := idle_peek.andThen fun _ => idle_pure _

theorem idle_accept (kind : TokenKind) : Idle (accept kind) := by
  exact (idle_check kind).andThen fun b =>
    .ite (idle_advance.andThen fun _ => idle_pure _) (idle_pure _)

theorem idle_throw (e : Fault) : Idle (throw e : Parse α) := by
  rintro s r s' ⟨⟩

theorem idle_unexpected (token : Token) : Idle (unexpected token : Parse α) := by
  unfold unexpected
  extract_lets shown message
  split
  · rintro s r s' ⟨⟩
  · exact idle_throw _

theorem idle_expect (kind : TokenKind) : Idle (expect kind) := by
  exact (idle_check kind).andThen fun b =>
    .ite idle_advance (idle_peek.andThen fun _ => idle_unexpected _)

theorem turns_unexpected (token : Token) : Turns given (unexpected token : Parse α) f := by
  unfold unexpected
  extract_lets shown message
  split
  · rintro others s r s' hs ⟨⟩
  · exact turns_throw _

theorem makes_register (tag : NodeTag) (pos : Position) :
    Makes (register tag pos) fun m => [⟨tag, m⟩] := by
  rintro others s r s' hs ⟨⟩
  exact hs.register tag pos

/-- A rule that makes a node of the nodes that were given. -/
theorem turns_made (tag : NodeTag) (pos : Position) {h : Mark → α}
    (hcount : ∀ m x, (f (h m)).count x ≤ ((⟨tag, m⟩ : TreeNode) :: given).count x) :
    Turns given (do return h (← register tag pos)) f :=
  (makes_register tag pos).bind fun m => turns_counted (hcount m)

/-- A loop holds nodes, and each step turns those it holds into those it goes on with. -/
theorem turns_iterateWithin {step : σ → Parse (Next σ β)} {held : σ → List TreeNode}
    (hstep : ∀ s, Turns (held s) (step s) (Next.nodes held g)) (n : Nat) (s : σ) :
    Turns (held s) (iterateWithin step n s) g := by
  induction n generalizing s with
  | zero => exact idle_peek.bind fun _ => turns_unexpected _
  | succ n ih =>
    refine (hstep s).bind fun next => ?_
    cases next with
    | again s => exact ih s
    | done b => exact turns_pure (.refl _)

theorem turns_iterate {step : σ → Parse (Next σ β)} (held : σ → List TreeNode)
    (hstep : ∀ s, Turns (held s) (step s) (Next.nodes held g)) (s : σ) :
    Turns (held s) (iterate step s) g := by
  intro others t r t' ht hrun
  exact turns_iterateWithin hstep _ s others t r t' ht hrun

theorem idle_iterate {step : σ → Parse (Next σ β)} (hstep : ∀ s, Idle (step s)) (s : σ) :
    Idle (iterate step s) := by
  have hwithin (n : Nat) (s : σ) : Idle (iterateWithin step n s) := by
    induction n generalizing s with
    | zero => exact idle_peek.andThen fun _ => idle_unexpected _
    | succ n ih =>
      refine (hstep s).andThen fun next => ?_
      cases next with
      | again s => exact ih s
      | done b => exact idle_pure _
  exact fun t r t' hrun => hwithin _ s t r t' hrun

/-! ## Operators -/

attribute [local simp] Expr.nodes Expr.nodesAll Expr.nodesOption Expr.nodesItems Expr.nodesRest
  Expr.nodesKeywords Expr.tag Expr.mark Expr.nodesAll_append Expr.nodesItems_append
  Expr.nodesRest_append Expr.nodesKeywords_append Expr.nodes_lambda Signature.nodes Next.nodes
  List.count_append List.count_cons

variable {expr : Parse MarkedExpr}

theorem makes_exprList (he : Makes expr Expr.nodes) : Makes (exprList expr) Expr.nodes := by
  refine idle_peek.bind fun first => he.bind fun head => (idle_check _).bind fun b => ?_
  split
  · refine Turns.bind (f := nodesAll) (turns_iterate nodesAll (fun elts => ?_) [head])
      fun elts => ?_
    · refine (idle_accept _).bind fun b => ?_
      split
      · exact idle_peekKind.bind fun kind =>
          .ite (he.bind fun e => turns_pure (.refl _)) (turns_pure (.refl _))
      · exact turns_pure (.refl _)
    · refine turns_made _ _ fun m x => ?_
      have hcount := (nodesAll_reverse_perm elts).count_eq x
      simp [hcount]
  · exact turns_counted fun x => by simp

theorem idle_operator? : Idle operator? := by
  refine idle_peekKind.andThen fun kind => ?_
  split
  case h_6 =>
    exact idle_advance.andThen fun _ => (idle_accept _).andThen fun b =>
      .ite (idle_pure _) (idle_pure _)
  case h_7 => exact idle_advance.andThen fun _ => (idle_expect _).andThen fun _ => idle_pure _
  case h_8 => exact idle_pure _
  all_goals exact idle_advance.andThen fun _ => idle_pure _

/-- A fold makes one node of two operands, or puts the right one into the left one. -/
theorem turns_fold (pos : Position) (left : MarkedExpr) (folded : Bool) (right : MarkedExpr)
    (op : Infix) : Turns (right.nodes ++ left.nodes) (fold pos left folded right op)
      Expr.nodes := by
  cases op with
  | binary op =>
    refine turns_made _ _ fun m x => ?_
    simp
    omega
  | connective op =>
    have hpair : Turns (right.nodes ++ left.nodes)
        (do return .boolOp (← register .boolOp pos) op [left, right] : Parse MarkedExpr)
          Expr.nodes := by
      refine turns_made _ _ fun m x => ?_
      simp
      omega
    simp only [fold]
    split
    · split
      · refine turns_counted fun x => ?_
        simp
        omega
      · exact hpair
    · exact hpair
  | comparison op =>
    simp only [fold]
    split
    · refine turns_counted fun x => ?_
      simp
      omega
    · refine turns_made _ _ fun m x => ?_
      simp
      omega

theorem turns_operators (he : Makes expr Expr.nodes) (pos : Position) (left : MarkedExpr) :
    Turns left.nodes (operators expr pos left) Expr.nodes := by
  refine turns_iterate (fun p : MarkedExpr × Bool => p.1.nodes) ?_ (left, false)
  rintro ⟨left, folded⟩
  refine idle_operator?.bind fun op => ?_
  cases op with
  | some op =>
    refine he.bind fun right => (turns_fold pos left folded right op).bind fun e => ?_
    exact turns_pure (.refl _)
  | none => exact turns_pure (.refl _)

/-! ## Signatures -/

theorem makes_parameters (he : Makes expr Expr.nodes) (stop : TokenKind) :
    Makes (parameters expr stop) Signature.nodes := by
  have hparam : Makes (do
      let name ← expect .identifier
      return ⟨← register .arg name.pos, name.value⟩ : Parse (Param Mark)) fun p => [p.node] :=
    (idle_expect _).bind fun name => (makes_register _ _).bind fun m => turns_pure (.refl _)
  refine turns_iterate Signature.nodes (fun s => ?_) {}
  refine (idle_check _).bind fun b => ?_
  split
  · exact turns_pure (.refl _)
  refine idle_peek.bind fun token => ?_
  extract_lets parameter finish
  have hfinish (s : Signature Mark MarkedExpr) :
      Turns s.nodes (finish s) (Next.nodes Signature.nodes Signature.nodes) := by
    exact (idle_accept _).bind fun b => .ite (turns_pure (.refl _)) (turns_pure (.refl _))
  split
  · next hvararg hkwarg =>
    refine idle_advance.bind fun _ => hparam.bind fun p => turns_pure_bind ?_
    refine (hfinish _).of_subperm (subperm_of_count fun x => ?_)
    simp [hvararg, hkwarg]
    omega
  · next hkwarg =>
    refine idle_advance.bind fun _ => hparam.bind fun p => turns_pure_bind ?_
    refine (hfinish _).of_subperm (subperm_of_count fun x => ?_)
    simp [hkwarg]
    omega
  · refine hparam.bind fun p => (idle_accept _).bind fun b => ?_
    split
    · refine he.bind fun default => turns_pure_bind ?_
      refine (hfinish _).of_subperm (subperm_of_count fun x => ?_)
      simp
      omega
    · split
      · refine turns_pure_bind ((hfinish _).of_subperm (subperm_of_count fun x => ?_))
        simp
        omega
      · exact (turns_throw _).bind (f := Signature.nodes) hfinish
  · exact (turns_unexpected _).bind (f := Signature.nodes) hfinish

theorem makes_lambda (he : Makes expr Expr.nodes) : Makes (lambda expr) Expr.nodes := by
  refine idle_advance.bind fun word => (makes_parameters he _).bind fun s => ?_
  refine (idle_expect _).bind fun _ => he.bind fun body => turns_made _ _ fun m x => ?_
  simp
  omega

/-! ## F-strings -/

/-- The nodes of a field are made in the arena of the whole text. -/
theorem makes_fieldExpr (he : Makes expr Expr.nodes) (token : Token) (text field : List Char) :
    Makes (fieldExpr expr token text field) Expr.nodes := by
  have hwhole : Makes (do
      let e ← exprList expr
      if ← accept .newLine then
        let _ ← accept .indentation
      let _ ← expect .finish
      return e : Parse MarkedExpr) Expr.nodes := by
    refine (makes_exprList he).bind fun e => (idle_accept _).bind fun b => ?_
    have hend : Turns (e.nodes ++ []) (do
        let _ ← expect .finish
        return e : Parse MarkedExpr) Expr.nodes :=
      (idle_expect _).bind fun _ => turns_counted fun x => by simp
    split
    · exact (idle_accept _).bind fun _ => hend
    · exact hend
  intro others s r s' hs hrun
  obtain ⟨s₀, s₁, hget, hrun⟩ := exists_of_run_bind hrun
  cases hget
  extract_lets whole at hrun
  cases hinner : StateT.run whole (start (Text.ofChars text) s.arena) with
  | error fault =>
    rw [hinner] at hrun
    cases hrun
  | ok result =>
    rw [hinner] at hrun
    cases hrun
    exact hwhole others (start (Text.ofChars text) s.arena) result.1 result.2 hs hinner

theorem makes_literalPart (token : Token) (literal : List Char) :
    Makes (literalPart token literal) nodesAll := by
  unfold literalPart
  split
  · exact turns_pure (.refl _)
  · exact turns_made _ _ fun m x => by simp

theorem turns_joinParts (token : Token) (ps : List MarkedExpr) :
    Turns (nodesAll ps) (joinParts token ps) Expr.nodes := by
  cases ps with
  | nil => exact turns_made _ _ fun m x => by simp
  | cons p ps =>
    simp only [joinParts]
    induction ps generalizing p with
    | nil => exact turns_counted fun x => by simp
    | cons q ps ih =>
      rw [List.foldlM_cons]
      have hjoin : Turns (nodesAll (p :: q :: ps)) (do
          return .binOp (← register .binOp token.pos) p .add q : Parse MarkedExpr)
            fun e => nodesAll (e :: ps) := by
        refine turns_made _ _ fun m x => ?_
        simp
      exact hjoin.bind fun e => ih e

theorem makes_parts (he : Makes expr Expr.nodes) (token : Token) (n : Nat)
    (literal cs : List Char) :
    Makes (parts expr token n literal cs) nodesAll := by
  induction n generalizing literal cs with
  | zero => exact makes_literalPart _ _
  | succ n ih =>
    unfold parts
    split
    · exact makes_literalPart _ _
    · exact turns_throw _
    · exact ih _ _
    · next inside rest _ =>
      refine (makes_literalPart _ _).bind fun before => ?_
      split
      · exact turns_throw _
      · next field _ =>
        refine (makes_fieldExpr he _ _ _).bind fun value => ?_
        have hrest (spec : Option MarkedExpr) :
            Turns (nodesOption spec ++ (value.nodes ++ (nodesAll before ++ []))) (do
              let mark ← register .formattedValue token.pos
              let after ← parts expr token n [] rest
              return before ++ .formatted mark value field.conversion spec :: after :
                Parse (List MarkedExpr)) nodesAll := by
          refine (makes_register _ _).bind fun m => (ih _ _).bind fun after => ?_
          refine turns_counted fun x => ?_
          simp
          omega
        split
        · exact turns_pure_bind (hrest none)
        · refine (ih _ _).bind fun ps => ?_
          have hjoin := (turns_joinParts token ps).beside (value.nodes ++ (nodesAll before ++ []))
          exact Turns.bind (f := fun spec => nodesOption spec ++ _) (Turns.map hjoin) hrest

theorem makes_fstring (he : Makes expr Expr.nodes) (token : Token) :
    Makes (fstring expr token) Expr.nodes :=
  Turns.bind (makes_parts he _ _ _ _) fun ps => turns_joinParts _ ps

/-! ## Atoms -/

theorem makes_elements (he : Makes expr Expr.nodes) (close : Bracket) :
    Makes (elements expr close) nodesAll := by
  refine turns_iterate nodesAll (fun elts => ?_) []
  refine (idle_check _).bind fun b => ?_
  split
  · exact turns_pure (.refl _)
  refine he.bind fun e => (idle_accept _).bind fun b => ?_
  have hmore : (nodesAll (elts ++ [e])).Subperm (e.nodes ++ nodesAll elts) := by
    refine subperm_of_count fun x => ?_
    simp
    omega
  split
  · exact turns_pure hmore
  · exact turns_pure hmore

theorem makes_paren (he : Makes expr Expr.nodes) : Makes (paren expr) Expr.nodes := by
  refine idle_advance.bind fun bracket => (idle_accept _).bind fun b => ?_
  split
  · exact turns_made _ _ fun m x => by simp
  refine he.bind fun first => (idle_accept _).bind fun b => ?_
  split
  · refine (makes_elements he _).bind fun rest => (idle_expect _).bind fun _ => ?_
    refine turns_made _ _ fun m x => ?_
    simp
    omega
  · exact (idle_expect _).bind fun _ => turns_counted fun x => by simp

theorem makes_listDisplay (he : Makes expr Expr.nodes) : Makes (listDisplay expr) Expr.nodes := by
  refine idle_advance.bind fun bracket => (makes_elements he _).bind fun elts => ?_
  refine (idle_expect _).bind fun _ => turns_made _ _ fun m x => ?_
  simp

theorem makes_dictDisplay (he : Makes expr Expr.nodes) : Makes (dictDisplay expr) Expr.nodes := by
  refine idle_advance.bind fun bracket => ?_
  refine Turns.bind (f := nodesItems) (turns_iterate nodesItems (fun items => ?_) [])
    fun items => ?_
  · refine (idle_check _).bind fun b => ?_
    split
    · exact turns_pure (.refl _)
    refine he.bind fun key => (idle_expect _).bind fun _ => he.bind fun value => ?_
    have hmore : (nodesItems (items ++ [(key, value)])).Subperm
        (value.nodes ++ (key.nodes ++ nodesItems items)) := by
      refine subperm_of_count fun x => ?_
      simp
      omega
    exact (idle_accept _).bind fun b => .ite (turns_pure hmore) (turns_pure hmore)
  · refine (idle_expect _).bind fun _ => turns_made _ _ fun m x => ?_
    simp

theorem makes_constantAt (token : Token) (value : Literal) :
    Makes (constantAt token value) Expr.nodes :=
  turns_made _ _ fun m x => by simp

theorem idle_adjacentStrings (first : String) : Idle (adjacentStrings first) := by
  refine idle_iterate (fun s => ?_) first
  exact (idle_check _).andThen fun b =>
    .ite (idle_advance.andThen fun _ => idle_pure _) (idle_pure _)

theorem makes_atom (he : Makes expr Expr.nodes) : Makes (atom expr) Expr.nodes := by
  refine idle_peek.bind fun token => ?_
  split
  case h_1 =>
    exact idle_advance.bind fun _ => turns_made _ _ fun m x => by simp
  case h_2 =>
    refine idle_advance.bind fun _ => ?_
    split
    · exact makes_constantAt _ _
    · exact turns_throw _
  case h_3 =>
    refine idle_advance.bind fun _ => ?_
    split
    · exact makes_constantAt _ _
    · exact turns_throw _
  case h_4 =>
    exact idle_advance.bind fun _ => (idle_adjacentStrings _).bind fun s => makes_constantAt _ _
  case h_5 => exact idle_advance.bind fun _ => makes_fstring he _
  case h_6 => exact idle_advance.bind fun _ => makes_constantAt _ _
  case h_7 => exact idle_advance.bind fun _ => makes_constantAt _ _
  case h_8 => exact idle_advance.bind fun _ => makes_constantAt _ _
  case h_9 => exact makes_paren he
  case h_10 => exact makes_listDisplay he
  case h_11 => exact makes_dictDisplay he
  case h_12 => exact turns_unexpected _

/-! ## Suffixes -/

theorem makes_expr? (he : Makes expr Expr.nodes) : Makes (expr? expr) nodesOption := by
  exact idle_peekKind.bind fun kind =>
    .ite (he.bind fun e => turns_counted fun x => by simp) (turns_pure (.refl _))

theorem makes_sliceItem (he : Makes expr Expr.nodes) : Makes (sliceItem expr) Expr.nodes := by
  refine idle_peek.bind fun token => ?_
  extract_lets rest
  have hrest (lower : Option MarkedExpr) : Turns (nodesOption lower) (rest lower) Expr.nodes := by
    refine (idle_expect _).bind fun _ => (makes_expr? he).bind fun upper => ?_
    refine (idle_accept _).bind fun b => ?_
    have hfinish (step : Option MarkedExpr) :
        Turns (nodesOption step ++ (nodesOption upper ++ nodesOption lower)) (do
          return .slice (← register .slice token.pos) lower upper step :
            Parse MarkedExpr) Expr.nodes := by
      refine turns_made _ _ fun m x => ?_
      simp
      omega
    split
    · exact (makes_expr? he).bind hfinish
    · exact turns_pure_bind (hfinish none)
  refine (idle_check _).bind fun b => ?_
  split
  · exact hrest none
  · refine he.bind fun lower => (idle_check _).bind fun b => .ite ?_ ?_
    · exact (hrest (some lower)).of_subperm (subperm_of_count fun x => by simp)
    · exact turns_counted fun x => by simp

theorem turns_subscript (he : Makes expr Expr.nodes) (value : MarkedExpr) :
    Turns value.nodes (subscript expr value) Expr.nodes := by
  refine idle_advance.bind fun _ => ?_
  refine Makes.bind (f := fun p : List MarkedExpr × List Token => nodesAll p.1)
    (turns_iterate (fun p : List MarkedExpr × List Token => nodesAll p.1) ?_ ([], [])) ?_
  · rintro ⟨items, commas⟩
    refine (makes_sliceItem he).bind fun item => (idle_check _).bind fun b => ?_
    have hmore : (nodesAll (items ++ [item])).Subperm (item.nodes ++ nodesAll items) := by
      refine subperm_of_count fun x => ?_
      simp
      omega
    split
    · exact idle_advance.bind fun comma => (idle_check _).bind fun b =>
        .ite (turns_pure hmore) (turns_pure hmore)
    · exact turns_pure hmore
  rintro ⟨items, commas⟩
  refine (idle_expect _).bind fun _ => ?_
  split
  · split
    · refine turns_made _ _ fun m x => ?_
      simp
      omega
    · refine (makes_register _ _).bind fun m => (makes_register _ _).bind fun m' => ?_
      refine turns_counted fun x => ?_
      simp
      omega
  · split
    · exact turns_unexpected _
    · refine (makes_register _ _).bind fun m => (makes_register _ _).bind fun m' => ?_
      refine (makes_register _ _).bind fun m'' => turns_counted fun x => ?_
      simp
      omega

/-- The nodes of the arguments of a call so far. -/
def Arguments.nodes (a : Arguments) : List TreeNode := nodesAll a.args ++ nodesKeywords a.keywords

attribute [local simp] Arguments.nodes

/-- The name of a keyword argument is read as an expression, whose node is left behind. -/
theorem turns_argument (he : Makes expr Expr.nodes) (a : Arguments) :
    Turns a.nodes (argument expr a) Arguments.nodes := by
  refine idle_peek.bind fun token => (idle_accept _).bind fun b => ?_
  split
  · refine he.bind fun value => turns_made _ _ fun m x => ?_
    simp
    omega
  refine he.bind fun arg => (idle_check _).bind fun b => ?_
  split
  · split
    · refine idle_advance.bind fun _ => he.bind fun value => turns_made _ _ fun m x => ?_
      simp
      omega
    · exact idle_peek.bind fun _ => turns_unexpected _
  · split
    · refine turns_counted fun x => ?_
      simp
      omega
    · exact turns_throw _

theorem turns_call (he : Makes expr Expr.nodes) (func : MarkedExpr) :
    Turns func.nodes (call expr func) Expr.nodes := by
  refine idle_advance.bind fun _ => ?_
  have hargs : Makes (iterate (fun (a : Arguments) => do
      if ← check (.closing .paren) then return .done a
      let a ← argument expr a
      if ← accept .comma then return .again a else return .done a) {}) Arguments.nodes := by
    refine turns_iterate Arguments.nodes (fun a => ?_) {}
    refine (idle_check _).bind fun b => ?_
    split
    · exact turns_pure (.refl _)
    exact (turns_argument he a).bind fun a => (idle_accept _).bind fun b =>
      .ite (turns_pure (.refl _)) (turns_pure (.refl _))
  refine hargs.bind fun a => (idle_expect _).bind fun _ => turns_made _ _ fun m x => ?_
  simp
  omega

theorem turns_suffixes (he : Makes expr Expr.nodes) (operand : MarkedExpr) :
    Turns operand.nodes (suffixes expr operand) Expr.nodes := by
  refine turns_iterate Expr.nodes (fun e => ?_) operand
  refine idle_peekKind.bind fun kind => ?_
  split
  · refine idle_advance.bind fun _ => (idle_expect _).bind fun name => ?_
    refine turns_made _ _ fun m x => ?_
    simp
  · exact (turns_subscript he e).bind fun e => turns_pure (.refl _)
  · exact (turns_call he e).bind fun e => turns_pure (.refl _)
  · exact turns_pure (.refl _)

/-- The two rules that call each other, by induction on the depth that bounds them. -/
theorem makes_nested (depth : Nat) :
    Makes (expression depth) Expr.nodes ∧ Makes (operand depth) Expr.nodes := by
  induction depth with
  | zero => exact ⟨idle_peek.bind fun _ => turns_throw _, idle_peek.bind fun _ => turns_throw _⟩
  | succ depth ih =>
    obtain ⟨hexpr, hoperand⟩ := ih
    constructor
    · exact idle_peek.bind fun first => Turns.bind hoperand fun left =>
        turns_operators hoperand first.pos left
    · refine idle_peek.bind fun token => ?_
      split
      · refine idle_advance.bind fun _ => hoperand.bind fun e =>
          turns_made _ _ fun m x => ?_
        simp
      · split
        · exact makes_lambda hexpr
        · exact Turns.bind (makes_atom hexpr) fun e => turns_suffixes hexpr e

theorem makes_expression (depth : Nat) : Makes (expression depth) Expr.nodes :=
  (makes_nested depth).1

theorem makes_operand (depth : Nat) : Makes (operand depth) Expr.nodes := (makes_nested depth).2

end Toolchain.Parse

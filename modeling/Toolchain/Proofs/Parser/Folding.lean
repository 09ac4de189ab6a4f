import Toolchain.Proofs.Format.Faces
import Toolchain.Proofs.Parser.Lone
import Toolchain.Proofs.Parser.Operand

/-!
# Operators fold to the left

The operators have no precedence: an operand and those that follow it, each after its operator, are
taken in from left to right. Operands made nodes by operators before are gone on with where the
operator goes on with them, but an operand that was read as such a node is not, so what the
operators have made is more than an expression.

## Main definitions

* `Folded`, `Folded.push`: what operators have made of operands, and one more operator
* `leftFold`: what they make of an operand and those that follow it
* `ReadsOperand`: a rule that reads some faces as an operand
* `Link`: an operator with the faces and the value of its right operand
* `LambdasEnclosed`: no lambda outside of brackets

## Main results

* `reads_operatorStep`: one operator and its right operand
* `loops_operators`: the loop over operators makes the fold to the left
* `run_singleExpression`: a text that has only the tokens of a chain is the fold of its operands
* `run_plainOperand`: an operand without a lambda outside of brackets is no lambda
-/

namespace Toolchain

/-! ## What is made of operands -/

/-- What operators have made of operands so far: a single operand as it stands, or a node. -/
inductive Folded where
  | operand (e : Expr Unit)
  | binary (left : Expr Unit) (op : BinaryOp) (right : Expr Unit)
  | connective (op : BoolOp) (values : List (Expr Unit))
  | comparison (left : Expr Unit) (rest : List (CompareOp × Expr Unit))

namespace Folded

/-- The expression that was made. -/
def expr : Folded → Expr Unit
  | operand e => e
  | binary left op right => .binOp () left op right
  | connective op values => .boolOp () op values
  | comparison left rest => .compare () left rest

/-- Takes in one more operator with its right operand. Only a node that was made by operators before
grows: by an operand of the same connective, or by another comparison. -/
def push (acc : Folded) (op : Parse.Infix) (right : Expr Unit) : Folded :=
  match op, acc with
  | .binary op, acc => binary acc.expr op right
  | .connective op, connective o values =>
    if o = op then connective op (values ++ [right]) else connective op [.boolOp () o values, right]
  | .connective op, acc => connective op [acc.expr, right]
  | .comparison op, comparison left rest => comparison left (rest ++ [(op, right)])
  | .comparison op, acc => comparison acc.expr [(op, right)]

/-- Whether an operator has made it. -/
def isMade : Folded → Bool
  | operand _ => false
  | _ => true

theorem isMade_push (acc : Folded) (op : Parse.Infix) (right : Expr Unit) :
    (acc.push op right).isMade = true := by
  cases op with
  | binary op => rfl
  | connective op =>
    cases acc with
    | connective o values =>
      unfold push
      simp only
      split <;> rfl
    | _ => rfl
  | comparison op => cases acc <;> rfl

theorem expr_push (acc : Folded) (op : Parse.Infix) (right : Expr Unit) :
    (acc.push op right).expr = op.join acc.expr acc.isMade right := by
  cases op with
  | binary op => rfl
  | connective op =>
    cases acc with
    | operand e => cases e <;> rfl
    | connective o values =>
      by_cases ho : o = op
      · subst ho
        simp [push, expr, Parse.Infix.join, isMade]
      · simp [push, expr, Parse.Infix.join, isMade, ho]
    | _ => rfl
  | comparison op =>
    cases acc with
    | operand e => cases e <;> rfl
    | _ => rfl

end Folded

/-- What operators make of an operand and of those that follow it, from left to right. -/
def leftFold (e : Expr Unit) (links : List (Parse.Infix × Expr Unit)) : Expr Unit :=
  (links.foldl (fun acc l => Folded.push acc l.1 l.2) (.operand e)).expr

namespace Parse

open ParseState

variable {bad : Fault → Prop} {fs gs rest : List Face}

/-- The faces of an operator. -/
def Infix.faces : Infix → List Face
  | .binary op => [TokenKind.face (.binary op)]
  | .connective op => [Format.connectiveFace op]
  | .comparison op => Format.comparisonFaces op

/-- An operator is read whole. In front of `not` the word `is` is half of another operator. -/
theorem reads_operator? (op : Infix) (his : op = .comparison .is → (front rest).1 ≠ .keyword .not) :
    Reads bad operator? True op.faces rest fun r => r = some op := by
  have hword {k : Keyword} {f : Token → Parse (Option Infix)} {r : Infix}
      (hf : ∀ t, f t = pure (some r)) : Reads bad (advance >>= f) True
        [TokenKind.face (.keyword k)] rest fun a => a = some r := by
    refine reads_advance_bind (by nofun) fun t _ => ?_
    rw [hf]
    exact reads_pure rfl
  cases op with
  | binary op =>
    apply reads_peekKind_bind
    exact reads_advance_bind (by nofun) fun _ _ => reads_pure rfl
  | connective op =>
    apply reads_peekKind_bind
    cases op with
    | and => exact hword fun _ => rfl
    | or => exact hword fun _ => rfl
  | comparison op =>
    have hsymbol : Reads bad operator? True [TokenKind.face (.compare op)] rest
        fun r => r = some (.comparison op) := by
      apply reads_peekKind_bind
      exact reads_advance_bind (by nofun) fun _ _ => reads_pure rfl
    cases op with
    | is =>
      apply reads_peekKind_bind
      refine reads_advance_bind (by nofun) fun _ _ => ?_
      exact reads_accept_neg (his rfl) (reads_pure rfl)
    | isNot =>
      apply reads_peekKind_bind
      refine reads_advance_bind (by nofun) fun _ _ => ?_
      exact reads_accept_pos rfl (by nofun) (reads_pure rfl)
    | isIn =>
      apply reads_peekKind_bind
      exact hword fun _ => rfl
    | notIn =>
      apply reads_peekKind_bind
      refine reads_advance_bind (by nofun) fun _ _ => ?_
      exact reads_expect_bind rfl (by nofun) fun _ _ => reads_pure rfl
    | _ => exact hsymbol

/-- Whether an operator begins with a token. -/
def beginsInfix : TokenKind → Bool
  | .binary _ | .compare _ => true
  | .keyword .and | .keyword .or | .keyword .in | .keyword .is | .keyword .not => true
  | _ => false

theorem reads_operator?_none (h : beginsInfix (front rest).1 = false) :
    Reads bad operator? True [] rest fun r => r = none := by
  apply reads_peekKind_bind
  rw [List.nil_append]
  split
  case h_8 => exact reads_pure rfl
  all_goals
    rename_i hkind
    rw [hkind] at h
    cases h

theorem reads_fold (pos : Position) (left : MarkedExpr) (folded : Bool) (right : MarkedExpr)
    (op : Infix) :
    Reads bad (fold pos left folded right op) True [] rest
      fun e => e.erase = op.join left.erase folded right.erase := by
  intro s hs
  obtain ⟨e, s', hrun, htokens, he⟩ := run_fold pos left folded right op s
  refine ⟨fun _ => ⟨e, s', hrun, ?_, he⟩, fun h => absurd trivial h⟩
  rw [ParseState.faces, htokens]
  exact hs

/-- A rule reads some faces as an operand with a value, in front of what does not go on with it. -/
def ReadsOperand (bad : Fault → Prop) (p : Parse MarkedExpr) (fs : List Face)
    (e : Expr Unit) : Prop :=
  ∀ rest, rest ≠ [] → Closes (front rest) → Reads bad p True fs rest fun r => r.erase = e

/-- An operator, and the faces and the value of its right operand. -/
structure Link where
  op : Infix
  faces : List Face
  value : Expr Unit

/-- The faces of an operator and its right operand. -/
def Link.allFaces (l : Link) : List Face := l.op.faces ++ l.faces

/-- An operator and the value of its right operand. -/
def Link.pair (l : Link) : Infix × Expr Unit := (l.op, l.value)

/-- A link is read as what it is. -/
structure Link.Sound (bad : Fault → Prop) (p : Parse MarkedExpr) (l : Link) : Prop where
  reads : ReadsOperand bad p l.faces l.value
  some : l.faces ≠ []
  is : l.op = .comparison .is → (front l.faces).1 ≠ .keyword .not

theorem front_append (h : fs ≠ []) (gs : List Face) : front (fs ++ gs) = front fs := by
  obtain ⟨x, fs, rfl⟩ := List.exists_cons_of_ne_nil h
  rfl

theorem Infix.closes_faces (op : Infix) : op.faces ≠ [] ∧ Closes (front op.faces) := by
  cases op with
  | binary op => exact ⟨by nofun, by nofun, by nofun, by nofun, by nofun⟩
  | connective op => cases op <;> exact ⟨by nofun, by nofun, by nofun, by nofun, by nofun⟩
  | comparison op => cases op <;> exact ⟨by nofun, by nofun, by nofun, by nofun, by nofun⟩

/-- Nothing in front of which an operand stands goes on with it. -/
theorem closes_links (links : List Link) :
    links.flatMap Link.allFaces ++ [endFace] ≠ [] ∧
      Closes (front (links.flatMap Link.allFaces ++ [endFace])) := by
  refine ⟨by simp, ?_⟩
  cases links with
  | nil => exact closes_of_isEnd endFace rfl
  | cons l links =>
    obtain ⟨hne, hcloses⟩ := l.op.closes_faces
    rw [List.flatMap_cons, Link.allFaces, List.append_assoc, List.append_assoc, front_append hne]
    exact hcloses

/-- One round of the loop over operators. -/
def operatorStep (operand : Parse MarkedExpr) (pos : Position) (x : MarkedExpr × Bool) :
    Parse (Next (MarkedExpr × Bool) MarkedExpr) := do
  match ← operator? with
  | some op =>
    let right ← operand
    return .again (← fold pos x.1 x.2 right op, true)
  | none => return .done x.1

theorem operators_eq (operand : Parse MarkedExpr) (pos : Position) (left : MarkedExpr) :
    operators operand pos left = iterate (operatorStep operand pos) (left, false) := rfl

/-- One operator and its right operand are taken in, if the operand is read. -/
theorem reads_operatorStep {p : Parse MarkedExpr} {op : Infix} {value : Expr Unit} {fits : Prop}
    (his : op = .comparison .is → (front fs).1 ≠ .keyword .not) (hsome : fs ≠ [])
    (hreads : Reads bad p fits fs rest fun r => r.erase = value) (pos : Position)
    (left : MarkedExpr)
    (folded : Bool) :
    Reads bad (operatorStep p pos (left, folded)) fits (op.faces ++ fs) rest fun r =>
      ∃ e : MarkedExpr, r = .again (e, true) ∧ e.erase = op.join left.erase folded value := by
  have hop : Reads bad operator? True op.faces (fs ++ rest) fun r => r = some op := by
    apply reads_operator?
    intro h
    rw [front_append hsome]
    exact his h
  apply hop.next
  rintro _ rfl
  apply hreads.last
  intro right hvalue
  apply (reads_fold pos left folded right op).last
  intro e he
  exact reads_pure ⟨e, rfl, by rw [he, hvalue]⟩

/-- **The loop over operators folds to the left.** What it keeps is that the left side is what the
operators so far have made, and whether there was one. -/
theorem loops_operators {p : Parse MarkedExpr} {links : List Link}
    (hlinks : ∀ l ∈ links, l.Sound bad p)
    (pos : Position) (acc : Folded) {left : MarkedExpr} (hleft : left.erase = acc.expr) :
    Loops bad (operatorStep p pos) (left, acc.isMade) True (links.flatMap Link.allFaces) [endFace]
      fun e => e.erase = (links.foldl (fun acc l => Folded.push acc l.op l.value) acc).expr := by
  induction links generalizing acc left with
  | nil =>
    apply Loops.done
    have hend : beginsInfix (front [endFace]).1 = false := rfl
    apply (reads_operator?_none hend).last
    rintro _ rfl
    exact reads_pure ⟨left, rfl, hleft⟩
  | cons l links ih =>
    obtain ⟨hl, hlinks⟩ := List.forall_mem_cons.mp hlinks
    obtain ⟨hrest, hcloses⟩ := closes_links links
    have hne : l.allFaces ≠ [] := List.append_ne_nil_of_left_ne_nil l.op.closes_faces.1 _
    have hstep := reads_operatorStep hl.is hl.some (hl.reads _ hrest hcloses) pos left acc.isMade
    refine (Loops.again (I := fun x => x.2 = true ∧ x.1.erase = (acc.push l.op l.value).expr)
      (hstep.imp ?_) hne ?_).congr and_self_iff
    · rintro _ ⟨e, rfl, he⟩
      refine ⟨_, rfl, rfl, ?_⟩
      rw [he, hleft, Folded.expr_push]
    · rintro ⟨e, folded⟩ ⟨rfl, he⟩
      have hloop := ih hlinks (acc.push l.op l.value) he
      rwa [Folded.isMade_push] at hloop

/-- An operand and what follows it is one expression. -/
theorem reads_expression {depth : Nat} {e : Expr Unit} {links : List Link}
    (hfs : ReadsOperand bad (operand depth) fs e)
    (hlinks : ∀ l ∈ links, l.Sound bad (operand depth)) :
    Reads bad (expression (depth + 1)) True (fs ++ links.flatMap Link.allFaces) [endFace] fun r =>
      r.erase = leftFold e (links.map Link.pair) := by
  obtain ⟨hrest, hcloses⟩ := closes_links links
  refine reads_peek_bind fun first _ => ?_
  apply (hfs _ hrest hcloses).next
  intro left hleft
  rw [operators_eq, leftFold, List.foldl_map]
  exact reads_iterate (loops_operators hlinks first.pos (.operand e) hleft)

theorem reads_anyExprList {e : Expr Unit} {links : List Link}
    (hfs : ReadsOperand bad (operand (maxDepth - 1)) fs e)
    (hlinks : ∀ l ∈ links, l.Sound bad (operand (maxDepth - 1))) :
    Reads bad anyExprList True (fs ++ links.flatMap Link.allFaces) [endFace] fun r =>
      r.erase = leftFold e (links.map Link.pair) := by
  refine reads_peek_bind fun first _ => ?_
  apply (reads_expression hfs hlinks).last
  intro r hr
  exact reads_check_neg nofun (reads_pure hr)

/-- An expression behind which nothing is left is a single expression. -/
theorem run_singleExpression_of {s s₁ : ParseState} {r : MarkedExpr}
    (hrun : StateT.run anyExprList s = .ok (r, s₁))
    (hs₁ : s₁.faces = [endFace]) :
      ∃ m s', StateT.run singleExpression s = .ok (.expression m r, s') := by
  have hindent : s.next.kind ≠ .indentation := by
    intro hkind
    have hstarts := starts_of_run hrun
    rw [hkind] at hstarts
    cases hstarts
  have hfinish : s₁.next.kind = .finish := by
    have hface := face_next s₁
    rw [hs₁] at hface
    exact congrArg Prod.fst hface
  have hnewLine : s₁.next.kind ≠ .newLine := by
    rw [hfinish]
    nofun
  refine ⟨(s₁.arena.register .expression s.next.pos).1,
    { s₁ with arena := (s₁.arena.register .expression s.next.pos).2 }, ?_⟩
  unfold singleExpression
  rw [run_peek_bind]
  simp only [if_neg hindent]
  rw [Outcome.run_bind_ok hrun, Outcome.run_bind_ok (run_accept_neg hnewLine)]
  simp only [Bool.false_eq_true, if_false]
  rw [Outcome.run_bind_ok (run_expect_finish hfinish)]
  rfl

/-- A text whose only tokens are those of an operand and of links is a single expression. -/
theorem run_singleExpression {s : ParseState} {e : Expr Unit} {links : List Link}
    (hs : s.faces = fs ++ links.flatMap Link.allFaces ++ [endFace])
    (hfs : ReadsOperand (fun _ => True) (operand (maxDepth - 1)) fs e)
    (hlinks : ∀ l ∈ links, l.Sound (fun _ => True) (operand (maxDepth - 1))) :
    ∃ m r s', StateT.run singleExpression s = .ok (.expression m r, s') ∧
      r.erase = leftFold e (links.map Link.pair) := by
  obtain ⟨r, s₁, hrun, hs₁, hr⟩ := (reads_anyExprList hfs hlinks s hs).ok trivial
  obtain ⟨m, s', hall⟩ := run_singleExpression_of hrun hs₁
  exact ⟨m, r, s', hall, hr⟩

/-! ## Texts of operands -/

/-- How many brackets some faces leave open. -/
def openBrackets (fs : List Face) : Nat := fs.foldl (fun n x => Lexer.depthAfter n x.1) 0

/-- The only lambdas among some faces stand in brackets. -/
def LambdasEnclosed (fs : List Face) : Prop :=
  ∀ before x after, fs = before ++ x :: after → x.1 = .keyword .lambda → 0 < openBrackets before

theorem depthAfter_of_unary? {k : TokenKind} {op : UnaryOp} (h : unary? k = some op) (n : Nat) :
    Lexer.depthAfter n k = n := by
  unfold unary? at h
  split at h <;> first | rfl | cases h

/-- An operand in which lambdas only stand in brackets is no lambda. -/
theorem run_plainOperand {depth : Nat} {s : ParseState} {r : MarkedExpr × ParseState}
    (h : LambdasEnclosed s.faces) (hrun : StateT.run (operand depth) s = .ok r) :
    StateT.run (plainOperand depth) s = .ok r := by
  induction depth generalizing s r with
  | zero => exact hrun
  | succ depth ih =>
    unfold operand at hrun
    unfold plainOperand
    rw [run_peek_bind] at hrun ⊢
    cases hop : unary? s.next.kind with
    | some op =>
      simp only [hop] at hrun ⊢
      have hfinish : s.next.kind ≠ .finish := by
        intro hkind
        rw [hkind] at hop
        cases hop
      obtain ⟨fs, hs⟩ := exists_faces_cons hfinish
      obtain ⟨s₁, hadvance, hs₁⟩ := run_advance hs hfinish
      rw [Outcome.run_bind_ok hadvance] at hrun ⊢
      rw [StateT.run_bind, Outcome.bind_eq_ok_iff] at hrun
      obtain ⟨⟨e, s₂⟩, hoperand, hrun⟩ := hrun
      have hbehind : LambdasEnclosed s₁.faces := by
        intro before x after hsplit hx
        have hopen := h (s.next.face :: before) x after (by rw [hs, ← hs₁, hsplit]; rfl) hx
        have hnext : Lexer.depthAfter 0 s.next.face.1 = 0 := depthAfter_of_unary? hop 0
        rwa [openBrackets, List.foldl_cons, hnext] at hopen
      rw [Outcome.run_bind_ok (ih hbehind hoperand)]
      exact hrun
    | none =>
      simp only [hop] at hrun ⊢
      have hlambda : s.next.kind ≠ .keyword .lambda := by
        intro hkind
        have hfinish : s.next.kind ≠ .finish := by
          rw [hkind]
          nofun
        obtain ⟨fs, hs⟩ := exists_faces_cons hfinish
        exact Nat.lt_irrefl 0 (h [] s.next.face fs hs hkind)
      rw [if_neg hlambda] at hrun
      exact hrun

end Parse

end Toolchain

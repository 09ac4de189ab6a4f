import Toolchain.Parser.Statement
import Toolchain.Proofs.Parser.Ahead
import Toolchain.Proofs.Parser.Expression
import Toolchain.Proofs.Token.Order

/-!
# The extent of parsed expressions

A rule for expressions stops in front of the end of the statement, whatever that end is, and it
makes nothing in front of one.

## Main definitions

* `Parse.Extends`: a rule for expressions that reads up to an end

## Main results

* `Parse.extends_expression`, `Parse.extends_exprList`: the rules for expressions do so
-/

namespace Toolchain

namespace Parse

open Expr

variable {α β σ : Type} {a : Token} {expr : Parse MarkedExpr}

/-- A rule for expressions reads up to an end, and makes nothing in front of it. -/
structure Extends (p : Parse MarkedExpr) : Prop where
  grows : Grows p
  stuck : ∀ a : Token, a.kind.endsStatement = true → Stuck a p

/-! ## Lists of expressions -/

theorem startsExpr_eq_false {k : TokenKind} (h : k.endsStatement = true) :
    startsExpr k = false := by
  cases k <;> first | rfl | cases h

/-- No expression starts at an end. -/
theorem grows_starts_ite {x y : Parse β} (hx : Grows x) (hy : Grows y) :
    Grows (peekKind >>= fun k => if startsExpr k = true then x else y) := by
  refine fun a => growsOn_peekKind_bind (g := y) ?_ ?_
  · intro k hk
    rw [startsExpr_eq_false hk]
    rfl
  · split
    · exact hx a
    · exact hy a

theorem extends_exprList (he : expr.Extends) : (exprList expr).Extends where
  stuck a ha := stuck_peek_bind (he.stuck a ha).bind
  grows a := by
    refine growsOn_peek_bind (fun _ => ?_) fun hend => (he.stuck a hend).bind
    refine (he.grows a).bind fun head => grows_check_ite rfl ?_ grows_pure
    refine (grows_iterate fun elts => ?_).bind fun elts => grows_register_bind fun _ => grows_pure
    refine grows_accept_ite rfl (grows_starts_ite ?_ grows_pure) grows_pure
    exact he.grows.bind fun _ => grows_pure

/-! ## Operators -/

theorem growsOn_operator?_bind {f : Option Infix → Parse β} (hsome : ∀ op, Grows (f (some op)))
    (hnone : GrowsOn a (f none)) : GrowsOn a (operator? >>= f) := by
  unfold operator?
  rw [bind_assoc]
  refine growsOn_peekKind_bind (g := f none) ?_ ?_
  · intro k hk
    cases k <;> first | exact pure_bind _ _ | cases hk
  · split
    case h_6 heq =>
      rw [bind_assoc]
      refine growsOn_advance_bind (by rw [heq]; rfl) ?_
      rw [bind_assoc]
      refine fun b => growsOn_accept_bind rfl ?_ ?_
      · simpa using hsome (.comparison .isNot)
      · simpa using hsome (.comparison .is) b
    case h_7 heq =>
      rw [bind_assoc]
      refine growsOn_advance_bind (by rw [heq]; rfl) ?_
      rw [bind_assoc]
      refine grows_expect_bind rfl fun b => ?_
      simpa using hsome (.comparison .notIn)
    case h_8 => simpa using hnone
    all_goals
      rename_i heq
      rw [bind_assoc]
      refine growsOn_advance_bind (by rw [heq]; rfl) ?_
      simpa using hsome _

theorem grows_fold (pos : Position) (left right : MarkedExpr) (folded : Bool) (op : Infix) :
    Grows (fold pos left folded right op) := by
  have hregister {tag : NodeTag} {f : Mark → MarkedExpr} : Grows (do
      return f (← register tag pos) : Parse MarkedExpr) :=
    grows_register_bind fun _ => grows_pure
  cases op with
  | binary op => exact hregister
  | connective op =>
    simp only [fold]
    split
    · split
      · exact grows_pure
      · exact hregister
    · exact hregister
  | comparison op =>
    simp only [fold]
    split
    · exact grows_pure
    · exact hregister

theorem grows_operators (he : expr.Extends) (pos : Position) (left : MarkedExpr) :
    Grows (operators expr pos left) := by
  refine grows_iterate fun p a => growsOn_operator?_bind (fun op => ?_) (grows_pure a)
  exact he.grows.bind fun right => (grows_fold pos _ right _ op).bind fun _ => grows_pure

/-! ## Parameters -/

theorem grows_parameters (he : expr.Extends) {stop : TokenKind}
    (hstop : stop.endsStatement = false) : Grows (parameters expr stop) := by
  refine grows_iterate fun s => grows_check_ite hstop grows_pure fun a => ?_
  refine growsOn_peek_bind (fun _ => ?_) fun hend => ?_
  · extract_lets parameter finish
    have hparameter : Grows parameter :=
      grows_expect_bind rfl fun _ => grows_register_bind fun _ => grows_pure
    have hfinish (s : Signature Mark MarkedExpr) : Grows (finish s) :=
      grows_accept_ite rfl grows_pure grows_pure
    split
    · rename_i hkind _ _
      exact growsOn_advance_bind (by rw [hkind]; rfl) (hparameter.bind fun _ => hfinish _)
    · rename_i hkind _
      exact growsOn_advance_bind (by rw [hkind]; rfl) (hparameter.bind fun _ => hfinish _)
    · refine hparameter.bind (fun p => grows_accept_ite rfl ?_ ?_) a
      · exact he.grows.bind fun _ => hfinish _
      · split
        · exact hfinish _
        · exact fun _ => (stuck_throw _).bind.growsOn
    · exact (stuck_unexpected _).bind.growsOn
  · extract_lets parameter finish
    split
    · rename_i hkind _ _
      rw [hkind] at hend
      cases hend
    · rename_i hkind _
      rw [hkind] at hend
      cases hend
    · rename_i hkind _ _
      rw [hkind] at hend
      cases hend
    · exact (stuck_unexpected _).bind

theorem growsOn_lambda (he : expr.Extends) (ha : a.kind = .keyword .lambda) :
    GrowsOn a (lambda expr) :=
  growsOn_advance_bind (by rw [ha]; rfl) ((grows_parameters he rfl).bind fun _ =>
    grows_expect_bind rfl fun _ => he.grows.bind fun _ => grows_register_bind fun _ => grows_pure)

/-! ## f-strings -/

/-- The tokens of a text end with the end of the input. -/
theorem exists_finish_of_start (t : Text) (arena : Arena) :
    ∃ before e, (start t arena).tokens = before ++ [e] ∧ e.kind = .finish ∧
      ∀ x ∈ before, x.kind ≠ .finish := by
  obtain ⟨before, e, heq, ⟨he, -⟩, hbefore⟩ := exists_finish_of_tokenize t
  refine ⟨before.filter fun t => t.kind != .comment, e, ?_, he, fun x hx => ?_⟩
  · show (tokenize t).1.filter _ = _
    rw [heq, List.filter_append]
    simp [he]
  · exact hbefore x (List.mem_filter.mp hx).1

/-- The expression of a field is read in a text of its own, the same on both sides. -/
theorem grows_fieldExpr (token : Token) (text field : List Char) :
    Grows (fieldExpr expr token text field) := by
  intro a tail tail' s t htails hst ha e s' hrun
  obtain ⟨inner, hwhole, rfl⟩ := exists_of_run_fieldExpr hrun
  rw [hst.arena] at hwhole
  exact ⟨⟨_, run_fieldExpr_ok hwhole, ⟨hst.tokens, rfl⟩⟩, .refl s⟩

theorem grows_literalPart (token : Token) (literal : List Char) :
    Grows (literalPart token literal) := by
  unfold literalPart
  split
  · exact grows_pure
  · exact grows_register_bind fun _ => grows_pure

theorem grows_joinParts (token : Token) (ps : List MarkedExpr) : Grows (joinParts token ps) := by
  cases ps with
  | nil => exact grows_register_bind fun _ => grows_pure
  | cons p ps =>
    simp only [joinParts]
    induction ps generalizing p with
    | nil => exact grows_pure
    | cons q ps ih =>
      rw [List.foldlM_cons]
      exact (grows_register_bind fun _ => grows_pure).bind fun e => ih e

theorem grows_parts (token : Token) (k : Nat) (literal cs : List Char) :
    Grows (parts expr token k literal cs) := by
  induction k generalizing literal cs with
  | zero => exact grows_literalPart token literal
  | succ k ih =>
    unfold parts
    split
    · exact grows_literalPart token literal
    · exact fun _ => (stuck_throw _).growsOn
    · exact ih _ _
    · refine (grows_literalPart token literal).bind fun before => ?_
      split
      · exact fun _ => (stuck_throw _).growsOn
      · refine (grows_fieldExpr token _ _).bind fun value => ?_
        split
        · simp only [pure_bind]
          exact grows_register_bind fun _ => (ih _ _).bind fun _ => grows_pure
        · refine (ih _ _).bind fun ps => ?_
          rw [bind_map_left]
          exact (grows_joinParts token ps).bind fun _ => grows_register_bind fun _ =>
            (ih _ _).bind fun _ => grows_pure

theorem grows_fstring (token : Token) : Grows (fstring expr token) :=
  (grows_parts token _ _ _).bind fun ps => grows_joinParts token ps

/-! ## Atoms -/

theorem grows_elements (he : expr.Extends) (close : Bracket) : Grows (elements expr close) :=
  grows_iterate fun _ => grows_check_ite rfl grows_pure <| he.grows.bind fun _ =>
    grows_accept_ite rfl grows_pure grows_pure

theorem growsOn_paren (he : expr.Extends) (ha : a.kind = .opening .paren) :
    GrowsOn a (paren expr) := by
  refine growsOn_advance_bind (by rw [ha]; rfl) ?_
  refine grows_accept_ite rfl (grows_register_bind fun _ => grows_pure) ?_
  refine he.grows.bind fun first => grows_accept_ite rfl ?_ ?_
  · exact (grows_elements he .paren).bind fun _ => grows_expect_bind rfl fun _ =>
      grows_register_bind fun _ => grows_pure
  · exact grows_expect_bind rfl fun _ => grows_pure

theorem growsOn_listDisplay (he : expr.Extends) (ha : a.kind = .opening .square) :
    GrowsOn a (listDisplay expr) :=
  growsOn_advance_bind (by rw [ha]; rfl) ((grows_elements he .square).bind fun _ =>
    grows_expect_bind rfl fun _ => grows_register_bind fun _ => grows_pure)

theorem growsOn_dictDisplay (he : expr.Extends) (ha : a.kind = .opening .brace) :
    GrowsOn a (dictDisplay expr) := by
  refine growsOn_advance_bind (by rw [ha]; rfl) ?_
  refine (grows_iterate fun items => ?_).bind fun items =>
    grows_expect_bind rfl fun _ => grows_register_bind fun _ => grows_pure
  refine grows_check_ite rfl grows_pure ?_
  exact he.grows.bind fun _ => grows_expect_bind rfl fun _ => he.grows.bind fun _ =>
    grows_accept_ite rfl grows_pure grows_pure

theorem grows_constantAt (token : Token) (value : Literal) : Grows (constantAt token value) :=
  grows_register_bind fun _ => grows_pure

theorem grows_adjacentStrings (first : String) : Grows (adjacentStrings first) := by
  refine grows_iterate fun s a => growsOn_check_ite rfl (fun hkind => ?_) fun _ => grows_pure a
  exact growsOn_advance_bind (by rw [hkind]; rfl) grows_pure

theorem extends_atom (he : expr.Extends) : (atom expr).Extends where
  stuck a ha := by
    refine stuck_peek_bind ?_
    split
    case h_12 => exact stuck_unexpected a
    all_goals
      rename_i hkind
      rw [hkind] at ha
      cases ha
  grows a := by
    refine growsOn_peek_bind (fun _ => ?_) fun hend => ?_
    · split
      case h_1 hkind =>
        exact growsOn_advance_bind (by rw [hkind]; rfl) (grows_register_bind fun _ => grows_pure)
      case h_2 hkind =>
        refine growsOn_advance_bind (by rw [hkind]; rfl) ?_
        split
        · exact grows_constantAt a _
        · exact fun _ => (stuck_throw _).growsOn
      case h_3 hkind =>
        refine growsOn_advance_bind (by rw [hkind]; rfl) ?_
        split
        · exact grows_constantAt a _
        · exact fun _ => (stuck_throw _).growsOn
      case h_4 hkind =>
        refine growsOn_advance_bind (by rw [hkind]; rfl) ?_
        exact (grows_adjacentStrings _).bind fun s => grows_constantAt a _
      case h_5 hkind => exact growsOn_advance_bind (by rw [hkind]; rfl) (grows_fstring a)
      case h_6 hkind => exact growsOn_advance_bind (by rw [hkind]; rfl) (grows_constantAt a _)
      case h_7 hkind => exact growsOn_advance_bind (by rw [hkind]; rfl) (grows_constantAt a _)
      case h_8 hkind => exact growsOn_advance_bind (by rw [hkind]; rfl) (grows_constantAt a _)
      case h_9 hkind => exact growsOn_paren he hkind
      case h_10 hkind => exact growsOn_listDisplay he hkind
      case h_11 hkind => exact growsOn_dictDisplay he hkind
      case h_12 => exact (stuck_unexpected _).growsOn
    · split
      case h_12 => exact stuck_unexpected a
      all_goals
        rename_i hkind
        rw [hkind] at hend
        cases hend

/-! ## Suffixes -/

theorem grows_expr? (he : expr.Extends) : Grows (expr? expr) :=
  grows_starts_ite (he.grows.bind fun _ => grows_pure) grows_pure

theorem extends_sliceItem (he : expr.Extends) : (sliceItem expr).Extends where
  stuck a ha := by
    refine stuck_peek_bind (stuck_check_ite ?_ (he.stuck a ha).bind)
    rintro hcolon
    rw [hcolon] at ha
    cases ha
  grows a := by
    refine growsOn_peek_bind (fun _ => ?_) fun hend => ?_
    · extract_lets rest
      have hrest (lower : Option MarkedExpr) : Grows (rest lower) := by
        refine grows_expect_bind rfl fun _ => (grows_expr? he).bind fun upper => ?_
        refine grows_accept_ite rfl ?_ ?_
        · exact (grows_expr? he).bind fun _ => grows_register_bind fun _ => grows_pure
        · exact grows_pure.bind fun _ => grows_register_bind fun _ => grows_pure
      refine growsOn_check_ite rfl (fun _ => hrest none a) fun _ => ?_
      exact (he.grows a).bind fun lower => grows_check_ite rfl (hrest _) grows_pure
    · extract_lets rest
      refine stuck_check_ite ?_ (he.stuck a hend).bind
      rintro hcolon
      rw [hcolon] at hend
      cases hend

theorem growsOn_subscript (he : expr.Extends) (ha : a.kind = .opening .square)
    (value : MarkedExpr) : GrowsOn a (subscript expr value) := by
  refine growsOn_advance_bind (by rw [ha]; rfl) ?_
  refine (grows_iterate fun p => ?_).bind fun p => grows_expect_bind rfl fun _ => ?_
  · refine (extends_sliceItem he).grows.bind fun item b => ?_
    refine growsOn_check_ite rfl (fun hcomma => ?_) fun _ => grows_pure b
    exact growsOn_advance_bind (by rw [hcomma]; rfl) (grows_check_ite rfl grows_pure grows_pure)
  · have hwhole (part : MarkedExpr) : Grows (do
        return .subscript (← register .subscript value.mark.pos) value part .load :
          Parse MarkedExpr) :=
      grows_register_bind fun _ => grows_pure
    split
    · split
      · exact hwhole _
      · exact grows_register_bind fun _ => hwhole _
    · split
      · exact fun _ => (stuck_unexpected _).growsOn
      · exact grows_register_bind fun _ => grows_register_bind fun _ => hwhole _

theorem grows_argument (he : expr.Extends) (args : Arguments) : Grows (argument expr args) := by
  intro a
  refine growsOn_peek_bind (fun _ => ?_) fun hend => ?_
  · refine growsOn_accept_ite rfl ?_ ?_
    · exact he.grows.bind fun _ => grows_register_bind fun _ => grows_pure
    refine (he.grows a).bind fun arg b => ?_
    refine growsOn_check_ite rfl (fun hassign => ?_) fun _ => ?_
    · split
      · refine growsOn_advance_bind (by rw [hassign]; rfl) ?_
        exact he.grows.bind fun _ => grows_register_bind fun _ => grows_pure
      · exact (stuck_peek_bind (stuck_unexpected _)).growsOn
    · split
      · exact grows_pure b
      · exact (stuck_throw _).growsOn
  · refine stuck_accept_ite ?_ (he.stuck a hend).bind
    rintro hkind
    rw [hkind] at hend
    cases hend

theorem growsOn_call (he : expr.Extends) (ha : a.kind = .opening .paren) (func : MarkedExpr) :
    GrowsOn a (call expr func) := by
  refine growsOn_advance_bind (by rw [ha]; rfl) ?_
  refine (grows_iterate fun args => ?_).bind fun args =>
    grows_expect_bind rfl fun _ => grows_register_bind fun _ => grows_pure
  refine grows_check_ite rfl grows_pure ((grows_argument he args).bind fun _ => ?_)
  exact grows_accept_ite rfl grows_pure grows_pure

theorem grows_suffixes (he : expr.Extends) (operand : MarkedExpr) :
    Grows (suffixes expr operand) := by
  refine grows_iterate fun e a => growsOn_peekKind_bind (g := pure (.done e)) ?_ ?_
  · intro k hk
    cases k <;> first | rfl | cases hk
  split
  · rename_i hdot
    refine growsOn_advance_bind (by rw [hdot]; rfl) ?_
    exact grows_expect_bind rfl fun _ => grows_register_bind fun _ => grows_pure
  · rename_i hsquare
    exact (growsOn_subscript he hsquare e).bind fun _ => grows_pure
  · rename_i hparen
    exact (growsOn_call he hparen e).bind fun _ => grows_pure
  · exact grows_pure a

/-! ## Expressions -/

theorem extends_tooDeep : (tooDeep : Parse MarkedExpr).Extends where
  grows _ := (stuck_peek_bind (stuck_throw _)).growsOn
  stuck _ _ := stuck_peek_bind (stuck_throw _)

theorem unary?_eq_none {k : TokenKind} (h : k.endsStatement = true) : unary? k = none := by
  cases k <;> first | rfl | cases h

theorem isInner_of_unary? {k : TokenKind} {op : UnaryOp} (h : unary? k = some op) :
    k.isInner = true := by
  cases k <;> first | rfl | cases h

/-- Expressions and operands of every depth read up to an end. -/
theorem extends_nested (depth : Nat) : (expression depth).Extends ∧ (operand depth).Extends := by
  induction depth with
  | zero => exact ⟨extends_tooDeep, extends_tooDeep⟩
  | succ depth ih =>
    obtain ⟨hexpr, hoperand⟩ := ih
    constructor
    · constructor
      · intro a
        refine growsOn_peek_bind (fun _ => ?_) fun hend => (hoperand.stuck a hend).bind
        exact (hoperand.grows a).bind fun left => grows_operators hoperand _ left
      · exact fun a ha => stuck_peek_bind (hoperand.stuck a ha).bind
    · have hstuck (a : Token) (ha : a.kind.endsStatement = true) :
          Stuck a (operand (depth + 1)) := by
        refine stuck_peek_bind ?_
        rw [unary?_eq_none ha]
        rw [if_neg]
        · exact ((extends_atom hexpr).stuck a ha).bind
        · intro hkind
          rw [hkind] at ha
          cases ha
      refine ⟨fun a => ?_, hstuck⟩
      by_cases hend : a.kind.endsStatement = true
      · exact (hstuck a hend).growsOn
      refine growsOn_peek_bind (fun _ => ?_) fun h => absurd h hend
      split
      · rename_i op hop
        refine growsOn_advance_bind (isInner_of_unary? hop) ?_
        exact hoperand.grows.bind fun _ => grows_register_bind fun _ => grows_pure
      · split
        · rename_i hkind
          exact growsOn_lambda hexpr hkind
        · exact ((extends_atom hexpr).grows a).bind fun e => grows_suffixes hexpr e

theorem extends_expression (depth : Nat) : (expression depth).Extends := (extends_nested depth).1

theorem extends_operand (depth : Nat) : (operand depth).Extends := (extends_nested depth).2

theorem extends_anyExpr : anyExpr.Extends := extends_expression maxDepth

theorem extends_anyExprList : anyExprList.Extends := extends_exprList extends_anyExpr

end Parse

end Toolchain

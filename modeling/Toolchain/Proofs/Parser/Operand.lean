import Toolchain.Proofs.Parser.Alongside
import Toolchain.Proofs.Parser.Extent
import Toolchain.Proofs.Tree.Erasure

/-!
# Operands are read alike wherever they stand

What an operand is does not depend on what follows it, as long as that is nothing that would go on
with it: a string next to a string, an attribute, a call or a subscript. Only a lambda goes on with
everything that is part of its body, so operands with a lambda outside of brackets are left out.

## Main definitions

* `Parse.Steady`: a rule for nested expressions that is the same in all places
* `Parse.Closes`: the faces that do not go on with an operand
* `Parse.plainOperand`: an operand that is no lambda

## Main results

* `Parse.alongside_plainOperand`: an operand in front of what does not go on with it
-/

namespace Toolchain

namespace Parse

open ParseState

variable {β γ : Type} {x : Face} {stop : Face → Prop} {expr : Parse MarkedExpr} {w : β → γ}

/-- A rule for nested expressions that finds nothing at the end of the input, and reads the same
wherever it stops in front of a token. -/
structure Steady (expr : Parse MarkedExpr) : Prop where
  stuck : ∀ b : Token, b.kind = .finish → Stuck b expr
  alongside : Alongside IsEnd Expr.erase expr expr

/-- No longer operand is made of an operand in front of these. -/
def Closes (x : Face) : Prop :=
  x.1 ≠ .string ∧ x.1 ≠ .dot ∧ x.1 ≠ .opening .paren ∧ x.1 ≠ .opening .square

theorem stuck_expect_bind {a : Token} {k : TokenKind} (hk : a.kind ≠ k) {f : Token → Parse β} :
    Stuck a (expect k >>= f) := by
  unfold expect
  rw [bind_assoc]
  exact stuck_check_bind hk (stuck_peek_bind (stuck_unexpected a)).bind

theorem ne_of_finish {b : Token} (hb : b.kind = .finish) {k : TokenKind} (hk : k ≠ .finish) :
    b.kind ≠ k := by
  rw [hb]
  exact hk.symm

/-! ## Lists of expressions -/

theorem alongside_exprList (he : Steady expr) :
    Alongside IsEnd Expr.erase (exprList expr) (exprList expr) := by
  intro x
  refine alongsideOn_peek_bind (settled_isEnd x) fun first first' _ _ => ?_
  apply (he.alongside x).bind
  intro head head' hhead y
  refine alongsideOn_check_ite (settled_isEnd y) (fun _ => ?_) fun _ => alongsideOn_pure hhead
  refine AlongsideOn.bind (v := List.map Expr.erase) (alongside_iterate (v := List.map Expr.erase)
    ?_ (by simpa using hhead) y) ?_
  · intro elts elts' helts z
    refine alongsideOn_accept_ite (by nofun) (settled_isEnd z) (fun _ u => ?_) fun _ => ?_
    · apply alongsideOn_peekKind_bind (settled_isEnd u)
      split
      · apply (he.alongside u).bind
        intro e e' h _
        exact alongsideOn_pure
          (congrArg Next.again (by rw [List.map_cons, List.map_cons, h, helts]))
      · exact alongsideOn_pure (congrArg Next.done helts)
    · exact alongsideOn_pure (congrArg Next.done helts)
  · intro elts elts' helts z
    refine alongsideOn_register_bind fun m m' => alongsideOn_pure ?_
    simp [helts]

/-! ## Operators -/

theorem alongside_operator? : Alongside IsEnd id operator? operator? := by
  intro x
  apply alongsideOn_peekKind_bind (settled_isEnd x)
  have htake {k : TokenKind} (hk : x.1 = k) (hfinish : k ≠ .finish)
    {f : Token → Parse (Option Infix)}
    (h : ∀ a a' : Token, Alongside IsEnd id (f a) (f a')) :
      AlongsideOn x IsEnd id (advance >>= f) (advance >>= f) :=
    alongsideOn_advance_bind (hk ▸ hfinish) fun a a' _ _ => h a a'
  split
  case h_6 hk =>
    refine htake hk (by nofun) fun _ _ y => ?_
    exact alongsideOn_accept_ite (by nofun) (settled_isEnd y) (fun _ _ => alongsideOn_pure rfl)
      fun _ => alongsideOn_pure rfl
  case h_7 hk =>
    refine htake hk (by nofun) fun _ _ y => ?_
    exact alongsideOn_expect_bind (by nofun) fun _ _ _ _ => alongsideOn_pure rfl
  case h_8 => exact alongsideOn_pure rfl
  all_goals
    rename_i hk
    exact htake hk (by nofun) fun _ _ _ => alongsideOn_pure rfl

/-- An operator folded with its operands, without annotations. -/
def Infix.join (left : Expr Unit) (folded : Bool) (right : Expr Unit) : Infix → Expr Unit
  | .binary op => .binOp () left op right
  | .connective op =>
    match left, folded with
    | .boolOp _ o values, true =>
      if o = op then .boolOp () o (values ++ [right]) else .boolOp () op [left, right]
    | left, _ => .boolOp () op [left, right]
  | .comparison op =>
    match left, folded with
    | .compare _ l rest, true => .compare () l (rest ++ [(op, right)])
    | left, _ => .compare () left [(op, right)]

/-- What is folded is seen without annotations. No token is taken. -/
theorem run_fold (pos : Position) (left : MarkedExpr) (folded : Bool)
    (right : MarkedExpr) (op : Infix)
    (s : ParseState) : ∃ e s', StateT.run (fold pos left folded right op) s = .ok (e, s') ∧
      s'.tokens = s.tokens ∧ e.erase = op.join left.erase folded right.erase := by
  cases op with
  | binary op =>
    refine ⟨_, _, rfl, rfl, ?_⟩
    rw [Expr.erase_binOp, Infix.join]
  | connective op =>
    have hpair : ∃ e s', StateT.run (do return .boolOp (← register .boolOp pos) op [left, right] :
        Parse MarkedExpr) s = .ok (e, s') ∧ s'.tokens = s.tokens ∧
          e.erase = .boolOp () op [left.erase, right.erase] := by
      refine ⟨_, _, rfl, rfl, ?_⟩
      rw [Expr.erase_boolOp, List.map_cons, List.map_singleton]
    cases folded with
    | false =>
      have hfold : fold pos left false right (.connective op) =
          (do return .boolOp (← register .boolOp pos) op [left, right]) := by cases left <;> rfl
      have hjoin : Infix.join left.erase false right.erase (.connective op) =
          .boolOp () op [left.erase, right.erase] := by cases left.erase <;> rfl
      rw [hfold, hjoin]
      exact hpair
    | true =>
      cases left with
      | boolOp m o values =>
        rw [Expr.erase_boolOp] at hpair ⊢
        unfold fold Infix.join
        by_cases ho : o = op
        · simp only [if_pos ho]
          refine ⟨_, s, rfl, rfl, ?_⟩
          rw [Expr.erase_boolOp, List.map_append, List.map_singleton]
        · simp only [if_neg ho]
          exact hpair
      | _ => exact hpair
  | comparison op =>
    have hpair : ∃ e s',
      StateT.run (do return .compare (← register .compare pos) left [(op, right)] :
        Parse MarkedExpr) s = .ok (e, s') ∧ s'.tokens = s.tokens ∧
          e.erase = .compare () left.erase [(op, right.erase)] := by
      refine ⟨_, _, rfl, rfl, ?_⟩
      rw [Expr.erase_compare, List.map_singleton]
    cases folded with
    | false =>
      have hfold : fold pos left false right (.comparison op) =
          (do return .compare (← register .compare pos) left [(op, right)]) := by cases left <;> rfl
      have hjoin : Infix.join left.erase false right.erase (.comparison op) =
          .compare () left.erase [(op, right.erase)] := by cases left.erase <;> rfl
      rw [hfold, hjoin]
      exact hpair
    | true =>
      cases left with
      | compare m l rest =>
        rw [Expr.erase_compare]
        unfold fold Infix.join
        refine ⟨_, s, rfl, rfl, ?_⟩
        rw [Expr.erase_compare, List.map_append, List.map_singleton]
      | _ => exact hpair

theorem alongside_fold {pos pos' : Position} {left left' right right' : MarkedExpr}
    (hleft : left.erase = left'.erase) (hright : right.erase = right'.erase) (folded : Bool)
    (op : Infix) :
    Alongside stop Expr.erase (fold pos left folded right op)
      (fold pos' left' folded right' op) := by
  apply alongside_of_idle (run_fold pos left folded right op)
  rw [hleft, hright]
  exact run_fold pos' left' folded right' op

theorem alongside_operators (he : Steady expr) {pos pos' : Position} {left left' : MarkedExpr}
    (hleft : left.erase = left'.erase) :
    Alongside IsEnd Expr.erase (operators expr pos left) (operators expr pos' left') := by
  refine alongside_iterate (v := fun p : MarkedExpr × Bool => (p.1.erase, p.2)) ?_
    (congrArg (fun e => (e, false)) hleft)
  rintro ⟨left, folded⟩ ⟨left', _⟩ heq x
  obtain ⟨hleft, rfl⟩ := Prod.mk.inj heq
  apply (alongside_operator? x).bind
  rintro op _ rfl y
  cases op with
  | none => exact alongsideOn_pure (congrArg Next.done hleft)
  | some op =>
    apply (he.alongside y).bind
    intro right right' hright z
    apply (alongside_fold hleft hright folded op z).bind
    intro e e' h u
    exact alongsideOn_pure (congrArg Next.again (congrArg (fun e => (e, true)) h))

/-! ## Parameters -/

theorem alongside_parameters (he : Steady expr) (close : TokenKind) :
    Alongside IsEnd Signature.erase (parameters expr close) (parameters expr close) := by
  refine alongside_iterate (v := Signature.erase) ?_ rfl
  intro s s' hs x
  refine alongsideOn_check_ite (settled_isEnd x) (fun _ => alongsideOn_pure (congrArg Next.done hs))
    fun _ => ?_
  refine alongsideOn_peek_bind (settled_isEnd x) fun token token' htoken htoken' => ?_
  obtain ⟨hparams, hdefaults, hvararg, hkwarg⟩ := Signature.mk.inj hs
  have hkind : token'.kind = token.kind := congrArg Prod.fst (htoken'.trans htoken.symm)
  extract_lets parameter finish
  have hfinish {s s' : Signature Mark MarkedExpr} (h : s.erase = s'.erase) :
      Alongside IsEnd (Next.view Signature.erase Signature.erase) (finish s) (finish s') := by
    intro y
    exact alongsideOn_accept_ite (by nofun) (settled_isEnd y)
      (fun _ _ => alongsideOn_pure (congrArg Next.again h)) fun _ => alongsideOn_pure
        (congrArg Next.done h)
  have hparameter : Alongside IsEnd Param.erase parameter parameter := by
    intro y
    refine alongsideOn_expect_bind (by nofun) fun name name' hname z => ?_
    refine alongsideOn_register_bind fun m m' => alongsideOn_pure ?_
    exact congrArg (Param.mk ()) (congrArg Prod.snd hname)
  have hnone {q q' : Option (Param Mark)} (h : q.map Param.erase = q'.map Param.erase)
    (hq : q = none) :
      q' = none := by
    rw [hq] at h
    exact Option.map_eq_none_iff.mp h.symm
  split
  · next hmult hv hk =>
    simp only [hkind.trans hmult, hnone hvararg hv, hnone hkwarg hk]
    refine alongsideOn_advance_bind ?_ fun _ _ _ _ y => ?_
    · rw [← htoken]
      show token.kind ≠ _
      rw [hmult]
      nofun
    apply (hparameter y).bind
    intro p p' hp
    refine fun z => alongsideOn_pure_bind (hfinish ?_ z)
    simp [Signature.erase, hparams, hdefaults, hp, hk]
  · next hpow hk =>
    simp only [hkind.trans hpow, hnone hkwarg hk]
    refine alongsideOn_advance_bind ?_ fun _ _ _ _ y => ?_
    · rw [← htoken]
      show token.kind ≠ _
      rw [hpow]
      nofun
    apply (hparameter y).bind
    intro p p' hp
    refine fun z => alongsideOn_pure_bind (hfinish ?_ z)
    simp [Signature.erase, hparams, hdefaults, hp, hvararg]
  · next hid hv hk =>
    simp only [hkind.trans hid, hnone hvararg hv, hnone hkwarg hk]
    apply (hparameter x).bind
    intro p p' hp y
    refine alongsideOn_accept_ite (by nofun) (settled_isEnd y) (fun _ z => ?_) fun _ => ?_
    · apply (he.alongside z).bind
      intro e e' h
      refine fun u => alongsideOn_pure_bind (hfinish ?_ u)
      simp [Signature.erase, hparams, hdefaults, hp, hv, hk, h]
    · have hempty : s.defaults.isEmpty = s'.defaults.isEmpty := by
        rw [← List.isEmpty_map (f := Expr.erase), hdefaults, List.isEmpty_map]
      simp only [hempty]
      split
      · refine alongsideOn_pure_bind (hfinish ?_ y)
        simp [Signature.erase, hparams, hdefaults, hp, hv, hk]
      · exact alongsideOn_of_stuck fun b _ => (stuck_throw _).bind
  · exact alongsideOn_of_stuck fun b _ => (stuck_unexpected _).bind

theorem alongsideOn_lambda (he : Steady expr) (hx : x.1 = .keyword .lambda) :
    AlongsideOn x IsEnd Expr.erase (lambda expr) (lambda expr) := by
  refine alongsideOn_advance_bind (by rw [hx]; nofun) fun word word' _ _ y => ?_
  apply (alongside_parameters he .colon y).bind
  intro s s' hs z
  refine alongsideOn_expect_bind (by nofun) fun _ _ _ u => ?_
  apply (he.alongside u).bind
  intro body body' hbody u
  refine alongsideOn_register_bind fun m m' => alongsideOn_pure ?_
  rw [Expr.erase_lambda, Expr.erase_lambda, hs, hbody]

/-! ## f-strings -/

/-- The faces of a text end with the end of the input. -/
theorem endsInput_start (t : Text) (arena : Arena) : EndsInput (start t arena).faces := by
  obtain ⟨before, e, heq, ⟨hkind, hvalue⟩, hbefore⟩ := exists_finish_of_tokenize t
  refine ⟨(before.filter fun t => t.kind != .comment).map Token.face, ?_, ?_⟩
  · show ((tokenize t).1.filter _).map Token.face = _
    have hface : e.face = endFace := Prod.ext hkind hvalue
    rw [heq, List.filter_append, List.map_append]
    simp [hkind, hface]
  · intro x hx
    obtain ⟨t, ht, rfl⟩ := List.mem_map.mp hx
    exact hbefore t (List.mem_filter.mp ht).1

/-- The expression of a field, which is a text of its own. -/
theorem alongside_fieldExpr (he : Steady expr) (token token' : Token) (text field : List Char) :
    Alongside stop Expr.erase (fieldExpr expr token text field)
      (fieldExpr expr token' text field) := by
  have hbody : Alongside IsEnd Expr.erase (endedField expr) (endedField expr) := by
    intro x
    apply (alongside_exprList he x).bind
    intro e e' h y
    have hrest (z : Face) : AlongsideOn z IsEnd Expr.erase (expect .finish >>= fun _ => pure e)
        (expect .finish >>= fun _ => pure e') :=
      alongsideOn_finish_bind fun _ _ => alongsideOn_pure h
    refine alongsideOn_accept_ite (by rintro ⟨⟩) (settled_isEnd y) (fun _ z => ?_) fun _ => hrest y
    exact (alongsideOn_accept (by rintro ⟨⟩) (settled_isEnd z)).bind fun _ _ _ => hrest
  intro x
  constructor
  · intro s e s' _ hrun
    obtain ⟨inner, -, rfl⟩ := exists_of_run_fieldExpr hrun
    exact List.suffix_rfl
  · intro rest s t hst _ e s' hrun _
    obtain ⟨inner, hinner, rfl⟩ := exists_of_run_fieldExpr hrun
    have hside : ParseState.Beside [endFace] (start (Text.ofChars text) s.arena)
        (start (Text.ofChars text) t.arena) := by
      obtain ⟨ahead, hfaces, hahead⟩ := endsInput_start (Text.ofChars text) s.arena
      exact ⟨⟨ahead, hfaces, hfaces, hahead⟩, by simp⟩
    obtain ⟨e', inner', hinner', -, heq⟩ := (hbody _).agrees hside rfl hinner fun _ => rfl
    exact ⟨e', { t with arena := inner'.arena }, run_fieldExpr_ok hinner',
      ⟨hst.faces, hst.some⟩, heq⟩

theorem alongside_literalPart (token token' : Token) (literal : List Char) :
    Alongside stop (List.map Expr.erase) (literalPart token literal)
      (literalPart token' literal) := by
  intro x
  unfold literalPart
  split
  · exact alongsideOn_pure rfl
  · refine alongsideOn_register_bind fun m m' => alongsideOn_pure ?_
    simp

theorem alongside_sum (token token' : Token) {ps ps' : List MarkedExpr}
    (hps : ps.map Expr.erase = ps'.map Expr.erase) {p p' : MarkedExpr} (hp : p.erase = p'.erase) :
    Alongside stop Expr.erase
      (ps.foldlM (fun left right => do
        return .binOp (← register .binOp token.pos) left .add right) p)
      (ps'.foldlM (fun left right => do
        return .binOp (← register .binOp token'.pos) left .add right) p') := by
  intro x
  induction ps generalizing p p' ps' with
  | nil =>
    obtain rfl := List.map_eq_nil_iff.mp hps.symm
    exact alongsideOn_pure hp
  | cons q ps ih =>
    obtain ⟨q', ps', rfl, hq, hps⟩ := List.map_eq_cons_iff.mp hps.symm
    rw [List.foldlM_cons, List.foldlM_cons, bind_assoc, bind_assoc]
    refine alongsideOn_register_bind fun m m' => alongsideOn_pure_bind ?_
    exact ih hps.symm (by simp [hp, hq])

theorem alongside_joinParts (token token' : Token) {ps ps' : List MarkedExpr}
    (h : ps.map Expr.erase = ps'.map Expr.erase) :
    Alongside stop Expr.erase (joinParts token ps) (joinParts token' ps') := by
  cases ps with
  | nil =>
    obtain rfl := List.map_eq_nil_iff.mp h.symm
    exact fun x => alongsideOn_register_bind fun m m' => alongsideOn_pure (by simp)
  | cons p ps =>
    obtain ⟨p', ps', rfl, hp, hps⟩ := List.map_eq_cons_iff.mp h.symm
    exact alongside_sum token token' hps.symm hp.symm

theorem alongside_parts (he : Steady expr) (token token' : Token) (n : Nat)
    (literal cs : List Char) :
    Alongside stop (List.map Expr.erase) (parts expr token n literal cs)
      (parts expr token' n literal cs) := by
  induction n generalizing literal cs with
  | zero => exact alongside_literalPart token token' literal
  | succ n ih =>
    intro x
    unfold parts
    split
    · exact alongside_literalPart token token' literal x
    · exact alongsideOn_of_stuck fun b _ => stuck_throw _
    · exact ih _ _ x
    · next inside rest _ =>
      apply (alongside_literalPart token token' literal x).bind
      intro before before' hbefore y
      split
      · exact alongsideOn_of_stuck fun b _ => stuck_throw _
      · next field _ =>
        apply (alongside_fieldExpr he token token' field.expr _ y).bind
        intro value value' hvalue z
        have hrest {spec spec' : Option MarkedExpr}
            (hspec : spec.map Expr.erase = spec'.map Expr.erase) :
            Alongside stop (List.map Expr.erase)
              (do
                let mark ← register .formattedValue token.pos
                let after ← parts expr token n [] rest
                return before ++ .formatted mark value field.conversion spec :: after)
              (do
                let mark ← register .formattedValue token'.pos
                let after ← parts expr token' n [] rest
                return before' ++ .formatted mark value' field.conversion spec' :: after) := by
          intro u
          refine alongsideOn_register_bind fun m m' => (ih [] rest u).bind ?_
          intro after after' hafter y
          exact alongsideOn_pure (by simp [hbefore, hvalue, hspec, hafter])
        split
        · exact alongsideOn_pure_bind (hrest rfl z)
        · apply (ih _ _ z).bind
          intro ps ps' hps u
          refine AlongsideOn.bind (v := Option.map Expr.erase) ?_ fun _ _ => hrest
          exact (alongside_joinParts token token' hps u).map fun _ _ => congrArg some

theorem alongside_fstring (he : Steady expr) {token token' : Token} (h : token.face = token'.face) :
    Alongside stop Expr.erase (fstring expr token) (fstring expr token') := by
  intro x
  have hvalue : token.value = token'.value := congrArg Prod.snd h
  unfold fstring
  rw [hvalue]
  apply (alongside_parts he token token' _ _ _ x).bind
  intro ps ps' hps
  exact alongside_joinParts token token' hps

/-! ## Brackets -/

theorem alongside_elements (he : Steady expr) (close : Bracket) :
    Alongside IsEnd (List.map Expr.erase) (elements expr close) (elements expr close) := by
  refine alongside_iterate (v := List.map Expr.erase) ?_ rfl
  intro elts elts' helts x
  refine alongsideOn_check_ite (settled_isEnd x)
    (fun _ => alongsideOn_pure (congrArg Next.done helts)) fun _ => ?_
  apply (he.alongside x).bind
  intro e e' h y
  have hall : (elts ++ [e]).map Expr.erase = (elts' ++ [e']).map Expr.erase := by simp [helts, h]
  exact alongsideOn_accept_ite (by nofun) (settled_isEnd y)
    (fun _ _ => alongsideOn_pure (congrArg Next.again hall))
    fun _ => alongsideOn_pure (congrArg Next.done hall)

theorem alongsideOn_paren (he : Steady expr) (hx : x.1 = .opening .paren) :
    AlongsideOn x stop Expr.erase (paren expr) (paren expr) := by
  refine alongsideOn_advance_bind (by rw [hx]; nofun) fun bracket bracket' _ _ => ?_
  apply alongside_of_stuck
  · intro b hb
    exact stuck_accept_ite (ne_of_finish hb (by nofun)) (he.stuck b hb).bind
  intro y hy
  refine alongsideOn_accept_ite (by nofun) (settled_of_ne hy stop) (fun _ z => ?_) fun _ => ?_
  · exact alongsideOn_register_bind fun m m' => alongsideOn_pure (by simp)
  apply (he.alongside y).bind_inner
  · intro first first' hfirst z hz
    refine alongsideOn_accept_ite (by nofun) (settled_of_ne hz stop) (fun _ u => ?_) fun _ => ?_
    · apply (alongside_elements he .paren u).bind_inner
      · intro rest rest' hrest y _
        refine alongsideOn_expect_bind (by nofun) fun _ _ _ z => ?_
        refine alongsideOn_register_bind fun m m' => alongsideOn_pure ?_
        simp [hfirst, hrest]
      · intro rest b hb
        exact stuck_expect_bind (ne_of_finish hb (by nofun))
    · exact alongsideOn_expect_bind (by nofun) fun _ _ _ y => alongsideOn_pure hfirst
  · intro first b hb
    exact stuck_accept_ite (ne_of_finish hb (by nofun))
      (stuck_expect_bind (ne_of_finish hb (by nofun)))

theorem alongsideOn_listDisplay (he : Steady expr) (hx : x.1 = .opening .square) :
    AlongsideOn x stop Expr.erase (listDisplay expr) (listDisplay expr) := by
  refine alongsideOn_advance_bind (by rw [hx]; nofun) fun bracket bracket' _ _ y => ?_
  apply (alongside_elements he .square y).bind_inner
  · intro elts elts' helts z _
    refine alongsideOn_expect_bind (by nofun) fun _ _ _ u => ?_
    refine alongsideOn_register_bind fun m m' => alongsideOn_pure ?_
    simp [helts]
  · intro elts b hb
    exact stuck_expect_bind (ne_of_finish hb (by nofun))

theorem alongsideOn_dictDisplay (he : Steady expr) (hx : x.1 = .opening .brace) :
    AlongsideOn x stop Expr.erase (dictDisplay expr) (dictDisplay expr) := by
  refine alongsideOn_advance_bind (by rw [hx]; nofun) fun bracket bracket' _ _ y => ?_
  let erase : MarkedExpr × MarkedExpr → Expr Unit × Expr Unit := fun p => (p.1.erase, p.2.erase)
  refine AlongsideOn.bind_inner (v := List.map erase)
    (alongside_iterate (v := List.map erase) ?_ rfl y) ?_ ?_
  · intro items items' hitems z
    refine alongsideOn_check_ite (settled_isEnd z)
      (fun _ => alongsideOn_pure (congrArg Next.done hitems)) fun _ => ?_
    apply (he.alongside z).bind
    intro key key' hkey u
    refine alongsideOn_expect_bind (by nofun) fun _ _ _ u => ?_
    apply (he.alongside u).bind
    intro value value' hvalue u
    have hall : (items ++ [(key, value)]).map erase = (items' ++ [(key', value')]).map erase := by
      simp [erase, hitems, hkey, hvalue]
    exact alongsideOn_accept_ite (by nofun) (settled_isEnd u)
      (fun _ _ => alongsideOn_pure (congrArg Next.again hall))
      fun _ => alongsideOn_pure (congrArg Next.done hall)
  · intro items items' hitems z _
    refine alongsideOn_expect_bind (by nofun) fun _ _ _ u => ?_
    refine alongsideOn_register_bind fun m m' => alongsideOn_pure ?_
    rw [Expr.erase_dict, Expr.erase_dict]
    exact congrArg _ hitems
  · intro items b hb
    exact stuck_expect_bind (ne_of_finish hb (by nofun))

/-! ## Atoms -/

theorem alongside_constantAt (token token' : Token) (value : Literal) :
    Alongside stop Expr.erase (constantAt token value) (constantAt token' value) := by
  intro x
  exact alongsideOn_register_bind fun m m' => alongsideOn_pure (by simp)

theorem alongside_adjacentStrings (hstop : ∀ y, stop y → Closes y) (first : String) :
    Alongside stop id (adjacentStrings first) (adjacentStrings first) := by
  refine alongside_iterate (v := id) ?_ rfl
  rintro s _ rfl x
  refine alongsideOn_check_ite_of ?_ (fun hx => ?_) fun _ => alongsideOn_pure rfl
  · intro _ y hy
    exact ⟨fun h => absurd h (hstop y hy).1, nofun⟩
  · refine alongsideOn_advance_bind (by rw [hx]; nofun) fun token token' htoken htoken' y => ?_
    have hvalue : token.value = token'.value := congrArg Prod.snd (htoken.trans htoken'.symm)
    exact alongsideOn_pure (by rw [hvalue]; rfl)

theorem alongsideOn_atom (he : Steady expr) (hstop : ∀ y, stop y → Closes y) (hx : x.1 ≠ .finish) :
    AlongsideOn x stop Expr.erase (atom expr) (atom expr) := by
  refine alongsideOn_peek_bind (settled_of_ne hx stop) fun token token' htoken htoken' => ?_
  have hface : token'.face = token.face := htoken'.trans htoken.symm
  have hkind : token'.kind = token.kind := congrArg Prod.fst hface
  have hvalue : token'.value = token.value := congrArg Prod.snd hface
  have htake {f f' : Token → Parse MarkedExpr}
      (h : ∀ a a' : Token, Alongside stop Expr.erase (f a) (f' a')) :
      AlongsideOn x stop Expr.erase (advance >>= f) (advance >>= f') :=
    alongsideOn_advance_bind hx fun a a' _ _ => h a a'
  have hxkind : x.1 = token.kind := by
    rw [← htoken]
    rfl
  rw [hkind, hvalue]
  split
  case h_1 =>
    refine htake fun _ _ y => ?_
    exact alongsideOn_register_bind fun m m' => alongsideOn_pure (by simp)
  case h_2 =>
    refine htake fun _ _ y => ?_
    split
    · exact alongside_constantAt token token' _ y
    · exact alongsideOn_of_stuck fun b _ => stuck_throw _
  case h_3 =>
    refine htake fun _ _ y => ?_
    split
    · exact alongside_constantAt token token' _ y
    · exact alongsideOn_of_stuck fun b _ => stuck_throw _
  case h_4 =>
    refine htake fun _ _ y => ?_
    apply (alongside_adjacentStrings hstop token.value y).bind
    rintro s _ rfl
    exact alongside_constantAt token token' _
  case h_5 => exact htake fun _ _ => alongside_fstring he hface.symm
  case h_6 => exact htake fun _ _ => alongside_constantAt token token' _
  case h_7 => exact htake fun _ _ => alongside_constantAt token token' _
  case h_8 => exact htake fun _ _ => alongside_constantAt token token' _
  case h_9 hopen => exact alongsideOn_paren he (hxkind.trans hopen)
  case h_10 hopen => exact alongsideOn_listDisplay he (hxkind.trans hopen)
  case h_11 hopen => exact alongsideOn_dictDisplay he (hxkind.trans hopen)
  case h_12 => exact alongsideOn_of_stuck fun b _ => stuck_unexpected _

/-! ## Suffixes -/

theorem alongside_expr? (he : Steady expr) :
    Alongside IsEnd (Option.map Expr.erase) (expr? expr) (expr? expr) := by
  intro x
  apply alongsideOn_peekKind_bind (settled_isEnd x)
  split
  · apply (he.alongside x).bind
    intro e e' h y
    exact alongsideOn_pure (congrArg some h)
  · exact alongsideOn_pure rfl

theorem alongside_sliceItem (he : Steady expr) :
    Alongside IsEnd Expr.erase (sliceItem expr) (sliceItem expr) := by
  intro x
  refine alongsideOn_peek_bind (settled_isEnd x) fun token token' _ _ => ?_
  extract_lets rest rest'
  have hrest {lower lower' : Option MarkedExpr}
    (hlower : lower.map Expr.erase = lower'.map Expr.erase) :
      Alongside IsEnd Expr.erase (rest lower) (rest' lower') := by
    intro y
    refine alongsideOn_expect_bind (by nofun) fun _ _ _ z => ?_
    apply (alongside_expr? he z).bind
    intro upper upper' hupper u
    have hend {step step' : Option MarkedExpr} (hstep : step.map Expr.erase = step'.map Expr.erase)
        (y : Face) : AlongsideOn y IsEnd Expr.erase
          (do return .slice (← register .slice token.pos) lower upper step)
          (do return .slice (← register .slice token'.pos) lower' upper' step') := by
      refine alongsideOn_register_bind fun m m' => alongsideOn_pure ?_
      rw [Expr.erase_slice, Expr.erase_slice, hlower, hupper, hstep]
    refine alongsideOn_accept_ite (by nofun) (settled_isEnd u) (fun _ y => ?_)
      fun _ => alongsideOn_pure_bind (hend rfl u)
    apply (alongside_expr? he y).bind
    intro step step' hstep
    exact hend hstep
  refine alongsideOn_check_ite (settled_isEnd x) (fun _ => hrest rfl x) fun _ => ?_
  apply (he.alongside x).bind
  intro lower lower' hlower y
  have hsome : (some lower).map Expr.erase = (some lower').map Expr.erase := congrArg some hlower
  exact alongsideOn_check_ite (settled_isEnd y) (fun _ => hrest hsome y)
    fun _ => alongsideOn_pure hlower

theorem isSlice_eq {e e' : MarkedExpr} (h : e.erase = e'.erase) : isSlice e = isSlice e' := by
  have herase (e : MarkedExpr) : isSlice e = decide (e.erase.tag = .slice) := by cases e <;> rfl
  rw [herase e, herase e', h]

theorem findIdx?_isSlice_eq {es es' : List MarkedExpr}
    (h : es.map Expr.erase = es'.map Expr.erase) :
    es.findIdx? isSlice = es'.findIdx? isSlice := by
  induction es generalizing es' with
  | nil => rw [List.map_eq_nil_iff.mp h.symm]
  | cons e es ih =>
    obtain ⟨e', es', rfl, he, hes⟩ := List.map_eq_cons_iff.mp h.symm
    rw [List.findIdx?_cons, List.findIdx?_cons, isSlice_eq he, ih hes.symm]

/-- The end of a subscript. -/
theorem alongsideOn_subscript (he : Steady expr) (hx : x.1 = .opening .square)
    {value value' : MarkedExpr}
    (hvalue : value.erase = value'.erase) :
    AlongsideOn x stop Expr.erase (subscript expr value) (subscript expr value') := by
  refine alongsideOn_advance_bind (by rw [hx]; nofun) fun _ _ _ _ y => ?_
  let v : List MarkedExpr × List Token →
    List (Expr Unit) × Nat := fun p => (p.1.map Expr.erase, p.2.length)
  refine AlongsideOn.bind_inner (v := v) (alongside_iterate (v := v) ?_ rfl y) ?_ ?_
  · rintro ⟨items, commas⟩ ⟨items', commas'⟩ heq z
    obtain ⟨hitems, hcommas⟩ := Prod.mk.inj heq
    apply (alongside_sliceItem he z).bind
    intro item item' hitem u
    have hall : (items ++ [item]).map Expr.erase = (items' ++ [item']).map Expr.erase := by
      simp [hitems, hitem]
    refine alongsideOn_check_ite (settled_isEnd u) (fun hu => ?_)
      fun _ => alongsideOn_pure (congrArg Next.done (Prod.ext hall hcommas))
    refine alongsideOn_advance_bind (by rw [hu]; nofun) fun comma comma' _ _ y => ?_
    have hlength : (commas ++ [comma]).length = (commas' ++ [comma']).length := by
      rw [List.length_append, List.length_append, hcommas]
      rfl
    exact alongsideOn_check_ite (settled_isEnd y)
      (fun _ => alongsideOn_pure (congrArg Next.done (Prod.ext hall hlength)))
      fun _ => alongsideOn_pure (congrArg Next.again (Prod.ext hall hlength))
  · rintro ⟨items, commas⟩ ⟨items', commas'⟩ heq z _
    have hitems : items.map Expr.erase = items'.map Expr.erase := (Prod.mk.inj heq).1
    have hcommas : commas.length = commas'.length := (Prod.mk.inj heq).2
    refine alongsideOn_expect_bind (by nofun) fun _ _ _ u => ?_
    have hpart {part part' : MarkedExpr} (h : part.erase = part'.erase) :
        Alongside stop Expr.erase
          (do return .subscript (← register .subscript value.mark.pos) value part .load)
          (do return .subscript (← register .subscript value'.mark.pos) value' part' .load) := by
      intro y
      refine alongsideOn_register_bind fun m m' => alongsideOn_pure ?_
      rw [Expr.erase_subscript, Expr.erase_subscript, hvalue, h]
    split
    · next item =>
      obtain ⟨item', rest, rfl, hitem, hrest⟩ := List.map_eq_cons_iff.mp hitems.symm
      obtain rfl := List.map_eq_nil_iff.mp hrest
      obtain rfl := List.length_eq_zero_iff.mp hcommas.symm
      simp only [isSlice_eq hitem]
      split
      · exact hpart hitem.symm u
      · refine alongsideOn_register_bind fun m m' => hpart ?_ u
        rw [Expr.erase_index, Expr.erase_index, hitem]
    · next hmany =>
      split
      · exact alongsideOn_of_stuck fun b _ => stuck_unexpected _
      · next hslice =>
        split
        · next item' =>
          -- the other side has one item and no comma either
          obtain ⟨item, rest, rfl, -, hrest⟩ := List.map_eq_cons_iff.mp hitems
          obtain rfl := List.map_eq_nil_iff.mp hrest
          obtain rfl := List.length_eq_zero_iff.mp hcommas
          exact absurd rfl (hmany item rfl)
        · rw [← findIdx?_isSlice_eq hitems, hslice]
          refine alongsideOn_register_bind fun m m' => alongsideOn_register_bind fun n n' => ?_
          refine hpart ?_ u
          rw [Expr.erase_index, Expr.erase_index, Expr.erase_tuple, Expr.erase_tuple, hitems]
  · rintro ⟨items, commas⟩ b hb
    exact stuck_expect_bind (ne_of_finish hb (by nofun))

/-- Arguments without annotations. -/
def Arguments.erase (a : Arguments) : List (Expr Unit) × List (KeywordArg Unit (Expr Unit)) :=
  (a.args.map Expr.erase, a.keywords.map KeywordArg.erase)

theorem alongside_argument (he : Steady expr) {a a' : Arguments} (ha : a.erase = a'.erase) :
    Alongside IsEnd Arguments.erase (argument expr a) (argument expr a') := by
  intro x
  obtain ⟨hargs, hkeywords⟩ := Prod.mk.inj ha
  refine alongsideOn_peek_bind (settled_isEnd x) fun token token' _ _ => ?_
  have hkeyword {name : Option String} : Alongside IsEnd Arguments.erase
      (do
        let value ← expr
        let mark ← register .keyword token.pos
        return { a with keywords := a.keywords ++ [⟨mark, name, value⟩] })
      (do
        let value ← expr
        let mark ← register .keyword token'.pos
        return { a' with keywords := a'.keywords ++ [⟨mark, name, value⟩] }) := by
    intro y
    apply (he.alongside y).bind
    intro value value' hvalue z
    refine alongsideOn_register_bind fun m m' => alongsideOn_pure ?_
    simp [Arguments.erase, KeywordArg.erase, hargs, hkeywords, hvalue]
  refine alongsideOn_accept_ite (by nofun) (settled_isEnd x) (fun _ => hkeyword) fun _ => ?_
  apply (he.alongside x).bind
  intro arg arg' harg y
  refine alongsideOn_check_ite (settled_isEnd y) (fun hy => ?_) fun _ => ?_
  · split
    · next m id ctx =>
      obtain ⟨m', rfl⟩ : ∃ m', arg' = .name m' id ctx := by
        cases arg' <;> simp at harg
        exact ⟨_, by rw [harg.1, harg.2]⟩
      exact alongsideOn_advance_bind (by rw [hy]; nofun) fun _ _ _ _ => hkeyword
    · exact alongsideOn_of_stuck fun b _ => stuck_peek_bind (stuck_unexpected _)
  · have hempty : a.keywords.isEmpty = a'.keywords.isEmpty := by
      rw [← List.isEmpty_map (f := KeywordArg.erase), hkeywords, List.isEmpty_map]
    simp only [hempty]
    split
    · refine alongsideOn_pure ?_
      simp [Arguments.erase, hargs, hkeywords, harg]
    · exact alongsideOn_of_stuck fun b _ => stuck_throw _

theorem alongsideOn_call (he : Steady expr) (hx : x.1 = .opening .paren) {func func' : MarkedExpr}
    (hfunc : func.erase = func'.erase) :
    AlongsideOn x stop Expr.erase (call expr func) (call expr func') := by
  refine alongsideOn_advance_bind (by rw [hx]; nofun) fun _ _ _ _ y => ?_
  refine AlongsideOn.bind_inner (v := Arguments.erase)
    (alongside_iterate (v := Arguments.erase) ?_ rfl y) ?_ ?_
  · intro a a' ha z
    refine alongsideOn_check_ite (settled_isEnd z)
      (fun _ => alongsideOn_pure (congrArg Next.done ha)) fun _ => ?_
    apply (alongside_argument he ha z).bind
    intro b b' hb u
    exact alongsideOn_accept_ite (by nofun) (settled_isEnd u)
      (fun _ _ => alongsideOn_pure (congrArg Next.again hb))
      fun _ => alongsideOn_pure (congrArg Next.done hb)
  · intro a a' ha z _
    obtain ⟨hargs, hkeywords⟩ := Prod.mk.inj ha
    refine alongsideOn_expect_bind (by nofun) fun _ _ _ u => ?_
    refine alongsideOn_register_bind fun m m' => alongsideOn_pure ?_
    rw [Expr.erase_call, Expr.erase_call, hfunc, hargs, hkeywords]
  · intro a b hb
    exact stuck_expect_bind (ne_of_finish hb (by nofun))

theorem alongside_suffixes (he : Steady expr) (hstop : ∀ y, stop y → Closes y) {e e' : MarkedExpr}
    (h : e.erase = e'.erase) : Alongside stop Expr.erase (suffixes expr e) (suffixes expr e') := by
  refine alongside_iterate (v := Expr.erase) ?_ h
  intro e e' h x
  apply alongsideOn_peekKind_bind_of
  · intro _ y hy
    obtain ⟨-, hdot, hparen, hsquare⟩ := hstop y hy
    split
    · next hk => exact absurd hk hdot
    · next hk => exact absurd hk hsquare
    · next hk => exact absurd hk hparen
    · rfl
  split
  · next hk =>
    refine alongsideOn_advance_bind (by rw [hk]; nofun) fun _ _ _ _ y => ?_
    refine alongsideOn_expect_bind (by nofun) fun name name' hname z => ?_
    refine alongsideOn_register_bind fun m m' => alongsideOn_pure (congrArg Next.again ?_)
    have hvalue : name.value = name'.value := congrArg Prod.snd hname
    rw [Expr.erase_attr, Expr.erase_attr, h, hvalue]
  · next hk =>
    apply (alongsideOn_subscript he hk h).bind
    intro r r' hr y
    exact alongsideOn_pure (congrArg Next.again hr)
  · next hk =>
    apply (alongsideOn_call he hk h).bind
    intro r r' hr y
    exact alongsideOn_pure (congrArg Next.again hr)
  · exact alongsideOn_pure (congrArg Next.done h)

/-! ## Expressions and operands -/

/-- An operand that is no lambda. -/
def plainOperand : Nat → Parse MarkedExpr
  | 0 => tooDeep
  | depth + 1 => do
    let token ← peek
    match unary? token.kind with
    | some op =>
      let _ ← advance
      let e ← plainOperand depth
      return .unaryOp (← register .unaryOp token.pos) op e
    | none =>
      let e ← atom (expression depth)
      suffixes (expression depth) e

theorem stuck_operand_of_finish (depth : Nat) (b : Token) (hb : b.kind = .finish) :
    Stuck b (operand depth) :=
  (extends_operand depth).stuck b (by rw [hb]; rfl)

theorem stuck_expression_of_finish (depth : Nat) (b : Token) (hb : b.kind = .finish) :
    Stuck b (expression depth) :=
  (extends_expression depth).stuck b (by rw [hb]; rfl)

theorem alongsideOn_suffixed (he : Steady expr) (hstop : ∀ y, stop y → Closes y)
    (hx : x.1 ≠ .finish) :
    AlongsideOn x stop Expr.erase (do suffixes expr (← atom expr))
      (do suffixes expr (← atom expr)) :=
  (alongsideOn_atom he hstop hx).bind fun _ _ => alongside_suffixes he hstop

theorem closes_of_isEnd (y : Face) (hy : IsEnd y) : Closes y := by
  rw [hy]
  exact ⟨nofun, nofun, nofun, nofun⟩

theorem steady_nested (depth : Nat) : Steady (expression depth) ∧ Steady (operand depth) := by
  induction depth with
  | zero =>
    have hdeep : Alongside IsEnd Expr.erase (tooDeep : Parse MarkedExpr) tooDeep := fun x =>
      alongsideOn_of_stuck fun b _ => stuck_peek_bind (stuck_throw _)
    exact ⟨⟨stuck_expression_of_finish 0, hdeep⟩, ⟨stuck_operand_of_finish 0, hdeep⟩⟩
  | succ depth ih =>
    obtain ⟨hexpr, hoperand⟩ := ih
    constructor
    · refine ⟨stuck_expression_of_finish _, fun x => ?_⟩
      refine alongsideOn_peek_bind (settled_isEnd x) fun first first' _ _ => ?_
      apply (hoperand.alongside x).bind
      intro left left' hleft
      exact alongside_operators hoperand hleft
    · refine ⟨stuck_operand_of_finish _,
        alongside_of_stuck (stuck_operand_of_finish _) fun x hx => ?_⟩
      refine alongsideOn_peek_bind (settled_isEnd x) fun token token' htoken htoken' => ?_
      have hkind : token'.kind = token.kind := congrArg Prod.fst (htoken'.trans htoken.symm)
      rw [hkind]
      split
      · refine alongsideOn_advance_bind hx fun _ _ _ _ y => ?_
        apply (hoperand.alongside y).bind
        intro e e' h z
        exact alongsideOn_register_bind fun m m' => alongsideOn_pure (by simp [h])
      · split
        · next hlambda =>
          refine alongsideOn_lambda hexpr ?_
          rw [← htoken]
          exact hlambda
        · exact alongsideOn_suffixed hexpr closes_of_isEnd hx

/-- **An operand that is no lambda is the same wherever it stands**, in front of what does not go on
with it. -/
theorem alongside_plainOperand (depth : Nat) :
    Alongside Closes Expr.erase (plainOperand depth) (operand depth) := by
  induction depth with
  | zero => exact fun x => alongsideOn_of_stuck fun b _ => stuck_peek_bind (stuck_throw _)
  | succ depth ih =>
    apply alongside_of_stuck
    · intro b hb
      refine stuck_peek_bind ?_
      rw [hb]
      exact ((extends_atom (extends_expression depth)).stuck b (by rw [hb]; rfl)).bind
    intro x hx
    refine alongsideOn_peek_bind (settled_of_ne hx Closes) fun token token' htoken htoken' => ?_
    have hkind : token'.kind = token.kind := congrArg Prod.fst (htoken'.trans htoken.symm)
    rw [hkind]
    cases hop : unary? token.kind with
    | some op =>
      refine alongsideOn_advance_bind hx fun _ _ _ _ y => ?_
      apply (ih y).bind
      intro e e' h z
      exact alongsideOn_register_bind fun m m' => alongsideOn_pure (by simp [h])
    | none =>
      dsimp only
      split
      · next hlambda =>
        refine alongsideOn_of_stuck fun b hb => (stuck_peek_bind ?_).bind
        have hb : b.kind = .keyword .lambda := by
          rw [← htoken] at hb
          exact (congrArg Prod.fst hb).trans hlambda
        simp only [hb]
        exact stuck_unexpected b
      · exact alongsideOn_suffixed (steady_nested depth).1 (fun _ h => h) hx

end Parse

end Toolchain

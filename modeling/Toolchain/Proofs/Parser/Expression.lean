import Toolchain.Proofs.Decimal.Rounding
import Toolchain.Proofs.Parser.GuardedExpression

/-!
# Parsed expressions

Each rule of the grammar of expressions yields well-formed expressions if the rule for nested
expressions does, and the rule that goes on after a fault follows the one that ends in it if it does
so for nested expressions. Both are seen from how a rule is put together, so they are seen in one
pass. The two rules that call each other are taken together, by induction on the depth that bounds
them.

## Main results

* `GuardedParse.follows_fieldExpr`: what a field is read as, and that its faults are one fault
* `GuardedParse.follows_expression`, `GuardedParse.follows_operand`: **every parsed expression is
  well formed, and reading it follows the parser that ends in a fault**
* `GuardedParse.follows_exprList`: so it is for a list of them
-/

namespace Toolchain

namespace Parse

open Expr

/-- What stands in a subscript: an expression, or a slice. -/
def IsItem (e : MarkedExpr) : Prop :=
  if isSlice e then e.PartWellFormed else e.WellFormed

theorem IsItem.wellFormed {e : MarkedExpr} (h : IsItem e) (hs : isSlice e = false) :
    e.WellFormed := by
  rwa [IsItem, hs] at h

theorem isItem_of_wellFormed {e : MarkedExpr} (h : e.WellFormed) : IsItem e := by
  unfold IsItem isSlice
  split
  · exact absurd h (by simp [WellFormed])
  · exact h

/-- The arguments of a call are well formed. -/
def Arguments.WellFormed (a : Arguments) : Prop :=
  AllWellFormed a.args ∧ KeywordsWellFormed a.keywords

theorem Arguments.WellFormed.keyword {a : Arguments} (ha : a.WellFormed) {m : Mark}
    {key : Option String} (hkey : ∀ id ∈ key, IsIdentifier id) {value : MarkedExpr}
    (hvalue : value.WellFormed) :
    Arguments.WellFormed { a with keywords := a.keywords ++ [⟨m, key, value⟩] } := by
  refine ⟨ha.1, ?_⟩
  have hkeywords := ha.2
  rw [keywordsWellFormed_iff] at hkeywords ⊢
  exact List.forall_mem_append.mpr ⟨hkeywords, List.forall_mem_singleton.mpr ⟨hkey, hvalue⟩⟩

theorem proper_start (t : Text) (arena : Arena) : (start t arena).Proper :=
  fun _ h => proper_of_mem_tokenize (List.mem_filter.mp h).1

/-- The value of an integer literal is not negative. -/
theorem nonneg_of_integer? {s : String} {n : Int64} (h : integer? s = some n) : 0 ≤ n.toInt := by
  have hword (k : Nat) (h : (if k < twoPow 63 then some (Int64.ofNat k) else none) = some n) :
      0 ≤ n.toInt := by
    split at h
    · next hlt =>
      obtain rfl := Option.some.inj h
      rw [Int64.toInt_ofNat_of_lt hlt]
      exact Int.natCast_nonneg _
    · cases h
  exact hword _ h

theorem allWellFormed_append_singleton {es : List MarkedExpr} {e : MarkedExpr}
    (hes : AllWellFormed es) (he : e.WellFormed) : AllWellFormed (es ++ [e]) := by
  rw [allWellFormed_iff] at hes ⊢
  exact List.forall_mem_append.mpr ⟨hes, List.forall_mem_singleton.mpr he⟩

end Parse

namespace GuardedParse

open Guarded Parse Expr

variable {expr : GuardedParse MarkedExpr} {expr' : Parse MarkedExpr}

theorem follows_tooDeep : Follows id WellFormed tooDeep Parse.tooDeep :=
  follows_next.bind fun token _ => follows_fail (Fault.placed_placed rfl token (by decide)) _

theorem follows_exprList (he : Follows id WellFormed expr expr') :
    Follows id WellFormed (exprList expr) (Parse.exprList expr') := by
  refine follows_next.bind fun first _ => he.bind fun head hhead => .ifCalm ?_ _
  refine (follows_check _).bind fun comma _ => .ite ?_ (follows_pure hhead)
  refine (follows_iterate (I := AllWellFormed) (Q := AllWellFormed) (s := [head])
    (fun elts helts => ?_) _ ⟨hhead, trivial⟩).bind fun elts helts => .ifCalm ?_ _
  · refine (follows_accept _).bind fun more _ => .ite ?_ (follows_done helts)
    refine follows_peekKind.bind fun kind _ => .ite ?_ (follows_done helts)
    exact he.bind fun e h => .ifCalm (follows_again ⟨h, helts⟩) _
  · refine follows_made _ _ fun m => ⟨?_, rfl⟩
    rw [allWellFormed_iff] at helts ⊢
    exact fun e h => helts e (List.mem_reverse.mp h)

theorem follows_operator? : Matches id operator? Parse.operator? := by
  refine follows_peekKind.bind fun kind _ => ?_
  have htaken (op : Infix) : Matches id (do let _ ← advance; return some op)
      (do let _ ← Parse.advance; return some op) :=
    follows_taken.bind fun _ _ => follows_pure trivial
  cases kind with
  | binary op => exact htaken _
  | compare op => exact htaken _
  | keyword k =>
    cases k with
    | and => exact htaken _
    | or => exact htaken _
    | «in» => exact htaken _
    | is =>
      exact follows_taken.bind fun _ _ => (follows_accept _).bind fun _ _ =>
        .ite (follows_pure trivial) (follows_pure trivial)
    | not =>
      exact follows_taken.bind fun _ _ => (follows_expected _).ifSome fun _ _ =>
        follows_pure trivial
    | _ => exact follows_pure trivial
  | _ => exact follows_pure trivial

theorem follows_fold {pos : Position} {left right : MarkedExpr} (hleft : left.WellFormed)
    (hright : right.WellFormed) (folded : Bool) (op : Infix) : Follows id WellFormed
      (fold pos left folded right op) (Parse.fold pos left folded right op) := by
  cases op with
  | binary op => exact follows_made _ _ fun _ => ⟨hleft, hright⟩
  | connective op =>
    have hpair : Follows id WellFormed
        (do return .boolOp (← register .boolOp pos) op [left, right] : GuardedParse MarkedExpr)
        (do return .boolOp (← Parse.register .boolOp pos) op [left, right]) :=
      follows_made _ _ fun _ => ⟨Nat.le_refl 2, hleft, hright, trivial⟩
    cases left with
    | boolOp m o values =>
      cases folded with
      | true =>
        obtain ⟨hlength, hvalues⟩ := hleft
        refine .ite (follows_pure ⟨?_, ?_⟩) hpair
        · rw [List.length_append]
          exact Nat.le_add_right_of_le hlength
        · rw [allWellFormed_iff] at hvalues ⊢
          exact List.forall_mem_append.mpr ⟨hvalues, List.forall_mem_singleton.mpr hright⟩
      | false => exact hpair
    | _ => exact hpair
  | comparison op =>
    have hpair : Follows id WellFormed
        (do return .compare (← register .compare pos) left [(op, right)] : GuardedParse MarkedExpr)
        (do return .compare (← Parse.register .compare pos) left [(op, right)]) :=
      follows_made _ _ fun _ => ⟨hleft, by simp, hright, trivial⟩
    cases left with
    | compare m l rest =>
      cases folded with
      | true =>
        obtain ⟨hl, hne, hrest⟩ := hleft
        refine follows_pure ⟨hl, by simp, ?_⟩
        rw [restWellFormed_iff] at hrest ⊢
        exact List.forall_mem_append.mpr ⟨hrest, List.forall_mem_singleton.mpr hright⟩
      | false => exact hpair
    | _ => exact hpair

theorem follows_operators (he : Follows id WellFormed expr expr') {pos : Position}
    {left : MarkedExpr} (hleft : left.WellFormed) :
    Follows id WellFormed (operators expr pos left) (Parse.operators expr' pos left) := by
  refine .thenIfCalm (follows_iterate (I := fun p => p.1.WellFormed) (fun (left, folded) h => ?_) _
    hleft) _
  refine .ifCalm (follows_operator?.bind fun op _ => ?_) _
  cases op with
  | none => exact follows_done h
  | some op =>
    exact he.bind fun right hright => (follows_fold h hright folded op).bind fun e he =>
      follows_again he

/-! ## Parameters -/

theorem follows_parameter : Follows some (fun p => IsIdentifier p.name) parameter (do
    let name ← expect .identifier
    return ⟨← Parse.register .arg name.pos, name.value⟩) :=
  follows_identifier.ifSome fun _ hname => follows_made _ _ fun _ => hname

theorem follows_parameters (he : Follows id WellFormed expr expr') (stop : TokenKind) :
    Follows id Signature.WellFormed (parameters expr stop) (Parse.parameters expr' stop) := by
  refine follows_iterate (I := Signature.WellFormed) (fun s hs => .ifCalm ?_ _) _
    ⟨⟨by simp, by simp, by simp, by simp⟩, trivial⟩
  refine (follows_check _).bind fun stopped _ => .ite (follows_done hs) ?_
  refine follows_next.bind fun token _ => ?_
  extract_lets parameter' finish
  have hafter (s : Signature Mark MarkedExpr) (hs : s.WellFormed) :
      Follows (viewNext id) (Next.Holds Signature.WellFormed Signature.WellFormed)
        (afterParameter s) (finish s) :=
    (follows_accept _).bind fun _ _ => .ite (follows_again hs) (follows_done hs)
  have hother : Follows (viewNext id) (Next.Holds Signature.WellFormed Signature.WellFormed)
      (do unexpected token; return .done s) (Parse.unexpected token >>= finish) :=
    ((raises_unexpected token).bind _).andThen _
  unfold nextParameter
  generalize token.kind = kind
  obtain ⟨params, defaults, vararg, kwarg⟩ := s
  obtain ⟨⟨hparams, hvararg, hkwarg, hlength⟩, hdefaults⟩ := hs
  cases kind with
  | binary op =>
    cases op with
    | mult =>
      cases vararg with
      | some p => exact hother
      | none =>
        cases kwarg with
        | some p => exact hother
        | none =>
          exact follows_taken.bind fun _ _ => follows_parameter.ifSome fun p hp =>
            hafter _ ⟨⟨hparams, by simpa using hp, hkwarg, hlength⟩, hdefaults⟩
    | pow =>
      cases kwarg with
      | some p => exact hother
      | none =>
        exact follows_taken.bind fun _ _ => follows_parameter.ifSome fun p hp =>
          hafter _ ⟨⟨hparams, hvararg, by simpa using hp, hlength⟩, hdefaults⟩
    | _ => exact hother
  | identifier =>
    cases vararg with
    | some p => exact hother
    | none =>
      cases kwarg with
      | some p => exact hother
      | none =>
        refine follows_parameter.ifSome fun p hp => ?_
        have hmore : ∀ q ∈ params ++ [p], IsIdentifier q.name :=
          List.forall_mem_append.mpr ⟨hparams, List.forall_mem_singleton.mpr hp⟩
        refine (follows_accept _).bind fun assign _ => .ite ?_ (.ite ?_ ?_)
        · refine he.bind fun default hdefault => hafter _ ⟨⟨hmore, hvararg, hkwarg, ?_⟩, ?_⟩
          · simpa using hlength
          · simp only [allWellFormed_iff] at hdefaults ⊢
            exact List.forall_mem_append.mpr ⟨hdefaults, List.forall_mem_singleton.mpr hdefault⟩
        · refine hafter _ ⟨⟨hmore, hvararg, hkwarg, ?_⟩, hdefaults⟩
          simpa using Nat.le_succ_of_le hlength
        · exact ((raises_fail (Fault.placed_placed rfl token (by decide))).bind _).andThen _
  | _ => exact hother

theorem follows_lambda (he : Follows id WellFormed expr expr') :
    Follows id WellFormed (lambda expr) (Parse.lambda expr') :=
  follows_taken.bind fun _ _ => (follows_parameters he _).bind fun _ hs =>
    (follows_expected _).ifSome fun _ _ => he.bind fun _ hbody =>
      .ifCalm (follows_made _ _ fun _ => ⟨hs.1, hs.2, hbody⟩) _

/-! ## F-strings -/

theorem raises_badField {α : Type} (token : Token) (field : List Char) :
    Raises (badField token field) (Parse.badField token field : Parse α) :=
  raises_fail (Fault.placed_atToken rfl token [] [.text (Text.ofChars field)] (by decide))

theorem follows_badLiteral (token : Token) :
    Follows id WellFormed (badLiteral token) (Parse.badLiteral token) :=
  follows_fail (Fault.placed_atToken rfl token [] [.text token.value] (by decide)) _

theorem follows_fieldList (he : Follows id WellFormed expr expr') :
    Follows id WellFormed (fieldList expr) (Parse.fieldList expr') := by
  refine (follows_exprList he).bind fun e h => (follows_accept _).bind fun newLine _ => .ite ?_ ?_
  · exact (follows_accept _).bind fun _ _ => follows_pure h
  · exact follows_pure h

/-- The parser of a field finds something wrong where the one that ends in a fault has no result. -/
theorem toOption_run_endedField (he : Follows id WellFormed expr expr') {s : Guard ParseState}
    (hs : s.state.Proper) (hcalm : s.panicking = false) :
    (StateT.run (endedField expr') s.state).toOption =
      if ((wholeField expr).exec s).1.2 = true then none
      else some (((wholeField expr).exec s).1.1, ((wholeField expr).exec s).2.state) := by
  have hlist := follows_fieldList he s hs hcalm
  have hexec : (wholeField expr).exec s = ((((fieldList expr).exec s).1,
      ((fieldList expr).exec s).2.panicking ||
        !((check .finish).exec ((fieldList expr).exec s).2).1), ((fieldList expr).exec s).2) := rfl
  rw [hexec, endedField_eq, StateT.run_bind]
  cases hrun : StateT.run (Parse.fieldList expr') s.state with
  | error f =>
    rw [hrun] at hlist
    -- after a fault the token behind the field looks like the end, so the flag has to tell
    rw [Guard.panicking_of_verdict hlist.2, Bool.true_or, if_pos rfl]
    rfl
  | ok r =>
    obtain ⟨e, t⟩ := r
    rw [hrun] at hlist
    obtain ⟨ht, -, hgiven⟩ := hlist
    rw [hgiven]
    -- without a fault the next token decides, on both sides
    have hended : ((check .finish).exec { s with state := t }).1 = decide (t.next.kind = .finish) :=
      congrArg Prod.fst (follows_check .finish { s with state := t } ht hcalm).2.2
    have hwrong : (s.panicking || !((check .finish).exec { s with state := t }).1) =
        !decide (t.next.kind = .finish) := by
      rw [hended, hcalm, Bool.false_or]
    change (StateT.run (do let _ ← expect .finish; return e) t).toOption =
      if (s.panicking || !((check .finish).exec { s with state := t }).1) = true then none
      else some (e, t)
    rw [hwrong]
    by_cases hkind : t.next.kind = .finish
    · rw [Outcome.run_bind_ok (run_expect_finish hkind)]
      simp [hkind]
      rfl
    · obtain ⟨f, hfault, -⟩ := raises_unexpected (α := Token) t.next { state := t } ht rfl
      have hexpect : StateT.run (expect .finish) t = .error f := by
        unfold expect
        rw [StateT.run_bind, run_check, decide_eq_false hkind]
        exact hfault
      rw [StateT.run_bind, hexpect]
      simp [hkind]
      rfl

/-- A field is read as its expression, and whatever its parser finds is a fault of the field. -/
theorem follows_fieldExpr (he : Follows id WellFormed expr expr') (token : Token)
    (text field : List Char) :
    Follows some WellFormed (fieldExpr expr token text field)
      (Parse.fieldExpr expr' token text field) := by
  have hyields : (endedField expr').Yields WellFormed := by
    rw [endedField_eq]
    exact (follows_fieldList he).yields.bind fun e h =>
      (yields_expect _).bind fun _ _ => yields_pure h
  refine follows_state.bind fun s hs => ?_
  extract_lets own whole
  have hstart := proper_start (Text.ofChars text) s.arena
  have hmeets : Meets WellFormed (StateT.run whole (start (Text.ofChars text) s.arena)) :=
    hyields _ hstart
  have hwhole : (StateT.run whole (start (Text.ofChars text) s.arena)).toOption = _ :=
    toOption_run_endedField he (s := own) hstart rfl
  generalize (wholeField expr).exec own = r at hwhole ⊢
  obtain ⟨⟨e, wrong⟩, own'⟩ := r
  cases hrun : StateT.run whole (start (Text.ofChars text) s.arena) with
  | error f =>
    rw [hrun] at hwhole
    cases wrong with
    | false => cases hwhole
    | true =>
      have hput := ((raises_badField token field).after_put (α := MarkedExpr)
        (t := { s with arena := own'.state.arena }) hs).andThen (v := some) (Q := WellFormed)
          (pure none)
      rwa [bind_assoc] at hput
  | ok r =>
    obtain ⟨e', inner⟩ := r
    rw [hrun] at hwhole hmeets
    cases wrong with
    | true => cases hwhole
    | false =>
      obtain ⟨rfl, hinner⟩ := Prod.mk.inj (Option.some.inj hwhole)
      obtain rfl : inner = own'.state := hinner
      exact (follows_put (t := { s with arena := own'.state.arena }) hs).bind fun _ _ =>
        follows_pure hmeets.2

theorem follows_literalPart (token : Token) (literal : List Char) :
    Follows id AllWellFormed (literalPart token literal) (Parse.literalPart token literal) :=
  .ite (follows_pure trivial) (follows_made _ _ fun _ => ⟨trivial, trivial⟩)

theorem follows_joinParts (token : Token) {ps : List MarkedExpr} (hps : AllWellFormed ps) :
    Follows id WellFormed (joinParts token ps) (Parse.joinParts token ps) := by
  cases ps with
  | nil => exact follows_made _ _ fun _ => trivial
  | cons p ps =>
    obtain ⟨hp, hps⟩ := hps
    simp only [joinParts, Parse.joinParts]
    induction ps generalizing p with
    -- the parts are added up from the left, so the first one changes
    | nil => exact follows_pure hp
    | cons q ps ih =>
      rw [List.foldlM_cons, List.foldlM_cons]
      exact Follows.bind (Q := WellFormed) (follows_made _ _ fun _ => ⟨hp, hps.1⟩)
        fun e h => ih e h hps.2

theorem follows_parts (he : Follows id WellFormed expr expr') (token : Token) (n : Nat)
    (literal cs : List Char) : Follows some AllWellFormed (parts expr token n literal cs)
      (Parse.parts expr' token n literal cs) := by
  induction n generalizing literal cs with
  | zero => exact (follows_literalPart _ _).map some
  | succ n ih =>
    rw [parts, Parse.parts]
    cases FString.next? cs with
    | none => exact (follows_literalPart _ _).map some
    | some piece =>
      cases piece with
      | stray => exact (raises_badField _ _).andThen _
      | literal c rest => exact ih _ _
      | field inside rest =>
        refine (follows_literalPart _ _).bind fun before hbefore => ?_
        cases FString.Field.ofChars? inside with
        | none => exact (raises_badField _ _).andThen _
        | some field =>
          refine (follows_fieldExpr he _ _ _).ifSome fun value hvalue => ?_
          extract_lets finish finish'
          -- what follows the field is read after its specification, if it has one
          have hfinish (spec : Option MarkedExpr) (hspec : OptionWellFormed spec) :
              Follows some AllWellFormed (finish spec) (finish' spec) := by
            refine (follows_register _ _).bind fun m _ => (ih _ _).ifSome fun after hafter => ?_
            refine follows_pure ?_
            rw [allWellFormed_iff] at hbefore hafter ⊢
            intro e h
            rcases List.mem_append.mp h with h | h
            · exact hbefore e h
            · rcases List.mem_cons.mp h with rfl | h
              · exact ⟨hvalue, hspec⟩
              · exact hafter e h
          cases field.spec with
          | none => exact hfinish none trivial
          | some spec =>
            refine (ih _ _).ifSome fun ps hps => ?_
            rw [bind_map_left]
            exact (follows_joinParts _ hps).bind fun e h => hfinish (some e) h

theorem follows_fstring (he : Follows id WellFormed expr expr') (token : Token) :
    Follows id WellFormed (fstring expr token) (Parse.fstring expr' token) :=
  (follows_parts he _ _ _ _).ifSome fun _ h => follows_joinParts _ h

/-! ## Atoms -/

theorem follows_elements (he : Follows id WellFormed expr expr') (close : Bracket) :
    Follows id AllWellFormed (elements expr close) (Parse.elements expr' close) := by
  refine follows_iterate (I := AllWellFormed) (fun elts helts => ?_) _ trivial
  refine (follows_check _).bind fun closed _ => .ite (follows_done helts) ?_
  refine he.bind fun e h => .ifCalm ((follows_accept _).bind fun _ _ => ?_) _
  have hmore := allWellFormed_append_singleton helts h
  exact .ite (follows_again hmore) (follows_done hmore)

theorem follows_paren (he : Follows id WellFormed expr expr') :
    Follows id WellFormed (paren expr) (Parse.paren expr') := by
  refine follows_taken.bind fun bracket _ => (follows_accept _).bind fun empty _ => .ite ?_ ?_
  · exact follows_made _ _ fun _ => ⟨trivial, rfl⟩
  · refine he.bind fun first hfirst => .ifCalm ?_ _
    refine (follows_accept _).bind fun comma _ => .ite ?_ ?_
    · exact (follows_elements he _).bind fun rest hrest => (follows_expected _).ifSome fun _ _ =>
        follows_made _ _ fun _ => ⟨⟨hfirst, hrest⟩, rfl⟩
    · exact (follows_expected _).ifSome fun _ _ => follows_pure hfirst

theorem follows_listDisplay (he : Follows id WellFormed expr expr') :
    Follows id WellFormed (listDisplay expr) (Parse.listDisplay expr') :=
  follows_taken.bind fun _ _ => (follows_elements he _).bind fun _ helts =>
    (follows_expected _).ifSome fun _ _ => follows_made _ _ fun _ => ⟨helts, rfl⟩

theorem follows_dictDisplay (he : Follows id WellFormed expr expr') :
    Follows id WellFormed (dictDisplay expr) (Parse.dictDisplay expr') := by
  refine follows_taken.bind fun bracket _ => (follows_iterate (I := ItemsWellFormed)
    (Q := ItemsWellFormed) (s := []) (fun items hitems => ?_) _ trivial).bind fun items hitems =>
      (follows_expected _).ifSome fun _ _ => follows_made _ _ fun _ => hitems
  refine (follows_check _).bind fun closed _ => .ite (follows_done hitems) ?_
  refine he.bind fun key hkey => (follows_expected _).ifSome fun _ _ => he.bind
    fun value hvalue => .ifCalm ?_ _
  have hall : ItemsWellFormed (items ++ [(key, value)]) := by
    rw [itemsWellFormed_iff] at hitems ⊢
    exact List.forall_mem_append.mpr ⟨hitems, List.forall_mem_singleton.mpr ⟨hkey, hvalue⟩⟩
  exact (follows_accept _).bind fun _ _ => .ite (follows_again hall) (follows_done hall)

theorem follows_constantAt (token : Token) {value : Literal} (h : value.WellFormed) :
    Follows id WellFormed (constantAt token value) (Parse.constantAt token value) :=
  follows_made _ _ fun _ => h

theorem follows_adjacentStrings (first : String) :
    Matches id (adjacentStrings first) (Parse.adjacentStrings first) :=
  follows_iterate (I := fun _ => True) (fun _ _ => (follows_check _).bind fun _ _ =>
    .ite (follows_taken.bind fun _ _ => follows_again trivial) (follows_done trivial)) _ trivial

theorem follows_atom (he : Follows id WellFormed expr expr') :
    Follows id WellFormed (atom expr) (Parse.atom expr') := by
  refine follows_peek.bind fun token htoken => ?_
  have hword (value : Literal) (h : value.WellFormed) : Follows id WellFormed
      (do let _ ← advance; constantAt token value)
      (do let _ ← Parse.advance; Parse.constantAt token value) :=
    follows_taken.bind fun _ _ => follows_constantAt _ h
  have hname : token.kind = .identifier → IsIdentifier token.value := htoken
  generalize token.kind = kind at hname ⊢
  cases kind with
  | identifier =>
    exact follows_taken.bind fun _ _ => follows_made _ _ fun _ => ⟨hname rfl, rfl⟩
  | integer =>
    refine follows_taken.bind fun _ _ => ?_
    cases hn : integer? token.value with
    | some n => exact follows_constantAt _ (nonneg_of_integer? hn)
    | none => exact follows_badLiteral _
  | float =>
    refine follows_taken.bind fun _ _ => ?_
    cases hx : Binary64.ofDecimal? token.value.toList with
    | some x => exact follows_constantAt _ (Binary64.isFinite_of_ofDecimal? hx)
    | none => exact follows_badLiteral _
  | string =>
    exact follows_taken.bind fun _ _ => (follows_adjacentStrings _).bind fun _ _ =>
      follows_constantAt _ trivial
  | fstring => exact follows_taken.bind fun _ _ => follows_fstring he token
  | keyword k =>
    cases k with
    | true => exact hword _ trivial
    | false => exact hword _ trivial
    | none => exact hword _ trivial
    | _ => exact follows_unexpected _ _
  | opening b =>
    cases b with
    | paren => exact follows_paren he
    | square => exact follows_listDisplay he
    | brace => exact follows_dictDisplay he
  | _ => exact follows_unexpected _ _

/-! ## Subscripts, calls and attributes -/

theorem follows_expr? (he : Follows id WellFormed expr expr') :
    Follows id OptionWellFormed (expr? expr) (Parse.expr? expr') :=
  follows_peekKind.bind fun _ _ => .ite (he.bind fun _ h => follows_pure h) (follows_pure trivial)

theorem follows_sliceItem (he : Follows id WellFormed expr expr') :
    Follows id IsItem (sliceItem expr) (Parse.sliceItem expr') := by
  refine follows_next.bind fun token _ => ?_
  extract_lets rest
  have hrest (lower : Option MarkedExpr) (hlower : OptionWellFormed lower) :
      Follows id IsItem (sliceRest expr token lower) (rest lower) := by
    refine (follows_expected _).ifSome fun _ _ => (follows_expr? he).bind fun upper hupper => ?_
    have hmade (step : Option MarkedExpr) (hstep : OptionWellFormed step) : Follows id IsItem
        (do return .slice (← register .slice token.pos) lower upper step : GuardedParse MarkedExpr)
        (do return .slice (← Parse.register .slice token.pos) lower upper step) :=
      follows_made _ _ fun _ => ⟨hlower, hupper, hstep⟩
    refine (follows_accept _).bind fun colon _ => .ite ((follows_expr? he).bind hmade) ?_
    exact Follows.bind (Q := OptionWellFormed) (follows_pure trivial) hmade
  refine (follows_check _).bind fun colon _ => .ite (hrest none trivial) ?_
  refine he.bind fun lower hlower => .ifCalm ?_ _
  exact (follows_check _).bind fun colon _ => .ite (hrest (some lower) hlower)
    (follows_pure (isItem_of_wellFormed hlower))

theorem follows_severalParts {value : MarkedExpr} (hvalue : value.WellFormed)
    {items : List MarkedExpr} (hitems : ∀ e ∈ items, IsItem e) (commas : List Token) :
    Follows id WellFormed (severalParts value items commas)
      (Parse.severalParts value items commas) := by
  unfold severalParts Parse.severalParts
  cases hslice : items.findIdx? isSlice with
  | some i => exact follows_unexpected _ _
  | none =>
    have hwf : AllWellFormed items := by
      rw [allWellFormed_iff]
      exact fun e h => (hitems e h).wellFormed (List.findIdx?_eq_none_iff.mp hslice e h)
    exact (follows_register _ _).bind fun _ _ => (follows_register _ _).bind fun _ _ =>
      follows_made _ _ fun _ => ⟨hvalue, ⟨hwf, rfl⟩, rfl⟩

theorem follows_subscript (he : Follows id WellFormed expr expr') {value : MarkedExpr}
    (hvalue : value.WellFormed) :
    Follows id WellFormed (subscript expr value) (Parse.subscript expr' value) := by
  refine follows_taken.bind fun _ _ => (follows_iterate (I := fun p => ∀ e ∈ p.1, IsItem e)
    (Q := fun p => ∀ e ∈ p.1, IsItem e) (fun (items, commas) hitems => ?_) _ (by simp)).bind
      fun (items, commas) hitems => .ifCalm ((follows_expected _).ifSome fun _ _ => ?_) _
  rotate_left
  · refine (follows_sliceItem he).bind fun item hitem => .ifCalm ?_ _
    have hall : ∀ e ∈ items ++ [item], IsItem e :=
      List.forall_mem_append.mpr ⟨hitems, List.forall_mem_singleton.mpr hitem⟩
    refine (follows_check _).bind fun comma _ => .ite ?_ (follows_done hall)
    refine follows_taken.bind fun comma _ => (follows_check _).bind fun closed _ => ?_
    exact .ite (follows_done hall) (follows_again hall)
  · cases items with
    | nil => exact follows_severalParts hvalue hitems commas
    | cons item rest =>
      cases rest with
      | cons e rest => exact follows_severalParts hvalue hitems commas
      | nil =>
        cases commas with
        | cons comma rest => exact follows_severalParts hvalue hitems (comma :: rest)
        | nil =>
          have hitem : IsItem item := hitems item (by simp)
          show Follows id WellFormed (if isSlice item = true then _ else _)
            (if isSlice item = true then _ else _)
          split
          · next hs =>
            rw [IsItem, if_pos hs] at hitem
            exact follows_made _ _ fun _ => ⟨hvalue, hitem, rfl⟩
          · next hs =>
            have hwf := hitem.wellFormed (Bool.eq_false_iff.mpr hs)
            exact (follows_register _ _).bind fun _ _ =>
              follows_made _ _ fun _ => ⟨hvalue, hwf, rfl⟩

theorem follows_argument (he : Follows id WellFormed expr expr') {a : Arguments}
    (ha : a.WellFormed) :
    Follows some Arguments.WellFormed (argument expr a) (Parse.argument expr' a) := by
  refine follows_next.bind fun token _ => (follows_accept _).bind fun mapping _ => .ite ?_ ?_
  · exact he.bind fun value hvalue => follows_made _ _ fun _ => ha.keyword (by simp) hvalue
  · refine he.bind fun arg harg => .ifCalm ?_ _
    refine (follows_check _).bind fun keyword _ => .ite ?_ (.ite ?_ ?_)
    · have hother : Follows some Arguments.WellFormed (do unexpected (← peek); return none)
          (do Parse.unexpected (← Parse.peek) : Parse Arguments) :=
        follows_next.bind fun _ _ => follows_unexpected _ _
      cases arg with
      | name m id ctx =>
        exact follows_taken.bind fun _ _ => he.bind fun value hvalue =>
          follows_made _ _ fun _ => ha.keyword (by simpa using harg.1) hvalue
      | _ => exact hother
    · exact follows_pure ⟨allWellFormed_append_singleton ha.1 harg, ha.2⟩
    · exact follows_fail (Fault.placed_placed rfl token (by decide)) _

theorem follows_call (he : Follows id WellFormed expr expr') {func : MarkedExpr}
    (hfunc : func.WellFormed) :
    Follows id WellFormed (call expr func) (Parse.call expr' func) := by
  refine follows_taken.bind fun _ _ => (follows_iterate (I := Arguments.WellFormed)
    (Q := Arguments.WellFormed) (s := {}) (fun a ha => ?_) _ ⟨trivial, trivial⟩).bind fun a ha =>
      (follows_expected _).ifSome fun _ _ => follows_made _ _ fun _ => ⟨hfunc, ha.1, ha.2⟩
  refine (follows_check _).bind fun closed _ => .ite (follows_done ha) (.ifCalm ?_ _)
  exact (follows_argument he ha).ifSome fun a ha => (follows_accept _).bind fun _ _ =>
    .ite (follows_again ha) (follows_done ha)

theorem follows_suffixes (he : Follows id WellFormed expr expr') {e : MarkedExpr}
    (h : e.WellFormed) : Follows id WellFormed (suffixes expr e) (Parse.suffixes expr' e) := by
  refine follows_iterate (I := WellFormed) (fun e h => follows_peekKind.bind fun kind _ => ?_) _ h
  cases kind with
  | dot =>
    exact follows_taken.bind fun _ _ => follows_identifier.ifSome fun name hname =>
      (follows_register _ _).bind fun _ _ => follows_again ⟨h, hname, rfl⟩
  | opening b =>
    cases b with
    | square => exact (follows_subscript he h).bind fun e h => .ifCalm (follows_again h) _
    | paren => exact (follows_call he h).bind fun e h => .ifCalm (follows_again h) _
    | brace => exact follows_done h
  | _ => exact follows_done h

mutual

/-- **Every parsed expression is well formed, and reading it follows the parser that ends in a
fault.** -/
theorem follows_expression :
    ∀ depth, Follows id WellFormed (expression depth) (Parse.expression depth)
  | 0 => follows_tooDeep
  | depth + 1 =>
    follows_next.bind fun _ _ => (follows_operand depth).bind fun _ hleft =>
      follows_operators (follows_operand depth) hleft

theorem follows_operand : ∀ depth, Follows id WellFormed (operand depth) (Parse.operand depth)
  | 0 => follows_tooDeep
  | depth + 1 => by
    refine follows_next.bind fun token _ => ?_
    cases unary? token.kind with
    | some op =>
      exact follows_taken.bind fun _ _ => (follows_operand depth).bind fun e h =>
        .ifCalm (follows_made (f := fun m => unaryOp m op e) _ _ fun _ => h) _
    | none =>
      have hexpr := follows_expression depth
      refine .ite (follows_lambda hexpr) ((follows_atom hexpr).bind fun e h => ?_)
      exact (follows_suffixes hexpr h).ifCalm _

end

end GuardedParse

end Toolchain

import Toolchain.Parser.Block
import Toolchain.Proofs.Parser.Extent
import Toolchain.Proofs.Token.Newline

/-!
# An expression on a line of its own

A text can be parsed as a single expression or as a program. If it is an expression and no newline
ends a line in it, then with a newline behind it the text is a program: the one statement in it is
the expression, with the same nodes.

## Main results

* `Parse.run_step_lone`: an expression up to the end of a line is read as a statement
* `Parse.run_module_of_expression`: an expression is read as a program
-/

namespace Toolchain

namespace Parse

open Outcome ParseState

variable {a : Token} {expr : Parse MarkedExpr} {e : MarkedExpr} {s s₁ : ParseState}

/-! ## Where an expression starts -/

theorem stuck_atom (h : startsExpr a.kind = false) : Stuck a (atom expr) := by
  refine stuck_peek_bind ?_
  split
  case h_12 => exact stuck_unexpected a
  all_goals
    rename_i hkind
    rw [hkind] at h
    cases h

theorem stuck_operand (h : startsExpr a.kind = false) (depth : Nat) : Stuck a (operand depth) := by
  cases depth with
  | zero => exact stuck_peek_bind (stuck_throw _)
  | succ depth =>
    have hunary : unary? a.kind = none := by
      cases hop : unary? a.kind with
      | none => rfl
      | some op =>
        unfold unary? at hop
        split at hop
        case h_5 => cases hop
        all_goals
          rename_i hkind
          rw [hkind] at h
          cases h
    have hlambda : a.kind ≠ .keyword .lambda := by
      intro hkind
      rw [hkind] at h
      cases h
    refine stuck_peek_bind ?_
    simp only [hunary, if_neg hlambda]
    exact (stuck_atom h).bind

/-- An expression starts with a token that can start one. -/
theorem starts_of_run {r : MarkedExpr × ParseState} (h : StateT.run anyExprList s = .ok r) :
    startsExpr s.next.kind = true := by
  cases hstarts : startsExpr s.next.kind with
  | true => rfl
  | false =>
    have hexpr : Stuck s.next anyExpr := stuck_peek_bind (stuck_operand hstarts _).bind
    exact absurd h (stuck_peek_bind hexpr.bind s rfl r)

/-! ## An expression as a statement -/

theorem run_peek_bind {α : Type} (f : Token → Parse α) (s : ParseState) :
    StateT.run (peek >>= f) s = StateT.run (f s.next) s := rfl

/-- Where an expression starts, the statement is one of those that start with an expression. -/
theorem run_simpleStatement_starts (h : startsExpr s.next.kind = true) :
    StateT.run simpleStatement s =
      StateT.run (do return (← exprStatement, ← endStatement)) s := by
  unfold simpleStatement
  rw [run_peek_bind]
  split
  case h_10 => rw [if_pos h]
  all_goals
    rename_i hkind
    rw [hkind] at h
    cases h

theorem run_statement_starts {b : Blocks} (h : startsExpr s.next.kind = true) :
    StateT.run (b.statement s.next) s =
      StateT.run (do
        let (x, _) ← simpleStatement
        return { b with inner := b.inner.push x }) s := by
  unfold Blocks.statement
  split
  case h_7 => rfl
  all_goals
    rename_i hkind
    rw [hkind] at h
    cases h

theorem run_step_starts {b : Blocks} (h : startsExpr s.next.kind = true)
    (hchain : b.inner.chain = none) :
    StateT.run b.step s = StateT.run (do return .again (← b.statement s.next)) s := by
  unfold Blocks.step
  rw [run_peek_bind]
  split
  case h_7 =>
    unfold Block.closeChain
    rw [hchain]
    rfl
  all_goals
    rename_i hkind
    rw [hkind] at h
    cases h

/-- An expression in front of an end is a statement. -/
theorem run_exprStatement (hrun : StateT.run anyExprList s = .ok (e, s₁))
    (hend : s₁.next.kind.endsStatement = true) :
    StateT.run exprStatement s =
      .ok (.expr (s₁.arena.register .expr s.next.pos).1 e,
        { s₁ with arena := (s₁.arena.register .expr s.next.pos).2 }) := by
  unfold exprStatement
  have hpeek {α : Type} (f : TokenKind → Parse α) :
      StateT.run (peekKind >>= f) s₁ = StateT.run (f s₁.next.kind) s₁ := rfl
  rw [run_peek_bind, run_bind_ok hrun, hpeek]
  split
  case h_3 => rfl
  all_goals
    rename_i hkind
    rw [hkind] at hend
    cases hend

/-- What is left at the end of a line: the end of the input, and in front of it an indentation of
nothing if a newline was taken. -/
inductive LineDone : List Token → Prop where
  | finish (e : Token) (he : e.kind = .finish) : LineDone [e]
  | indentation (a e : Token) (ha : a.kind = .indentation) (hvalue : a.value = "")
      (he : e.kind = .finish) : LineDone [a, e]

/-- The end of a line is taken, and the end of the input is not. -/
theorem run_endStatement (h : LineEnd s.tokens) :
    ∃ rest, StateT.run endStatement s = .ok (false, { s with tokens := rest }) ∧ LineDone rest := by
  unfold endStatement
  rw [run_peek_bind]
  generalize hs : s.tokens = tail at h
  cases h with
  | finish x hx =>
    have hnext : s.next = x := by rw [next, hs, List.headD_cons]
    refine ⟨[x], ?_, .finish x hx⟩
    rw [hnext, hx, ← hs]
    rfl
  | newLine x y z hx hy hvalue hz =>
    have hnext : s.next = x := by rw [next, hs, List.headD_cons]
    have hfinish : x.kind ≠ .finish := by
      rw [hx]
      decide
    refine ⟨[y, z], ?_, .indentation y z hy hvalue hz⟩
    rw [hnext, hx]
    exact run_bind_ok (run_advance_cons hs hfinish)

theorem endsStatement_of_lineEnd (h : LineEnd s.tokens) : s.next.kind.endsStatement = true := by
  rw [next]
  generalize s.tokens = tail at h
  cases h with
  | finish x hx =>
    rw [List.headD_cons, hx]
    rfl
  | newLine x _ _ hx =>
    rw [List.headD_cons, hx]
    rfl

/-- An expression up to the end of a line is one step of the grammar of statements. -/
theorem run_step_lone {b : Blocks} (hchain : b.inner.chain = none)
    (hrun : StateT.run anyExprList s = .ok (e, s₁)) (hend : LineEnd s₁.tokens) :
    ∃ m s₂, m.pos = s.next.pos ∧ LineDone s₂.tokens ∧
      StateT.run b.step s = .ok (.again { b with inner := b.inner.push (.expr m e) }, s₂) := by
  have hstarts := starts_of_run hrun
  obtain ⟨rest, hendrun, hrest⟩ := run_endStatement
    (s := { s₁ with arena := (s₁.arena.register .expr s.next.pos).2 }) hend
  refine ⟨(s₁.arena.register .expr s.next.pos).1,
    { s₁ with tokens := rest, arena := (s₁.arena.register .expr s.next.pos).2 }, rfl, hrest, ?_⟩
  have hsimple : StateT.run simpleStatement s = .ok
      ((.expr (s₁.arena.register .expr s.next.pos).1 e, false),
        { s₁ with tokens := rest, arena := (s₁.arena.register .expr s.next.pos).2 }) := by
    rw [run_simpleStatement_starts hstarts,
      run_bind_ok (run_exprStatement hrun (endsStatement_of_lineEnd hend)),
      run_bind_ok hendrun]
    rfl
  have hstatement : StateT.run (b.statement s.next) s = .ok
      ({ b with inner := b.inner.push (.expr (s₁.arena.register .expr s.next.pos).1 e) },
        { s₁ with tokens := rest, arena := (s₁.arena.register .expr s.next.pos).2 }) := by
    rw [run_statement_starts hstarts, run_bind_ok hsimple]
    rfl
  rw [run_step_starts hstarts hchain, run_bind_ok hstatement]
  rfl

/-- Behind the end of a line the outermost block is left. -/
theorem run_iterateWithin_lineDone (n : Nat) (b : Block) (hchain : b.chain = none)
    (hwidth : b.width = 0) (hdone : LineDone s.tokens) :
    ∃ s', StateT.run (iterateWithin Blocks.step (n + 2) ⟨b, []⟩) s = .ok (b.done.reverse, s') := by
  have hleave {u : ParseState} (k : Nat) (hu : u.next.kind = .finish) :
      StateT.run (iterateWithin Blocks.step (k + 1) ⟨b, []⟩) u = .ok (b.done.reverse, u) := by
    have hstep : StateT.run (Blocks.step ⟨b, []⟩) u = .ok (.done b.done.reverse, u) := by
      unfold Blocks.step
      rw [run_peek_bind, hu]
      unfold Blocks.leave Block.closeChain
      rw [hchain]
      rfl
    rw [iterateWithin, run_bind_ok hstep]
    rfl
  generalize hs : s.tokens = rest at hdone
  cases hdone with
  | finish x hx =>
    refine ⟨s, hleave (n + 1) ?_⟩
    rw [next, hs, List.headD_cons, hx]
  | indentation x y hx hvalue hy =>
    have hnext : s.next = x := by rw [next, hs, List.headD_cons]
    have hzero : x.width = 0 := by rw [Token.width, hvalue]; rfl
    have hfinish : x.kind ≠ .finish := by
      rw [hx]
      decide
    have hstep : StateT.run (Blocks.step ⟨b, []⟩) s =
        .ok (.again ⟨b, []⟩, { s with tokens := [y] }) := by
      unfold Blocks.step
      rw [run_peek_bind, hnext, hx]
      rw [hzero, hwidth, if_neg (Nat.lt_irrefl 0), if_neg (Nat.lt_irrefl 0)]
      exact run_bind_ok (run_advance_cons hs hfinish)
    refine ⟨{ s with tokens := [y] }, ?_⟩
    rw [iterateWithin, run_bind_ok hstep]
    exact hleave n hy

/-- An expression up to the end of the last line is a program. -/
theorem run_module_lone (hrun : StateT.run anyExprList s = .ok (e, s₁)) (hend : LineEnd s₁.tokens) :
    ∃ m₁ m₂ s₂, m₁.pos = s.next.pos ∧ m₂.pos = s.next.pos ∧
      StateT.run module s = .ok (.module m₁ [.expr m₂ e], s₂) := by
  obtain ⟨m, s₂, hm, hdone, hstep⟩ :=
    run_step_lone (b := { inner := { width := 0 } }) rfl hrun hend
  obtain ⟨n, hn⟩ : ∃ n, 2 * s.tokens.length + 2 = n + 3 := by
    have hne : s.tokens ≠ [] := by
      intro hnil
      have hstarts := starts_of_run hrun
      rw [next, hnil] at hstarts
      cases hstarts
    have := List.length_pos_iff.mpr hne
    exact ⟨2 * s.tokens.length - 1, by omega⟩
  obtain ⟨s₃, hrest⟩ := run_iterateWithin_lineDone n
    (({ width := 0 } : Block).push (.expr m e)) rfl rfl hdone
  have hblocks : StateT.run Blocks.run s = .ok ([.expr m e], s₃) := by
    have hunfold : StateT.run Blocks.run s = StateT.run
        (iterateWithin Blocks.step (2 * s.tokens.length + 2) { inner := { width := 0 } }) s := rfl
    rw [hunfold, hn, iterateWithin, run_bind_ok hstep]
    exact hrest
  refine ⟨(s₃.arena.register .module s.next.pos).1, m,
    { s₃ with arena := (s₃.arena.register .module s.next.pos).2 }, rfl, hm, ?_⟩
  unfold module
  rw [run_peek_bind, run_bind_ok hblocks]
  rfl

/-- A text that is a single expression starts with one, behind which it ends if no newline ends a
line in it. -/
theorem run_anyExprList_of_singleExpression {r : Root Mark} {s' : ParseState}
    (h : StateT.run singleExpression s = .ok (r, s'))
    (hline : ∀ e s₁, StateT.run anyExprList s = .ok (e, s₁) → s₁.next.kind ≠ .newLine) :
    ∃ m e s₁, r = .expression m e ∧ m.pos = s.next.pos ∧
      StateT.run anyExprList s = .ok (e, s₁) ∧ s₁.next.kind = .finish := by
  unfold singleExpression at h
  rw [run_peek_bind] at h
  -- an indentation is a fault
  by_cases hindent : s.next.kind = .indentation
  · simp only [hindent, if_true] at h
    exact absurd h (Stuck.bind (stuck_throw _) s rfl _)
  simp only [if_neg hindent] at h
  rw [StateT.run_bind, Outcome.bind_eq_ok_iff] at h
  obtain ⟨⟨e, s₁⟩, hrun, h⟩ := h
  have hnewLine := hline e s₁ hrun
  rw [run_bind_ok (run_accept_neg hnewLine)] at h
  simp only [Bool.false_eq_true, if_false] at h
  rw [StateT.run_bind, Outcome.bind_eq_ok_iff] at h
  obtain ⟨⟨x, s₂⟩, hexpect, h⟩ := h
  have hfinish : s₁.next.kind = .finish := by
    by_contra hne
    have hstuck : Stuck s₁.next (expect .finish) :=
      stuck_check_bind hne (stuck_peek_bind (stuck_unexpected _))
    exact hstuck s₁ rfl _ hexpect
  obtain ⟨rfl, -⟩ := Prod.mk.inj (Except.ok.inj h)
  exact ⟨_, e, s₁, rfl, rfl, hrun, hfinish⟩

theorem next_mem (h : s.tokens ≠ []) : s.next ∈ s.tokens := by
  obtain ⟨x, rest, hs⟩ := List.exists_cons_of_ne_nil h
  rw [next, hs]
  exact List.mem_cons_self

theorem isLayout_of_startsExpr {k : TokenKind} (h : startsExpr k = true) : k.isLayout = false := by
  cases k <;> first | rfl | cases h

/-- The tokens of a text, up to its end, and those of the text with a newline behind it. -/
theorem exists_start_newline {t : Text} {e : MarkedExpr} {s₁ : ParseState}
    (hrun : StateT.run anyExprList (start t {}) = .ok (e, s₁)) (hfinish : s₁.next.kind = .finish)
    (hline : ∀ x ∈ (tokenize t).1, x.kind ≠ .newLine) :
    ∃ taken fin tail, (start t {}).tokens = taken ++ [fin] ∧ s₁.tokens = [fin] ∧
      fin.kind = .finish ∧
      (start (t ++ [10]) {}).tokens = taken ++ tail ∧ LineEnd tail := by
  obtain ⟨before, fin, htokens, hfin, hbefore⟩ := exists_finish_of_start t {}
  obtain ⟨⟨ahead, hs₁⟩, taken, htaken, hinner⟩ :=
    extends_anyExprList.grows.of_run htokens (by rw [hfin]; rfl) hrun
  rw [hs₁, ← List.append_assoc] at htaken
  have hsplit : before = taken ++ ahead := List.append_cancel_right (htokens.symm.trans htaken)
  -- nothing stands between the expression and the end
  obtain rfl : ahead = [] := by
    cases ahead with
    | nil => rfl
    | cons x ahead =>
      rw [next, hs₁, List.cons_append, List.headD_cons] at hfinish
      refine absurd hfinish (hbefore x ?_)
      rw [hsplit]
      exact List.mem_append_right _ List.mem_cons_self
  rw [List.append_nil] at htaken
  have hvalid : ∀ x ∈ (tokenize t).1, x.kind ≠ .invalid ∧ x.kind ≠ .newLine := by
    intro x hx
    refine ⟨fun hkind => ?_, hline x hx⟩
    have hmem : x ∈ (start t {}).tokens := by
      refine List.mem_filter.mpr ⟨hx, ?_⟩
      rw [hkind]
      rfl
    rw [htaken] at hmem
    rcases List.mem_append.mp hmem with hmem | hmem
    · have := hinner x hmem
      rw [hkind] at this
      cases this
    · rw [List.mem_singleton.mp hmem, hfin] at hkind
      cases hkind
  have hsome : ∃ x ∈ (tokenize t).1, x.kind.isLayout = false := by
    have hne : (start t {}).tokens ≠ [] := by simp [htokens]
    exact ⟨_, (List.mem_filter.mp (next_mem hne)).1, isLayout_of_startsExpr (starts_of_run hrun)⟩
  obtain ⟨before', fin', tail, htok, hfin', htok', htail⟩ :=
    (tokenize_newline hvalid hsome).exists_before
  have hstart : (start t {}).tokens = (before'.filter fun x => x.kind != .comment) ++ [fin'] := by
    show (tokenize t).1.filter _ = _
    rw [htok, List.filter_append]
    simp [hfin']
  have hstart' : (start (t ++ [10]) {}).tokens =
      (before'.filter fun x => x.kind != .comment) ++ tail := by
    show (tokenize (t ++ [10])).1.filter _ = _
    rw [htok', List.filter_append]
    congr 1
    cases htail with
    | finish x hx => simp [hx]
    | newLine x y z hx hy _ hz => simp [hx, hy, hz]
  rw [htaken] at hstart
  obtain ⟨htaken', hlast⟩ := List.append_inj' hstart rfl
  obtain rfl := (List.cons.inj hlast).1
  exact ⟨taken, fin, tail, htaken, hs₁, hfin, htaken' ▸ hstart', htail⟩

/-- **An expression is read as a program**: with a newline behind it a text that is a single
expression is a program, in which the expression is the only statement, if no newline ends a line of
the text. -/
theorem run_module_of_expression {t file : Text} {p : Parsed}
    (h : Parse.run singleExpression file t = .ok p)
    (hline : ∀ x ∈ (tokenize t).1, x.kind ≠ .newLine) (file' : Text) :
    ∃ m e m₁ m₂ p', p.root = .expression m e ∧ m₁.pos = m.pos ∧ m₂.pos = m.pos ∧
      Parse.run module file' (t ++ [10]) = .ok p' ∧ p'.root = .module m₁ [.expr m₂ e] := by
  unfold Parse.run at h
  split at h
  case h_2 => cases h
  next root s' hrun =>
  cases h
  have hafter (e : MarkedExpr) (s₁ : ParseState)
      (hlist : StateT.run anyExprList (start t {}) = .ok (e, s₁)) : s₁.next.kind ≠ .newLine := by
    obtain ⟨before, fin, htokens, hfin, -⟩ := exists_finish_of_start t {}
    obtain ⟨⟨ahead, hs₁⟩, taken, htaken, -⟩ :=
      extends_anyExprList.grows.of_run htokens (by rw [hfin]; rfl) hlist
    have hmem : s₁.next ∈ (start t {}).tokens := by
      rw [htaken]
      exact List.mem_append_right _ (next_mem (by simp [hs₁]))
    exact hline _ (List.mem_filter.mp hmem).1
  obtain ⟨m, e, s₁, rfl, hm, hlist, hfinish⟩ := run_anyExprList_of_singleExpression hrun hafter
  obtain ⟨taken, fin, tail, htokens, hs₁, hfin, htokens', htail⟩ :=
    exists_start_newline hlist hfinish hline
  have htails : Tails [fin] tail := by
    refine ⟨⟨fin, [], rfl, by rw [hfin]; rfl⟩, ?_, ?_⟩
    · cases htail with
      | finish x hx => exact ⟨x, [], rfl, by rw [hx]; rfl⟩
      | newLine x y z hx => exact ⟨x, [y, z], rfl, by rw [hx]; rfl⟩
    · cases htail <;> simp
  have habreast : Abreast [fin] tail (start t {}) (start (t ++ [10]) {}) :=
    ⟨⟨taken, htokens, htokens'⟩, rfl⟩
  obtain ⟨⟨t₁, hlist', hab⟩, -⟩ := extends_anyExprList.grows _ htails habreast rfl hlist
  obtain ⟨ahead, hleft, hright⟩ := hab.tokens
  obtain rfl : ahead = [] := List.append_cancel_right ((hs₁.symm.trans hleft).symm)
  have hnext : (start (t ++ [10]) {}).next = (start t {}).next := by
    refine habreast.next_eq htails ?_
    have hstarts := starts_of_run hlist
    cases hend : (start t {}).next.kind.endsStatement with
    | false => rfl
    | true => rw [startsExpr_eq_false hend] at hstarts; cases hstarts
  obtain ⟨m₁, m₂, s₂, hm₁, hm₂, hmodule⟩ := run_module_lone hlist' (hright ▸ htail)
  refine ⟨m, e, m₁, m₂, ⟨_, s₂.arena⟩, rfl, ?_, ?_, ?_, rfl⟩
  · rw [hm₁, hm, hnext]
  · rw [hm₂, hm, hnext]
  · unfold Parse.run
    rw [hmodule]

end Parse

end Toolchain

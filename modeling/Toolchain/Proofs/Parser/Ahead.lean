import Toolchain.Proofs.Parser.Yields

/-!
# Reading up to the end of a statement

The rules for expressions look no further ahead than the token that ends the statement they stand
in, and it is the same to them which token that is. They take no token that could stand between
statements. So where two texts have the same tokens up to such an end, a rule does on the second one
what it did on the first.

Two runs of a rule are followed side by side, from states that differ in what stands after the end.

## Main definitions

* `TokenKind.endsStatement`, `TokenKind.isInner`: the tokens that end a simple statement, and those
  that may stand inside one
* `ParseState.Abreast`: two states that differ in what stands after an end
* `Parse.Grows`: a rule does the same on both sides

## Main results

* `Parse.Grows.bind`: a rule after another one
* `Parse.grows_iterate`: a rule that repeats a step
-/

namespace Toolchain

/-- Whether a token ends a simple statement. -/
def TokenKind.endsStatement : TokenKind → Bool
  | .newLine | .semicolon | .finish => true
  | _ => false

/-- Whether a token may stand inside a simple statement. -/
def TokenKind.isInner : TokenKind → Bool
  | .invalid | .finish | .newLine | .indentation | .semicolon => false
  | _ => true

theorem TokenKind.endsStatement_of_isInner {k : TokenKind} (h : k.isInner = true) :
    k.endsStatement = false := by
  cases k <;> first | rfl | cases h

namespace ParseState

/-- Two states that have the same tokens left up to an end, and the same nodes. -/
structure Abreast (tail tail' : List Token) (s t : ParseState) : Prop where
  tokens : ∃ ahead, s.tokens = ahead ++ tail ∧ t.tokens = ahead ++ tail'
  arena : s.arena = t.arena

/-- The tokens from the end of a statement on, and those that stand in their place. -/
structure Tails (tail tail' : List Token) : Prop where
  left : ∃ a rest, tail = a :: rest ∧ a.kind.endsStatement = true
  right : ∃ a rest, tail' = a :: rest ∧ a.kind.endsStatement = true
  length : tail.length ≤ tail'.length

/-- A state from which some tokens were taken that may stand inside a statement. -/
def Later (s s' : ParseState) : Prop :=
  ∃ taken, s.tokens = taken ++ s'.tokens ∧ ∀ x ∈ taken, x.kind.isInner = true

variable {s s' s'' t : ParseState} {tail tail' : List Token}

theorem Later.refl (s : ParseState) : s.Later s := ⟨[], rfl, by simp⟩

theorem Later.trans (h : s.Later s') (h' : s'.Later s'') : s.Later s'' := by
  obtain ⟨taken, htokens, hinner⟩ := h
  obtain ⟨taken', htokens', hinner'⟩ := h'
  refine ⟨taken ++ taken', ?_, ?_⟩
  · rw [htokens, htokens', List.append_assoc]
  · exact List.forall_mem_append.mpr ⟨hinner, hinner'⟩

/-- A token that ends no statement is next on both sides. -/
theorem Abreast.next_eq (h : s.Abreast tail tail' t) (htails : Tails tail tail')
    (hinner : s.next.kind.endsStatement = false) : t.next = s.next := by
  obtain ⟨ahead, hs, ht⟩ := h.tokens
  cases ahead with
  | cons x ahead => rw [next, next, hs, ht, List.cons_append, List.cons_append, List.headD_cons,
      List.headD_cons]
  | nil =>
    obtain ⟨a, rest, rfl, hend⟩ := htails.left
    have hnext : s.next = a := by rw [next, hs, List.nil_append, List.headD_cons]
    rw [hnext, hend] at hinner
    cases hinner

/-- Where one side stands at an end, so does the other. -/
theorem Abreast.next_ends (h : s.Abreast tail tail' t) (htails : Tails tail tail')
    (hend : s.next.kind.endsStatement = true) : t.next.kind.endsStatement = true := by
  obtain ⟨ahead, hs, ht⟩ := h.tokens
  cases ahead with
  | cons x ahead =>
    have hnext : t.next = s.next := by
      rw [next, next, hs, ht, List.cons_append, List.cons_append, List.headD_cons, List.headD_cons]
    rwa [hnext]
  | nil =>
    obtain ⟨a, rest, rfl, hright⟩ := htails.right
    have hnext : t.next = a := by rw [next, ht, List.nil_append, List.headD_cons]
    rwa [hnext]

end ParseState

namespace Parse

open ParseState

variable {α β σ : Type} {a : Token} {p : Parse α} {f : α → Parse β}

/-- In front of a token a rule has no result. -/
def Stuck (a : Token) (p : Parse α) : Prop :=
  ∀ s, s.next = a → ∀ r, StateT.run p s ≠ .ok r

/-- In front of a token, a rule that has a result on one side has it on the other. It takes tokens
that may stand inside a statement. -/
def GrowsOn (a : Token) (p : Parse α) : Prop :=
  ∀ ⦃tail tail' s t⦄, Tails tail tail' → s.Abreast tail tail' t → s.next = a →
    ∀ ⦃r s'⦄, StateT.run p s = .ok (r, s') →
      (∃ t', StateT.run p t = .ok (r, t') ∧ s'.Abreast tail tail' t') ∧ s.Later s'

/-- In front of any token. -/
def Grows (p : Parse α) : Prop := ∀ a, GrowsOn a p

/-- On a single run, a rule stops no later than at the end. -/
theorem Grows.of_run {s s' : ParseState} {r : α} {ahead : List Token} {e : Token}
    {rest : List Token} (h : Grows p) (htokens : s.tokens = ahead ++ e :: rest)
    (hend : e.kind.endsStatement = true) (hrun : StateT.run p s = .ok (r, s')) :
    (∃ ahead', s'.tokens = ahead' ++ e :: rest) ∧ s.Later s' := by
  have htails : Tails (e :: rest) (e :: rest) :=
    ⟨⟨e, rest, rfl, hend⟩, ⟨e, rest, rfl, hend⟩, Nat.le_refl _⟩
  obtain ⟨⟨t', -, hst⟩, hlater⟩ := h s.next htails ⟨⟨ahead, htokens, htokens⟩, rfl⟩ rfl hrun
  obtain ⟨ahead', hs', -⟩ := hst.tokens
  exact ⟨⟨ahead', hs'⟩, hlater⟩

/-! ## Rules after rules -/

/-- A rule after another one. -/
theorem GrowsOn.bind (hp : GrowsOn a p) (hf : ∀ r, Grows (f r)) : GrowsOn a (p >>= f) := by
  intro tail tail' s t htails hst ha r s' hrun
  rw [StateT.run_bind, Outcome.bind_eq_ok_iff] at hrun
  obtain ⟨⟨r₁, s₁⟩, hrun₁, hrun₂⟩ := hrun
  obtain ⟨⟨t₁, hrun₁', hst₁⟩, hlater₁⟩ := hp htails hst ha hrun₁
  obtain ⟨⟨t₂, hrun₂', hst₂⟩, hlater₂⟩ := hf r₁ s₁.next htails hst₁ rfl hrun₂
  refine ⟨⟨t₂, ?_, hst₂⟩, hlater₁.trans hlater₂⟩
  rw [StateT.run_bind, hrun₁']
  exact hrun₂'

theorem Grows.bind (hp : Grows p) (hf : ∀ r, Grows (f r)) : Grows (p >>= f) :=
  fun a => (hp a).bind hf

theorem grows_pure {r : α} : Grows (pure r : Parse α) := by
  rintro a tail tail' s t htails hst - _ _ ⟨rfl⟩
  exact ⟨⟨t, rfl, hst⟩, .refl s⟩

/-! ## Rules without a result -/

theorem Stuck.growsOn (h : Stuck a p) : GrowsOn a p :=
  fun _ _ s _ _ _ ha _ _ hrun => absurd hrun (h s ha _)

theorem Stuck.bind (h : Stuck a p) : Stuck a (p >>= f) := by
  intro s ha r hrun
  rw [StateT.run_bind, Outcome.bind_eq_ok_iff] at hrun
  obtain ⟨⟨r₁, s₁⟩, hrun₁, -⟩ := hrun
  exact h s ha _ hrun₁

theorem stuck_throw (e : Fault) : Stuck a (throw e : Parse α) := by
  intro s _ r hrun
  cases hrun

theorem stuck_unexpected (token : Token) : Stuck a (unexpected token : Parse α) := by
  intro s _ r hrun
  unfold unexpected at hrun
  simp only at hrun
  split at hrun <;> cases hrun

theorem stuck_peek_bind {f : Token → Parse β} (h : Stuck a (f a)) : Stuck a (peek >>= f) := by
  intro s ha r hrun
  rw [StateT.run_bind, run_peek, ha] at hrun
  exact h s ha r hrun

theorem stuck_check_bind {k : TokenKind} {f : Bool → Parse β} (hk : a.kind ≠ k)
    (h : Stuck a (f false)) : Stuck a (check k >>= f) := by
  intro s ha r hrun
  rw [StateT.run_bind, run_check, ha, decide_eq_false hk] at hrun
  exact h s ha r hrun

theorem run_accept_neg {k : TokenKind} {s : ParseState} (hk : s.next.kind ≠ k) :
    StateT.run (accept k) s = .ok (false, s) := by
  unfold accept
  rw [StateT.run_bind, run_check, decide_eq_false hk]
  rfl

theorem stuck_accept_bind {k : TokenKind} {f : Bool → Parse β} (hk : a.kind ≠ k)
    (h : Stuck a (f false)) : Stuck a (accept k >>= f) := by
  intro s ha r hrun
  rw [StateT.run_bind, run_accept_neg (ha ▸ hk)] at hrun
  exact h s ha r hrun

/-! ## Single steps -/

/-- A rule that looks at the next token may use it, and has no result at an end. -/
theorem growsOn_peek_bind {f : Token → Parse β}
    (h : a.kind.endsStatement = false → GrowsOn a (f a))
    (hend : a.kind.endsStatement = true → Stuck a (f a)) : GrowsOn a (peek >>= f) := by
  cases hkind : a.kind.endsStatement with
  | true => exact (stuck_peek_bind (hend hkind)).growsOn
  | false =>
    intro tail tail' s t htails hst ha r s' hrun
    have hnext : t.next = a := by
      rw [hst.next_eq htails (ha ▸ hkind), ha]
    rw [StateT.run_bind, run_peek, ha] at hrun
    obtain ⟨⟨t', hrun', hst'⟩, hlater⟩ := h hkind htails hst ha hrun
    refine ⟨⟨t', ?_, hst'⟩, hlater⟩
    rw [StateT.run_bind, run_peek, hnext]
    exact hrun'

/-- A rule that looks at the kind of the next token does the same at every end. -/
theorem growsOn_peekKind_bind {f : TokenKind → Parse β} {g : Parse β}
    (hend : ∀ k : TokenKind, k.endsStatement = true → f k = g)
    (h : GrowsOn a (f a.kind)) : GrowsOn a (peekKind >>= f) := by
  intro tail tail' s t htails hst ha r s' hrun
  have hf : f t.next.kind = f a.kind := by
    cases hkind : a.kind.endsStatement with
    | true => rw [hend _ hkind, hend _ (hst.next_ends htails (ha ▸ hkind))]
    | false => rw [hst.next_eq htails (ha ▸ hkind), ha]
  have hpeek (u : ParseState) : StateT.run (peekKind >>= f) u = StateT.run (f u.next.kind) u := rfl
  rw [hpeek, ha] at hrun
  rw [hpeek, hf]
  exact h htails hst ha hrun

theorem growsOn_check_bind {k : TokenKind} (hk : k.endsStatement = false) {f : Bool → Parse β}
    (ht : a.kind = k → GrowsOn a (f true)) (hf : a.kind ≠ k → GrowsOn a (f false)) :
    GrowsOn a (check k >>= f) := by
  have hcheck : (check k >>= f) = peekKind >>= fun kind => f (decide (kind = k)) := by
    rw [peekKind, check]
    simp only [bind_assoc, pure_bind]
  rw [hcheck]
  refine growsOn_peekKind_bind (g := f false) ?_ ?_
  · intro kind hkind
    rw [decide_eq_false]
    rintro rfl
    rw [hkind] at hk
    cases hk
  · by_cases hkind : a.kind = k
    · rw [decide_eq_true hkind]
      exact ht hkind
    · rw [decide_eq_false hkind]
      exact hf hkind

/-- A token that is not the end of the input is taken. -/
theorem run_advance_cons {x : Token} {s : ParseState} {rest : List Token}
    (hs : s.tokens = x :: rest) (hx : x.kind ≠ .finish) :
    StateT.run advance s = .ok (x, { s with tokens := rest }) := by
  have hnext : s.next = x := by rw [next, hs, List.headD_cons]
  unfold advance
  rw [StateT.run_bind, run_peek, hnext]
  show StateT.run (if x.kind = .finish then _ else _) s = _
  rw [if_neg hx]
  show Except.ok (x, { s with tokens := s.tokens.drop 1 }) = _
  rw [hs, List.drop_one, List.tail_cons]

/-- A token that may stand inside a statement is taken on both sides. -/
theorem growsOn_advance_bind {f : Token → Parse β} (ha : a.kind.isInner = true)
    (h : Grows (f a)) : GrowsOn a (advance >>= f) := by
  intro tail tail' s t htails hst hnext r s' hrun
  have hkind := TokenKind.endsStatement_of_isInner ha
  have hfinish : a.kind ≠ .finish := by
    intro hfinish
    rw [hfinish] at ha
    cases ha
  -- the token stands before the end
  obtain ⟨ahead, hstokens, httokens⟩ := hst.tokens
  cases ahead with
  | nil =>
    obtain ⟨b, rest, rfl, hend⟩ := htails.left
    have : b = a := by rw [← hnext, next, hstokens, List.nil_append, List.headD_cons]
    rw [this, hkind] at hend
    cases hend
  | cons x ahead =>
    have hx : x = a := by rw [← hnext, next, hstokens, List.cons_append, List.headD_cons]
    subst hx
    have hmoved : ParseState.Abreast tail tail' { s with tokens := ahead ++ tail }
        { t with tokens := ahead ++ tail' } := ⟨⟨ahead, rfl, rfl⟩, hst.arena⟩
    have hlater : s.Later { s with tokens := ahead ++ tail } :=
      ⟨[x], hstokens, by simpa using ha⟩
    rw [StateT.run_bind, run_advance_cons hstokens hfinish] at hrun
    obtain ⟨⟨t', hrun', hst'⟩, hlater'⟩ := h _ htails hmoved rfl hrun
    refine ⟨⟨t', ?_, hst'⟩, hlater.trans hlater'⟩
    rw [StateT.run_bind, run_advance_cons httokens hfinish]
    exact hrun'

theorem growsOn_accept_bind {k : TokenKind} (hk : k.isInner = true) {f : Bool → Parse β}
    (ht : Grows (f true)) (hf : GrowsOn a (f false)) : GrowsOn a (accept k >>= f) := by
  unfold accept
  rw [bind_assoc]
  refine growsOn_check_bind (TokenKind.endsStatement_of_isInner hk) ?_ ?_
  · intro hkind
    simp only [if_true, bind_assoc, pure_bind]
    exact growsOn_advance_bind (hkind ▸ hk) ht
  · intro _
    simpa using hf

theorem grows_expect_bind {k : TokenKind} (hk : k.isInner = true) {f : Token → Parse β}
    (h : ∀ b, Grows (f b)) : Grows (expect k >>= f) := by
  intro a
  unfold expect
  rw [bind_assoc]
  refine growsOn_check_bind (TokenKind.endsStatement_of_isInner hk) ?_ ?_
  · intro hkind
    exact growsOn_advance_bind (hkind ▸ hk) (h a)
  · intro _
    refine Stuck.growsOn (Stuck.bind ?_)
    exact stuck_peek_bind (stuck_unexpected a)

theorem grows_register_bind {tag : NodeTag} {pos : Position} {f : Mark → Parse β}
    (h : ∀ m, Grows (f m)) : Grows (register tag pos >>= f) := by
  intro a tail tail' s t htails hst ha r s' hrun
  have hregister (u : ParseState) : StateT.run (register tag pos >>= f) u =
      StateT.run (f (u.arena.register tag pos).1)
        { u with arena := (u.arena.register tag pos).2 } := rfl
  have hmoved : ParseState.Abreast tail tail' { s with arena := (s.arena.register tag pos).2 }
      { t with arena := (t.arena.register tag pos).2 } :=
    ⟨hst.tokens, by rw [hst.arena]⟩
  rw [hregister] at hrun
  rw [hregister, ← hst.arena]
  rw [← hst.arena] at hmoved
  exact h _ a htails hmoved ha hrun

/-! ### Branches -/

section Branches

variable {x y : Parse β} {k : TokenKind}

theorem growsOn_check_ite (hk : k.endsStatement = false) (hx : a.kind = k → GrowsOn a x)
    (hy : a.kind ≠ k → GrowsOn a y) :
    GrowsOn a (check k >>= fun b => if b = true then x else y) :=
  growsOn_check_bind hk (by simpa using hx) (by simpa using hy)

theorem growsOn_accept_ite (hk : k.isInner = true) (hx : Grows x) (hy : GrowsOn a y) :
    GrowsOn a (accept k >>= fun b => if b = true then x else y) :=
  growsOn_accept_bind hk (by simpa using hx) (by simpa using hy)

theorem grows_check_ite (hk : k.endsStatement = false) (hx : Grows x) (hy : Grows y) :
    Grows (check k >>= fun b => if b = true then x else y) :=
  fun a => growsOn_check_ite hk (fun _ => hx a) fun _ => hy a

theorem grows_accept_ite (hk : k.isInner = true) (hx : Grows x) (hy : Grows y) :
    Grows (accept k >>= fun b => if b = true then x else y) :=
  fun a => growsOn_accept_ite hk hx (hy a)

theorem stuck_check_ite (hk : a.kind ≠ k) (hy : Stuck a y) :
    Stuck a (check k >>= fun b => if b = true then x else y) :=
  stuck_check_bind hk (by simpa using hy)

theorem stuck_accept_ite (hk : a.kind ≠ k) (hy : Stuck a y) :
    Stuck a (accept k >>= fun b => if b = true then x else y) :=
  stuck_accept_bind hk (by simpa using hy)

end Branches

/-! ## Loops -/

theorem grows_iterateWithin {step : σ → Parse (Next σ β)} (hstep : ∀ x, Grows (step x))
    {k k' : Nat} (hk : k ≤ k') {x : σ} {tail tail' : List Token} {s t : ParseState}
    (htails : Tails tail tail') (hst : s.Abreast tail tail' t) {r : β} {s' : ParseState}
    (hrun : StateT.run (iterateWithin step k x) s = .ok (r, s')) :
    (∃ t', StateT.run (iterateWithin step k' x) t = .ok (r, t') ∧ s'.Abreast tail tail' t') ∧
      s.Later s' := by
  induction k generalizing k' x s t with
  | zero =>
    exact absurd hrun (stuck_peek_bind (stuck_unexpected s.next) s rfl _)
  | succ k ih =>
    obtain ⟨k', rfl⟩ : ∃ j, k' = j + 1 := ⟨k' - 1, by omega⟩
    rw [iterateWithin, StateT.run_bind, Outcome.bind_eq_ok_iff] at hrun
    obtain ⟨⟨next, s₁⟩, hrun₁, hrun₂⟩ := hrun
    obtain ⟨⟨t₁, hrun₁', hst₁⟩, hlater₁⟩ := hstep x s.next htails hst rfl hrun₁
    rw [iterateWithin, StateT.run_bind, hrun₁']
    cases next with
    | done b =>
      obtain ⟨rfl, rfl⟩ := Prod.mk.inj (Except.ok.inj hrun₂)
      exact ⟨⟨t₁, rfl, hst₁⟩, hlater₁⟩
    | again y =>
      obtain ⟨hside, hlater₂⟩ := ih (Nat.le_of_succ_le_succ hk) hst₁ hrun₂
      exact ⟨hside, hlater₁.trans hlater₂⟩

/-- A rule that repeats a step. The other side has no fewer tokens left, so that the step may be
repeated as often there. -/
theorem grows_iterate {step : σ → Parse (Next σ β)} {x : σ} (hstep : ∀ x, Grows (step x)) :
    Grows (iterate step x) := by
  intro a tail tail' s t htails hst hnext r s' hrun
  have hiterate (u : ParseState) : StateT.run (iterate step x) u =
      StateT.run (iterateWithin step (u.tokens.length + 1) x) u := rfl
  have hlength : s.tokens.length + 1 ≤ t.tokens.length + 1 := by
    obtain ⟨ahead, hstokens, httokens⟩ := hst.tokens
    have := htails.length
    rw [hstokens, httokens, List.length_append, List.length_append]
    omega
  rw [hiterate] at hrun
  rw [hiterate]
  exact grows_iterateWithin hstep hlength htails hst hrun

end Parse

end Toolchain

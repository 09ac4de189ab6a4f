import Toolchain.Proofs.Message.Place
import Toolchain.Proofs.Outcome
import Toolchain.Proofs.Token.Names

/-!
# What a rule of the grammar yields

A rule yields a property if every result it can have has the property, on tokens that are proper,
and every fault it can end in tells where it is. The rules of the grammar are put together from a
few steps, so what they yield is put together from what the steps yield.

## Main definitions

* `Parse.Meets`: the result of a run has a property, or its fault tells where it is
* `Parse.Yields`: every run of a rule does so
* `Parse.Next.Holds`: an invariant of a loop, or the property of its result

## Main results

* `Parse.Yields.bind`: a rule after another one
-/

namespace Toolchain

/-- A state of the parser whose tokens are proper. -/
def ParseState.Proper (s : ParseState) : Prop := ∀ t ∈ s.tokens, t.Proper

/-- The next token. -/
def ParseState.next (s : ParseState) : Token := s.tokens.headD ⟨.finish, "", {}⟩

namespace Parse

open Outcome

variable {α β σ : Type}

/-- The result of a run has a property and comes with proper tokens, or the fault it ends in tells
where it is. -/
def Meets (Q : α → Prop) : Except Fault (α × ParseState) → Prop
  | .ok (a, s) => s.Proper ∧ Q a
  | .error fault => fault.Placed

/-- Every result of a rule on proper tokens has a property, and leaves proper tokens; and every
fault tells where it is. -/
def Yields (p : Parse α) (Q : α → Prop) : Prop :=
  ∀ s, s.Proper → Meets Q (StateT.run p s)

theorem Meets.imp {Q R : α → Prop} {x : Except Fault (α × ParseState)} (h : Meets Q x)
    (hQR : ∀ a, Q a → R a) : Meets R x := by
  cases x with
  | error fault => exact h
  | ok r => exact ⟨h.1, hQR _ h.2⟩

theorem Yields.imp {p : Parse α} {Q R : α → Prop} (h : p.Yields Q) (hQR : ∀ a, Q a → R a) :
    p.Yields R :=
  fun s hs => (h s hs).imp hQR

theorem yields_pure {Q : α → Prop} {a : α} (h : Q a) : (pure a : Parse α).Yields Q :=
  fun _ hs => ⟨hs, h⟩

theorem Yields.bind {p : Parse α} {f : α → Parse β} {Q : β → Prop} {R : α → Prop}
    (hp : p.Yields R) (hf : ∀ a, R a → (f a).Yields Q) : (p >>= f).Yields Q := by
  intro s hs
  have hmeets := hp s hs
  rw [StateT.run_bind]
  cases hrun : StateT.run p s with
  | error fault =>
    rw [hrun] at hmeets
    exact hmeets
  | ok r =>
    rw [hrun] at hmeets
    exact hf r.1 hmeets.2 r.2 hmeets.1

theorem yields_pure_bind {f : α → Parse β} {Q : β → Prop} {a : α} (h : (f a).Yields Q) :
    (pure a >>= f).Yields Q := by
  rwa [pure_bind]

theorem Yields.map {p : Parse α} {f : α → β} {Q : β → Prop} (hp : p.Yields fun a => Q (f a)) :
    (f <$> p).Yields Q := by
  rw [← bind_pure_comp]
  exact hp.bind fun _ h => yields_pure h

theorem yields_throw {Q : α → Prop} {e : Fault} (he : e.Placed) : (throw e : Parse α).Yields Q :=
  fun _ _ => he

/-- A fault that tells the place of a token. -/
theorem yields_placed {Q : α → Prop} {code : ErrorCode} (hcode : code.isOfCompiler = false)
    (token : Token) {id : MessageId} (hid : (id, 0) ∈ MessageId.placing) :
    (throw (Fault.placed code token id) : Parse α).Yields Q :=
  yields_throw (Fault.placed_placed hcode token hid)

theorem yields_get {Q : ParseState → Prop} (h : ∀ s, s.Proper → Q s) : (get : Parse _).Yields Q :=
  fun s hs => ⟨hs, h s hs⟩

theorem yields_set {s : ParseState} (h : s.Proper) : (set s : Parse PUnit).Yields fun _ => True :=
  fun _ _ => ⟨h, trivial⟩

theorem yields_modify {f : ParseState → ParseState} (h : ∀ s, s.Proper → (f s).Proper) :
    (modify f : Parse PUnit).Yields fun _ => True :=
  fun s hs => ⟨h s hs, trivial⟩

theorem yields_peek : peek.Yields Token.Proper := by
  refine (yields_get (Q := ParseState.Proper) fun s hs => hs).bind fun s hs => yields_pure ?_
  rcases h : s.tokens with _ | ⟨t, ts⟩
  · simp [Token.Proper]
  · exact hs t (by simp [h])

/-- Nothing follows from what a token is like. -/
theorem yields_next : peek.Yields fun _ => True := yields_peek.imp fun _ _ => trivial

/-- A rule that looks at the next token first may use what it saw. -/
theorem yields_peekKind_bind {f : TokenKind → Parse α} {Q : α → Prop}
    (h : ∀ s, s.Proper → Meets Q (StateT.run (f s.next.kind) s)) : (peekKind >>= f).Yields Q :=
  h

theorem yields_advance : advance.Yields Token.Proper := by
  refine yields_peek.bind fun token ht => ?_
  split
  · exact yields_pure ht
  · refine (yields_modify fun s hs t h => hs t (List.mem_of_mem_drop h)).bind fun _ _ => ?_
    exact yields_pure ht

theorem yields_taken : advance.Yields fun _ => True := yields_advance.imp fun _ _ => trivial

theorem yields_check (kind : TokenKind) : (check kind).Yields fun _ => True :=
  yields_peek.bind fun _ _ => yields_pure trivial

theorem yields_accept (kind : TokenKind) : (accept kind).Yields fun _ => True := by
  refine (yields_check kind).bind fun b _ => ?_
  split
  · exact yields_advance.bind fun _ _ => yields_pure trivial
  · exact yields_pure trivial

/-- An unexpected token is told with its place, whatever else is told about it. -/
theorem yields_unexpected {Q : α → Prop} (token : Token) :
    (unexpected token : Parse α).Yields Q := by
  have hplaced (code : ErrorCode) (hcode : code.isOfCompiler = false) (shown : String) :
      (Fault.atToken code token
        (.entry .unexpectedToken [token.pos.line, token.pos.column, shown])).Placed :=
    Fault.placed_atToken hcode token [] [shown] (by decide)
  unfold unexpected
  extract_lets shown message
  split
  · refine (yields_get fun _ _ => trivial).bind fun s _ => yields_throw ?_
    exact ⟨rfl, (hplaced .invalidToken rfl shown).tells⟩
  · exact yields_throw (hplaced .unexpectedToken rfl shown)

theorem run_peek (s : ParseState) : StateT.run peek s = .ok (s.next, s) := rfl

theorem run_check (kind : TokenKind) (s : ParseState) :
    StateT.run (check kind) s = .ok (decide (s.next.kind = kind), s) :=
  rfl

/-- The end of the input is not used up. -/
theorem run_expect_finish {s : ParseState} (hs : s.next.kind = .finish) :
    StateT.run (expect .finish) s = .ok (s.next, s) := by
  have hadvance : StateT.run advance s = .ok (s.next, s) := by
    unfold advance
    rw [StateT.run_bind, run_peek]
    show StateT.run (if s.next.kind = .finish then _ else _) s = _
    rw [if_pos hs]
    rfl
  unfold expect
  rw [StateT.run_bind, run_check, decide_eq_true hs]
  exact hadvance

/-- A token that is there is taken. -/
theorem run_accept_bind {f : Bool → Parse α} {kind : TokenKind} {s : ParseState}
    (h : s.next.kind = kind) :
    StateT.run (accept kind >>= f) s = StateT.run (advance >>= fun _ => f true) s := by
  have haccept : StateT.run (accept kind) s = StateT.run (advance >>= fun _ => pure true) s := by
    unfold accept
    rw [StateT.run_bind, run_check]
    simp [bind, Except.bind, h]
  rw [StateT.run_bind, haccept, ← StateT.run_bind, bind_assoc]
  simp only [pure_bind]

/-- The token that is taken is the one that was next. -/
theorem advance_eq_next {s s' : ParseState} {t : Token}
    (hrun : StateT.run advance s = .ok (t, s')) :
    t = s.next := by
  unfold advance at hrun
  rw [StateT.run_bind, run_peek] at hrun
  simp only [bind, Except.bind] at hrun
  split at hrun <;> cases hrun <;> rfl

/-- The token that was asked for is of the kind asked for. -/
theorem yields_expect (kind : TokenKind) :
    (expect kind).Yields fun t => t.kind = kind ∧ t.Proper := by
  intro s hs
  unfold expect
  rw [StateT.run_bind, run_check]
  show Meets _ (StateT.run (if decide (s.next.kind = kind) then advance else _) s)
  by_cases hkind : s.next.kind = kind
  · rw [if_pos (decide_eq_true hkind)]
    have hadvance := yields_advance s hs
    cases hrun : StateT.run advance s with
    | error fault =>
      rw [hrun] at hadvance
      exact hadvance
    | ok r =>
      rw [hrun] at hadvance
      exact ⟨hadvance.1, advance_eq_next hrun ▸ hkind, hadvance.2⟩
  · rw [if_neg (by simpa using hkind)]
    exact (yields_peek.bind fun _ _ => yields_unexpected _) s hs

theorem yields_expected (kind : TokenKind) : (expect kind).Yields fun _ => True :=
  (yields_expect kind).imp fun _ _ => trivial

theorem yields_register (tag : NodeTag) (pos : Position) :
    (register tag pos).Yields fun _ => True := by
  refine (yields_get (Q := ParseState.Proper) fun s hs => hs).bind fun s hs => ?_
  have hset : ParseState.Proper { s with arena := (s.arena.register tag pos).2 } := hs
  exact (yields_set hset).bind fun _ _ => yields_pure trivial

/-- A rule that makes a node. -/
theorem yields_made {tag : NodeTag} {pos : Position} {f : Mark → α} {Q : α → Prop}
    (h : ∀ m, Q (f m)) : (do return f (← register tag pos) : Parse α).Yields Q :=
  (yields_register tag pos).bind fun m _ => yields_pure (h m)

/-- What a step of a loop asks for is right: the next state keeps the invariant, and the result has
the property. -/
def Next.Holds (I : σ → Prop) (Q : β → Prop) : Next σ β → Prop
  | .again s => I s
  | .done b => Q b

/-- A rule that repeats a step keeps what each step keeps. -/
theorem yields_iterateWithin {step : σ → Parse (Next σ β)} {I : σ → Prop} {Q : β → Prop}
    (hstep : ∀ s, I s → (step s).Yields (Next.Holds I Q)) (n : Nat) {s : σ} (hs : I s) :
      (iterateWithin step n s).Yields Q := by
  induction n generalizing s with
  | zero => exact yields_peek.bind fun _ _ => yields_unexpected _
  | succ n ih =>
    refine (hstep s hs).bind fun next hnext => ?_
    cases next with
    | again s => exact ih hnext
    | done b => exact yields_pure hnext

end Parse

end Toolchain

import Toolchain.Proofs.Compiler.StatementLayout

/-!
# Occurrences of statements

Statements that stand together form a suite: the body of a code object, of a loop, of a branch, of a
part of a `try`. A statement occurs in a suite if it is one of its statements or occurs in a suite
inside of one of these; with the statement comes the position of its code and what is around it. The
final part of a `try` may occur twice.

## Main definitions

* `Suite`: statements with what is around them and the position of their code
* `Stmt.suites`: the suites directly inside a statement
* `Suite.Has`, `CodeUnit.Has`: a statement occurs in a suite, or in a code object
* `Stmt.loopTarget?`, `Stmt.leaving?`: the statements that are loops, and that jump out of them

## Main results

* `CodeUnit.Has.stmtAt`: the code of a statement stands where the statement occurs
* `CodeUnit.Has.loop_outside`: the jumps out of a loop go out of every statement in its body
* `CodeUnit.Has.exists_loop`: the loop around a statement occurs too
-/

namespace Toolchain

/-- Statements that stand together, with what is around them and the position of their code. -/
structure Suite (α : Type) where
  around : Around
  body : List (Stmt α)
  pos : Nat

namespace Suite

variable {α : Type}

/-- The number of instructions of a suite. -/
def size (S : Suite α) : Nat := Stmt.bodySize S.around.held S.body

/-- The position behind a suite. -/
def behind (S : Suite α) : Nat := S.pos + S.size

end Suite

namespace Stmt

variable {α : Type}

/-- The bodies of handlers whose code begins at a position. -/
def handlerSuites (a : Around) : List (Handler α (Expr α) (Stmt α)) → Nat → List (Suite α)
  | [], _ => []
  | ⟨_, type, _, body⟩ :: rest, p =>
    ⟨a, body, p + Handler.headSize type⟩ ::
      handlerSuites a rest (p + Handler.headSize type + Stmt.bodySize a.held body + 2)

/-- The suites directly inside a statement whose code begins at a position. The body of a loop does
not see what is around the loop. -/
def suites (a : Around) : Stmt α → Nat → List (Suite α)
  | .forLoop _ target iter body, p =>
    [⟨{ loop := some (forTarget target iter body p) }, body,
      p + iter.codeSize + 2 + target.storeSize⟩]
  | .whileLoop _ test body, p =>
    [⟨{ loop := some (whileTarget test body p) }, body, p + test.codeSize + 1⟩]
  | .ifElse _ test body orelse, p =>
    ⟨a, body, p + test.codeSize + 1⟩ ::
      if orelse.isEmpty then []
      else [⟨a, orelse, p + test.codeSize + 1 + Stmt.bodySize a.held body + 1⟩]
  | .tryExcept _ body handlers orelse final, p =>
    let places := tryPlaces a.held body handlers orelse final p
    ⟨a.guarded, body, p + 1⟩ :: ⟨a, orelse, places.removal + 1⟩ :: ⟨a, final, places.final⟩ ::
      (handlerSuites a.guarded handlers places.handlers ++
        if handlers.all fun h => h.type.isSome then [⟨a, final, places.passed⟩] else [])
  | _, _ => []

/-- The loop that a statement is whose code begins at a position. -/
def loopTarget? : Stmt α → Nat → Option LoopTarget
  | .forLoop _ target iter body, p => some (forTarget target iter body p)
  | .whileLoop _ test body, p => some (whileTarget test body p)
  | _, _ => none

/-- Whether a statement that jumps out of a round of a loop leaves the loop; none of another
statement. -/
def leaving? : Stmt α → Option Bool
  | .breakLoop _ => some true
  | .continueLoop _ => some false
  | _ => none

end Stmt

/-- A statement occurs in a suite, at a position and with this around it. -/
inductive Suite.Has {α : Type} : Suite α → Around → Stmt α → Nat → Prop
  | head {a : Around} {st : Stmt α} {ss : List (Stmt α)} {p : Nat} : Has ⟨a, st :: ss, p⟩ a st p
  | tail {a b : Around} {st st' : Stmt α} {ss : List (Stmt α)} {p q : Nat}
      (h : Has ⟨a, ss, p + st.codeSize a.held⟩ b st' q) : Has ⟨a, st :: ss, p⟩ b st' q
  | inner {a b : Around} {st st' : Stmt α} {ss : List (Stmt α)} {p q : Nat} {S : Suite α}
      (hS : S ∈ st.suites a p) (h : S.Has b st' q) : Has ⟨a, st :: ss, p⟩ b st' q

/-- The statements of a code object. That of an expression has none. -/
def CodeUnit.body : CodeUnit → List MarkedStmt
  | module _ body | function _ _ _ body | classBody _ _ body => body
  | lambda .. | expression .. => []

/-- A statement occurs in a code object, at a position and with this around it. -/
def CodeUnit.Has (u : CodeUnit) : Around → MarkedStmt → Nat → Prop := Suite.Has ⟨{}, u.body, 0⟩

/-! ## Layout -/

section Layout

variable {file : Text} {v : CodeView}

/-- The code of a suite stands where it should. -/
def CodeView.SuiteAt (file : Text) (v : CodeView) (S : Suite Mark) : Prop :=
  v.BodyAt file S.around S.body S.pos

theorem CodeView.HandlersAt.suiteAt {a : Around} {fin : Nat} {S : Suite Mark} :
    ∀ {hs : List (Handler Mark MarkedExpr MarkedStmt)} {p : Nat}, v.HandlersAt file a fin hs p →
      S ∈ Stmt.handlerSuites a hs p → v.SuiteAt file S
  | [], _, _, hS => nomatch hS
  | ⟨_, _, _, _⟩ :: _, _, h, hS => by
    obtain ⟨-, hbody, -, -, hrest⟩ := h
    rcases List.mem_cons.mp hS with rfl | hS
    · exact hbody
    · exact hrest.suiteAt hS

/-- The code of a suite inside a statement stands where it should. -/
theorem CodeView.StmtAt.suiteAt {a : Around} {st : MarkedStmt} {p : Nat} {S : Suite Mark}
    (h : v.StmtAt file a st p) (hS : S ∈ st.suites a p) : v.SuiteAt file S := by
  cases st with
  | forLoop m target iter body =>
    obtain rfl := List.mem_singleton.mp hS
    exact h.2.2.2.2.1
  | whileLoop m test body =>
    obtain rfl := List.mem_singleton.mp hS
    exact h.2.2.1
  | ifElse m test body orelse =>
    obtain ⟨-, hbody, horelse⟩ := h
    rcases List.mem_cons.mp hS with rfl | hS
    · exact hbody
    · split at hS
      · cases hS
      · rename_i hne
        rw [if_neg hne] at horelse
        obtain rfl := List.mem_singleton.mp hS
        exact horelse.2.2
  | tryExcept m body handlers orelse final =>
    obtain ⟨-, hbody, -, horelse, -, hhandlers, hpassed, hfinal⟩ := h
    simp only [Stmt.suites, List.mem_cons, List.mem_append] at hS
    rcases hS with rfl | rfl | rfl | hS | hS
    · exact hbody
    · exact horelse
    · exact hfinal
    · exact hhandlers.suiteAt hS
    · split at hS
      · rename_i htyped
        obtain rfl := List.mem_singleton.mp hS
        exact (hpassed htyped).1
      · cases hS
  | _ => cases hS

/-- The code of a statement stands where the statement occurs. -/
theorem Suite.Has.stmtAt {S : Suite Mark} {b : Around} {st : MarkedStmt} {q : Nat}
    (h : S.Has b st q) (hv : v.SuiteAt file S) : v.StmtAt file b st q := by
  induction h with
  | head =>
    exact hv.1
  | tail _ ih =>
    exact ih hv.2
  | inner hS _ ih =>
    exact ih (hv.1.suiteAt hS)

theorem CodeView.UnitAt.suiteAt {u : CodeUnit} (h : v.UnitAt file u) :
    v.SuiteAt file ⟨{}, u.body, 0⟩ := by
  cases u with
  | module m body => exact h.1
  | function m name signature body => exact h.1
  | classBody m name body => exact h.1
  | lambda m signature e =>
    simp only [CodeView.SuiteAt, CodeUnit.body, CodeView.BodyAt]
  | expression m e =>
    simp only [CodeView.SuiteAt, CodeUnit.body, CodeView.BodyAt]

/-- The code of a statement stands where the statement occurs in a code object. -/
theorem CodeUnit.Has.stmtAt {u : CodeUnit} {a : Around} {st : MarkedStmt} {p : Nat}
    (h : u.Has a st p) (hv : v.UnitAt file u) : v.StmtAt file a st p :=
  Suite.Has.stmtAt h hv.suiteAt

/-- What jumps out of a round of a loop. -/
theorem CodeView.StmtAt.leaveAt {a : Around} {st : MarkedStmt} {p : Nat} {isBreak : Bool}
    (h : v.StmtAt file a st p) (hst : st.leaving? = some isBreak) : v.LeaveAt a isBreak p := by
  cases st with
  | breakLoop m =>
    obtain rfl := Option.some.inj hst
    simpa only [CodeView.StmtAt] using h
  | continueLoop m =>
    obtain rfl := Option.some.inj hst
    simpa only [CodeView.StmtAt] using h
  | _ => cases hst

theorem Stmt.codeSize_of_leaving? {α : Type} {st : Stmt α} {isBreak : Bool}
    (h : st.leaving? = some isBreak) (held : Nat) : st.codeSize held = held + 1 := by
  cases st with
  | breakLoop m => simp only [Stmt.codeSize]
  | continueLoop m => simp only [Stmt.codeSize]
  | _ => cases h

end Layout

/-! ## Positions -/

section Positions

variable {α : Type}

/-- The jumps out of a round of a loop go out of the code of the suite. -/
def Suite.Outside (S : Suite α) : Prop :=
  ∀ t, S.around.loop = some t → (t.again < S.pos ∨ S.behind ≤ t.again) ∧ S.behind ≤ t.exit

theorem Stmt.handlerSuites_range {a : Around} {S : Suite α} :
    ∀ {hs : List (Handler α (Expr α) (Stmt α))} {p : Nat}, S ∈ handlerSuites a hs p →
      S.around = a ∧ p ≤ S.pos ∧ S.behind ≤ p + Stmt.handlersSize a.held hs
  | [], _, hS => nomatch hS
  | ⟨_, _, _, _⟩ :: _, p, hS => by
    rcases List.mem_cons.mp hS with rfl | hS
    · refine ⟨rfl, by simp, ?_⟩
      simp only [Suite.behind, Suite.size, Stmt.handlersSize]
      omega
    · obtain ⟨ha, hpos, hbehind⟩ := handlerSuites_range hS
      refine ⟨ha, by omega, ?_⟩
      simp only [Stmt.handlersSize]
      omega

/-- A suite inside a statement stands behind the first instruction of it. A loop begins before its
body and ends behind it, and all other suites have the same loop around as the statement. -/
theorem Stmt.suites_range {a : Around} {st : Stmt α} {p : Nat} {S : Suite α}
    (hS : S ∈ st.suites a p) :
    p < S.pos ∧ S.behind ≤ p + st.codeSize a.held ∧
      (S.around.loop = a.loop ∧ st.loopTarget? p = none ∨
        S.around.loop = st.loopTarget? p ∧ S.Outside) := by
  cases st with
  | forLoop m target iter body =>
    obtain rfl := List.mem_singleton.mp hS
    simp only [Suite.behind, Suite.size, Stmt.codeSize]
    refine ⟨by omega, by omega, .inr ⟨rfl, ?_⟩⟩
    intro t ht
    obtain rfl := Option.some.inj ht
    simp only [Suite.behind, Suite.size, Stmt.forTarget]
    omega
  | whileLoop m test body =>
    obtain rfl := List.mem_singleton.mp hS
    simp only [Suite.behind, Suite.size, Stmt.codeSize]
    refine ⟨by omega, by omega, .inr ⟨rfl, ?_⟩⟩
    intro t ht
    obtain rfl := Option.some.inj ht
    simp only [Suite.behind, Suite.size, Stmt.whileTarget]
    omega
  | ifElse m test body orelse =>
    rcases List.mem_cons.mp hS with rfl | hS
    · simp only [Suite.behind, Suite.size, Stmt.codeSize]
      exact ⟨by omega, by omega, .inl ⟨trivial, rfl⟩⟩
    · split at hS
      · cases hS
      · rename_i hne
        obtain rfl := List.mem_singleton.mp hS
        simp only [Suite.behind, Suite.size, Stmt.codeSize, if_neg hne]
        exact ⟨by omega, by omega, .inl ⟨trivial, rfl⟩⟩
  | tryExcept m body handlers orelse final =>
    simp only [Stmt.suites, List.mem_cons, List.mem_append, Stmt.tryPlaces] at hS
    simp only [Stmt.codeSize]
    rcases hS with rfl | rfl | rfl | hS | hS
    · simp only [Suite.behind, Suite.size, Around.guarded]
      exact ⟨by omega, by omega, .inl ⟨trivial, rfl⟩⟩
    · simp only [Suite.behind, Suite.size]
      exact ⟨by omega, by omega, .inl ⟨trivial, rfl⟩⟩
    · simp only [Suite.behind, Suite.size]
      exact ⟨by split <;> omega, by split <;> omega, .inl ⟨trivial, rfl⟩⟩
    · obtain ⟨ha, hpos, hbehind⟩ := handlerSuites_range hS
      simp only [Around.guarded] at hbehind
      exact ⟨by omega, by omega, .inl ⟨by rw [ha]; rfl, rfl⟩⟩
    · split at hS
      · rename_i htyped
        obtain rfl := List.mem_singleton.mp hS
        simp only [Suite.behind, Suite.size, if_pos htyped]
        exact ⟨by omega, by omega, .inl ⟨trivial, rfl⟩⟩
      · cases hS
  | _ => cases hS

/-- A loop goes on in its code or right behind it. -/
theorem Stmt.loopTarget?_range {st : Stmt α} {p : Nat} {t : LoopTarget}
    (h : st.loopTarget? p = some t) (held : Nat) :
    (p ≤ t.again ∧ t.again ≤ p + st.codeSize held) ∧ p ≤ t.exit ∧
      t.exit ≤ p + st.codeSize held := by
  cases st with
  | forLoop m target iter body =>
    obtain rfl := Option.some.inj h
    simp only [Stmt.forTarget, Stmt.codeSize]
    omega
  | whileLoop m test body =>
    obtain rfl := Option.some.inj h
    simp only [Stmt.whileTarget, Stmt.codeSize]
    omega
  | _ => cases h

/-- The code of a statement is inside that of a suite in which it occurs. -/
theorem Suite.Has.range {S : Suite α} {b : Around} {st : Stmt α} {q : Nat} (h : S.Has b st q) :
    S.pos ≤ q ∧ q + st.codeSize b.held ≤ S.behind := by
  induction h with
  | head =>
    simp only [Suite.behind, Suite.size, Stmt.bodySize]
    omega
  | tail _ ih =>
    simp only [Suite.behind, Suite.size, Stmt.bodySize] at ih ⊢
    omega
  | inner hS _ ih =>
    have hrange := Stmt.suites_range hS
    simp only [Suite.behind, Suite.size, Stmt.bodySize] at ih hrange ⊢
    omega

theorem Suite.Outside.head {a : Around} {st : Stmt α} {ss : List (Stmt α)} {p : Nat}
    {t : LoopTarget}
    (h : (⟨a, st :: ss, p⟩ : Suite α).Outside) (ht : a.loop = some t) :
    (t.again < p ∨ p + st.codeSize a.held ≤ t.again) ∧ p + st.codeSize a.held ≤ t.exit := by
  have := h t ht
  simp only [Suite.behind, Suite.size, Stmt.bodySize] at this
  omega

/-- The jumps out of a round of the loop around a statement go out of its code. -/
theorem Suite.Has.outside {S : Suite α} {b : Around} {st : Stmt α} {q : Nat} (h : S.Has b st q)
    (hS : S.Outside) {t : LoopTarget} (ht : b.loop = some t) :
    (t.again < q ∨ q + st.codeSize b.held ≤ t.again) ∧ q + st.codeSize b.held ≤ t.exit := by
  induction h with
  | head => exact hS.head ht
  | tail _ ih =>
    refine ih (fun t ht => ?_) ht
    have := hS t ht
    simp only [Suite.behind, Suite.size, Stmt.bodySize] at this ⊢
    omega
  | inner hmem _ ih =>
    refine ih ?_ ht
    obtain ⟨hpos, hbehind, ⟨hloop, -⟩ | ⟨-, hout⟩⟩ := Stmt.suites_range hmem
    · intro t ht
      have := hS.head (hloop ▸ ht)
      omega
    · exact hout

/-- The jumps out of a round of the loop around a statement of a code object go out of its code. -/
theorem CodeUnit.Has.loop_outside {u : CodeUnit} {a : Around} {st : MarkedStmt} {p : Nat}
    (h : u.Has a st p) {t : LoopTarget} (ht : a.loop = some t) :
    (t.again < p ∨ p + st.codeSize a.held ≤ t.again) ∧ p + st.codeSize a.held ≤ t.exit :=
  Suite.Has.outside h (fun _ ht => nomatch ht) ht

/-- The loop around a statement is that around the suite, or it occurs there. -/
theorem Suite.Has.exists_loop {S : Suite α} {b : Around} {st : Stmt α} {q : Nat}
    (h : S.Has b st q) :
    b.loop = S.around.loop ∨
      ∃ c loop p, S.Has c loop p ∧ b.loop = loop.loopTarget? p ∧ p < q ∧
        q + st.codeSize b.held ≤ p + loop.codeSize c.held := by
  induction h with
  | head => exact .inl rfl
  | tail _ ih =>
    refine ih.imp id ?_
    rintro ⟨c, loop, p, hp, hloop⟩
    exact ⟨c, loop, p, .tail hp, hloop⟩
  | inner hS hin ih =>
    obtain ⟨hpos, hbehind, hkind⟩ := Stmt.suites_range hS
    rcases ih with ih | ⟨c, loop, p, hp, hloop⟩
    · rcases hkind with ⟨hsame, -⟩ | ⟨hloop, -⟩
      · exact .inl (ih.trans hsame)
      · have hrange := hin.range
        exact .inr ⟨_, _, _, .head, ih.trans hloop, by omega, by omega⟩
    · exact .inr ⟨c, loop, p, .inner hS hp, hloop⟩

/-- The loop around a statement of a code object occurs there, around the statement. -/
theorem CodeUnit.Has.exists_loop {u : CodeUnit} {a : Around} {st : MarkedStmt} {p : Nat}
    (h : u.Has a st p) {t : LoopTarget} (ht : a.loop = some t) :
    ∃ b loop q, u.Has b loop q ∧ loop.loopTarget? q = some t ∧ q < p ∧
      p + st.codeSize a.held ≤ q + loop.codeSize b.held := by
  rcases Suite.Has.exists_loop h with hnone | ⟨b, loop, q, hq, hloop, hrange⟩
  · rw [ht] at hnone
    cases hnone
  · exact ⟨b, loop, q, hq, hloop.symm.trans ht, hrange⟩

end Positions

end Toolchain

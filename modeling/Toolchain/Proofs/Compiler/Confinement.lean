import Toolchain.Proofs.Compiler.Calm

/-!
# Confined code

Where the code of statements can lead: to its own positions, right behind it, and to where the jumps
out of loops in it go. What does not leave a loop around it and does not return stays inside.

## Main definitions

* `CodeView.Confined`: a stretch of code whose edges lead to some positions only
* `Suite.Keeps`: the jumps out of loops that occur in a suite, and its returns, are allowed

## Main results

* `CodeView.SuiteAt.confined`: the code of a suite leads nowhere but where it is allowed to
* `CodeView.HandlersAt.confined`: the same for handlers
-/

namespace Toolchain

/-- The returns in a suite are allowed, and the jumps out of loops go to these positions. -/
structure Suite.Keeps {α : Type} (S : Suite α) (returns : Prop) (R : Nat → Prop) : Prop where
  ret : ∀ b st q, S.Has b st q → st.stop? = some .ret → returns
  leave : ∀ b st q, S.Has b st q → st.leaving?.isSome = true →
    ∀ t, b.loop = some t → R t.exit ∧ R t.again

namespace Suite

variable {α : Type} {a : Around} {st : Stmt α} {ss : List (Stmt α)} {p : Nat} {returns : Prop}
  {R : Nat → Prop}

theorem Keeps.tail (h : (⟨a, st :: ss, p⟩ : Suite α).Keeps returns R) :
    (⟨a, ss, p + st.codeSize a.held⟩ : Suite α).Keeps returns R :=
  ⟨fun b st' q hst => h.ret b st' q (.tail hst), fun b st' q hst => h.leave b st' q (.tail hst)⟩

theorem Keeps.head (h : (⟨a, st :: ss, p⟩ : Suite α).Keeps returns R) :
    (⟨a, [st], p⟩ : Suite α).Keeps returns R := by
  have hall {b : Around} {st' : Stmt α} {q : Nat} (hst : (⟨a, [st], p⟩ : Suite α).Has b st' q) :
      (⟨a, st :: ss, p⟩ : Suite α).Has b st' q := by
    cases hst with
    | head => exact .head
    | tail hst => cases hst
    | inner hS hst => exact .inner hS hst
  exact ⟨fun b st' q hst => h.ret b st' q (hall hst), fun b st' q hst => h.leave b st' q (hall hst)⟩

theorem Keeps.inner (h : (⟨a, st :: ss, p⟩ : Suite α).Keeps returns R) {S : Suite α}
    (hS : S ∈ st.suites a p) : S.Keeps returns R :=
  ⟨fun b st' q hst => h.ret b st' q (.inner hS hst),
    fun b st' q hst => h.leave b st' q (.inner hS hst)⟩

end Suite

namespace CodeView

variable {v : CodeView} {file : Text} {p q n m : Nat} {returns : Prop} {R : Nat → Prop}

/-- A stretch of `n` instructions that lead to some positions only, and return only if that is
allowed. -/
def Confined (v : CodeView) (p n : Nat) (returns : Prop) (R : Nat → Prop) : Prop :=
  ∀ x, p ≤ x → x < p + n → ∃ i, v.instr? x = some i ∧ (i.op = .ret → returns) ∧
    ∀ δ y, v.Edge x δ y → R y

theorem confined_nil (v : CodeView) (p : Nat) (returns : Prop) (R : Nat → Prop) :
    v.Confined p 0 returns R := fun x h₁ h₂ => by omega

theorem Confined.append (h : v.Confined p n returns R) (h' : v.Confined q m returns R)
    (hq : q = p + n) : v.Confined p (n + m) returns R := by
  subst hq
  intro x h₁ h₂
  rcases Nat.lt_or_ge x (p + n) with hx | hx
  · exact h x h₁ hx
  · exact h' x hx (by omega)

theorem Confined.congr (h : v.Confined p n returns R) (hn : n = m) : v.Confined p m returns R :=
  hn ▸ h

theorem Calm.confined (h : v.Calm p n fun _ => False) (hR : ∀ y, p ≤ y → y ≤ p + n → R y) :
    v.Confined p n returns R := by
  intro x h₁ h₂
  obtain ⟨i, hx, hplain, hedge⟩ := h.quiet x h₁ h₂
  refine ⟨i, hx, fun hret => ?_, fun δ y he => ?_⟩
  · rw [hret] at hplain
    cases hplain
  · obtain ⟨hlo, hhi⟩ := (hedge δ y he).resolve_right id
    exact hR y hlo hhi

/-- A single instruction that does not return. -/
theorem confined_instr {i : Instr} (hi : v.instr? p = some i) (hret : i.op ≠ .ret)
    (hnext : i.op.terminates = false → R (p + 1)) (hjump : i.op.isJump = true → R i.operand) :
    v.Confined p 1 returns R := by
  intro x h₁ h₂
  obtain rfl : x = p := by omega
  refine ⟨i, hi, fun h => absurd h hret, fun δ y he => ?_⟩
  rcases he.next_or_target hi with ⟨rfl, ht⟩ | ⟨rfl, hj⟩
  · exact hnext ht
  · exact hjump hj

/-- A single instruction that only goes on. -/
theorem confined_next {op : Opcode} (hi : v.instr? p = some ⟨op, n⟩) (hret : op ≠ .ret)
    (hjump : op.isJump = false) (hnext : R (p + 1)) : v.Confined p 1 returns R := by
  refine confined_instr hi hret (fun _ => hnext) fun h => ?_
  rw [hjump] at h
  cases h

/-- A single instruction that goes on or jumps. -/
theorem confined_branch {op : Opcode} (hi : v.instr? p = some ⟨op, q⟩) (hret : op ≠ .ret)
    (hnext : R (p + 1)) (htarget : R q) : v.Confined p 1 returns R :=
  confined_instr hi hret (fun _ => hnext) fun _ => htarget

/-- A single jump. -/
theorem confined_jump (hi : v.instr? p = some ⟨.jump, q⟩) (htarget : R q) :
    v.Confined p 1 returns R := by
  refine confined_instr hi (by simp) (fun h => ?_) fun _ => htarget
  cases h

/-- A single instruction that raises. -/
theorem confined_raise (hi : v.instr? p = some ⟨.raise, n⟩) : v.Confined p 1 returns R := by
  refine confined_instr hi (by simp) (fun h => ?_) fun h => ?_
  · cases h
  · cases h

/-- A single return. -/
theorem confined_ret {i : Instr} (hi : v.instr? p = some i) (hop : i.op = .ret) (hret : returns) :
    v.Confined p 1 returns R := by
  intro x h₁ h₂
  obtain rfl : x = p := by omega
  refine ⟨i, hi, fun _ => hret, fun δ y he => ?_⟩
  rcases he.next_or_target hi with ⟨-, ht⟩ | ⟨-, hj⟩
  · rw [hop] at ht
    cases ht
  · rw [hop] at hj
    cases hj

theorem LeaveAt.confined {a : Around} {isBreak : Bool} (h : v.LeaveAt a isBreak p)
    (hR : ∀ y, p ≤ y → y ≤ p + (a.held + 1) → R y)
    (ht : ∀ t, a.loop = some t → R t.exit ∧ R t.again) : v.Confined p (a.held + 1) returns R := by
  obtain ⟨t, hloop, hhandles, hjump⟩ := h
  have hremoved : v.Confined p a.held returns R := by
    intro x h₁ h₂
    have hx := hhandles (x - p) (by omega)
    rw [Nat.add_sub_cancel' h₁] at hx
    exact confined_next hx (by decide) rfl (hR _ (by omega) (by omega)) x (Nat.le_refl x)
      (Nat.lt_succ_self x)
  refine hremoved.append (confined_jump hjump ?_) rfl
  cases isBreak with
  | true => exact (ht t hloop).1
  | false => exact (ht t hloop).2

theorem HeadAt.confined {next : Nat} {name : Option String} {type : Option MarkedExpr}
    (h : v.HeadAt file next name type p)
    (hR : ∀ y, p ≤ y → y ≤ p + Handler.headSize type → R y) (hnext : R next) :
    v.Confined p (Handler.headSize type) returns R := by
  have htake {q : Nat} (h : v.TakeAt name q) (hR : ∀ y, q ≤ y → y ≤ q + 1 → R y) :
      v.Confined q 1 returns R := h.calm.confined hR
  cases type with
  | none =>
    exact htake h hR
  | some type =>
    have hcompared : v.Confined p (1 + type.codeSize + 1) returns R :=
      h.calm.confined fun y h₁ h₂ => hR y h₁ (by simp only [Handler.headSize]; omega)
    simp only [HeadAt, Handler.headSize] at h hR ⊢
    obtain ⟨-, -, -, hjump, hbind⟩ := h
    have htested := hcompared.append
      (confined_branch hjump (by decide) (hR _ (by omega) (by omega)) hnext) (by omega)
    exact (htested.append (htake hbind fun y h₁ h₂ => hR y (by omega) (by omega)) (by omega)).congr
      (by omega)

/-- The code of a `try` before its final parts. -/
theorem confined_guarded {a : Around} {m : Mark} {body orelse final : List MarkedStmt}
    {handlers : List (Handler Mark MarkedExpr MarkedStmt)}
    (h : v.StmtAt file a (.tryExcept m body handlers orelse final) p)
    (hbody : v.Confined (p + 1) (Stmt.bodySize (a.held + 1) body) returns R)
    (horelse : v.Confined (p + 1 + Stmt.bodySize (a.held + 1) body + 1)
      (Stmt.bodySize a.held orelse) returns R)
    (hhandlers : v.Confined
      (p + 1 + Stmt.bodySize (a.held + 1) body + 1 + Stmt.bodySize a.held orelse + 1)
      (Stmt.handlersSize (a.held + 1) handlers) returns R)
    (hR : ∀ y, p ≤ y → y ≤ (Stmt.tryPlaces a.held body handlers orelse final p).passed → R y)
    (hfin : R (Stmt.tryPlaces a.held body handlers orelse final p).final) :
    v.Confined p (1 + Stmt.bodySize (a.held + 1) body + 1 + Stmt.bodySize a.held orelse + 1 +
      Stmt.handlersSize (a.held + 1) handlers) returns R := by
  obtain ⟨htry, -, hremove, -, hjump, -, -, -⟩ := h
  simp only [Stmt.tryPlaces] at htry hremove hjump hR
  have hentered : v.Confined p 1 returns R :=
    confined_branch htry (by decide) (hR _ (by omega) (by omega))
      (hR _ (by omega) (by omega))
  have hremoved :=
    (hentered.append hbody rfl).append
      (confined_next hremove (by decide) rfl (hR _ (by omega) (by omega))) (by omega)
  have hjumped := (hremoved.append horelse (by omega)).append
    (confined_jump hjump hfin) (by omega)
  exact hjumped.append hhandlers (by omega)

mutual

/-- The code of a statement leads nowhere but where it is allowed to. -/
theorem StmtAt.confined : ∀ {st : MarkedStmt} {a : Around} {p : Nat}, v.StmtAt file a st p →
    (∀ y, p ≤ y → y ≤ p + st.codeSize a.held → R y) → (⟨a, [st], p⟩ : Suite Mark).Keeps returns R →
      v.Confined p (st.codeSize a.held) returns R
  | .forLoop m target iter body, a, p, h, hR, hK => by
    have hbody := hK.inner (List.mem_singleton_self _)
    simp only [StmtAt, Stmt.forTarget, Stmt.codeSize] at h hR ⊢
    obtain ⟨hiter, hget, hfirst, hstore, hinner, hnext, hback, hpop⟩ := h
    -- the parts of the code are put together from the left; each jump stays inside or leads out
    have hhead : v.Confined p (iter.codeSize + 1 + 1) returns R := by
      refine ((hiter.calm.snoc hget rfl rfl).confined fun y h₁ h₂ => hR y h₁ (by omega)).append ?_
        rfl
      exact confined_branch hfirst (by decide) (hR _ (by omega) (by omega))
        (hR _ (by omega) (by omega))
    have hstored := hhead.append (hstore.calm.confined
      fun y h₁ h₂ => hR y (by omega) (by omega)) rfl
    have hround := hstored.append (BodyAt.confined hinner
      (fun y h₁ h₂ => hR y (by omega) (by simp only at h₂; omega)) hbody) (by omega)
    have hagain := hround.append (confined_branch hnext (by decide) (hR _ (by omega) (by omega))
      (hR _ (by omega) (by omega))) (by simp only; omega)
    have hjumped := hagain.append (confined_jump hback
      (hR _ (by omega) (by omega))) (by simp only; omega)
    exact (hjumped.append (confined_next hpop (by decide) rfl (hR _ (by omega) (by omega)))
      (by simp only; omega)).congr (by simp only)
  | .whileLoop m test body, a, p, h, hR, hK => by
    have hbody := hK.inner (List.mem_singleton_self _)
    simp only [StmtAt, Stmt.whileTarget, Stmt.codeSize] at h hR ⊢
    obtain ⟨htest, hjump, hinner, hback⟩ := h
    have htested : v.Confined p (test.codeSize + 1) returns R := by
      refine (htest.calm.confined fun y h₁ h₂ => hR y h₁ (by omega)).append ?_ rfl
      exact confined_branch hjump (by decide) (hR _ (by omega) (by omega))
        (hR _ (by omega) (by omega))
    have hround := htested.append (BodyAt.confined hinner
      (fun y h₁ h₂ => hR y (by omega) (by simp only at h₂; omega)) hbody) rfl
    exact hround.append (confined_jump hback
      (hR _ (by omega) (by omega))) (by simp only; omega)
  | .ifElse m test body orelse, a, p, h, hR, hK => by
    have hbody := hK.inner (List.mem_cons_self)
    simp only [StmtAt, Stmt.codeSize] at h hR ⊢
    obtain ⟨htest, hinner, hjump⟩ := h
    have hcalm : v.Confined p test.codeSize returns R :=
      htest.calm.confined fun y h₁ h₂ => hR y h₁ (by omega)
    have hinner' := BodyAt.confined hinner (fun y h₁ h₂ => hR y (by omega) (by omega)) hbody
    by_cases hnone : orelse.isEmpty = true
    · simp only [if_pos hnone] at hjump hR ⊢
      have htested := hcalm.append (confined_branch hjump (by decide) (hR _ (by omega) (by omega))
        (hR _ (by omega) (by omega))) rfl
      exact htested.append hinner' rfl
    · have horelse := hK.inner (S := ⟨a, orelse, _⟩) (by
        simp only [Stmt.suites, if_neg hnone]
        exact List.mem_cons_of_mem _ (List.mem_singleton_self _))
      simp only [if_neg hnone] at hjump hR ⊢
      obtain ⟨hjump, hover, helse⟩ := hjump
      have htested := hcalm.append (confined_branch hjump (by decide) (hR _ (by omega) (by omega))
        (hR _ (by omega) (by omega))) rfl
      have hdone := (htested.append hinner' rfl).append (confined_jump hover
        (hR _ (by omega) (by omega))) (by omega)
      exact (hdone.append
        (BodyAt.confined helse (fun y h₁ h₂ => hR y (by omega) (by omega)) horelse)
        (by omega)).congr (by omega)
  | .tryExcept m body handlers orelse final, a, p, h, hR, hK => by
    have hsuite {S : Suite Mark}
        (hS : S ∈ (Stmt.tryExcept m body handlers orelse final).suites a p) :=
      hK.inner hS
    simp only [Stmt.suites, List.mem_cons, List.mem_append] at hsuite
    have hat := h
    obtain ⟨-, hbody, -, horelse, -, hhandlers, hpassed, hfinal⟩ := h
    simp only [Stmt.codeSize] at hR ⊢
    have hfin : (Stmt.tryPlaces a.held body handlers orelse final p).final =
        p + (1 + Stmt.bodySize (a.held + 1) body + 1 + Stmt.bodySize a.held orelse + 1 +
          Stmt.handlersSize (a.held + 1) handlers + if handlers.all fun h => h.type.isSome
          then Stmt.bodySize a.held final + 1 else 0) := by
      simp only [Stmt.tryPlaces]
      split <;> omega
    have hlast := BodyAt.confined hfinal (fun y h₁ h₂ => hR y (by omega) (by omega))
      (hsuite (.inr (.inr (.inl rfl))))
    refine Confined.append ?_ hlast hfin
    have hhandled := HandlersAt.confined hhandlers
      (fun y h₁ h₂ => hR y (by simp only [Stmt.tryPlaces] at h₁; omega)
        (by simp only [Stmt.tryPlaces, Around.guarded] at h₂; omega))
      (hR _ (by omega) (by omega)) fun S hS => hsuite (.inr (.inr (.inr (.inl hS))))
    simp only [Stmt.tryPlaces] at horelse hpassed
    have hguarded := confined_guarded hat
      (BodyAt.confined hbody
        (fun y h₁ h₂ => hR y (by omega) (by simp only [Around.guarded] at h₂; omega))
        (hsuite (.inl rfl)))
      (BodyAt.confined horelse (fun y h₁ h₂ => hR y (by omega) (by omega))
        (hsuite (.inr (.inl rfl))))
      hhandled (fun y h₁ h₂ => hR y h₁ (by simp only [Stmt.tryPlaces] at h₂; omega))
      (hR _ (by omega) (by omega))
    by_cases htyped : (handlers.all fun h => h.type.isSome) = true
    · obtain ⟨hraised, hraise⟩ := hpassed htyped
      simp only [if_pos htyped] at hR ⊢
      have hpart := hguarded.append (BodyAt.confined hraised
        (fun y h₁ h₂ => hR y (by omega) (by omega)) (hsuite (.inr (.inr (.inr (.inr (by
          rw [if_pos htyped]
          exact List.mem_singleton_self _))))))) (by omega)
      exact (hpart.append (confined_raise hraise) (by omega)).congr (by omega)
    · rw [if_neg htyped]
      exact hguarded
  | .breakLoop m, a, p, h, hR, hK => by
    simp only [StmtAt, Stmt.codeSize] at h hR ⊢
    exact h.confined hR (hK.leave _ _ _ .head rfl)
  | .continueLoop m, a, p, h, hR, hK => by
    simp only [StmtAt, Stmt.codeSize] at h hR ⊢
    exact h.confined hR (hK.leave _ _ _ .head rfl)
  | .ret m value, a, p, h, hR, hK => by
    obtain ⟨n, k, hn, hcalm, hi⟩ := h.stops rfl
    rw [hn] at hR ⊢
    refine (hcalm.confined fun y h₁ h₂ => hR y h₁ (by omega)).append ?_ rfl
    exact confined_ret hi rfl (hK.ret _ _ _ .head rfl)
  | .raise m exc cause, a, p, h, hR, hK => by
    obtain ⟨n, k, hn, hcalm, hi⟩ := h.stops rfl
    rw [hn] at hR ⊢
    refine (hcalm.confined fun y h₁ h₂ => hR y h₁ (by omega)).append ?_ rfl
    exact confined_raise hi
  | .functionDef .., a, p, h, hR, _ => (h.calm rfl).confined hR
  | .classDef .., a, p, h, hR, _ => (h.calm rfl).confined hR
  | .delete .., a, p, h, hR, _ => (h.calm rfl).confined hR
  | .assign .., a, p, h, hR, _ => (h.calm rfl).confined hR
  | .augAssign .., a, p, h, hR, _ => (h.calm rfl).confined hR
  | .assert .., a, p, h, hR, _ => (h.calm rfl).confined hR
  | .imports .., a, p, h, hR, _ => (h.calm rfl).confined hR
  | .importFrom .., a, p, h, hR, _ => (h.calm rfl).confined hR
  | .expr .., a, p, h, hR, _ => (h.calm rfl).confined hR
  | .pass .., a, p, h, hR, _ => (h.calm rfl).confined hR

/-- The code of statements leads nowhere but where it is allowed to. -/
theorem BodyAt.confined : ∀ {ss : List MarkedStmt} {a : Around} {p : Nat}, v.BodyAt file a ss p →
    (∀ y, p ≤ y → y ≤ p + Stmt.bodySize a.held ss → R y) →
      (⟨a, ss, p⟩ : Suite Mark).Keeps returns R → v.Confined p (Stmt.bodySize a.held ss) returns R
  | [], a, p, _, _, _ => by
    exact confined_nil v p returns R
  | st :: ss, a, p, h, hR, hK => by
    simp only [BodyAt, Stmt.bodySize] at h hR ⊢
    exact (h.1.confined (fun y h₁ h₂ => hR y h₁ (by omega)) hK.head).append
      (BodyAt.confined h.2 (fun y h₁ h₂ => hR y (by omega) (by omega)) hK.tail) rfl

/-- The code of handlers leads nowhere but where it is allowed to. -/
theorem HandlersAt.confined : ∀ {hs : List (Handler Mark MarkedExpr MarkedStmt)} {a : Around}
    {fin p : Nat}, v.HandlersAt file a fin hs p →
      (∀ y, p ≤ y → y ≤ p + Stmt.handlersSize a.held hs → R y) → R fin →
      (∀ S ∈ Stmt.handlerSuites a hs p, S.Keeps returns R) →
      v.Confined p (Stmt.handlersSize a.held hs) returns R
  | [], a, fin, p, _, _, _, _ => by
    exact confined_nil v p returns R
  | ⟨m, type, name, body⟩ :: rest, a, fin, p, h, hR, hfin, hK => by
    have hbody := hK _ List.mem_cons_self
    simp only [HandlersAt, Stmt.handlersSize] at h hR ⊢
    obtain ⟨hhead, hinner, hremove, hjump, hrest⟩ := h
    have htested : v.Confined p (Handler.headSize type) returns R :=
      hhead.confined (fun y h₁ h₂ => hR y h₁ (by omega)) (hR _ (by omega) (by omega))
    have hcaught := htested.append
      (BodyAt.confined hinner (fun y h₁ h₂ => hR y (by omega) (by omega)) hbody) rfl
    have hremoved :=
      hcaught.append (confined_next hremove (by decide) rfl (hR _ (by omega) (by omega))) (by omega)
    have hjumped := hremoved.append (confined_jump hjump hfin) (by omega)
    refine (hjumped.append
      (HandlersAt.confined hrest (fun y h₁ h₂ => hR y (by omega) (by omega)) hfin
      fun S hS => hK S (List.mem_cons_of_mem _ hS)) (by omega)).congr (by omega)

end

end CodeView

end Toolchain

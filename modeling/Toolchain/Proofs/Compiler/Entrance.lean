import Toolchain.Proofs.Compiler.HandlerCount

/-!
# Entrance into statements

Control comes into the code of a statement only at its start. The instructions of a compound
statement around the suites inside it lead to the starts of these or past them, and what is inside a
suite leads along the suite, right behind it, or out of the loop around it. So whatever happens in
the code of a statement happened after control came to its first instruction.

## Main definitions

* `Suite.Clear`: a position is not inside the code of a suite, though it may be at its start

## Main results

* `Suite.Has.entrance`: from outside a statement control comes to its start or past it
* `CodeUnit.Has.exists_machine_start`: a handler count at the start of a statement, if there is one
  in its code
-/

namespace Toolchain

/-- A position at the start of a suite or outside of its code. -/
def Suite.Clear {α : Type} (S : Suite α) (y : Nat) : Prop := y ≤ S.pos ∨ S.behind ≤ y

/-- The suites inside a statement stand side by side. -/
def Suite.Apart {α : Type} (S S' : Suite α) : Prop := S.behind ≤ S'.pos ∨ S'.behind ≤ S.pos

section Suites

variable {α : Type} {a : Around} {p : Nat}

instance : Std.Symm (Suite.Apart (α := α)) := ⟨fun _ _ => Or.symm⟩

theorem Stmt.handlerSuites_pairwise : ∀ (hs : List (Handler α (Expr α) (Stmt α))) (p : Nat),
    (handlerSuites a hs p).Pairwise Suite.Apart
  | [], _ => .nil
  | ⟨m, type, name, body⟩ :: rest, p => by
    refine List.pairwise_cons.mpr ⟨fun S hS => .inl ?_, handlerSuites_pairwise rest _⟩
    obtain ⟨-, hpos, -⟩ := handlerSuites_range hS
    simp only [Suite.behind, Suite.size]
    omega

/-- The suites inside a statement stand side by side. -/
theorem Stmt.suites_pairwise (st : Stmt α) : (st.suites a p).Pairwise Suite.Apart := by
  cases st with
  | forLoop m target iter body => exact List.pairwise_singleton _ _
  | whileLoop m test body => exact List.pairwise_singleton _ _
  | ifElse m test body orelse =>
    refine List.pairwise_cons.mpr ⟨fun S hS => .inl ?_, ?_⟩
    · split at hS
      · cases hS
      · obtain rfl := List.mem_singleton.mp hS
        simp only [Suite.behind, Suite.size]
        omega
    · split
      · exact .nil
      · exact List.pairwise_singleton _ _
  | tryExcept m body handlers orelse final =>
    obtain ⟨places, hplaces⟩ :
        ∃ places, tryPlaces a.held body handlers orelse final p = places := ⟨_, rfl⟩
    have hhandlers {S : Suite α} (hS : S ∈ handlerSuites a.guarded handlers places.handlers) :
        places.handlers ≤ S.pos ∧ S.behind ≤ places.passed := by
      obtain ⟨-, hpos, hbehind⟩ := handlerSuites_range hS
      subst hplaces
      exact ⟨hpos, hbehind⟩
    have hbody : p + 1 + Stmt.bodySize a.guarded.held body = places.removal := by
      rw [← hplaces]; rfl
    have horelse : places.removal + 1 + Stmt.bodySize a.held orelse + 1 = places.handlers := by
      rw [← hplaces]; rfl
    have hpassed : places.handlers ≤ places.passed := by
      rw [← hplaces]
      exact Nat.le_add_right _ _
    have hfinal : places.final = if (handlers.all fun h => h.type.isSome) = true then
        places.passed + Stmt.bodySize a.held final + 1 else places.passed := by
      rw [← hplaces]; rfl
    have hbehind : places.passed ≤ places.final := by
      rw [hfinal]
      split <;> omega
    simp only [Stmt.suites, hplaces, List.pairwise_cons, List.mem_cons, List.mem_append]
    refine ⟨?_, ?_, ?_, List.pairwise_append.mpr ⟨handlerSuites_pairwise _ _, ?_, ?_⟩⟩
    · rintro S (rfl | rfl | hS | hS) <;> left <;> simp only [Suite.behind, Suite.size]
      · omega
      · omega
      · have := hhandlers hS
        omega
      · split at hS
        · obtain rfl := List.mem_singleton.mp hS
          simp only
          omega
        · cases hS
    · rintro S (rfl | hS | hS) <;> left <;> simp only [Suite.behind, Suite.size]
      · omega
      · have := hhandlers hS
        omega
      · split at hS
        · obtain rfl := List.mem_singleton.mp hS
          simp only
          omega
        · cases hS
    · rintro S (hS | hS) <;> right
      · have := hhandlers hS
        simp only
        omega
      · split at hS
        · rename_i htyped
          obtain rfl := List.mem_singleton.mp hS
          simp only [Suite.behind, Suite.size]
          rw [hfinal, if_pos htyped]
          omega
        · cases hS
    · split
      · exact List.pairwise_singleton _ _
      · exact .nil
    · intro S hS S' hS'
      left
      split at hS'
      · obtain rfl := List.mem_singleton.mp hS'
        exact (hhandlers hS).2
      · cases hS'
  | _ => exact .nil

end Suites

namespace CodeView

variable {v : CodeView} {file : Text} {a : Around} {p x y : Nat} {δ : Int}

/-- What is inside a suite leads along it, right behind it, or out of the loop around it. -/
theorem SuiteAt.edge {S : Suite Mark} (h : v.SuiteAt file S) (hx : S.pos ≤ x) (hx' : x < S.behind)
    (he : v.Edge x δ y) :
    S.pos ≤ y ∧ y ≤ S.behind ∨ ∃ t, S.around.loop = some t ∧ (y = t.exit ∨ y = t.again) := by
  have hkeeps : S.Keeps True fun y => S.pos ≤ y ∧ y ≤ S.behind ∨
      ∃ t, S.around.loop = some t ∧ (y = t.exit ∨ y = t.again) := by
    refine ⟨fun _ _ _ _ _ => trivial, fun b st q hst _ t ht => ?_⟩
    rcases hst.exists_loop with hsame | ⟨c, loop, q', hq', htarget, -⟩
    · exact ⟨.inr ⟨t, hsame.symm.trans ht, .inl rfl⟩, .inr ⟨t, hsame.symm.trans ht, .inr rfl⟩⟩
    · have hrange := hq'.range
      have hinside := Stmt.loopTarget?_range (htarget.symm.trans ht) c.held
      exact ⟨.inl (by omega), .inl (by omega)⟩
  obtain ⟨i, -, -, hedge⟩ := BodyAt.confined h (fun y h₁ h₂ => .inl ⟨h₁, h₂⟩) hkeeps x hx hx'
  exact hedge δ y he

/-- The instructions between the bodies of handlers lead to the starts of these or past them, or to
the final part. -/
theorem HandlersAt.clear : ∀ {hs : List (Handler Mark MarkedExpr MarkedStmt)} {fin p : Nat},
    v.HandlersAt file a fin hs p → p ≤ x → x < p + Stmt.handlersSize a.held hs →
    (∀ S ∈ Stmt.handlerSuites a hs p, x < S.pos ∨ S.behind ≤ x) → v.Edge x δ y →
      y = fin ∨ (p ≤ y ∧ y ≤ p + Stmt.handlersSize a.held hs) ∧
        ∀ S ∈ Stmt.handlerSuites a hs p, S.Clear y
  | [], _, _, _, hx, hx', _, _ => by
    simp only [Stmt.handlersSize] at hx'
    omega
  | ⟨m, type, name, body⟩ :: rest, fin, p, h, hx, hx', hclear, he => by
    simp only [HandlersAt, Stmt.handlersSize] at h hx' ⊢
    obtain ⟨hhead, -, hremove, hjump, hrest⟩ := h
    obtain ⟨behind, hbehind⟩ :
        ∃ behind, p + Handler.headSize type + Stmt.bodySize a.held body = behind := ⟨_, rfl⟩
    simp only [hbehind] at hhead hremove hjump hrest
    -- the body of this handler, and those behind it
    have hfirst := hclear _ List.mem_cons_self
    simp only [Suite.behind, Suite.size, hbehind] at hfirst
    have hlater (S : Suite Mark) (hS : S ∈ Stmt.handlerSuites a rest (behind + 2)) :
        behind + 2 ≤ S.pos := (Stmt.handlerSuites_range hS).2.1
    have hborder (z : Nat) (hz : z ≤ p + Handler.headSize type ∨ behind ≤ z)
      (hz' : z ≤ behind + 2) :
        ∀ S ∈ Stmt.handlerSuites a (⟨m, type, name, body⟩ :: rest) p, S.Clear z := by
      intro S hS
      simp only [Stmt.handlerSuites, hbehind] at hS
      rcases List.mem_cons.mp hS with rfl | hS
      · simpa only [Suite.Clear, Suite.behind, Suite.size, hbehind] using hz
      · exact .inl (Nat.le_trans hz' (hlater S hS))
    rcases Nat.lt_or_ge x (p + Handler.headSize type) with hin | hin
    · have hconfined : v.Confined p (Handler.headSize type) True fun y => y = fin ∨
          (p ≤ y ∧ y ≤ behind + 2 + Stmt.handlersSize a.held rest) ∧
            ∀ S ∈ Stmt.handlerSuites a (⟨m, type, name, body⟩ :: rest) p, S.Clear y :=
        hhead.confined
          (fun z h₁ h₂ => .inr ⟨by omega, hborder z (.inl h₂) (by omega)⟩)
          (.inr ⟨by omega, hborder _ (.inr (by omega)) (Nat.le_refl _)⟩)
      obtain ⟨i, -, -, hedge⟩ := hconfined x hx hin
      exact (hedge δ y he).imp id fun hy => ⟨by omega, hy.2⟩
    · have hge : behind ≤ x := hfirst.resolve_left (by omega)
      rcases Nat.lt_or_ge x (behind + 2) with hlt | hge'
      · obtain rfl | rfl : x = behind ∨ x = behind + 1 := by omega
        · rcases he.next_or_target hremove with ⟨rfl, -⟩ | ⟨-, hj⟩
          · exact .inr ⟨by omega, hborder _ (.inr (by omega)) (by omega)⟩
          · cases hj
        · rcases he.next_or_target hjump with ⟨-, ht⟩ | ⟨rfl, -⟩
          · cases ht
          · exact .inl rfl
      · have hothers : ∀ S ∈ Stmt.handlerSuites a rest (behind + 2), x < S.pos ∨ S.behind ≤ x := by
          intro S hS
          refine hclear S ?_
          simp only [Stmt.handlerSuites, hbehind]
          exact List.mem_cons_of_mem _ hS
        refine (hrest.clear hge' (by omega) hothers he).imp id fun hy => ⟨by omega, fun S hS => ?_⟩
        simp only [Stmt.handlerSuites, hbehind] at hS
        rcases List.mem_cons.mp hS with rfl | hS
        · right
          simp only [Suite.behind, Suite.size, hbehind]
          omega
        · exact hy.2 S hS

/-- The instructions of a statement outside the suites inside it lead to the starts of these or past
them. -/
theorem StmtAt.clear {st : MarkedStmt} (h : v.StmtAt file a st p) (hx : p ≤ x)
    (hx' : x < p + st.codeSize a.held) (hclear : ∀ S ∈ st.suites a p, x < S.pos ∨ S.behind ≤ x)
    (he : v.Edge x δ y) : ∀ S ∈ st.suites a p, S.Clear y := by
  cases st with
  | forLoop m target iter body =>
    simp only [StmtAt, Stmt.forTarget] at h
    obtain ⟨hiter, hget, hfirst, hstore, -, hnext, hback, hpop⟩ := h
    have hout := hclear _ (List.mem_singleton_self _)
    intro S hS
    obtain rfl := List.mem_singleton.mp hS
    simp only [Suite.Clear, Suite.behind, Suite.size, Stmt.codeSize] at hout hx' ⊢
    have hhead : v.Confined p (iter.codeSize + 1 + 1 + target.storeSize) True fun y =>
        y ≤ p + iter.codeSize + 2 + target.storeSize ∨
          p + iter.codeSize + 2 + target.storeSize + Stmt.bodySize 0 body ≤ y := by
      refine (((hiter.calm.snoc hget rfl rfl).confined fun y _ _ => .inl (by omega)).append
        (confined_branch hfirst (by decide) (.inl (by omega)) (.inr (by omega))) rfl).append
        (hstore.calm.confined fun y _ _ => .inl (by omega)) (by omega)
    rcases hout with hlt | hge
    · obtain ⟨i, -, -, hedge⟩ := hhead x hx (by omega)
      exact hedge δ y he
    · obtain ⟨again, hagain⟩ : ∃ again,
          p + iter.codeSize + 2 + target.storeSize + Stmt.bodySize 0 body = again := ⟨_, rfl⟩
      rw [hagain] at hnext hback hpop hge ⊢
      obtain rfl | rfl | rfl : x = again ∨ x = again + 1 ∨ x = again + 2 := by omega
      · rcases he.next_or_target hnext with ⟨rfl, -⟩ | ⟨rfl, -⟩
        · omega
        · simp only
          omega
      · rcases he.next_or_target hback with ⟨-, ht⟩ | ⟨rfl, -⟩
        · cases ht
        · simp only
          omega
      · rcases he.next_or_target hpop with ⟨rfl, -⟩ | ⟨-, hj⟩
        · omega
        · cases hj
  | whileLoop m test body =>
    simp only [StmtAt, Stmt.whileTarget] at h
    obtain ⟨htest, hjump, -, hback⟩ := h
    have hout := hclear _ (List.mem_singleton_self _)
    intro S hS
    obtain rfl := List.mem_singleton.mp hS
    simp only [Suite.Clear, Suite.behind, Suite.size, Stmt.codeSize] at hout hx' ⊢
    have hhead : v.Confined p (test.codeSize + 1) True fun y => y ≤ p + test.codeSize + 1 ∨
        p + test.codeSize + 1 + Stmt.bodySize 0 body ≤ y :=
      (htest.calm.confined fun y _ _ => .inl (by omega)).append
        (confined_branch hjump (by decide) (.inl (by omega)) (.inr (by omega))) rfl
    rcases hout with hlt | hge
    · obtain ⟨i, -, -, hedge⟩ := hhead x hx (by omega)
      exact hedge δ y he
    · obtain rfl : x = p + test.codeSize + 1 + Stmt.bodySize 0 body := by omega
      rcases he.next_or_target hback with ⟨-, ht⟩ | ⟨rfl, -⟩
      · cases ht
      · exact .inl (by omega)
  | ifElse m test body orelse =>
    obtain ⟨htest, -, hjump⟩ := h
    obtain ⟨behind, hbehind⟩ :
        ∃ behind, p + test.codeSize + 1 + Stmt.bodySize a.held body = behind := ⟨_, rfl⟩
    have hout := hclear _ List.mem_cons_self
    simp only [Suite.behind, Suite.size, hbehind] at hout
    simp only [Stmt.codeSize] at hx'
    by_cases hempty : orelse.isEmpty = true
    · rw [if_pos hempty, hbehind] at hjump
      simp only [if_pos hempty] at hx'
      intro S hS
      simp only [Stmt.suites, if_pos hempty] at hS
      obtain rfl := List.mem_singleton.mp hS
      simp only [Suite.Clear, Suite.behind, Suite.size, hbehind]
      have hhead : v.Confined p (test.codeSize + 1) True fun y =>
          y ≤ p + test.codeSize + 1 ∨ behind ≤ y :=
        (htest.calm.confined fun y _ _ => .inl (by omega)).append
          (confined_branch hjump (by decide) (.inl (by omega)) (.inr (by omega))) rfl
      obtain ⟨i, -, -, hedge⟩ := hhead x hx (by omega)
      exact hedge δ y he
    · rw [if_neg hempty, hbehind] at hjump
      obtain ⟨hjump, hover, -⟩ := hjump
      simp only [if_neg hempty] at hx'
      have hother := hclear ⟨a, orelse, behind + 1⟩ (by
        simp only [Stmt.suites, if_neg hempty, hbehind]
        exact List.mem_cons_of_mem _ (List.mem_singleton_self _))
      simp only [Suite.behind, Suite.size] at hother
      have hclear' : (y ≤ p + test.codeSize + 1 ∨ behind ≤ y) ∧
          (y ≤ behind + 1 ∨ behind + 1 + Stmt.bodySize a.held orelse ≤ y) := by
        rcases hout with hlt | hge
        · have hhead : v.Confined p (test.codeSize + 1) True fun y =>
              y ≤ p + test.codeSize + 1 ∨ y = behind + 1 :=
            (htest.calm.confined fun y _ _ => .inl (by omega)).append
              (confined_branch hjump (by decide) (.inl (by omega)) (.inr rfl)) rfl
          obtain ⟨i, -, -, hedge⟩ := hhead x hx (by omega)
          have := hedge δ y he
          omega
        · obtain rfl : x = behind := by omega
          rcases he.next_or_target hover with ⟨-, ht⟩ | ⟨rfl, -⟩
          · cases ht
          · simp only
            omega
      intro S hS
      simp only [Stmt.suites, if_neg hempty, hbehind, List.mem_cons, List.not_mem_nil,
        or_false] at hS
      rcases hS with rfl | rfl
      · simpa only [Suite.Clear, Suite.behind, Suite.size, hbehind] using hclear'.1
      · exact hclear'.2
  | tryExcept m body handlers orelse final =>
    obtain ⟨places, hplaces⟩ :
        ∃ places, Stmt.tryPlaces a.held body handlers orelse final p = places := ⟨_, rfl⟩
    have hends : p + 1 + Stmt.bodySize a.guarded.held body = places.removal ∧
        places.removal + 1 + Stmt.bodySize a.held orelse = places.completed ∧
        places.completed + 1 = places.handlers ∧
        places.handlers + Stmt.handlersSize a.guarded.held handlers = places.passed := by
      rw [← hplaces]
      exact ⟨rfl, rfl, rfl, rfl⟩
    have hfinal : places.final = if (handlers.all fun h => h.type.isSome) = true then
        places.passed + Stmt.bodySize a.held final + 1 else places.passed := by
      rw [← hplaces]; rfl
    have hsize : p + (Stmt.tryExcept m body handlers orelse final).codeSize a.held =
        places.final + Stmt.bodySize a.held final := by
      rw [← hplaces]
      simp only [Stmt.codeSize, Stmt.tryPlaces]
      split <;> omega
    simp only [StmtAt, hplaces] at h
    obtain ⟨htry, -, hremove, -, hjump, hhandlers, hraise, -⟩ := h
    simp only [Stmt.suites, hplaces, List.mem_cons, List.mem_append, forall_eq_or_imp] at hclear ⊢
    obtain ⟨hbody, horelse, hlast, hothers⟩ := hclear
    simp only [Suite.behind, Suite.size, hends.1, hends.2.1] at hbody horelse hlast
    -- positions at the borders of the parts
    have hborder (z : Nat) (hz : z ≤ p + 1 ∨ z = places.removal + 1 ∨ z = places.handlers ∨
        z = places.final) :
        Suite.Clear ⟨a.guarded, body, p + 1⟩ z ∧ Suite.Clear ⟨a, orelse, places.removal + 1⟩ z ∧
        Suite.Clear ⟨a, final, places.final⟩ z ∧
        ∀ S, S ∈ Stmt.handlerSuites a.guarded handlers places.handlers ∨
          S ∈ (if (handlers.all fun h => h.type.isSome) = true then
            [⟨a, final, places.passed⟩] else ([] : List (Suite Mark))) → S.Clear z := by
      have hle : places.passed ≤ places.final := by
        rw [hfinal]
        split <;> omega
      simp only [Suite.Clear, Suite.behind, Suite.size, hends.1, hends.2.1]
      refine ⟨by omega, by omega, by omega, ?_⟩
      rintro S (hS | hS)
      · obtain ⟨-, hpos, hbehind⟩ := Stmt.handlerSuites_range hS
        simp only [Suite.behind, Suite.size] at hbehind
        omega
      · split at hS
        · rename_i htyped
          obtain rfl := List.mem_singleton.mp hS
          rw [if_pos htyped] at hfinal
          simp only
          omega
        · cases hS
    rw [hsize] at hx'
    rcases hbody with hlt | hge
    · obtain rfl : x = p := by omega
      rcases he.next_or_target htry with ⟨rfl, -⟩ | ⟨rfl, -⟩
      · exact hborder _ (.inl (Nat.le_refl _))
      · exact hborder _ (.inr (.inr (.inl rfl)))
    rcases horelse with hlt | hge'
    · obtain rfl : x = places.removal := by omega
      rcases he.next_or_target hremove with ⟨rfl, -⟩ | ⟨-, hj⟩
      · exact hborder _ (.inr (.inl rfl))
      · cases hj
    rcases Nat.lt_or_ge x places.handlers with hlt | hge''
    · obtain rfl : x = places.completed := by omega
      rcases he.next_or_target hjump with ⟨-, ht⟩ | ⟨rfl, -⟩
      · cases ht
      · exact hborder _ (.inr (.inr (.inr rfl)))
    rcases Nat.lt_or_ge x places.passed with hlt | hge'''
    · rcases hhandlers.clear hge'' (by omega) (fun S hS => hothers S (.inl hS)) he with
        rfl | ⟨hrange, hS⟩
      · exact hborder _ (.inr (.inr (.inr rfl)))
      · have hle : places.passed ≤ places.final := by
          rw [hfinal]
          split <;> omega
        simp only [Suite.Clear, Suite.behind, Suite.size, hends.1, hends.2.1] at hS ⊢
        refine ⟨by omega, by omega, by omega, ?_⟩
        rintro S (hS' | hS')
        · exact hS S hS'
        · split at hS'
          · obtain rfl := List.mem_singleton.mp hS'
            simp only
            omega
          · cases hS'
    · -- what is left is the end of the final part that an exception passes through
      by_cases htyped : (handlers.all fun h => h.type.isSome) = true
      · rw [if_pos htyped] at hfinal
        have hpassed := hothers ⟨a, final, places.passed⟩ (.inr (by
          rw [if_pos htyped]
          exact List.mem_singleton_self _))
        simp only [Suite.behind, Suite.size] at hpassed
        obtain rfl : x = places.passed + Stmt.bodySize a.held final := by omega
        rcases he.next_or_target (hraise htyped).2 with ⟨-, ht⟩ | ⟨-, hj⟩
        · cases ht
        · cases hj
      · rw [if_neg htyped] at hfinal
        omega
  | _ => exact fun S hS => nomatch hS

end CodeView

section Entrance

variable {v : CodeView} {file : Text}

theorem Suite.Outside.tail {a : Around} {st : MarkedStmt} {ss : List MarkedStmt} {p : Nat}
    (h : (⟨a, st :: ss, p⟩ : Suite Mark).Outside) :
    (⟨a, ss, p + st.codeSize a.held⟩ : Suite Mark).Outside := by
  intro t ht
  have := h t ht
  simp only [Suite.behind, Suite.size, Stmt.bodySize] at this ⊢
  omega

/-- **The entrance of a statement.** From outside the code of a statement that occurs in a suite,
control comes to the start of the statement or past it. -/
theorem Suite.Has.entrance {S : Suite Mark} {b : Around} {st : MarkedStmt} {q : Nat}
    (h : S.Has b st q) (hv : v.SuiteAt file S) (hS : S.Outside) {x y : Nat} {δ : Int}
    (hx : S.pos ≤ x) (hx' : x < S.behind) (hout : x < q ∨ q + st.codeSize b.held ≤ x)
    (he : v.Edge x δ y) : y ≤ q ∨ q + st.codeSize b.held ≤ y := by
  -- a jump out of the loop around the suite goes out of the suite
  have hleft {S' : Suite Mark} (hS' : S'.Outside) {lo hi : Nat} (hlo : S'.pos ≤ lo)
      (hhi : hi ≤ S'.behind) (hleave : ∃ t, S'.around.loop = some t ∧ (y = t.exit ∨ y = t.again)) :
      y ≤ lo ∨ hi ≤ y := by
    obtain ⟨t, ht, hy⟩ := hleave
    have := hS' t ht
    omega
  induction h with
  | @head a st ss p =>
    simp only [CodeView.SuiteAt, CodeView.BodyAt] at hv
    simp only [Suite.behind, Suite.size, Stmt.bodySize] at hx hx'
    have htail : v.SuiteAt file ⟨a, ss, p + st.codeSize a.held⟩ := hv.2
    rcases htail.edge (by simp only; omega) (by simp only [Suite.behind, Suite.size]; omega) he with
      hy | hleave
    · exact .inr hy.1
    · refine hleft hS (Nat.le_refl _) ?_ hleave
      simp only [Suite.behind, Suite.size, Stmt.bodySize]
      omega
  | @tail a b st st' ss p q hin ih =>
    have hrange := hin.range
    simp only [Suite.behind, Suite.size, Stmt.bodySize] at hx hx' hrange
    rcases Nat.lt_or_ge x (p + st.codeSize a.held) with hlt | hge
    · have hhead : v.SuiteAt file ⟨a, [st], p⟩ := by
        simp only [CodeView.SuiteAt, CodeView.BodyAt]
        exact ⟨hv.1, trivial⟩
      rcases hhead.edge hx (by simp only [Suite.behind, Suite.size, Stmt.bodySize]; omega) he with
        hy | hleave
      · simp only [Suite.behind, Suite.size, Stmt.bodySize] at hy
        exact .inl (by omega)
      · refine hleft hS (by simp only; omega) ?_ hleave
        simp only [Suite.behind, Suite.size, Stmt.bodySize]
        omega
    · exact ih hv.2 hS.tail hge (by simp only [Suite.behind, Suite.size]; omega) hout
  | @inner a b st st' ss p q S' hmem hin ih =>
    have hrange := hin.range
    obtain ⟨hpos, hbehind, hkind⟩ := Stmt.suites_range hmem
    simp only [Suite.behind, Suite.size, Stmt.bodySize] at hx hx'
    rcases Nat.lt_or_ge x (p + st.codeSize a.held) with hlt | hge
    · by_cases hinside : ∃ S'' ∈ st.suites a p, S''.pos ≤ x ∧ x < S''.behind
      · obtain ⟨S'', hmem', hx₁, hx₂⟩ := hinside
        have hv'' := hv.1.suiteAt hmem'
        obtain ⟨-, -, hkind'⟩ := Stmt.suites_range hmem'
        by_cases hsame : S'' = S'
        · subst hsame
          refine ih hv'' ?_ hx₁ hx₂ hout
          rcases hkind with ⟨hloop, -⟩ | ⟨-, hout'⟩
          · intro t ht
            have := hS.head (hloop ▸ ht)
            omega
          · exact hout'
        · have hapart := (Stmt.suites_pairwise st).forall hmem' hmem hsame
          rcases hv''.edge hx₁ hx₂ he with hy | hleave
          · rcases hapart with h | h <;> omega
          · rcases hkind' with ⟨hloop, -⟩ | ⟨hloop, -⟩
            · rw [hloop] at hleave
              refine hleft hS (by simp only; omega) ?_ hleave
              simp only [Suite.behind, Suite.size, Stmt.bodySize] at hbehind hrange ⊢
              omega
            · -- a loop has one suite
              cases st with
              | forLoop | whileLoop =>
                exact absurd ((List.mem_singleton.mp hmem').trans (List.mem_singleton.mp hmem).symm)
                  hsame
              | _ =>
                obtain ⟨t, ht, -⟩ := hleave
                rw [hloop] at ht
                cases ht
      · have hclear : ∀ S'' ∈ st.suites a p, x < S''.pos ∨ S''.behind ≤ x := by
          intro S'' hS''
          by_contra hno
          exact hinside ⟨S'', hS'', by omega, by omega⟩
        rcases hv.1.clear hx hlt hclear he S' hmem with h | h <;> omega
    · have htail : v.SuiteAt file ⟨a, ss, p + st.codeSize a.held⟩ := hv.2
      rcases htail.edge (by simp only; omega)
        (by simp only [Suite.behind, Suite.size]; omega) he with
        hy | hleave
      · simp only at hy
        exact .inr (by omega)
      · refine hleft hS (by simp only; omega) ?_ hleave
        simp only [Suite.behind, Suite.size, Stmt.bodySize] at hbehind hrange ⊢
        omega

/-- Behind the statements of a code object stands only what returns. -/
theorem CodeView.UnitAt.edge_behind {u : CodeUnit} (h : v.UnitAt file u) {p y : Nat} {δ : Int}
    (hp : Stmt.bodySize 0 u.body ≤ p) (he : v.Edge p δ y) : Stmt.bodySize 0 u.body ≤ y := by
  have hreturn {n : Nat} (hload : v.instr? n = some ⟨.loadSpecial, 0⟩)
      (hret : v.instr? (n + 1) = some ⟨.ret, 0⟩) (hsize : v.words.size = n + 2) (hp : n ≤ p) :
      n ≤ y := by
    obtain ⟨i, hi, -⟩ := he.exists_instr
    have hlt : p < v.words.size := by
      by_contra hge
      rw [CodeView.instr?, Array.getElem?_eq_none (by omega)] at hi
      cases hi
    obtain rfl | rfl : p = n ∨ p = n + 1 := by omega
    · rcases he.next_or_target hload with ⟨rfl, -⟩ | ⟨-, hj⟩
      · omega
      · cases hj
    · rcases he.next_or_target hret with ⟨-, ht⟩ | ⟨-, hj⟩
      · cases ht
      · cases hj
  cases u with
  | module m body => exact hreturn h.2.1 h.2.2.1 h.2.2.2 hp
  | function m name signature body => exact hreturn h.2.1 h.2.2.1 h.2.2.2 hp
  | classBody m name body => exact hreturn h.2.1 h.2.2.1 h.2.2.2 hp
  | lambda m signature e => exact Nat.zero_le y
  | expression m e => exact Nat.zero_le y

/-- Control that is in the code of a statement of a code object came to its start before. -/
theorem CodeUnit.Has.exists_machine_start {u : CodeUnit} {a : Around} {st : MarkedStmt} {q : Nat}
    (h : u.Has a st q) (hv : v.UnitAt file u) {x : Nat} {k : Int} (hx : v.HandlerMachine x k)
    (hin : q ≤ x ∧ x < q + st.codeSize a.held) : ∃ n, v.HandlerMachine q n := by
  have hrange := Suite.Has.range h
  simp only [Suite.behind, Suite.size] at hrange
  induction hx with
  | start =>
    obtain rfl : q = 0 := by omega
    exact ⟨0, .start⟩
  | @step p y k δ i hp hi he ih =>
    by_cases hinside : q ≤ p ∧ p < q + st.codeSize a.held
    · exact ih hinside
    · have hstart : y = q := by
        rcases Nat.lt_or_ge p (Stmt.bodySize 0 u.body) with hlt | hge
        · have := Suite.Has.entrance h hv.suiteAt (by rintro t ⟨⟩) (Nat.zero_le p)
            (by simp only [Suite.behind, Suite.size]; omega) (by omega) he
          omega
        · have := hv.edge_behind hge he
          omega
      subst hstart
      exact ⟨_, hp.step hi he⟩

end Entrance

end Toolchain

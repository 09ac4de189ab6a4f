import Toolchain.Proofs.Compiler.Confinement

/-!
# When the final part runs

The final part of a `try` is compiled to one or two copies behind the other parts. Control that ends
one of these, or that an exception takes out of them, comes to a copy. A jump out of a loop around
the `try` and a return do not: their code stands in the part itself and leads away at once. So the
final part runs on every way out exactly if none of these occurs.

## Main definitions

* `Stmt.parts`: the parts of a `try` that its final part is to follow
* `CodeView.ComesTo`: control comes from a position to another and avoids some positions
* `CodeView.FinalRuns`: no way out of the parts avoids the copies of the final part
* `Stmt.Escapes`: a return occurs in the parts, or a jump out of a loop around the `try`

## Main results

* `CodeView.finalRuns_of_not_escapes`, `CodeView.not_finalRuns_of_escapes`: the final part runs
  exactly if nothing escapes
* `finalRuns_compiled`: the same for every `try` of a program that compiles
-/

namespace Toolchain

section Parts

variable {α : Type} (a : Around) (body : List (Stmt α))
  (handlers : List (Handler α (Expr α) (Stmt α)))
  (orelse final : List (Stmt α)) (p : Nat)

/-- The parts of a `try` that its final part is to follow: the protected part, the alternative and
the bodies of the handlers. -/
def Stmt.parts : List (Suite α) :=
  let places := tryPlaces a.held body handlers orelse final p
  ⟨a.guarded, body, p + 1⟩ :: ⟨a, orelse, places.removal + 1⟩ ::
    handlerSuites a.guarded handlers places.handlers

/-- A return occurs in a part of a `try`, or a jump out of the loop around the `try`. -/
def Stmt.Escapes : Prop :=
  ∃ S ∈ parts a body handlers orelse final p, ∃ b st q, S.Has b st q ∧
    (st.stop? = some .ret ∨ st.leaving?.isSome = true ∧ b.loop = a.loop)

/-- The positions at which the copies of the final part of a `try` begin. -/
def Stmt.FinalStart (y : Nat) : Prop :=
  let places := tryPlaces a.held body handlers orelse final p
  y = places.final ∨ (handlers.all fun h => h.type.isSome) = true ∧ y = places.passed

end Parts

namespace CodeView

/-- Control comes from a position to another, and to none of the avoided positions on the way. -/
def ComesTo (v : CodeView) (avoided : Nat → Prop) : Nat → Nat → Prop :=
  Relation.ReflTransGen fun x y => (∃ δ, v.Edge x δ y) ∧ ¬ avoided y

/-- No way from a part of a `try` leads out of its code, or to a return, that avoids the copies of
the final part. -/
def FinalRuns (v : CodeView) (a : Around) (m : Mark) (body : List MarkedStmt)
    (handlers : List (Handler Mark MarkedExpr MarkedStmt)) (orelse final : List MarkedStmt)
    (p : Nat) : Prop :=
  ∀ S ∈ Stmt.parts a body handlers orelse final p, ∀ x, S.pos ≤ x → x < S.behind →
    ∀ y, v.ComesTo (Stmt.FinalStart a body handlers orelse final p) x y →
      (p ≤ y ∧ y < p + (Stmt.tryExcept m body handlers orelse final).codeSize a.held) ∧
        ∀ i, v.instr? y = some i → i.op ≠ .ret

variable {v : CodeView} {file : Text} {a : Around} {m : Mark} {body orelse final : List MarkedStmt}
  {handlers : List (Handler Mark MarkedExpr MarkedStmt)} {p : Nat}

/-- The parts of a `try` stand before the copies of its final part, and have the same loop
around. -/
theorem parts_range {S : Suite Mark} (hS : S ∈ Stmt.parts a body handlers orelse final p) :
    S ∈ (Stmt.tryExcept m body handlers orelse final).suites a p ∧ S.around.loop = a.loop ∧
      p ≤ S.pos ∧ S.behind ≤ (Stmt.tryPlaces a.held body handlers orelse final p).passed := by
  simp only [Stmt.parts, List.mem_cons] at hS
  simp only [Stmt.suites, List.mem_cons, List.mem_append]
  rcases hS with rfl | rfl | hS
  · refine ⟨.inl rfl, rfl, by simp only; omega, ?_⟩
    simp only [Suite.behind, Suite.size, Stmt.tryPlaces, Around.guarded]
    omega
  · refine ⟨.inr (.inl rfl), rfl, by simp only [Stmt.tryPlaces]; omega, ?_⟩
    simp only [Suite.behind, Suite.size, Stmt.tryPlaces]
    omega
  · obtain ⟨haround, hpos, hbehind⟩ := Stmt.handlerSuites_range hS
    simp only [Stmt.tryPlaces, Around.guarded] at hpos hbehind
    refine ⟨.inr (.inr (.inr (.inl hS))), by rw [haround]; rfl, by omega, ?_⟩
    simp only [Stmt.tryPlaces]
    omega

/-- In the code before the copies of the final part nothing leads away but to these, if nothing
escapes. -/
theorem confined_of_not_escapes {places : TryPlaces}
    (hplaces : Stmt.tryPlaces a.held body handlers orelse final p = places)
    (h : v.StmtAt file a (.tryExcept m body handlers orelse final) p)
    (hescapes : ¬ Stmt.Escapes a body handlers orelse final p) :
    v.Confined p (places.passed - p) False fun y => p ≤ y ∧ y ≤ places.passed ∨
      y = places.final := by
  -- a jump out of a loop stays in the part, for the loop is in it
  have hkeeps (S : Suite Mark) (hS : S ∈ Stmt.parts a body handlers orelse final p) :
      S.Keeps False fun y => p ≤ y ∧ y ≤ places.passed ∨ y = places.final := by
    obtain ⟨-, hloop, hpos, hbehind⟩ := parts_range (m := m) hS
    rw [hplaces] at hbehind
    refine ⟨fun b st q hst hret => hescapes ⟨S, hS, b, st, q, hst, .inl hret⟩,
      fun b st q hst hleaving t ht => ?_⟩
    rcases hst.exists_loop with hsame | ⟨c, loop, q', hq', htarget, -⟩
    · exact absurd ⟨S, hS, b, st, q, hst, .inr ⟨hleaving, hsame.trans hloop⟩⟩ hescapes
    · have hrange := hq'.range
      have hinside := Stmt.loopTarget?_range (htarget.symm.trans ht) c.held
      exact ⟨.inl (by omega), .inl (by omega)⟩
  have hpart (S : Suite Mark) (hS : S ∈ Stmt.parts a body handlers orelse final p) :
      v.Confined S.pos S.size False fun y => p ≤ y ∧ y ≤ places.passed ∨ y = places.final := by
    obtain ⟨hmem, -, hpos, hbehind⟩ := parts_range (m := m) hS
    rw [hplaces, Suite.behind, Suite.size] at hbehind
    exact BodyAt.confined (h.suiteAt hmem) (fun y h₁ h₂ => .inl (by omega)) (hkeeps S hS)
  have hhandlers : v.Confined places.handlers (Stmt.handlersSize (a.held + 1) handlers) False
      fun y => p ≤ y ∧ y ≤ places.passed ∨ y = places.final := by
    have hat := h
    simp only [StmtAt, hplaces] at hat
    refine HandlersAt.confined hat.2.2.2.2.2.1 (fun y h₁ h₂ => .inl ?_) (.inr rfl) fun S hS => ?_
    · subst hplaces
      simp only [Stmt.tryPlaces, Around.guarded] at h₁ h₂ ⊢
      omega
    · refine hkeeps S (List.mem_cons_of_mem _ (List.mem_cons_of_mem _ ?_))
      rw [hplaces]
      exact hS
  refine (confined_guarded h (hpart _ List.mem_cons_self)
    (hpart _ (List.mem_cons_of_mem _ List.mem_cons_self)) ?_ ?_ ?_).congr ?_
  · subst hplaces
    exact hhandlers
  · rw [hplaces]
    exact fun y h₁ h₂ => .inl ⟨h₁, h₂⟩
  · rw [hplaces]
    exact .inr rfl
  · subst hplaces
    simp only [Stmt.tryPlaces]
    omega

/-- The copies of the final part begin inside the code of the `try` if they have code. -/
theorem finalStart_range {y : Nat} (hfinal : 0 < Stmt.bodySize a.held final)
    (hy : Stmt.FinalStart a body handlers orelse final p y) :
    p ≤ y ∧ y < p + (Stmt.tryExcept m body handlers orelse final).codeSize a.held := by
  simp only [Stmt.FinalStart, Stmt.tryPlaces] at hy
  simp only [Stmt.codeSize]
  rcases hy with rfl | ⟨htyped, rfl⟩
  · split <;> omega
  · rw [if_pos htyped]
    omega

/-- If nothing escapes, the final part runs. -/
theorem finalRuns_of_not_escapes (h : v.StmtAt file a (.tryExcept m body handlers orelse final) p)
    (hescapes : ¬ Stmt.Escapes a body handlers orelse final p) :
    v.FinalRuns a m body handlers orelse final p := by
  obtain ⟨places, hplaces⟩ :
      ∃ places, Stmt.tryPlaces a.held body handlers orelse final p = places :=
    ⟨_, rfl⟩
  have hconfined := confined_of_not_escapes hplaces h hescapes
  have hend : places.passed ≤ p +
      (Stmt.tryExcept m body handlers orelse final).codeSize a.held := by
    rw [← hplaces]
    simp only [Stmt.tryPlaces, Stmt.codeSize]
    split <;> omega
  intro S hS x hx hx' y hy
  obtain ⟨-, -, hpos, hbehind⟩ := parts_range (m := m) hS
  rw [hplaces] at hbehind
  -- control stays before the copies as long as it avoids them
  have hstays : p ≤ y ∧ y < places.passed := by
    induction hy with
    | refl => omega
    | tail _ hstep ih =>
      obtain ⟨⟨δ, he⟩, havoid⟩ := hstep
      obtain ⟨i, -, -, hedge⟩ := hconfined _ ih.1 (by omega)
      simp only [Stmt.FinalStart, hplaces] at havoid
      rcases hedge δ _ he with hrange | hfinal
      · refine ⟨hrange.1, Nat.lt_of_le_of_ne hrange.2 fun heq => havoid ?_⟩
        by_cases htyped : (handlers.all fun h => h.type.isSome) = true
        · exact .inr ⟨htyped, heq⟩
        · left
          rw [heq, ← hplaces]
          simp only [Stmt.tryPlaces, if_neg htyped]
      · exact absurd (.inl hfinal) havoid
  obtain ⟨i, hi, hret, -⟩ := hconfined y hstays.1 (by omega)
  refine ⟨⟨hstays.1, by omega⟩, fun j hj hop => hret ?_⟩
  rw [Option.some.inj (hi.symm.trans hj)]
  exact hop

/-- If something escapes, and the final part has code, it does not run on the way out. -/
theorem not_finalRuns_of_escapes (h : v.StmtAt file a (.tryExcept m body handlers orelse final) p)
    (hout : ∀ t, a.loop = some t →
      (t.again < p ∨ p + (Stmt.tryExcept m body handlers orelse final).codeSize a.held ≤ t.again) ∧
        p + (Stmt.tryExcept m body handlers orelse final).codeSize a.held ≤ t.exit)
    (hfinal : 0 < Stmt.bodySize a.held final)
    (hescapes : Stmt.Escapes a body handlers orelse final p) :
    ¬ v.FinalRuns a m body handlers orelse final p := by
  obtain ⟨S, hS, b, st, q, hst, hkind⟩ := hescapes
  obtain ⟨hmem, -, hpos, hbehind⟩ := parts_range (m := m) hS
  have hat := hst.stmtAt (h.suiteAt hmem)
  have hrange := hst.range
  intro hruns
  rcases hkind with hret | ⟨hleaving, hloop⟩
  · -- control is at the return already
    obtain ⟨n, k, hn, -, hi⟩ := hat.stops (T := fun _ => False) hret
    exact (hruns S hS (q + n) (by omega) (by omega) (q + n) .refl).2 _ hi rfl
  · -- the jump leads out of the code of the `try`, where no copy begins
    obtain ⟨isBreak, hbreak⟩ := Option.isSome_iff_exists.mp hleaving
    obtain ⟨t, ht, -, hjump⟩ := hat.leaveAt hbreak
    have hsize := Stmt.codeSize_of_leaving? hbreak b.held
    have hout' := hout t (hloop.symm.trans ht)
    have hleads : v.Edge (q + b.held) 0 (if isBreak then t.exit else t.again) :=
      .jump hjump (.inl rfl)
    have htarget : ∀ y, y = (if isBreak then t.exit else t.again) → y < p ∨
        p + (Stmt.tryExcept m body handlers orelse final).codeSize a.held ≤ y := by
      rintro y rfl
      cases isBreak with
      | true => exact .inr hout'.2
      | false => exact hout'.1
    have hinside := hruns S hS (q + b.held) (by omega) (by omega) _
      (.single ⟨⟨0, hleads⟩, fun hstart => ?_⟩)
    · have := htarget _ rfl
      omega
    · have := htarget _ rfl
      have hplaces := finalStart_range (m := m) hfinal hstart
      omega

end CodeView

/-- **When the final part runs.** In a program that compiles, the final part of a `try` runs on
every way out of the other parts if no return occurs in these and no jump out of the loop around the
`try`; otherwise, if it has any code, some way out leaves it out. -/
theorem finalRuns_compiled (file source : Text) (c : Code)
    (hc : (compileModule file source).1 = .ok c) :
    ∃ p, (parseModule file source).1 = .ok p ∧ p.root.Paired c fun u o =>
      u.Makes file o ∧ ∀ a m body handlers orelse final q,
        u.Has a (.tryExcept m body handlers orelse final) q →
          (¬ Stmt.Escapes a body handlers orelse final q →
            o.view.FinalRuns a m body handlers orelse final q) ∧
          (Stmt.Escapes a body handlers orelse final q → 0 < Stmt.bodySize a.held final →
            ¬ o.view.FinalRuns a m body handlers orelse final q) := by
  obtain ⟨p, hp, hpaired⟩ := paired_of_compileModule hc
  refine ⟨p, hp, hpaired.mono fun u o _ _ hmakes => ⟨hmakes, ?_⟩⟩
  intro a m body handlers orelse final q hq
  have hat := hq.stmtAt hmakes.resolved.layout
  exact ⟨CodeView.finalRuns_of_not_escapes hat, fun hescapes hfinal =>
    CodeView.not_finalRuns_of_escapes hat (fun _ ht => hq.loop_outside ht) hfinal hescapes⟩

theorem finalRuns_compiled_finishingLoop :
    ∃ c p, (compileModule "m" finishingLoop).1 = .ok c ∧
      (parseModule "m" finishingLoop).1 = .ok p ∧ p.root.Paired c fun u o =>
      u.Makes "m" o ∧ ∀ a m body handlers orelse final q,
        u.Has a (.tryExcept m body handlers orelse final) q →
          (¬ Stmt.Escapes a body handlers orelse final q →
            o.view.FinalRuns a m body handlers orelse final q) ∧
          (Stmt.Escapes a body handlers orelse final q → 0 < Stmt.bodySize a.held final →
            ¬ o.view.FinalRuns a m body handlers orelse final q) := by
  obtain ⟨c, hc, -⟩ : ∃ c, (compileModule "m" finishingLoop).1 = .ok c ∧ true = true :=
    exists_of_any (q := fun _ => true) (by decide +kernel)
  obtain ⟨p, hp, hpaired⟩ := finalRuns_compiled "m" finishingLoop c hc
  exact ⟨c, p, hc, hp, hpaired⟩

/-- A loop that is left in the protected part of a `try` with a final part. -/
def escapingLoop : Text := "while a:\n    try:\n        break\n    finally:\n        b\n"

/-- Whether a program is a loop around a `try` in whose protected part the loop is left. -/
def Root.isEscapingLoop : Root Mark → Bool
  | .module _ [.whileLoop _ _ [.tryExcept _ [.breakLoop _] [] [] [.expr _ _]]] => true
  | _ => false

/-- The final part does not run when the loop is left. -/
theorem not_finalRuns_escapingLoop :
    ∃ c p u a m body handlers orelse final q, (compileModule "m" escapingLoop).1 = .ok c ∧
      (parseModule "m" escapingLoop).1 = .ok p ∧ p.root.HasUnit u ∧ u.Makes "m" c ∧
      u.Has a (.tryExcept m body handlers orelse final) q ∧ final ≠ [] ∧
      ¬ c.view.FinalRuns a m body handlers orelse final q := by
  obtain ⟨c, hc, -⟩ : ∃ c, (compileModule "m" escapingLoop).1 = .ok c ∧ true = true :=
    exists_of_any (q := fun _ => true) (by decide +kernel)
  obtain ⟨p, hp, hshape⟩ : ∃ p, (parseModule "m" escapingLoop).1 = .ok p ∧
      p.root.isEscapingLoop = true :=
    exists_of_any (q := fun p : Parsed => p.root.isEscapingLoop) (by decide +kernel)
  obtain ⟨p', hp', hroot⟩ := compileParsed_eq_ok hc
  obtain rfl : p' = p := Except.ok.inj (hp'.symm.trans hp)
  have hmakes := makes_of_compileTree hroot
  have hlayout := hmakes.resolved.layout
  unfold Root.isEscapingLoop at hshape
  split at hshape
  · rename_i m₀ m₁ test m₂ m₃ m₄ value heq
    obtain ⟨a, htry⟩ : ∃ a, p'.root.unit.Has a
        (.tryExcept m₂ [.breakLoop m₃] [] [] [.expr m₄ value]) (0 + test.codeSize + 1) := by
      rw [heq]
      exact ⟨_, .inner (List.mem_singleton_self _) .head⟩
    refine ⟨c, p', p'.root.unit, _, m₂, _, _, _, _, _, hc, hp, .root, hmakes, htry,
      List.cons_ne_nil _ _, ?_⟩
    refine CodeView.not_finalRuns_of_escapes (htry.stmtAt hlayout)
      (fun _ ht => htry.loop_outside ht)
      ?_ ⟨_, List.mem_cons_self, _, .breakLoop m₃, _, .head, .inr ⟨rfl, rfl⟩⟩
    simp only [Stmt.bodySize, Stmt.codeSize]
    omega
  · cases hshape

end Toolchain

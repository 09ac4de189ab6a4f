import Mathlib.Tactic.Common

/-!
# Outcomes

A step that may fail gives a value or an error. These laws take a successful outcome apart: what a
sequence of steps gives is what its parts give, one after the other.

## Main results

* `Outcome.bind_eq_ok_iff`: a sequence succeeds if and only if both parts do
* `Outcome.guard_eq_ok_iff`: a check succeeds if and only if its condition does not hold
* `exists_of_any`: a computed outcome is a success
-/

namespace Toolchain.Outcome

variable {ε α β : Type}

@[simp] theorem throw_eq_ok_iff (e : ε) (a : α) : (throw e : Except ε α) = .ok a ↔ False := by
  simp [throw, throwThe, MonadExceptOf.throw]

@[simp] theorem pure_eq_ok_iff (a b : α) : (pure a : Except ε α) = .ok b ↔ a = b := by
  simp [pure, Except.pure]

theorem bind_eq_ok_iff {x : Except ε α} {f : α → Except ε β} {b : β} :
    (x >>= f) = .ok b ↔ ∃ a, x = .ok a ∧ f a = .ok b := by
  cases x with
  | error e => simp [bind, Except.bind]
  | ok a => simp [bind, Except.bind]

/-- A check that throws if a condition holds. -/
@[simp] theorem guard_eq_ok_iff (p : Prop) [Decidable p] (e : ε) :
    (if p then throw e else pure () : Except ε Unit) = .ok () ↔ ¬p := by
  by_cases hp : p <;> simp [hp]

theorem seq_eq_ok_iff {x : Except ε Unit} {y : Except ε β} {b : β} :
    (x >>= fun _ => y) = .ok b ↔ x = .ok () ∧ y = .ok b := by
  rw [bind_eq_ok_iff]
  exact ⟨fun ⟨_, hx, hy⟩ => ⟨hx, hy⟩, fun ⟨hx, hy⟩ => ⟨(), hx, hy⟩⟩

/-- A step after one that succeeds. -/
theorem run_bind_ok {σ : Type} {m : StateT σ (Except ε) α} {f : α → StateT σ (Except ε) β} {a : α}
    {s s' : σ} (h : StateT.run m s = .ok (a, s')) :
    StateT.run (m >>= f) s = StateT.run (f a) s' := by
  rw [StateT.run_bind, h]
  rfl

end Toolchain.Outcome

namespace Toolchain

/-- What is true of the value of a computed outcome is true of some value. -/
theorem exists_of_any {ε α : Type} {x : Except ε α} {q : α → Bool}
    (h : x.toOption.any q = true) : ∃ a, x = .ok a ∧ q a = true := by
  cases x with
  | error e => cases h
  | ok a => exact ⟨a, rfl, h⟩

end Toolchain

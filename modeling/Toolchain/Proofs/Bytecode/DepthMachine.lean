import Mathlib.Logic.Relation
import Mathlib.Tactic.Common
import Toolchain.Bytecode.Verifier

/-!
# The depth machine

What the verifier is to decide, said without the verifier. The control flow of a code object is a
graph whose edges carry the change of the depth of the stack; the depth machine follows the edges
and adds up the changes, so that it can underflow, leave the code, or come to one position with two
depths. A code object has a depth assignment when one depth can be given to each position so that
none of this happens.

## Main definitions

* `Instr.delta`: the change of the depth of the stack by an instruction
* `CodeView.Edge`: the edges of the control flow, each with the change of the depth along it
* `CodeView.Reachable`: the positions that control can come to
* `CodeView.Machine`: the positions that the depth machine comes to, each with its depth
* `CodeView.DepthAssignment`: one depth for each position that control can come to

## Main results

* `CodeView.mem_flows_iff`: where an instruction leads, in terms of edges
* `CodeView.DepthAssignment.machine_eq`: with an assignment the machine has no other depths
-/

namespace Toolchain

namespace Instr

/-- The change of the depth of the stack by an instruction. -/
def delta (i : Instr) : Int := i.stackYield - i.stackNeed

theorem stackAfter_eq_add_delta {i : Instr} {depth : Nat} (h : i.stackNeed ≤ depth) :
    (i.stackAfter depth : Int) = depth + i.delta := by
  simp only [stackAfter, delta]
  omega

end Instr

namespace CodeView

variable {v : CodeView}

/-- The edges of the control flow, with the change of the depth along each. An iteration that ends
leaves the iterator where it is, and a handler finds the exception on top of what was there. -/
inductive Edge (v : CodeView) : Nat → Int → Nat → Prop
  | fallThrough {p : Nat} {i : Instr} (hi : v.instr? p = some i) (ht : i.op.terminates = false) :
      Edge v p i.delta (p + 1)
  | jump {p : Nat} {i : Instr} (hi : v.instr? p = some i)
      (hj : i.op = .jump ∨ i.op = .jumpIfFalse ∨ i.op = .jumpIfTrue) : Edge v p i.delta i.operand
  | exhausted {p : Nat} {i : Instr} (hi : v.instr? p = some i) (hn : i.op = .next) :
      Edge v p 0 i.operand
  | handler {p : Nat} {i : Instr} (hi : v.instr? p = some i) (ht : i.op = .try) :
      Edge v p 1 i.operand

/-- The positions that control can come to from the first instruction. -/
def Reachable (v : CodeView) : Nat → Prop :=
  Relation.ReflTransGen (fun p q => ∃ δ, v.Edge p δ q) 0

/-- The positions that the depth machine comes to, each with the depth it has there. The machine
starts with an empty stack and does nothing but add up the changes. -/
inductive Machine (v : CodeView) : Nat → Int → Prop
  | start : Machine v 0 0
  | step {p q : Nat} {x δ : Int} (hp : Machine v p x) (he : v.Edge p δ q) : Machine v q (x + δ)

/-- One depth for each position that control can come to: it is zero at first, every instruction
finds what it needs, and every edge leads to an instruction with the depth it carries. -/
structure DepthAssignment (v : CodeView) (depth : Nat → Nat) : Prop where
  entry : depth 0 = 0
  enough : ∀ p i, v.Reachable p → v.instr? p = some i → i.stackNeed ≤ depth p
  inside : ∀ p δ q, v.Reachable p → v.Edge p δ q → q < v.words.size
  along : ∀ p δ q, v.Reachable p → v.Edge p δ q → (depth q : Int) = depth p + δ

theorem Reachable.zero : v.Reachable 0 := .refl

theorem Reachable.step {p q : Nat} {δ : Int} (hp : v.Reachable p) (he : v.Edge p δ q) :
    v.Reachable q :=
  Relation.ReflTransGen.tail hp ⟨δ, he⟩

/-- The machine comes only to positions that control can come to. -/
theorem Machine.reachable {p : Nat} {x : Int} (h : v.Machine p x) : v.Reachable p := by
  induction h with
  | start => exact .zero
  | step _ he ih => exact ih.step he

/-- Where an instruction that finds what it needs leads, in terms of edges. -/
theorem mem_flows_iff {p x q y : Nat} {i : Instr} (hi : v.instr? p = some i)
    (hn : i.stackNeed ≤ x) :
    (q, y) ∈ i.flows p x ↔ ∃ δ, v.Edge p δ q ∧ (y : Int) = x + δ := by
  have hafter := Instr.stackAfter_eq_add_delta hn
  constructor
  · intro hmem
    rcases i with ⟨op, k⟩
    -- an operation leads to the next position, to its target, or to both
    have fall (ht : op.terminates = false)
        (h : q = p + 1 ∧ y = Instr.stackAfter ⟨op, k⟩ x) :
          ∃ δ, v.Edge p δ q ∧ (y : Int) = x + δ := by
      obtain ⟨rfl, rfl⟩ := h
      exact ⟨_, .fallThrough hi ht, hafter⟩
    have taken (hj : op = .jump ∨ op = .jumpIfFalse ∨ op = .jumpIfTrue)
        (h : q = k ∧ y = Instr.stackAfter ⟨op, k⟩ x) : ∃ δ, v.Edge p δ q ∧ (y : Int) = x + δ := by
      obtain ⟨rfl, rfl⟩ := h
      exact ⟨_, .jump hi hj, hafter⟩
    have exhausted (hop : op = .next) (h : q = k ∧ y = x) :
        ∃ δ, v.Edge p δ q ∧ (y : Int) = x + δ := by
      obtain ⟨rfl, rfl⟩ := h
      exact ⟨0, .exhausted hi hop, by simp⟩
    have handler (hop : op = .try) (h : q = k ∧ y = x + 1) :
        ∃ δ, v.Edge p δ q ∧ (y : Int) = x + δ := by
      obtain ⟨rfl, rfl⟩ := h
      exact ⟨1, .handler hi hop, by simp⟩
    cases op <;>
      simp only [Instr.flows, Opcode.terminates, if_true, if_false, Bool.false_eq_true,
        List.nil_append, List.cons_append, List.mem_cons, Prod.mk.injEq, List.not_mem_nil,
        or_false] at hmem <;>
      first
      | exact fall rfl hmem
      | exact taken (by simp) hmem
      | exact hmem.elim (taken (by simp)) (fall rfl)
      | exact hmem.elim (exhausted rfl) (fall rfl)
      | exact hmem.elim (handler rfl) (fall rfl)
  · rintro ⟨δ, he, hy⟩
    cases he with
    | fallThrough hi' ht =>
      obtain rfl := Option.some.inj (hi.symm.trans hi')
      obtain rfl : y = i.stackAfter x := by omega
      simp [Instr.flows, ht]
    | jump hi' hj =>
      obtain rfl := Option.some.inj (hi.symm.trans hi')
      obtain rfl : y = i.stackAfter x := by omega
      rcases hj with h | h | h <;> simp [Instr.flows, h, Opcode.terminates]
    | exhausted hi' h =>
      obtain rfl := Option.some.inj (hi.symm.trans hi')
      obtain rfl : y = x := by omega
      simp [Instr.flows, h, Opcode.terminates]
    | handler hi' h =>
      obtain rfl := Option.some.inj (hi.symm.trans hi')
      obtain rfl : y = x + 1 := by omega
      simp [Instr.flows, h, Opcode.terminates]

/-- No edge takes more from the stack than its instruction needs to find there. -/
theorem Edge.exists_instr {p q : Nat} {δ : Int} (he : v.Edge p δ q) :
    ∃ i, v.instr? p = some i ∧ -(i.stackNeed : Int) ≤ δ := by
  cases he with
  | fallThrough hi _ => exact ⟨_, hi, by simp only [Instr.delta]; omega⟩
  | jump hi _ => exact ⟨_, hi, by simp only [Instr.delta]; omega⟩
  | exhausted hi _ => exact ⟨_, hi, by omega⟩
  | handler hi _ => exact ⟨_, hi, by omega⟩

/-- An instruction that finds what it needs leads along each of its edges. -/
theorem Edge.exists_mem_flows {p x q : Nat} {δ : Int} {i : Instr} (he : v.Edge p δ q)
    (hi : v.instr? p = some i) (hn : i.stackNeed ≤ x) :
    ∃ y : Nat, (q, y) ∈ i.flows p x ∧ (y : Int) = x + δ := by
  obtain ⟨j, hj, hδ⟩ := he.exists_instr
  obtain rfl := Option.some.inj (hi.symm.trans hj)
  have hy : ((x + δ).toNat : Int) = x + δ := Int.toNat_of_nonneg (by omega)
  exact ⟨_, (mem_flows_iff hi hn).mpr ⟨δ, he, hy⟩, hy⟩

namespace DepthAssignment

variable {depth : Nat → Nat}

/-- With an assignment the machine has no depth but the assigned one. -/
theorem machine_eq (h : v.DepthAssignment depth) {p : Nat} {x : Int} (hm : v.Machine p x) :
    x = depth p := by
  induction hm with
  | start => simp [h.entry]
  | step hp he ih => rw [h.along _ _ _ hp.reachable he, ih]

/-- With an assignment the machine stays in a code object that has an instruction. -/
theorem machine_lt (h : v.DepthAssignment depth) (h0 : 0 < v.words.size) {p : Nat} {x : Int}
    (hm : v.Machine p x) : p < v.words.size := by
  cases hm with
  | start => exact h0
  | step hp he => exact h.inside _ _ _ hp.reachable he

end DepthAssignment

end CodeView

end Toolchain

import Mathlib.Order.Bounds.Basic
import Toolchain.Compiler.Statement
import Toolchain.Proofs.Bytecode.Verification

/-!
# The largest depth of the stack

The walk collects the largest depth that it finds after an instruction. A depth in front of an
instruction was after another one, or it is zero, or the edge that led there is one that carries a
depth of its own. At the end of an iteration this is a depth that was there before; but a handler
finds the exception on top of it. So what the walk collects can fall short of the largest depth by
one, and does so if and only if a handler is entered with a depth that occurs after no instruction.

## Main definitions

* `CodeView.Occurs`: the depths in front of and after the instructions on the paths of control
* `CodeView.EntersHandler`: the depths with which handlers are entered
* `Depths.Collects`: what the walk keeps of the depths it has seen

## Main results

* `Depths.Walks.collects`: a walk in any order collects the same
* `Code.deepest_exact`: **what the verifier gives is the largest depth, unless a handler is entered
  with one more**
-/

namespace Toolchain

open Outcome

namespace CodeView

variable {v : CodeView}

/-- The depths that occur on the paths from the first instruction: in front of an instruction, that
of a handler among them, and after it. -/
inductive Occurs (v : CodeView) : Int → Prop
  | before {p : Nat} {x : Int} (hp : v.Machine p x) : Occurs v x
  | after {p : Nat} {x : Int} {i : Instr} (hp : v.Machine p x) (hi : v.instr? p = some i) :
      Occurs v (x + i.delta)

/-- The depths with which handlers are entered. -/
def EntersHandler (v : CodeView) (x : Int) : Prop :=
  ∃ p i y, v.Machine p y ∧ v.instr? p = some i ∧ i.op = .try ∧ x = y + 1

/-- The start of a handler is a place like any other. -/
theorem EntersHandler.occurs {x : Int} (h : v.EntersHandler x) : v.Occurs x := by
  obtain ⟨p, i, y, hp, hi, hop, rfl⟩ := h
  exact .before (hp.step (.handler hi hop))

theorem occurs_zero (v : CodeView) : v.Occurs 0 := .before .start

/-- A bound on the depths after instructions. -/
structure BoundsAfter (v : CodeView) (bound : Int) : Prop where
  nonneg : 0 ≤ bound
  after : ∀ p x i, v.Machine p x → v.instr? p = some i → x + i.delta ≤ bound

namespace BoundsAfter

variable {bound x : Int}

/-- A depth in front of an instruction is bounded as well, or a handler is entered with it. -/
theorem before (h : v.BoundsAfter bound) {p : Nat} (hm : v.Machine p x) :
    x ≤ bound ∨ v.EntersHandler x := by
  cases hm with
  | start => exact .inl h.nonneg
  | @step p q y δ hp he =>
    cases he with
    | fallThrough hi _ => exact .inl (h.after _ _ _ hp hi)
    | jump hi _ => exact .inl (h.after _ _ _ hp hi)
    | exhausted hi hop =>
      -- the iterator stays where it is, and with another value on top of it the depth is larger
      have hnext := h.after _ _ _ hp hi
      simp only [Instr.delta, Instr.stackYield, Instr.stackNeed, hop] at hnext
      exact .inl (by omega)
    | handler hi hop => exact .inr ⟨_, _, _, hp, hi, hop, rfl⟩

theorem entersHandler_le (h : v.BoundsAfter bound) (hx : v.EntersHandler x) : x ≤ bound + 1 := by
  obtain ⟨p, i, y, hp, hi, hop, rfl⟩ := hx
  -- the registration of a handler leaves the stack as it is
  have htry := h.after _ _ _ hp hi
  simp only [Instr.delta, Instr.stackYield, Instr.stackNeed, hop] at htry
  omega

theorem occurs_le (h : v.BoundsAfter bound) (hx : v.Occurs x) : x ≤ bound ∨ v.EntersHandler x := by
  cases hx with
  | before hp => exact h.before hp
  | after hp hi => exact .inl (h.after _ _ _ hp hi)

/-- A bound that occurs is the largest depth, or one less than it. -/
theorem exact (h : v.BoundsAfter bound) (hbound : v.Occurs bound) :
    (IsGreatest {x | v.Occurs x} bound ↔ ¬v.EntersHandler (bound + 1)) ∧
      (v.EntersHandler (bound + 1) → IsGreatest {x | v.Occurs x} (bound + 1)) := by
  refine ⟨⟨?_, ?_⟩, ?_⟩
  · intro hgreatest hhandler
    have hle : bound + 1 ≤ bound := hgreatest.2 hhandler.occurs
    omega
  · intro hnone
    refine ⟨hbound, ?_⟩
    intro x hx
    rcases h.occurs_le hx with hle | hhandler
    · exact hle
    · have hle := h.entersHandler_le hhandler
      have hne : x ≠ bound + 1 := by
        rintro rfl
        exact hnone hhandler
      omega
  · intro hhandler
    refine ⟨hhandler.occurs, ?_⟩
    intro x hx
    rcases h.occurs_le hx with hle | hhandler
    · omega
    · exact h.entersHandler_le hhandler

end BoundsAfter

end CodeView

/-! ## What the walk collects -/

namespace Depths

variable {v : CodeView} {name : Text}

theorem deepest_of_flow {d d' : Depths} {source target depth : Nat}
    (h : d.flow name source target depth = .ok d') : d'.deepest = d.deepest := by
  unfold flow at h
  split at h
  · cases h
  · cases h
    rfl
  · split at h
    · cases h
      rfl
    · cases h

/-- To note where the paths lead changes nothing about the largest depth. -/
theorem deepest_of_flows {source : Nat} {paths : List (Nat × Nat)} {d d' : Depths}
    (h : paths.foldlM (fun d (path : Nat × Nat) => d.flow name source path.1 path.2) d = .ok d') :
    d'.deepest = d.deepest := by
  induction paths generalizing d with
  | nil =>
    cases h
    rfl
  | cons path paths ih =>
    rw [List.foldlM_cons, bind_eq_ok_iff] at h
    obtain ⟨d₁, h₁, h₂⟩ := h
    exact (ih h₂).trans (deepest_of_flow h₁)

/-- What a visit does that goes well. -/
theorem visit_eq_ok {d d' : Depths} {p x : Nat} {i : Instr} (hx : d.At p x)
    (hi : v.instr? p = some i) (hv : visit name v d p = .ok d') :
    i.stackNeed ≤ x ∧ d'.deepest = max d.deepest (i.stackAfter x) ∧
      { d with deepest := max d.deepest (i.stackAfter x) }.Notes d' (i.flows p x) := by
  have hjoin : d.depth[p]?.join = some x := by
    rw [hx]
    rfl
  unfold visit at hv
  simp only [hi, hjoin] at hv
  by_cases hneed : x < i.stackNeed
  · rw [if_pos hneed] at hv
    cases hv
  · rw [if_neg hneed] at hv
    refine ⟨Nat.le_of_not_lt hneed, deepest_of_flows hv, ?_⟩
    rcases flows_cases name p (i.flows p x)
        { d with deepest := max d.deepest (i.stackAfter x) } with ⟨d₁, h₁, n⟩ | ⟨e, h₁, -⟩
    · obtain rfl := Except.ok.inj (hv.symm.trans h₁)
      exact n
    · rw [h₁] at hv
      cases hv

/-- What the walk keeps of the depths it has seen: it has collected the depth after each instruction
that it visited, and nothing that does not occur. -/
structure Collects (v : CodeView) (d : Depths) : Prop where
  covers : ∀ p x i, d.At p x → p ∉ d.work → v.instr? p = some i → i.stackAfter x ≤ d.deepest
  occurs : v.Occurs d.deepest

theorem collects_start (size : Nat) : (start size).Collects v := by
  constructor
  · intro p x i hx hp _
    -- only the first instruction has a depth, and it waits to be visited
    have hne : 0 ≠ p := by
      rintro rfl
      exact hp (List.mem_singleton.mpr rfl)
    simp only [At, start] at hx
    rw [Array.getElem?_setIfInBounds_ne hne, Array.getElem?_replicate] at hx
    split at hx <;> cases hx
  · exact v.occurs_zero

/-- A visit collects the depth after the instruction. -/
theorem Collects.visit {d d' : Depths} (h : d.Collects v) (hd : d.Sound v)
    (instrs : ∀ p, p < v.words.size → ∃ i, v.instr? p = some i) {p : Nat} (hp : p ∈ d.work)
    (hv : Depths.visit name v { d with work := d.work.erase p } p = .ok d') : d'.Collects v := by
  obtain ⟨x, hx⟩ := hd.waiting p hp
  obtain ⟨hlt, -⟩ := Array.getElem?_eq_some_iff.mp hx
  obtain ⟨i, hi⟩ := instrs p (hd.size ▸ hlt)
  obtain ⟨hneed, hdeepest, hnotes⟩ := visit_eq_ok (d := { d with work := d.work.erase p }) hx hi hv
  constructor
  · intro q y j hy hq hj
    rw [hdeepest]
    rcases hnotes.new q y hy with hy | ⟨-, hwaits⟩
    · by_cases hqp : q = p
      · subst hqp
        obtain rfl : x = y := At.unique hx hy
        obtain rfl : i = j := Option.some.inj (hi.symm.trans hj)
        exact Nat.le_max_right _ _
      · have hq' : q ∉ d.work := fun hmem =>
          hq (hnotes.work q ((List.mem_erase_of_ne hqp).mpr hmem))
        exact (h.covers q y j hy hq' hj).trans (Nat.le_max_left _ _)
    · exact absurd hwaits hq
  · rw [hdeepest]
    rcases Nat.le_total d.deepest (i.stackAfter x) with hle | hle
    · rw [Nat.max_eq_right hle, Instr.stackAfter_eq_add_delta hneed]
      exact .after (hd.machine p x hx) hi
    · rw [Nat.max_eq_left hle]
      exact h.occurs

/-- Whatever the order, a walk that ends well has collected the depths after all instructions that
control can come to. -/
theorem Walks.collects {d d' : Depths} {r : Except VerifyError Depths} (hr : Walks name v d r)
    (hd : d.Sound v) (h : d.Collects v) (instrs : ∀ p, p < v.words.size → ∃ i, v.instr? p = some i)
    (hok : r = .ok d') : d'.Sound v ∧ d'.Collects v ∧ d'.work = [] := by
  induction hr with
  | done hw =>
    cases hok
    exact ⟨hd, h, hw⟩
  | fails => cases hok
  | visits hp hv _ ih =>
    rcases hd.visit_cases name instrs hp with ⟨d₁, h₁, hd₁, -⟩ | ⟨e, h₁, -⟩
    · obtain rfl := Except.ok.inj (hv.symm.trans h₁)
      exact ih hd₁ (h.visit hd instrs hp hv) hok
    · rw [hv] at h₁
      cases h₁

/-- What was collected in the end bounds the depths after instructions. -/
theorem Collects.boundsAfter {d : Depths} (h : d.Collects v) (hd : d.Sound v) (hw : d.work = []) :
    v.BoundsAfter d.deepest := by
  refine ⟨Int.natCast_nonneg _, ?_⟩
  intro p x i hm hi
  have hassigned := hd.depthAssignment hw
  obtain ⟨y, hy⟩ := hd.exists_at hw hm.reachable
  -- the depth that the walk noted is the only one that the machine has there
  obtain rfl : x = y :=
    (hassigned.machine_eq hm).trans (hassigned.machine_eq (hd.machine p y hy)).symm
  have hvisited : p ∉ d.work := by simp [hw]
  obtain ⟨hneed, -⟩ := hd.visited p y i hy hvisited hi
  rw [← Instr.stackAfter_eq_add_delta hneed]
  exact_mod_cast h.covers p y i hy hvisited hi

end Depths

namespace Code

variable {c : Code} {deepest : Nat}

/-- Without instructions there is nothing to collect. -/
theorem boundsAfter_of_size_eq_zero (h0 : c.size = 0) : c.view.BoundsAfter 0 := by
  refine ⟨Int.le_refl 0, ?_⟩
  intro p x i _ hi
  have hnone : c.view.words[p]? = none := by
    rw [Array.getElem?_eq_none_iff, size_view_words, h0]
    exact Nat.zero_le p
  rw [CodeView.instr?, hnone] at hi
  cases hi

/-- What the verifier gives occurs, and bounds the depths after instructions. -/
theorem occurs_boundsAfter (h : c.checkAlone = .ok deepest) :
    c.view.Occurs deepest ∧ c.view.BoundsAfter deepest := by
  obtain ⟨hencoded, hstack⟩ := checkAlone_eq_ok_iff.mp h
  unfold checkStack at hstack
  by_cases h0 : c.size = 0
  · rw [if_pos h0] at hstack
    cases hstack
    exact ⟨c.view.occurs_zero, boundsAfter_of_size_eq_zero h0⟩
  · rw [if_neg h0, bind_eq_ok_iff] at hstack
    obtain ⟨d, hwalk, hd⟩ := hstack
    cases hd
    have hsound := sound_start (Nat.pos_of_ne_zero h0)
    have instrs : ∀ p, p < c.view.words.size → ∃ i, c.view.instr? p = some i := by
      intro p hp
      obtain ⟨i, hi, -⟩ := hencoded.exists_instr (size_view_words c ▸ hp)
      exact ⟨i, hi⟩
    have hwalks : Depths.Walks c.name c.view _ _ :=
      Depths.walks_walk hsound instrs (Depths.toVisit_start_le c.size)
    obtain ⟨hsound, hcollects, hdone⟩ :=
      hwalks.collects hsound (Depths.collects_start _) instrs hwalk
    exact ⟨hcollects.occurs, hcollects.boundsAfter hsound hdone⟩

/-- **What the verifier gives is the largest depth** on the paths of control, unless a handler is
entered with one more; then that is the largest depth. -/
theorem deepest_exact (h : c.checkAlone = .ok deepest) :
    (IsGreatest {x | c.view.Occurs x} (deepest : Int) ↔ ¬c.view.EntersHandler (deepest + 1)) ∧
      (c.view.EntersHandler (deepest + 1) →
        IsGreatest {x | c.view.Occurs x} (deepest + 1 : Int)) := by
  obtain ⟨hoccurs, hbounds⟩ := occurs_boundsAfter h
  exact hbounds.exact hoccurs

end Code

/-- A `try` in the final part of another one. -/
def nestedTry : Text :=
  "try:\n    pass\nfinally:\n    try:\n        pass\n    except:\n        pass\n"

/-- Whether a code object is valid, with one as the depth that the verifier gives, and begins as the
nested `try` does: the handler of the first `try` registers another one at once. -/
def Code.isNestedTry (c : Code) : Bool :=
  decide (c.checkAlone = .ok 1) && decide (c.view.instr? 0 = some ⟨.try, 3⟩) &&
    decide (c.view.instr? 3 = some ⟨.try, 6⟩)

/-- The inner handler is entered with two exceptions on the stack. -/
theorem Code.entersHandler_nestedTry {c : Code} (h : c.isNestedTry = true) :
    c.checkAlone = .ok 1 ∧ c.view.EntersHandler 2 := by
  simp only [isNestedTry, Bool.and_eq_true, decide_eq_true_eq] at h
  obtain ⟨⟨hok, hfirst⟩, hsecond⟩ := h
  have houter : c.view.Machine 3 1 := CodeView.Machine.start.step (.handler hfirst rfl)
  exact ⟨hok, 3, _, 1, houter, hsecond, rfl, rfl⟩

theorem deepest_exact_nestedTry :
    ∃ c, (compileModule "m" nestedTry).1 = .ok c ∧ c.checkAlone = .ok 1 ∧
      IsGreatest {x | c.view.Occurs x} 2 := by
  obtain ⟨c, hc, hnested⟩ : ∃ c, (compileModule "m" nestedTry).1 = .ok c ∧ c.isNestedTry = true :=
    exists_of_any (by decide +kernel)
  obtain ⟨hok, hhandler⟩ := Code.entersHandler_nestedTry hnested
  exact ⟨c, hc, hok, (Code.deepest_exact hok).2 hhandler⟩

/-- What the verifier gives for it is not the largest depth. -/
theorem not_isGreatest_nestedTry :
    ∃ c, (compileModule "m" nestedTry).1 = .ok c ∧ c.checkAlone = .ok 1 ∧
      ¬IsGreatest {x | c.view.Occurs x} 1 := by
  obtain ⟨c, hc, hnested⟩ : ∃ c, (compileModule "m" nestedTry).1 = .ok c ∧ c.isNestedTry = true :=
    exists_of_any (by decide +kernel)
  obtain ⟨hok, hhandler⟩ := Code.entersHandler_nestedTry hnested
  refine ⟨c, hc, hok, ?_⟩
  intro hgreatest
  exact absurd (hgreatest.2 hhandler.occurs) (by decide)

end Toolchain

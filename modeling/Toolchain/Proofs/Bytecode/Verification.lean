import Mathlib.Data.List.Basic
import Toolchain.Proofs.Bytecode.DepthMachine
import Toolchain.Proofs.Outcome

/-!
# The verifier is exact

A code object passes the verifier if and only if its instructions are well encoded and it has a
depth assignment. The walk keeps two things: each depth it has noted is one that the depth machine
comes to, and each position it has visited has all its edges noted. The first makes an error of the
walk an obstacle to every assignment; the second makes the depths at the end of the walk an
assignment. Neither rests on the order in which the positions are visited.

## Main definitions

* `CodeView.Encoded`: the rules for the operand of an instruction
* `Code.WellEncoded`: the rules for everything but the depth of the stack
* `Depths.Walks`: a walk that visits the positions in any order
* `Depths.Sound`: what the walk keeps

## Main results

* `CodeView.checkWord_eq_ok_iff`: the check of a word decides the rules
* `Depths.Walks.isOk_iff`: a walk in any order ends well if and only if there is an assignment
* `Code.checkAlone_isOk_iff`: the verifier accepts a code object if and only if it should
-/

namespace Toolchain

open Outcome

/-! ## The encoding -/

namespace CodeView

/-- The rules for the operand of an instruction at a position. -/
structure Encoded (v : CodeView) (position : Nat) (i : Instr) : Prop where
  target : i.op.isJump = true → i.operand < v.words.size
  constant : i.op = .loadConst → i.operand < v.constants.size
  name : i.op.usesName = true → ∃ t, v.constants[i.operand]? = some (.name t)
  limit : ∀ n, Instr.operandLimit? i.op = some n → i.operand ≤ n
  build : i.op = .build → (splitBuild i.operand).1 ≤ BuildKind.slice.number ∧
    ((splitBuild i.operand).1 = BuildKind.slice.number → (splitBuild i.operand).2 = 3)
  dup : i.op = .dup → i.operand = 1 ∨ i.operand = 2
  rot : i.op = .rot → i.operand = 2 ∨ i.operand = 3
  make : i.op = .makeFunction ∨ i.op = .makeClass →
    position ≠ 0 ∧ v.loadsCode (position - 1) = true

variable {v : CodeView}

theorem checkReference_eq_ok_iff (i : Instr) :
    v.checkReference i = .ok () ↔ (i.op.isJump = true → i.operand < v.words.size) ∧
      (i.op = .loadConst → i.operand < v.constants.size) ∧
      (i.op.usesName = true → ∃ t, v.constants[i.operand]? = some (.name t)) := by
  rcases i with ⟨op, k⟩
  unfold checkReference
  by_cases hj : op.isJump = true
  · have hc : op ≠ .loadConst := by rintro rfl; simp [Opcode.isJump] at hj
    have hn : op.usesName = false := by cases op <;> simp_all [Opcode.isJump, Opcode.usesName]
    simp [hj, hc, hn]
  by_cases hc : op = .loadConst
  · subst hc
    simp [Opcode.isJump, Opcode.usesName]
  by_cases hn : op.usesName = true
  · simp only [hj, hc, hn, if_true, if_false, Bool.false_eq_true, false_implies, true_and,
      true_implies]
    rcases hk : v.constants[k]? with _ | c
    · simp
    · cases c <;> simp [Constant.isName]
  · simp [hj, hc, hn]

theorem checkOperand_eq_ok_iff (position : Nat) (i : Instr) :
    v.checkOperand position i = .ok () ↔ (∀ n, Instr.operandLimit? i.op = some n → i.operand ≤ n) ∧
      (i.op = .build → (splitBuild i.operand).1 ≤ BuildKind.slice.number ∧
        ((splitBuild i.operand).1 = BuildKind.slice.number → (splitBuild i.operand).2 = 3)) ∧
      (i.op = .dup → i.operand = 1 ∨ i.operand = 2) ∧
      (i.op = .rot → i.operand = 2 ∨ i.operand = 3) ∧
      (i.op = .makeFunction ∨ i.op = .makeClass →
        position ≠ 0 ∧ v.loadsCode (position - 1) = true) := by
  rcases i with ⟨op, k⟩
  unfold checkOperand
  cases op with
  | build =>
    rcases hs : splitBuild k with ⟨kind, count⟩
    by_cases hk : kind > BuildKind.slice.number
    · simp [Instr.operandLimit?, hk, Nat.not_le_of_gt hk]
    · by_cases hc : kind = BuildKind.slice.number ∧ count ≠ 3
      · simp [Instr.operandLimit?, hc]
      · simp only [hk, hc, if_false, pure_eq_ok_iff, Instr.operandLimit?]
        grind
  | dup =>
    simp only [guard_eq_ok_iff, Instr.operandLimit?]
    grind
  | rot =>
    simp only [guard_eq_ok_iff, Instr.operandLimit?]
    grind
  | makeFunction | makeClass =>
    by_cases hp : position = 0
    · simp [Instr.operandLimit?, hp]
    · by_cases hl : v.loadsCode (position - 1) = true
      · simp [Instr.operandLimit?, hp, hl]
      · simp [Instr.operandLimit?, hp, hl]
  | _ => simp [Instr.operandLimit?]

theorem decode?_placeholder : Instr.decode? Word.placeholder = none := by decide

/-- The check of a word decides the rules for the instruction it stands for. -/
theorem checkWord_eq_ok_iff (name : Text) (position : Nat) (w : Word) :
    v.checkWord name position w = .ok () ↔
      ∃ i, Instr.decode? w = some i ∧ v.Encoded position i := by
  unfold checkWord
  by_cases hw : w = Word.placeholder
  · simp [hw, decode?_placeholder, bind_eq_ok_iff]
  simp only [hw, if_false]
  cases hd : Instr.decode? w with
  | none => simp
  | some i =>
    simp only [Option.some.injEq, exists_eq_left', seq_eq_ok_iff, checkReference_eq_ok_iff,
      checkOperand_eq_ok_iff]
    constructor
    · rintro ⟨⟨h₁, h₂, h₃⟩, h₄, h₅, h₆, h₇, h₈⟩
      exact ⟨h₁, h₂, h₃, h₄, h₅, h₆, h₇, h₈⟩
    · rintro ⟨h₁, h₂, h₃, h₄, h₅, h₆, h₇, h₈⟩
      exact ⟨⟨h₁, h₂, h₃⟩, h₄, h₅, h₆, h₇, h₈⟩

theorem checkWords_eq_ok_iff (name : Text) (start : Nat) (ws : List Word) :
    v.checkWords name start ws = .ok () ↔
      ∀ p w, ws[p]? = some w → ∃ i, Instr.decode? w = some i ∧ v.Encoded (start + p) i := by
  induction ws generalizing start with
  | nil => simp [checkWords]
  | cons w ws ih =>
    have key : v.checkWords name start (w :: ws) = .ok () ↔
        v.checkWord name start w = .ok () ∧ v.checkWords name (start + 1) ws = .ok () := by
      rw [checkWords]
      cases v.checkWord name start w with
      | error e => simp
      | ok u => simp
    rw [key, checkWord_eq_ok_iff, ih]
    constructor
    · rintro ⟨h₀, h⟩ (_ | p) u hu
      · simp only [List.getElem?_cons_zero, Option.some.injEq] at hu
        exact hu ▸ h₀
      · rw [Nat.add_comm p, ← Nat.add_assoc]
        exact h p u hu
    · intro h
      refine ⟨h 0 w rfl, fun p u hu => ?_⟩
      rw [Nat.add_assoc, Nat.add_comm 1]
      exact h (p + 1) u hu

theorem checkConstants_eq_ok_iff (start : Nat) (ks : List Constant) :
    checkConstants start ks = .ok () ↔ ∀ k ∈ ks, k ≠ .noCode ∧ ∀ tag, k ≠ .unknown tag := by
  induction ks generalizing start with
  | nil => simp [checkConstants]
  | cons k ks ih => cases k <;> simp [checkConstants, ih]

end CodeView

/-! ## The walk -/

namespace Depths

variable {v : CodeView} {name : Text}

/-- The depth noted at a position. -/
def At (d : Depths) (p x : Nat) : Prop := d.depth[p]? = some (some x)

/-- The number of visits that may still come: one for each position that waits, and one for each
that has no depth. -/
def toVisit (d : Depths) : Nat := d.depth.toList.count none + d.work.length

theorem At.unique {d : Depths} {p x y : Nat} (hx : d.At p x) (hy : d.At p y) : x = y := by
  exact Option.some.inj (Option.some.inj (hx.symm.trans hy))

/-- What comes of noting that paths lead to some positions with some depths: nothing noted before
is lost, the positions have these depths, and what is new waits to be visited. -/
structure Notes (d d' : Depths) (paths : List (Nat × Nat)) : Prop where
  size : d'.depth.size = d.depth.size
  keeps : ∀ p x, d.At p x → d'.At p x
  notes : ∀ p x, (p, x) ∈ paths → d'.At p x
  new : ∀ p x, d'.At p x → d.At p x ∨ (p, x) ∈ paths ∧ p ∈ d'.work
  work : ∀ p ∈ d.work, p ∈ d'.work
  waiting : ∀ p ∈ d'.work, p ∈ d.work ∨ ∃ x, d'.At p x
  toVisit : d'.toVisit = d.toVisit

theorem Notes.refl (d : Depths) : d.Notes d [] where
  size := rfl
  keeps _ _ h := h
  notes _ _ h := absurd h List.not_mem_nil
  new _ _ h := .inl h
  work _ h := h
  waiting _ h := .inl h
  toVisit := rfl

theorem Notes.trans {d₁ d₂ d₃ : Depths} {path : Nat × Nat} {paths : List (Nat × Nat)}
    (h : d₁.Notes d₂ [path]) (h' : d₂.Notes d₃ paths) : d₁.Notes d₃ (path :: paths) where
  size := h'.size.trans h.size
  keeps p x hx := h'.keeps p x (h.keeps p x hx)
  notes p x hx := by
    rcases List.mem_cons.mp hx with rfl | hx
    · exact h'.keeps p x (h.notes p x (List.mem_singleton.mpr rfl))
    · exact h'.notes p x hx
  new p x hx := by
    rcases h'.new p x hx with hx | ⟨hx, hw⟩
    · rcases h.new p x hx with hx | ⟨hx, hw⟩
      · exact .inl hx
      · exact .inr ⟨List.mem_cons.mpr (.inl (List.mem_singleton.mp hx)), h'.work p hw⟩
    · exact .inr ⟨List.mem_cons_of_mem _ hx, hw⟩
  work p hp := h'.work p (h.work p hp)
  waiting p hp := by
    rcases h'.waiting p hp with hp | hp
    · rcases h.waiting p hp with hp | ⟨x, hx⟩
      · exact .inl hp
      · exact .inr ⟨x, h'.keeps p x hx⟩
    · exact .inr hp
  toVisit := h'.toVisit.trans h.toVisit

/-- Noting the first depth of a position. -/
theorem notes_new {d : Depths} {target depth : Nat} (h : d.depth[target]? = some none) :
    d.Notes { d with depth := d.depth.setIfInBounds target (some depth), work := target :: d.work }
      [(target, depth)] := by
  obtain ⟨hlt, hnone⟩ := Array.getElem?_eq_some_iff.mp h
  have at_target : (d.depth.setIfInBounds target (some depth))[target]? = some (some depth) := by
    rw [Array.getElem?_setIfInBounds_self_of_lt hlt]
  have elsewhere {p : Nat} (hp : p ≠ target) :
      (d.depth.setIfInBounds target (some depth))[p]? = d.depth[p]? :=
    Array.getElem?_setIfInBounds_ne hp.symm
  refine ⟨Array.size_setIfInBounds, fun p x hx => ?_, fun p x hx => ?_, fun p x hx => ?_,
    fun p hp => List.mem_cons_of_mem _ hp, fun p hp => ?_, ?_⟩
  · have hp : p ≠ target := by
      rintro rfl
      rw [At, h] at hx
      cases hx
    exact (elsewhere hp).trans hx
  · obtain ⟨rfl, rfl⟩ := Prod.mk.inj (List.mem_singleton.mp hx)
    exact at_target
  · by_cases hp : p = target
    · subst hp
      have : x = depth := At.unique hx at_target
      exact .inr ⟨by simp [this], List.mem_cons_self⟩
    · exact .inl ((elsewhere hp).symm.trans hx)
  · rcases List.mem_cons.mp hp with rfl | hp
    · exact .inr ⟨depth, at_target⟩
    · exact .inl hp
  · have hl : d.depth.toList[target]? = some none := by rw [Array.getElem?_toList]; exact h
    simp only [Depths.toVisit, Array.toList_setIfInBounds, List.length_cons]
    obtain ⟨hlt', hl'⟩ := List.getElem?_eq_some_iff.mp hl
    have hpos : 0 < d.depth.toList.count none :=
      List.count_pos_iff.mpr (hl' ▸ List.getElem_mem hlt')
    rw [List.count_set hlt', hl']
    simp only [beq_self_eq_true, if_true, beq_iff_eq, reduceCtorEq, if_false]
    omega

/-- A path is noted, or it leaves the code, or it comes to a position with a second depth. -/
theorem flow_cases (name : Text) (d : Depths) (source target depth : Nat) :
    (∃ d', d.flow name source target depth = .ok d' ∧ d.Notes d' [(target, depth)]) ∨
      (∃ e, d.flow name source target depth = .error e ∧
        (d.depth.size ≤ target ∨ ∃ before, d.At target before ∧ before ≠ depth)) := by
  unfold flow
  rcases h : d.depth[target]? with _ | _ | before
  · exact .inr ⟨_, rfl, .inl (Array.getElem?_eq_none_iff.mp h)⟩
  · exact .inl ⟨_, rfl, notes_new h⟩
  · by_cases heq : before = depth
    · subst heq
      refine .inl ⟨d, by simp [pure, Except.pure], ?_⟩
      refine { Notes.refl d with notes := fun p x hx => ?_, new := fun p x hx => .inl hx }
      obtain ⟨rfl, rfl⟩ := Prod.mk.inj (List.mem_singleton.mp hx)
      exact h
    · exact .inr ⟨⟨name, target, .inconsistent before depth⟩,
        by simp [heq, throw, throwThe, MonadExceptOf.throw], .inr ⟨before, h, heq⟩⟩

/-- All the paths that leave a position are noted, or one of them cannot be. -/
theorem flows_cases (name : Text) (source : Nat) (paths : List (Nat × Nat)) (d : Depths) :
    (∃ d', paths.foldlM (fun d (path : Nat × Nat) => d.flow name source path.1 path.2) d = .ok d' ∧
        d.Notes d' paths) ∨
      (∃ e, paths.foldlM (fun d (path : Nat × Nat) => d.flow name source path.1 path.2) d =
          .error e ∧
        ∃ path ∈ paths, d.depth.size ≤ path.1 ∨ ∃ before, before ≠ path.2 ∧
          (d.At path.1 before ∨ (path.1, before) ∈ paths)) := by
  induction paths generalizing d with
  | nil => exact .inl ⟨d, rfl, .refl d⟩
  | cons path paths ih =>
    rw [List.foldlM_cons]
    rcases flow_cases name d source path.1 path.2 with ⟨d₁, h₁, n₁⟩ | ⟨e, h₁, he⟩
    · rw [h₁]
      rcases ih d₁ with ⟨d₂, h₂, n₂⟩ | ⟨e, h₂, path', hmem, he⟩
      · exact .inl ⟨d₂, h₂, n₁.trans n₂⟩
      · refine .inr ⟨e, h₂, path', List.mem_cons_of_mem _ hmem, ?_⟩
        rw [n₁.size] at he
        rcases he with he | ⟨before, hne, hb | hb⟩
        · exact .inl he
        · rcases n₁.new _ _ hb with hb | ⟨hb, -⟩
          · exact .inr ⟨before, hne, .inl hb⟩
          · exact .inr ⟨before, hne, .inr (List.mem_cons.mpr (.inl (List.mem_singleton.mp hb)))⟩
        · exact .inr ⟨before, hne, .inr (List.mem_cons_of_mem _ hb)⟩
    · rw [h₁]
      refine .inr ⟨e, rfl, path, List.mem_cons_self, ?_⟩
      rcases he with he | ⟨before, hb, hne⟩
      · exact .inl he
      · exact .inr ⟨before, hne, .inl hb⟩

/-- What the walk keeps: the depths it has noted are those of the depth machine, and a position
that was visited found what it needs and has all its paths noted. -/
structure Sound (v : CodeView) (d : Depths) : Prop where
  size : d.depth.size = v.words.size
  entry : d.At 0 0
  machine : ∀ p x, d.At p x → v.Machine p x
  waiting : ∀ p ∈ d.work, ∃ x, d.At p x
  visited : ∀ p x i, d.At p x → p ∉ d.work → v.instr? p = some i →
    i.stackNeed ≤ x ∧ ∀ path ∈ i.flows p x, d.At path.1 path.2

theorem sound_start (h : 0 < v.words.size) : (start v.words.size).Sound v := by
  have entry : (start v.words.size).At 0 0 := by
    simp [At, start, h]
  have only (p x : Nat) (hx : (start v.words.size).At p x) : p = 0 ∧ x = 0 := by
    by_cases hp : p = 0
    · subst hp
      exact ⟨rfl, hx.unique entry⟩
    · simp only [At, start] at hx
      rw [Array.getElem?_setIfInBounds_ne (Ne.symm hp), Array.getElem?_replicate] at hx
      split at hx <;> cases hx
  refine ⟨by simp [start], entry, fun p x hx => ?_, fun p hp => ⟨0, ?_⟩, fun p x i hx hp => ?_⟩
  · obtain ⟨rfl, rfl⟩ := only p x hx
    exact .start
  · obtain rfl := List.mem_singleton.mp hp
    exact entry
  · obtain ⟨rfl, -⟩ := only p x hx
    exact absurd (List.mem_singleton.mpr rfl) hp

/-- At most one visit for each position, and one more, may come. -/
theorem toVisit_start_le (size : Nat) : (start size).toVisit ≤ size + 1 := by
  have hcount := List.count_le_length (l := ((Array.replicate size none).setIfInBounds 0
    (some 0)).toList) (a := (none : Option Nat))
  simp only [Array.length_toList, Array.size_setIfInBounds, Array.size_replicate] at hcount
  simp only [toVisit, start, List.length_singleton]
  omega

/-- The walk at a position that waits: it goes on soundly with one visit less to come, or the depth
machine shows that there is no assignment. -/
theorem Sound.visit_cases (name : Text) {d : Depths} (hd : d.Sound v)
    (instrs : ∀ p, p < v.words.size →
      ∃ i, v.instr? p = some i) {p : Nat} (hp : p ∈ d.work) :
    (∃ d', visit name v { d with work := d.work.erase p } p = .ok d' ∧ d'.Sound v ∧
        d'.toVisit + 1 = d.toVisit) ∨
      (∃ e, visit name v { d with work := d.work.erase p } p = .error e ∧
        ¬∃ depth, v.DepthAssignment depth) := by
  obtain ⟨x, hx⟩ := hd.waiting p hp
  obtain ⟨hlt, -⟩ := Array.getElem?_eq_some_iff.mp hx
  obtain ⟨i, hi⟩ := instrs p (hd.size ▸ hlt)
  have hm : v.Machine p x := hd.machine p x hx
  have hjoin : d.depth[p]?.join = some x := by rw [hx]; rfl
  unfold visit
  simp only [hi, hjoin]
  by_cases hneed : x < i.stackNeed
  · refine .inr ⟨⟨name, p, .underflow i.op i.stackNeed x⟩,
      by simp [hneed, throw, throwThe, MonadExceptOf.throw], fun ⟨depth, h⟩ => ?_⟩
    have := h.enough p i hm.reachable hi
    have := h.machine_eq hm
    omega
  rw [if_neg hneed]
  have hneed : i.stackNeed ≤ x := Nat.le_of_not_lt hneed
  set d₀ : Depths := { depth := d.depth, work := d.work.erase p,
                       deepest := max d.deepest (i.stackAfter x) } with hd₀
  have path_machine (path : Nat × Nat) (h : path ∈ i.flows p x) : v.Machine path.1 path.2 := by
    obtain ⟨δ, he, hy⟩ := (CodeView.mem_flows_iff (q := path.1) (y := path.2) hi hneed).mp h
    exact hy ▸ hm.step he
  have visits : d₀.toVisit + 1 = d.toVisit := by
    simp only [hd₀, toVisit, List.length_erase_of_mem hp]
    have := List.length_pos_of_mem hp
    omega
  -- the walk goes on along all flows, or stops at one that no assignment has
  rcases flows_cases name p (i.flows p x) d₀ with ⟨d', h', n⟩ | ⟨e, h', path, hpath, he⟩
  · refine .inl ⟨d', h', ?_, by rw [n.toVisit, visits]⟩
    refine ⟨n.size.trans hd.size, n.keeps 0 0 hd.entry, fun q y hy => ?_, fun q hq => ?_,
      fun q y j hy hq hj => ?_⟩
    · rcases n.new q y hy with hy | ⟨hy, -⟩
      · exact hd.machine q y hy
      · exact path_machine (q, y) hy
    · rcases n.waiting q hq with hq | hq
      · obtain ⟨y, hy⟩ := hd.waiting q (List.mem_of_mem_erase hq)
        exact ⟨y, n.keeps q y hy⟩
      · exact hq
    · -- a position was visited before, or it is the one that is visited now
      by_cases hqp : q = p
      · subst hqp
        obtain rfl : y = x := hy.unique (n.keeps q x hx)
        obtain rfl := Option.some.inj (hi.symm.trans hj)
        exact ⟨hneed, fun path hpath => n.notes path.1 path.2 hpath⟩
      · rcases n.new q y hy with hy | ⟨-, hw⟩
        · have hq' : q ∉ d.work := fun h => hq (n.work q ((List.mem_erase_of_ne hqp).mpr h))
          obtain ⟨h₁, h₂⟩ := hd.visited q y j hy hq' hj
          exact ⟨h₁, fun path hpath => n.keeps path.1 path.2 (h₂ path hpath)⟩
        · exact absurd hw hq
  · refine .inr ⟨e, h', fun ⟨depth, h⟩ => ?_⟩
    have hto := h.machine_eq (path_machine path hpath)
    rcases he with he | ⟨before, hne, hb⟩
    · obtain ⟨δ, hedge, -⟩ := (CodeView.mem_flows_iff (q := path.1) (y := path.2) hi hneed).mp hpath
      have := h.inside p δ path.1 hm.reachable hedge
      rw [← hd.size] at this
      exact absurd this (Nat.not_lt.mpr he)
    · have hbefore : v.Machine path.1 before := by
        rcases hb with hb | hb
        · exact hd.machine _ _ hb
        · exact path_machine (path.1, before) hb
      have := h.machine_eq hbefore
      omega

/-- Once every position is visited, each edge from a position with a depth leads to a position with
the depth that the edge carries. -/
theorem Sound.along {d : Depths} (hd : d.Sound v) (hw : d.work = []) {p q x : Nat} {δ : Int}
    (hx : d.At p x) (he : v.Edge p δ q) : ∃ y, d.At q y ∧ (y : Int) = x + δ := by
  obtain ⟨i, hi, -⟩ := he.exists_instr
  obtain ⟨hneed, hall⟩ := hd.visited p x i hx (by simp [hw]) hi
  obtain ⟨y, hmem, hy⟩ := he.exists_mem_flows hi hneed
  exact ⟨y, hall _ hmem, hy⟩

theorem Sound.exists_at {d : Depths} (hd : d.Sound v) (hw : d.work = []) {p : Nat}
    (hp : v.Reachable p) : ∃ x, d.At p x := by
  induction hp with
  | refl => exact ⟨0, hd.entry⟩
  | tail _ he ih =>
    obtain ⟨x, hx⟩ := ih
    obtain ⟨δ, he⟩ := he
    obtain ⟨y, hy, -⟩ := hd.along hw hx he
    exact ⟨y, hy⟩

/-- A walk that has visited every position has found an assignment. -/
theorem Sound.depthAssignment {d : Depths} (hd : d.Sound v) (hw : d.work = []) :
    v.DepthAssignment fun p => d.depth[p]?.join.getD 0 := by
  have assigned {p x : Nat} (hx : d.At p x) : d.depth[p]?.join.getD 0 = x := by
    rw [At] at hx
    simp [hx]
  refine ⟨assigned hd.entry, fun p i hp hi => ?_, fun p δ q hp he => ?_, fun p δ q hp he => ?_⟩
  · obtain ⟨x, hx⟩ := hd.exists_at hw hp
    rw [assigned hx]
    exact (hd.visited p x i hx (by simp [hw]) hi).1
  · obtain ⟨x, hx⟩ := hd.exists_at hw hp
    obtain ⟨y, hy, -⟩ := hd.along hw hx he
    exact hd.size ▸ (Array.getElem?_eq_some_iff.mp hy).1
  · obtain ⟨x, hx⟩ := hd.exists_at hw hp
    obtain ⟨y, hy, hδ⟩ := hd.along hw hx he
    rw [assigned hx, assigned hy, hδ]

/-- A walk that visits the positions that wait in any order, with its outcome. -/
inductive Walks (name : Text) (v : CodeView) : Depths → Except VerifyError Depths → Prop
  | done {d : Depths} (hw : d.work = []) : Walks name v d (.ok d)
  | fails {d : Depths} {p : Nat} {e : VerifyError} (hp : p ∈ d.work)
      (hv : visit name v { d with work := d.work.erase p } p = .error e) : Walks name v d (.error e)
  | visits {d d' : Depths} {p : Nat} {r : Except VerifyError Depths} (hp : p ∈ d.work)
      (hv : visit name v { d with work := d.work.erase p } p = .ok d') (hr : Walks name v d' r) :
      Walks name v d r

/-- Whatever the order, a walk ends well if and only if there is an assignment. -/
theorem Walks.isOk_iff {d : Depths} {r : Except VerifyError Depths} (hr : Walks name v d r)
    (hd : d.Sound v) (instrs : ∀ p, p < v.words.size → ∃ i, v.instr? p = some i) :
    (∃ d', r = .ok d') ↔ ∃ depth, v.DepthAssignment depth := by
  induction hr with
  | done hw => exact ⟨fun _ => ⟨_, hd.depthAssignment hw⟩, fun _ => ⟨_, rfl⟩⟩
  | fails hp hv =>
    rcases hd.visit_cases name instrs hp with ⟨d', h, -⟩ | ⟨e, h, hnone⟩
    · rw [hv] at h
      cases h
    · exact ⟨fun ⟨d', h⟩ => (by cases h), fun h => absurd h hnone⟩
  | visits hp hv _ ih =>
    rcases hd.visit_cases name instrs hp with ⟨d', h, hd', -⟩ | ⟨e, h, -⟩
    · obtain rfl := Except.ok.inj (hv.symm.trans h)
      exact ih hd'
    · rw [hv] at h
      cases h

/-- The walk of the verifier is one of these, if its bound is not less than the number of visits
that may come. -/
theorem walks_walk {d : Depths} (hd : d.Sound v)
    (instrs : ∀ p, p < v.words.size → ∃ i, v.instr? p = some i) {n : Nat} (hn : d.toVisit ≤ n) :
    Walks name v d (walk name v n d) := by
  induction n generalizing d with
  | zero =>
    have hw : d.work = [] := List.eq_nil_of_length_eq_zero (by unfold toVisit at hn; omega)
    exact .done hw
  | succ n ih =>
    unfold walk
    rcases hwork : d.work with _ | ⟨p, work⟩
    · exact .done hwork
    · have hp : p ∈ d.work := by simp [hwork]
      have herase : d.work.erase p = work := by simp [hwork]
      simp only
      rcases hd.visit_cases name instrs hp with ⟨d', h, hd', hlt⟩ | ⟨e, h, -⟩
      · have hgo : (visit name v { d with work } p >>= walk name v n) = walk name v n d' := by
          rw [← herase, h]
          rfl
        rw [hgo]
        exact .visits hp h (ih hd' (by omega))
      · have hstop : (visit name v { d with work } p >>= walk name v n) = .error e := by
          rw [← herase, h]
          rfl
        rw [hstop]
        exact .fails hp h

end Depths

/-! ## One code object -/

namespace Word

theorem length_ofByteList (bytes : List UInt8) : (ofByteList bytes).length = bytes.length / 2 := by
  fun_induction ofByteList bytes with
  | case1 high low rest ih =>
    simp only [List.length_cons, ih]
    omega
  | case2 bytes h =>
    rcases bytes with _ | ⟨b, _ | ⟨c, rest⟩⟩
    · rfl
    · simp
    · exact absurd rfl (h b c rest)

end Word

namespace Code

variable {c : Code}

/-- The rules for everything but the depth of the stack. -/
structure WellEncoded (c : Code) : Prop where
  even : c.instructions.length % 2 = 0
  lines : c.lines.length = c.size
  words : ∀ p w, c.words[p]? = some w → ∃ i, Instr.decode? w = some i ∧ c.view.Encoded p i
  constants : ∀ k ∈ c.constants, k ≠ .noCode ∧ ∀ tag, k ≠ .unknown tag

@[simp] theorem size_view_words (c : Code) : c.view.words.size = c.size := by
  simp [view, CodeObject.words, CodeObject.size, Word.length_ofByteList]

/-- Every position of a well-encoded code object holds an instruction that keeps the rules. -/
theorem WellEncoded.exists_instr (h : c.WellEncoded) {p : Nat} (hp : p < c.size) :
    ∃ i, c.view.instr? p = some i ∧ c.view.Encoded p i := by
  have hlt : p < c.words.length := by
    rw [← size_view_words] at hp
    simpa [view] using hp
  obtain ⟨i, hi, he⟩ := h.words p c.words[p] (List.getElem?_eq_getElem hlt)
  refine ⟨i, ?_, he⟩
  simp [CodeView.instr?, view, List.getElem?_eq_getElem hlt, hi]

/-- The check of the stack is a walk from the first instruction. -/
theorem checkStack_isOk_iff (h0 : 0 < c.size) :
    (∃ deepest, c.checkStack = .ok deepest) ↔
      ∃ d, Depths.walk c.name c.view (c.size + 1) (Depths.start c.size) = .ok d := by
  unfold checkStack
  rw [if_neg (by omega)]
  simp only [bind_eq_ok_iff, pure_eq_ok_iff]
  constructor
  · rintro ⟨_, d, hd, _⟩
    exact ⟨d, hd⟩
  · rintro ⟨d, hd⟩
    exact ⟨d.deepest, d, hd, rfl⟩

theorem checkAlone_eq_ok_iff {deepest : Nat} :
    c.checkAlone = .ok deepest ↔ c.WellEncoded ∧ c.checkStack = .ok deepest := by
  have hchecks : c.WellEncoded ↔ c.instructions.length % 2 = 0 ∧ c.lines.length = c.size ∧
      c.view.checkWords c.name 0 c.words = .ok () ∧
      CodeView.checkConstants 0 c.constants = .ok () := by
    rw [CodeView.checkWords_eq_ok_iff, CodeView.checkConstants_eq_ok_iff]
    simp only [Nat.zero_add]
    exact ⟨fun h => ⟨h.even, h.lines, h.words, h.constants⟩,
      fun ⟨h₁, h₂, h₃, h₄⟩ => ⟨h₁, h₂, h₃, h₄⟩⟩
  rw [hchecks, checkAlone]
  by_cases h₁ : c.instructions.length % 2 = 0
  · by_cases h₂ : c.lines.length = c.size
    · rcases h₃ : CodeView.checkConstants 0 c.constants with e | u
      · simp [h₁, h₂, seq_eq_ok_iff]
      · simp [h₁, h₂, seq_eq_ok_iff]
    · simp [h₁, h₂, bind_eq_ok_iff]
  · simp [h₁, bind_eq_ok_iff]

theorem sound_start (h0 : 0 < c.size) :
    (Depths.start c.size).Sound c.view := by
  rw [← size_view_words] at h0 ⊢
  exact Depths.sound_start h0

/-- Whatever the order, a walk through a well-encoded code object ends well if and only if the code
object has an assignment. -/
theorem WellEncoded.walks_isOk_iff (h : c.WellEncoded) (h0 : 0 < c.size)
    {r : Except VerifyError Depths} (hr : Depths.Walks c.name c.view (Depths.start c.size) r) :
    (∃ d, r = .ok d) ↔ ∃ depth, c.view.DepthAssignment depth := by
  refine hr.isOk_iff (sound_start h0) fun p hp => ?_
  obtain ⟨i, hi, -⟩ := h.exists_instr (size_view_words c ▸ hp)
  exact ⟨i, hi⟩

/-- The verifier accepts a code object if and only if it is well encoded and has an assignment. -/
theorem checkAlone_isOk_iff (h0 : 0 < c.size) :
    (∃ deepest, c.checkAlone = .ok deepest) ↔
      c.WellEncoded ∧ ∃ depth, c.view.DepthAssignment depth := by
  simp only [checkAlone_eq_ok_iff, exists_and_left]
  refine and_congr_right fun h => ?_
  rw [checkStack_isOk_iff h0]
  refine h.walks_isOk_iff h0 (Depths.walks_walk (sound_start h0) (fun p hp => ?_)
    (Depths.toVisit_start_le c.size))
  obtain ⟨i, hi, -⟩ := h.exists_instr (size_view_words c ▸ hp)
  exact ⟨i, hi⟩

/-- With an assignment no run of the depth machine underflows, leaves the code, or comes to one
position with two depths. -/
theorem WellEncoded.machine_safe (h : c.WellEncoded) (h0 : 0 < c.size) {depth : Nat → Nat}
    (hd : c.view.DepthAssignment depth) {p : Nat} {x : Int} (hm : c.view.Machine p x) :
    p < c.size ∧ (∃ i, c.view.instr? p = some i ∧ (i.stackNeed : Int) ≤ x) ∧
      ∀ y, c.view.Machine p y → y = x := by
  have hp : p < c.size := by
    have := hd.machine_lt (by rwa [size_view_words]) hm
    rwa [size_view_words] at this
  obtain ⟨i, hi, -⟩ := h.exists_instr hp
  have hx := hd.machine_eq hm
  refine ⟨hp, ⟨i, hi, ?_⟩, fun y hy => (hd.machine_eq hy).trans hx.symm⟩
  rw [hx]
  exact_mod_cast hd.enough p i hm.reachable hi

/-- **The verifier is exact.** It accepts a code object with an instruction if and only if the code
object is well encoded and has a depth assignment; then no run of the depth machine goes wrong; and
a walk in any other order has the same answer. -/
theorem checkAlone_exact (c : Code) (h0 : 0 < c.size) :
    ((∃ deepest, c.checkAlone = .ok deepest) ↔
      c.WellEncoded ∧ ∃ depth, c.view.DepthAssignment depth) ∧
    ((∃ deepest, c.checkAlone = .ok deepest) → ∀ p x, c.view.Machine p x →
      p < c.size ∧ (∃ i, c.view.instr? p = some i ∧ (i.stackNeed : Int) ≤ x) ∧
        ∀ y, c.view.Machine p y → y = x) ∧
    (c.WellEncoded → ∀ r, Depths.Walks c.name c.view (Depths.start c.size) r →
      ((∃ d, r = .ok d) ↔ ∃ deepest, c.checkAlone = .ok deepest)) := by
  refine ⟨checkAlone_isOk_iff h0, fun hok p x hm => ?_, fun h r hr => ?_⟩
  · obtain ⟨h, depth, hd⟩ := (checkAlone_isOk_iff h0).mp hok
    exact h.machine_safe h0 hd hm
  · rw [h.walks_isOk_iff h0 hr, checkAlone_isOk_iff h0]
    exact ⟨fun hd => ⟨h, hd⟩, fun hd => hd.2⟩

/-- A loop around a test, with the return after it: a code object whose control flow has a cycle. -/
def idleLoop : Code :=
  { name := [], filename := [], kind := .module, firstLine := 1,
    instructions := [0xE8, 1, 0x80, 3, 0x78, 0, 0xE8, 0, 0x68, 0],
      lineTable := some [1, 1, 1, 2, 2] }

theorem checkAlone_exact_idleLoop :
    0 < idleLoop.size ∧ idleLoop.checkAlone = .ok 1 ∧ idleLoop.WellEncoded ∧
      (∃ depth, idleLoop.view.DepthAssignment depth) ∧
      ∀ p x, idleLoop.view.Machine p x → p < 5 ∧ ∀ y, idleLoop.view.Machine p y → y = x := by
  have h0 : 0 < idleLoop.size := by decide
  have hok : idleLoop.checkAlone = .ok 1 := by rfl
  obtain ⟨hiff, hsafe, -⟩ := checkAlone_exact idleLoop h0
  obtain ⟨henc, hdepth⟩ := hiff.mp ⟨1, hok⟩
  refine ⟨h0, hok, henc, hdepth, fun p x hm => ?_⟩
  obtain ⟨hp, -, hy⟩ := hsafe ⟨1, hok⟩ p x hm
  exact ⟨hp, hy⟩

end Code

end Toolchain

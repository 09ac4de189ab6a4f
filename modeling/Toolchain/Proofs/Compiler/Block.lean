import Toolchain.Proofs.Compiler.Straight
import Toolchain.Tree.Basic

/-!
# Blocks of code

Where control goes after a statement is read off the tree. The final part of a `try` runs also while
an exception is on its way to an outer handler; the exception then lies on the stack below it. A
jump out of a loop from there would take the exception along, so that the loop is left with more on
the stack than it was entered with.

The code of statements is entered at its first instruction and left behind its last one or by jumps
out of the loop around it. It runs well exactly if its flow is balanced: where a loop is left with
more on the stack than it was entered with, some instruction is met with two depths.

## Main definitions

* `Flow`: where control goes, and whether all loops inside are left as they were entered
* `Stmt.flow`, `Stmt.bodyFlow`: the flow of a statement, and of several
* `Root.isBalanced`: in the program and in all functions and classes, loops are left as they were
  entered
* `Flow.Exits`: the exits of code with a flow
* `CodeView.Block`: a stretch of code with a flow
* `CodeView.Handling`: the code of handlers, entered with an exception on the stack

## Main results

* `CodeView.Block.seq`, `CodeView.Block.branch`, `CodeView.Block.alternative`,
  `CodeView.Block.whileLoop`, `CodeView.Block.forLoop`, `CodeView.Block.protect`: the blocks of
  compound statements
-/

namespace Toolchain

/-! ## Control flow of statements -/

/-- Where control goes from a piece of a program. -/
structure Flow where
  /-- Whether control can come to the end. -/
  completes : Bool
  /-- The jumps out of a round of the loop around it that control can come to: whether they leave
  the loop, and how many exceptions lie on the stack. -/
  leaves : List (Bool × Nat)
  /-- Whether the loops inside that control can come to are left with nothing more on the stack. -/
  balanced : Bool
  deriving DecidableEq, Repr

namespace Flow

/-- Control goes to the end. -/
def straight : Flow := ⟨true, [], true⟩

/-- Control goes nowhere. -/
def stop : Flow := ⟨false, [], true⟩

/-- A jump out of a round of a loop, or out of the loop. -/
def leave (isBreak : Bool) : Flow := ⟨false, [(isBreak, 0)], true⟩

/-- One piece after another. -/
def seq (f g : Flow) : Flow :=
  if f.completes then ⟨g.completes, f.leaves ++ g.leaves, f.balanced && g.balanced⟩ else f

/-- One of two pieces. -/
def either (f g : Flow) : Flow :=
  ⟨f.completes || g.completes, f.leaves ++ g.leaves, f.balanced && g.balanced⟩

/-- A piece that runs while an exception is on its way; the exception goes on afterwards. -/
def raised (f : Flow) : Flow :=
  ⟨false, f.leaves.map fun l => (l.1, l.2 + 1), f.balanced⟩

/-- A loop around a piece. -/
def loop (f : Flow) : Flow := ⟨true, [], f.balanced && f.leaves.all (·.2 == 0)⟩

end Flow

namespace Stmt

variable {α : Type}

mutual

/-- The flow of a statement. -/
def flow : Stmt α → Flow
  | .ret .. | .raise .. => .stop
  | .breakLoop _ => .leave true
  | .continueLoop _ => .leave false
  | .forLoop _ _ _ body | .whileLoop _ _ body => (bodyFlow body).loop
  | .ifElse _ _ body orelse => (bodyFlow body).either (bodyFlow orelse)
  | .tryExcept _ body handlers orelse final =>
    -- without a handler for all exceptions, one may pass through the final part
    let caught := if handlers.all fun h => h.type.isSome
      then (handlersFlow handlers).either (bodyFlow final).raised
      else handlersFlow handlers
    (((bodyFlow body).seq (bodyFlow orelse)).either caught).seq (bodyFlow final)
  | _ => .straight

/-- The flow of statements in order. -/
def bodyFlow : List (Stmt α) → Flow
  | [] => .straight
  | s :: ss => s.flow.seq (bodyFlow ss)

/-- The flow of handlers, one of which runs. -/
def handlersFlow : List (Handler α (Expr α) (Stmt α)) → Flow
  | [] => .stop
  | ⟨_, _, _, body⟩ :: rest => (bodyFlow body).either (handlersFlow rest)

end

mutual

/-- Whether the bodies of all functions and classes in a statement are balanced. -/
def innerBalanced : Stmt α → Bool
  | .functionDef _ _ _ body | .classDef _ _ _ body =>
    (bodyFlow body).balanced && bodyInnerBalanced body
  | .forLoop _ _ _ body | .whileLoop _ _ body => bodyInnerBalanced body
  | .ifElse _ _ body orelse => bodyInnerBalanced body && bodyInnerBalanced orelse
  | .tryExcept _ body handlers orelse final =>
    bodyInnerBalanced body && bodyInnerBalanced orelse && handlersInnerBalanced handlers &&
      bodyInnerBalanced final
  | _ => true

/-- Whether the bodies of all functions and classes in statements are balanced. -/
def bodyInnerBalanced : List (Stmt α) → Bool
  | [] => true
  | s :: ss => s.innerBalanced && bodyInnerBalanced ss

/-- Whether the bodies of all functions and classes in handlers are balanced. -/
def handlersInnerBalanced : List (Handler α (Expr α) (Stmt α)) → Bool
  | [] => true
  | ⟨_, _, _, body⟩ :: rest => bodyInnerBalanced body && handlersInnerBalanced rest

end

end Stmt

/-- Whether all loops of a program that control can come to are left as they were entered, in the
program itself and in each function and class. -/
def Root.isBalanced {α : Type} : Root α → Bool
  | .module _ body => (Stmt.bodyFlow body).balanced && Stmt.bodyInnerBalanced body
  | .expression .. => true

/-! ## Exits -/

namespace Flow

open CodeView (Only)

variable {f g : Flow} {fin d brk cont x a : Nat}

/-- The jumps out of the loop around a piece, with the depths they have. -/
def Left (f : Flow) (d brk cont x a : Nat) : Prop :=
  ∃ l ∈ f.leaves, x = (if l.1 then brk else cont) ∧ a = d + l.2

/-- The exits of a piece that is entered with depth `d`. -/
def Exits (f : Flow) (fin d brk cont x a : Nat) : Prop :=
  f.completes = true ∧ Only fin d x a ∨ f.Left d brk cont x a

theorem Left.target (h : f.Left d brk cont x a) : x = brk ∨ x = cont := by
  obtain ⟨⟨b, n⟩, -, rfl, -⟩ := h
  cases b with
  | true => exact .inl rfl
  | false => exact .inr rfl

theorem exits_straight : straight.Exits fin d brk cont x a ↔ Only fin d x a := by
  simp [Exits, Left, straight]

theorem exits_stop : ¬ stop.Exits fin d brk cont x a := by
  simp [Exits, Left, stop]

theorem exits_leave {isBreak : Bool} :
    (leave isBreak).Exits fin d brk cont x a ↔ Only (if isBreak then brk else cont) d x a := by
  simp [Exits, Left, leave, Only]

theorem exits_either :
    (f.either g).Exits fin d brk cont x a ↔ f.Exits fin d brk cont x a ∨
      g.Exits fin d brk cont x a := by
  simp only [Exits, Left, either, Bool.or_eq_true, List.mem_append, or_and_right, exists_or]
  exact or_or_or_comm

theorem exits_seq (h : f.completes = true) :
    (f.seq g).Exits fin d brk cont x a ↔ f.Left d brk cont x a ∨ g.Exits fin d brk cont x a := by
  simp only [Exits, Left, seq, h, if_true, List.mem_append, or_and_right, exists_or]
  exact or_left_comm

theorem exits_raised : f.raised.Exits fin d brk cont x a ↔ f.Left (d + 1) brk cont x a := by
  simp only [Exits, Left, raised, Bool.false_eq_true, false_and, false_or, List.mem_map,
    exists_exists_and_eq_and]
  refine exists_congr fun l => and_congr_right fun _ => and_congr_right fun _ => ?_
  omega

theorem exits_loop : f.loop.Exits fin d brk cont x a ↔ Only fin d x a := by
  simp [Exits, Left, loop]

@[simp] theorem seq_straight (f : Flow) : f.seq straight = f := by
  rcases f with ⟨_ | _, leaves, balanced⟩ <;> simp [seq, straight]

@[simp] theorem straight_seq (f : Flow) : straight.seq f = f := by simp [seq, straight]

end Flow

namespace CodeView

variable {v : CodeView} {p q m fin brk cont : Nat} {f g : Flow}

/-- A stretch of code with a flow. Where its flow completes it comes to `fin`; a jump out of the
loop around it comes to `brk`, and one to the next round to `cont`. -/
structure Block (v : CodeView) (p q : Nat) (f : Flow) (fin brk cont : Nat) : Prop where
  behaves : ∀ d, v.Behaves p q d (f.balanced = true) (f.Exits fin d brk cont)
  encoded : q < v.words.size → fin < v.words.size → brk < v.words.size → cont < v.words.size →
    v.EncodedOn p q

/-- A position is not in a stretch. -/
def Outside (p q x : Nat) : Prop := ¬ (p ≤ x ∧ x < q)

theorem Outside.mono {p' q' x : Nat} (h : Outside p q x) (hp : p ≤ p') (hq : q' ≤ q) :
    Outside p' q' x := by
  unfold Outside at *
  omega

theorem outside_of_left {d x a : Nat} (h : f.Left d brk cont x a) (hb : Outside p q brk)
    (hc : Outside p q cont) : Outside p q x := by
  rcases h.target with rfl | rfl
  · exact hb
  · exact hc

theorem Block.le (h : v.Block p q f fin brk cont) : p ≤ q := (h.behaves 0).le

theorem Path.block (h : v.Path p q 0 0) (brk cont : Nat) : v.Block p q .straight q brk cont where
  behaves d := (h.runs d).behaves.congr (by simp [Flow.straight]) fun _ x a =>
    Flow.exits_straight.symm
  encoded hq _ _ _ := h.encoded hq

/-- One block after another. -/
theorem Block.seq (h₁ : v.Block p m f m brk cont) (h₂ : v.Block m q g fin brk cont)
    (hfin : q ≤ fin) (hb : Outside p q brk) (hc : Outside p q cont) :
    v.Block p q (f.seq g) fin brk cont where
  behaves d := by
    have hle₁ := h₁.le
    have hle₂ := h₂.le
    cases hf : f.completes with
    | true =>
      refine ((h₁.behaves d).link (E := (f.seq g).Exits fin d brk cont) (h₂.behaves d)
        (fun _ => .inl ⟨hf, rfl, rfl⟩) ?_ ?_ ?_).congr ?_ fun _ x a => Iff.rfl
      · rintro - - x a (⟨-, h⟩ | h)
        · exact .inl h
        · exact .inr ((Flow.exits_seq hf).mpr (.inl h))
      · exact fun _ _ x a h => .inl ((Flow.exits_seq hf).mpr (.inr h))
      · intro _ _ x a h
        rcases (Flow.exits_seq hf).mp h with h | h
        · exact ⟨.inl (.inr h), outside_of_left h hb hc⟩
        · refine ⟨.inr h, ?_⟩
          rcases h with ⟨-, rfl, rfl⟩ | h
          · omega
          · exact outside_of_left h hb hc
      · simp [Flow.seq, hf]
    | false =>
      have hseq : f.seq g = f := by simp [Flow.seq, hf]
      rw [hseq]
      refine ((h₁.behaves d).widen hle₂ ?_).congr Iff.rfl ?_
      · rintro - x a (⟨hcomp, -⟩ | h)
        · exact absurd (hf.symm.trans hcomp) Bool.false_ne_true
        · exact outside_of_left h hb hc
      · intro _ x a
        simp [Flow.Exits, hf]
  encoded hq hfin hb hc :=
    (h₁.encoded (Nat.lt_of_le_of_lt h₂.le hq) (Nat.lt_of_le_of_lt h₂.le hq) hb hc).append
      (h₂.encoded hq hfin hb hc)

theorem flows_jump (t p d : Nat) : Instr.flows ⟨.jump, t⟩ p d = [(t, d)] := by
  simp [Instr.flows, Opcode.terminates, Instr.stackAfter, Instr.stackNeed, Instr.stackYield]

/-- A jump elsewhere. -/
theorem Runs.jump {t d : Nat} (hj : v.instr? p = some ⟨.jump, t⟩) (ht : t ≠ p) :
    v.Runs p (p + 1) d (Only t d) := by
  refine (Runs.instr hj (Nat.zero_le _) fun a => ?_).congr fun x a => ?_
  · simp only [flows_jump, List.mem_singleton, Prod.mk.injEq]
    exact fun h => ht h.1.symm
  · simp only [flows_jump, List.mem_singleton, Prod.mk.injEq, Only]

/-- The end of a block is a jump elsewhere. -/
theorem Block.jump {t : Nat} (h : v.Block p q f q brk cont) (hj : v.instr? q = some ⟨.jump, t⟩)
    (ht : Outside p (q + 1) t) (hb : Outside p (q + 1) brk) (hc : Outside p (q + 1) cont) :
    v.Block p (q + 1) f t brk cont where
  behaves d := by
    have hle := h.le
    cases hf : f.completes with
    | true =>
      have hne : t ≠ q := by
        unfold Outside at ht
        omega
      refine ((h.behaves d).link (E := f.Exits t d brk cont) (Runs.jump hj hne).behaves
        (fun _ => .inl ⟨hf, rfl, rfl⟩) ?_ ?_ ?_).congr (by simp) fun _ x a => Iff.rfl
      · rintro - - x a (⟨-, h⟩ | h)
        · exact .inl h
        · exact .inr (.inr h)
      · exact fun _ _ x a h => .inl (.inl ⟨hf, h⟩)
      · rintro - - x a (⟨-, h⟩ | h)
        · refine ⟨.inr h, ?_⟩
          obtain ⟨rfl, -⟩ := h
          exact ht
        · exact ⟨.inl (.inr h), outside_of_left h hb hc⟩
    | false =>
      refine ((h.behaves d).widen (Nat.le_succ q) ?_).congr Iff.rfl ?_
      · rintro - x a (⟨hcomp, -⟩ | h)
        · exact absurd (hf.symm.trans hcomp) Bool.false_ne_true
        · exact outside_of_left h hb hc
      · intro _ x a
        simp [Flow.Exits, hf]
  encoded hq ht hb hc := by
    have := h.encoded (by omega) (by omega) hb hc
    exact this.append (encodedOn_one hj (encoded_jump rfl ht))

/-- A return or a raise, after what it takes. -/
theorem Path.stop {n k : Nat} {op : Opcode} (h : v.Path p m 0 n) (hop : op = .ret ∨ op = .raise)
    (hi : v.instr? m = some ⟨op, k⟩) (hk : k ≤ 2) (hn : Instr.stackNeed ⟨op, k⟩ = n)
    (fin brk cont : Nat) : v.Block p (m + 1) .stop fin brk cont where
  behaves d := by
    have hflows : Instr.flows ⟨op, k⟩ m (d + n) = [] := by rcases hop with rfl | rfl <;> rfl
    have hstop := Runs.stop hi (hn ▸ Nat.le_add_left n d) hflows
    refine ((h.runs d).link (E := fun _ _ => False) hstop ⟨rfl, rfl⟩ (fun x a h => .inl h) nofun
      nofun).behaves.congr (by simp [Flow.stop]) fun _ x a => ?_
    simp [Flow.exits_stop]
  encoded hq _ _ _ := (h.encoded (by omega)).append (encodedOn_one hi (encoded_stop hop hk))

/-- A jump out of the loop around it. -/
theorem Block.leave {isBreak : Bool} (h : v.instr? p = some ⟨.jump, if isBreak then brk else cont⟩)
    (hb : Outside p (p + 1) brk) (hc : Outside p (p + 1) cont) (fin : Nat) :
    v.Block p (p + 1) (.leave isBreak) fin brk cont where
  behaves d := by
    refine (Runs.jump h ?_).behaves.congr (by simp [Flow.leave]) fun _ x a => Flow.exits_leave.symm
    unfold Outside at hb hc
    cases isBreak with
    | true => simp only [if_true]; omega
    | false => simp only [Bool.false_eq_true, if_false]; omega
  encoded _ _ hb hc := by
    refine encodedOn_one h (encoded_jump rfl ?_)
    cases isBreak with
    | true => exact hb
    | false => exact hc

/-- A jump over a block, if a test fails. -/
theorem Block.branch {J : Prop} (h : v.Fork p m 0 0 J q 0) (hJ : J)
    (hbody : v.Block m q f q brk cont) (hb : Outside p q brk) (hc : Outside p q cont) :
    v.Block p q (f.either .straight) q brk cont where
  behaves d := by
    have hle₁ := h.le
    have hle₂ := hbody.le
    refine ((h.runs d).behaves.link (E := (f.either .straight).Exits q d brk cont)
      (hbody.behaves d) (fun _ => .inl ⟨rfl, rfl⟩) ?_ ?_ ?_).congr ?_ fun _ x a => Iff.rfl
    · rintro - - x a (h | ⟨-, h⟩)
      · exact .inl h
      · exact .inr (Flow.exits_either.mpr (.inr (Flow.exits_straight.mpr h)))
    · exact fun _ _ x a h => .inl (Flow.exits_either.mpr (.inl h))
    · intro _ _ x a h
      rcases Flow.exits_either.mp h with h | h
      · refine ⟨.inr h, ?_⟩
        rcases h with ⟨-, rfl, -⟩ | h
        · omega
        · exact outside_of_left h hb hc
      · obtain ⟨rfl, rfl⟩ := Flow.exits_straight.mp h
        exact ⟨.inl (.inr ⟨hJ, rfl, rfl⟩), by omega⟩
    · simp [Flow.either, Flow.straight]
  encoded hq _ hb hc :=
    (h.encoded (Nat.lt_of_le_of_lt hbody.le hq) hq).append (hbody.encoded hq hq hb hc)

/-- One of two blocks, depending on a test. -/
theorem Block.alternative {J : Prop} (h : v.Fork p m 0 0 J q 0) (hJ : J)
    (hbody : v.Block m q f fin brk cont) (horelse : v.Block q fin g fin brk cont)
    (hb : Outside p fin brk) (hc : Outside p fin cont) :
    v.Block p fin (f.either g) fin brk cont where
  behaves d := by
    have hle₁ := h.le
    have hle₂ := hbody.le
    have hle₃ := horelse.le
    have hout : ∀ {e : Flow} {x a : Nat}, e.Exits fin d brk cont x a → Outside p fin x := by
      rintro e x a (⟨-, rfl, -⟩ | h)
      · unfold Outside
        omega
      · exact outside_of_left h hb hc
    have hfirst : v.Behaves p q d (f.balanced = true)
        (fun x a => Only q d x a ∨ f.Exits fin d brk cont x a) := by
      refine ((h.runs d).behaves.link (hbody.behaves d) (fun _ => .inl ⟨rfl, rfl⟩) ?_ ?_ ?_).congr
        (by simp) fun _ x a => Iff.rfl
      · rintro - - x a (h | ⟨-, h⟩)
        · exact .inl h
        · exact .inr (.inl h)
      · exact fun _ _ x a h => .inl (.inr h)
      · rintro - - x a (⟨rfl, rfl⟩ | h)
        · exact ⟨.inl (.inr ⟨hJ, rfl, rfl⟩), by omega⟩
        · exact ⟨.inr h, (hout h).mono (Nat.le_refl _) hle₃⟩
    refine (hfirst.link (horelse.behaves d) (fun _ => .inl ⟨rfl, rfl⟩)
      (E := (f.either g).Exits fin d brk cont) ?_ ?_ ?_).congr ?_ fun _ x a => Iff.rfl
    · rintro - - x a (h | h)
      · exact .inl h
      · exact .inr (Flow.exits_either.mpr (.inl h))
    · exact fun _ _ x a h => .inl (Flow.exits_either.mpr (.inr h))
    · intro _ _ x a h
      rcases Flow.exits_either.mp h with h | h
      · exact ⟨.inl (.inr h), hout h⟩
      · exact ⟨.inr h, hout h⟩
    · simp [Flow.either]
  encoded hq _ hb hc := by
    have hq' := Nat.lt_of_le_of_lt horelse.le hq
    exact ((h.encoded (Nat.lt_of_le_of_lt hbody.le hq') hq').append
      (hbody.encoded hq' hq hb hc)).append (horelse.encoded hq hq hb hc)

/-! ## Loops -/

/-- With a balanced flow a jump out of a loop either finds nothing more on the stack, or there is
one that finds more. -/
theorem left_cases (f : Flow) :
    f.leaves.all (·.2 == 0) = true ∧
      (∀ d brk cont x a, f.Left d brk cont x a → a = d ∧ (x = brk ∨ x = cont)) ∨
    f.leaves.all (·.2 == 0) = false ∧
      ∃ (b : Bool) (n : Nat), n ≠ 0 ∧
        ∀ d brk cont, f.Left d brk cont (if b then brk else cont) (d + n) := by
  cases hall : f.leaves.all (·.2 == 0) with
  | true =>
    refine .inl ⟨rfl, fun d brk cont x a h => ⟨?_, h.target⟩⟩
    obtain ⟨l, hl, -, rfl⟩ := h
    have := List.all_eq_true.mp hall l hl
    simp only [beq_iff_eq] at this
    omega
  | false =>
    obtain ⟨⟨b, n⟩, hl, hn⟩ := List.all_eq_false.mp hall
    refine .inr ⟨rfl, b, n, by simpa using hn, fun d brk cont => ⟨(b, n), hl, rfl, rfl⟩⟩

/-- A loop with a test at its start. -/
theorem Block.whileLoop {J : Prop} {exit : Nat} (h : v.Fork p m 0 0 J exit 0) (hJ : J) (hpm : p < m)
    (hbody : v.Block m exit f p exit p) (brk cont : Nat) :
    v.Block p exit f.loop exit brk cont where
  behaves d := by
    have hle := hbody.le
    have hinto : v.Reaches (p, d) (m, d) := (h.runs d).reaches (.inl ⟨rfl, rfl⟩)
    have hexit : v.Reaches (p, d) (exit, d) := (h.runs d).reaches (.inr ⟨hJ, rfl, rfl⟩)
    rcases left_cases f with ⟨hall, hleft⟩ | ⟨hall, b, n, hn, hleft⟩
    · refine ((h.runs d).behaves.link (E := f.loop.Exits exit d brk cont) (hbody.behaves d)
        (fun _ => .inl ⟨rfl, rfl⟩) ?_ ?_ ?_).congr (by simp [Flow.loop, hall]) fun _ x a => Iff.rfl
      · rintro - - x a (h | ⟨-, h⟩)
        · exact .inl h
        · exact .inr (Flow.exits_loop.mpr h)
      · rintro - - x a (⟨-, rfl, rfl⟩ | h)
        · exact .inr ⟨rfl, rfl, hpm⟩
        · obtain ⟨rfl, rfl | rfl⟩ := hleft _ _ _ _ _ h
          · exact .inl (Flow.exits_loop.mpr ⟨rfl, rfl⟩)
          · exact .inr ⟨rfl, rfl, hpm⟩
      · intro _ _ x a h
        obtain ⟨rfl, rfl⟩ := Flow.exits_loop.mp h
        exact ⟨.inl (.inr ⟨hJ, rfl, rfl⟩), by omega⟩
    · refine ⟨Nat.le_trans h.le hle, fun hs => by simp [Flow.loop, hall] at hs, fun _ => ?_⟩
      by_cases hs : f.balanced = true
      · have hreach := hinto.trans (((hbody.behaves d).runs hs).reaches (.inr (hleft d exit p)))
        cases b with
        | true => exact ⟨exit, d, d + n, by omega, hexit, hreach⟩
        | false => exact ⟨p, d, d + n, by omega, .refl, hreach⟩
      · exact ((hbody.behaves d).conflict hs).of_reaches hinto
  encoded hq _ _ _ := by
    have hp : p < v.words.size := Nat.lt_of_le_of_lt (Nat.le_trans h.le hbody.le) hq
    exact (h.encoded (Nat.lt_of_le_of_lt hbody.le hq) hq).append (hbody.encoded hq hp hq hp)

/-- The end of a round: the next value is asked for, and if there is one the next round begins. -/
theorem Runs.nextRound {again exit round : Nat} (hnext : v.instr? again = some ⟨.next, exit⟩)
    (hjump : v.instr? (again + 1) = some ⟨.jump, round⟩) (hexit : exit = again + 2)
    (hround : round < again) (d : Nat) :
    v.Runs again exit (d + 1) fun x a => Only exit (d + 1) x a ∨ Only round (d + 2) x a := by
  subst hexit
  have hj : v.Runs (again + 1) (again + 2) (d + 2) (Only round (d + 2)) :=
    Runs.jump hjump (by omega)
  refine ((Fork.next hnext (by omega)).runs d).link hj (.inl ⟨rfl, rfl⟩) ?_ ?_ ?_
  · rintro x a (h | ⟨-, h⟩)
    · exact .inl h
    · exact .inr (.inl h)
  · exact fun x a h => .inl (.inr h)
  · rintro x a (⟨rfl, rfl⟩ | ⟨rfl, rfl⟩)
    · exact ⟨.inl (.inr ⟨trivial, rfl, rfl⟩), by omega⟩
    · exact ⟨.inr ⟨rfl, rfl⟩, by omega⟩

/-- The rounds of a loop over an iterator, if all jumps out of them find nothing more on the
stack. -/
theorem Block.rounds {again exit round d : Nat} (hstore : v.Path round m 2 1) (hlt : round < m)
    (hbody : v.Block m again f again exit again)
    (htail : v.Runs again exit (d + 1) fun x a => Only exit (d + 1) x a ∨ Only round (d + 2) x a)
    (hleft : ∀ d brk cont x a, f.Left d brk cont x a → a = d ∧ (x = brk ∨ x = cont)) :
    ∃ E : Nat → Nat → Prop, (∀ x a, E x a → Only exit (d + 1) x a) ∧
      v.Behaves round exit (d + 2) (f.balanced = true) E := by
  have hle := hbody.le
  have hle' := htail.le
  have hexits : ∀ x a, f.Exits again (d + 1) exit again x a →
      Only again (d + 1) x a ∨ Only exit (d + 1) x a := by
    rintro x a (⟨-, h⟩ | h)
    · exact .inl h
    · obtain ⟨rfl, rfl | rfl⟩ := hleft _ _ _ _ _ h
      · exact .inr ⟨rfl, rfl⟩
      · exact .inl ⟨rfl, rfl⟩
  -- whether the next round begins depends on whether control comes to the end of this one
  obtain ⟨E, hE, hround⟩ : ∃ E : Nat → Nat → Prop,
      (∀ x a, E x a → Only exit (d + 1) x a ∨ Only round (d + 2) x a) ∧
      v.Behaves m exit (d + 1) (f.balanced = true) E := by
    by_cases hcomes : f.Exits again (d + 1) exit again again (d + 1)
    · refine ⟨fun x a => Only exit (d + 1) x a ∨ Only round (d + 2) x a, fun _ _ h => h, ?_⟩
      refine ((hbody.behaves (d + 1)).link htail.behaves (fun _ => hcomes) ?_ ?_ ?_).congr
        (by simp) fun _ x a => Iff.rfl
      · exact fun _ _ x a h => (hexits x a h).imp_right .inl
      · exact fun _ _ x a h => .inl h
      · refine fun _ _ x a h => ⟨.inr h, ?_⟩
        rcases h with ⟨rfl, -⟩ | ⟨rfl, -⟩
        · omega
        · omega
    · have honly : ∀ x a, f.Exits again (d + 1) exit again x a → Only exit (d + 1) x a := by
        intro x a h
        rcases hexits x a h with ⟨rfl, rfl⟩ | h'
        · exact absurd h hcomes
        · exact h'
      refine ⟨_, fun x a h => .inl (honly x a h), (hbody.behaves (d + 1)).widen hle' ?_⟩
      intro _ x a h
      obtain ⟨rfl, -⟩ := honly x a h
      omega
  refine ⟨fun x a => E x a ∧ x = exit, ?_, ?_⟩
  · rintro x a ⟨h, rfl⟩
    rcases hE x a h with h | ⟨rfl, rfl⟩
    · exact h
    · omega
  · refine ((hstore.runs d).behaves.link hround (fun _ => ⟨rfl, rfl⟩) (fun _ _ x a h => .inl h)
      ?_ ?_).congr (by simp) fun _ x a => Iff.rfl
    · intro _ _ x a h
      rcases hE x a h with ⟨rfl, rfl⟩ | ⟨rfl, rfl⟩
      · exact .inl ⟨h, rfl⟩
      · exact .inr ⟨rfl, rfl, hlt⟩
    · rintro - - x a ⟨h, rfl⟩
      exact ⟨.inr h, by omega⟩

/-- A stretch that changes the depth is not empty. -/
theorem Path.lt {n k : Nat} (h : v.Path p q n k) (hne : n ≠ k) : p < q := by
  refine Nat.lt_of_le_of_ne h.le fun heq => ?_
  subst heq
  obtain ⟨depths, hregion⟩ := h.runs 0
  rcases hregion.entry with h | ⟨-, h⟩
  · have := hregion.inside _ _ h
    omega
  · omega

/-- A loop over an iterator. -/
theorem Block.forLoop {J : Prop} {again exit round : Nat} (hfront : v.Fork p round 0 2 J exit 1)
    (hJ : J) (hstore : v.Path round m 2 1) (hbody : v.Block m again f again exit again)
    (hnext : v.instr? again = some ⟨.next, exit⟩)
    (hjump : v.instr? (again + 1) = some ⟨.jump, round⟩) (hexit : exit = again + 2)
    (hpop : v.Path exit (exit + 1) 1 0) (brk cont : Nat) :
    v.Block p (exit + 1) f.loop (exit + 1) brk cont where
  behaves d := by
    have hle := hfront.le
    have hlt := hstore.lt (by decide)
    have hle' := hbody.le
    have htail := Runs.nextRound hnext hjump hexit (by omega) d
    have hstart : v.Reaches (p, d) (exit, d + 1) := (hfront.runs d).reaches (.inr ⟨hJ, rfl, rfl⟩)
    have hround : v.Reaches (p, d) (round, d + 2) := (hfront.runs d).reaches (.inl ⟨rfl, rfl⟩)
    have hinto : v.Reaches (p, d) (m, d + 1) := hround.trans ((hstore.runs d).reaches ⟨rfl, rfl⟩)
    rcases left_cases f with ⟨hall, hleft⟩ | ⟨hall, b, n, hn, hleft⟩
    · obtain ⟨E, hE, hrounds⟩ := Block.rounds hstore hlt hbody htail hleft
      have hloop : v.Behaves p exit d (f.balanced = true) (Only exit (d + 1)) := by
        refine ((hfront.runs d).behaves.link hrounds (fun _ => .inl ⟨rfl, rfl⟩) ?_
          (fun _ _ x a h => .inl (hE x a h)) ?_).congr (by simp) fun _ x a => Iff.rfl
        · rintro - - x a (h | ⟨-, h⟩)
          · exact .inl h
          · exact .inr h
        · rintro - - x a ⟨rfl, rfl⟩
          exact ⟨.inl (.inr ⟨hJ, rfl, rfl⟩), by omega⟩
      refine (hloop.link (hpop.runs d).behaves (fun _ => ⟨rfl, rfl⟩) (fun _ _ x a h => .inl h)
        (fun _ _ x a h => .inl h) ?_).congr (by simp [Flow.loop, hall])
        fun _ x a => Flow.exits_loop.symm
      rintro - - x a ⟨rfl, rfl⟩
      exact ⟨.inr ⟨rfl, rfl⟩, by omega⟩
    · refine ⟨by omega, fun hs => by simp [Flow.loop, hall] at hs, fun _ => ?_⟩
      by_cases hs : f.balanced = true
      · have hreach := hinto.trans
          (((hbody.behaves (d + 1)).runs hs).reaches (.inr (hleft (d + 1) exit again)))
        cases b with
        | true => exact ⟨exit, d + 1, d + 1 + n, by omega, hstart, hreach⟩
        | false =>
          -- from the end of the round the exit is met with the same surplus
          have hmore := ((Fork.next hnext (by omega)).runs (d + n)).reaches
            (.inr ⟨trivial, rfl, rfl⟩)
          rw [show d + n + 1 = d + 1 + n by omega] at hmore
          exact ⟨exit, d + 1, d + 1 + n, by omega, hstart, hreach.trans hmore⟩
      · exact ((hbody.behaves (d + 1)).conflict hs).of_reaches hinto
  encoded hq _ _ _ := by
    have hle := hstore.le
    have hle' := hbody.le
    have h₁ := hfront.encoded (by omega) (by omega)
    have h₂ := hstore.encoded (by omega)
    have h₃ := hbody.encoded (by omega) (by omega) (by omega) (by omega)
    have h₄ : v.EncodedOn again exit := by
      have hexit' : exit < v.words.size := by omega
      have hround : round < v.words.size := by omega
      subst hexit
      exact (encodedOn_one hnext (encoded_jump rfl hexit')).append
        (encodedOn_one hjump (encoded_jump rfl hround))
    exact (((h₁.append h₂).append h₃).append h₄).append (hpop.encoded hq)

/-! ## Exceptions -/

/-- The code of handlers, entered with an exception on the stack. An exception that none of them
handles comes to the end. -/
structure Handling (v : CodeView) (p q : Nat) (passes : Prop) (g : Flow) (fin brk cont : Nat) :
    Prop where
  behaves : ∀ d, v.Behaves p q (d + 1) (g.balanced = true) fun x a =>
    passes ∧ Only q (d + 1) x a ∨ g.Exits fin d brk cont x a
  encoded : q < v.words.size → fin < v.words.size → brk < v.words.size → cont < v.words.size →
    v.EncodedOn p q

theorem Handling.le {passes : Prop} (h : v.Handling p q passes g fin brk cont) : p ≤ q :=
  (h.behaves 0).le

/-- Without handlers every exception passes. -/
theorem Handling.nil (v : CodeView) (p fin brk cont : Nat) :
    v.Handling p p True .stop fin brk cont where
  behaves d := (Runs.nil p (d + 1)).behaves.congr (by simp [Flow.stop]) fun _ x a => by
    simp [Flow.exits_stop]
  encoded _ _ _ _ := v.encodedOn_nil p

/-- A handler for one type of exceptions, before others. -/
theorem Handling.typed {J passes : Prop} {next : Nat} (hhead : v.Fork p m 1 0 J next 1) (hJ : J)
    (hbody : v.Block m next f fin brk cont) (hrest : v.Handling next q passes g fin brk cont)
    (hfin : q ≤ fin) (hb : Outside p q brk) (hc : Outside p q cont) :
    v.Handling p q passes (f.either g) fin brk cont where
  behaves d := by
    have hle₁ := hhead.le
    have hle₂ := hbody.le
    have hle₃ := hrest.le
    have hout : ∀ {e : Flow} {x a : Nat}, e.Exits fin d brk cont x a → Outside p q x := by
      rintro e x a (⟨-, rfl, -⟩ | h)
      · unfold Outside
        omega
      · exact outside_of_left h hb hc
    have hfirst : v.Behaves p next (d + 1) (f.balanced = true)
        (fun x a => Only next (d + 1) x a ∨ f.Exits fin d brk cont x a) := by
      refine ((hhead.runs d).behaves.link (hbody.behaves d) (fun _ => .inl ⟨rfl, rfl⟩) ?_ ?_
        ?_).congr (by simp) fun _ x a => Iff.rfl
      · rintro - - x a (h | ⟨-, h⟩)
        · exact .inl h
        · exact .inr (.inl h)
      · exact fun _ _ x a h => .inl (.inr h)
      · rintro - - x a (⟨rfl, rfl⟩ | h)
        · exact ⟨.inl (.inr ⟨hJ, rfl, rfl⟩), by omega⟩
        · exact ⟨.inr h, (hout h).mono (Nat.le_refl _) hle₃⟩
    refine (hfirst.link (hrest.behaves d) (fun _ => .inl ⟨rfl, rfl⟩) (E := fun x a =>
      passes ∧ Only q (d + 1) x a ∨ (f.either g).Exits fin d brk cont x a) ?_ ?_ ?_).congr ?_
      fun _ x a => Iff.rfl
    · rintro - - x a (h | h)
      · exact .inl h
      · exact .inr (.inr (Flow.exits_either.mpr (.inl h)))
    · rintro - - x a (h | h)
      · exact .inl (.inl h)
      · exact .inl (.inr (Flow.exits_either.mpr (.inr h)))
    · rintro - - x a (⟨hp, rfl, rfl⟩ | h)
      · exact ⟨.inr (.inl ⟨hp, rfl, rfl⟩), by omega⟩
      · rcases Flow.exits_either.mp h with h | h
        · exact ⟨.inl (.inr h), hout h⟩
        · exact ⟨.inr (.inr h), hout h⟩
    · simp [Flow.either]
  encoded hq hfin hb hc := by
    have hnext := Nat.lt_of_le_of_lt hrest.le hq
    exact ((hhead.encoded (Nat.lt_of_le_of_lt hbody.le hnext) hnext).append
      (hbody.encoded hnext hfin hb hc)).append (hrest.encoded hq hfin hb hc)

/-- A handler for all exceptions. -/
theorem Handling.untyped (hhead : v.Path p m 1 0) (hbody : v.Block m q f fin brk cont)
    (hfin : q ≤ fin) (hb : Outside p q brk) (hc : Outside p q cont) :
    v.Handling p q False (f.either .stop) fin brk cont where
  behaves d := by
    have hle₁ := hhead.le
    have hle₂ := hbody.le
    refine ((hhead.runs d).behaves.link (E := f.Exits fin d brk cont) (hbody.behaves d)
      (fun _ => ⟨rfl, rfl⟩) (fun _ _ x a h => .inl h) (fun _ _ x a h => .inl h) ?_).congr ?_ ?_
    · refine fun _ _ x a h => ⟨.inr h, ?_⟩
      rcases h with ⟨-, rfl, -⟩ | h
      · omega
      · exact outside_of_left h hb hc
    · simp [Flow.either, Flow.stop]
    · intro _ x a
      simp [Flow.exits_either, Flow.exits_stop]
  encoded hq hfin hb hc :=
    (hhead.encoded (Nat.lt_of_le_of_lt hbody.le hq)).append (hbody.encoded hq hfin hb hc)

/-- An exception that passes runs the final part and goes on. -/
theorem Handling.pass {r : Nat} (h : v.Handling p q True g fin brk cont)
    (hfinal : v.Block q r f r brk cont) (hraise : v.instr? r = some ⟨.raise, 0⟩)
    (hfin : fin = r + 1) (hb : Outside p fin brk) (hc : Outside p fin cont) :
    v.Handling p fin False (g.either f.raised) fin brk cont where
  behaves d := by
    subst hfin
    have hle₁ := h.le
    have hle₂ := hfinal.le
    have hstop : v.Block r (r + 1) .stop (r + 1) brk cont :=
      ⟨fun d => (Runs.stop hraise (Nat.zero_le d) rfl).behaves.congr (by simp [Flow.stop])
        fun _ x a => by simp [Flow.exits_stop], fun _ _ _ _ => encodedOn_one hraise
          (encoded_stop (.inr rfl) (by decide))⟩
    have hrun := (hfinal.seq hstop (Nat.le_refl _) (hb.mono hle₁ (Nat.le_refl _))
      (hc.mono hle₁ (Nat.le_refl _))).behaves (d + 1)
    have hpassed : v.Behaves q (r + 1) (d + 1) (f.balanced = true) (f.Left (d + 1) brk cont) := by
      refine hrun.congr ?_ fun _ x a => ?_
      · rcases hf : f.completes <;> simp [Flow.seq, Flow.stop, hf]
      · rcases hf : f.completes with _ | _
        · simp [Flow.seq, hf, Flow.Exits]
        · rw [Flow.exits_seq hf]
          simp [Flow.exits_stop]
    refine ((h.behaves d).link hpassed (fun _ => .inl ⟨trivial, rfl, rfl⟩)
      (E := (g.either f.raised).Exits (r + 1) d brk cont) ?_ ?_ ?_).congr ?_ ?_
    · rintro - - x a (⟨-, h⟩ | h)
      · exact .inl h
      · exact .inr (Flow.exits_either.mpr (.inl h))
    · exact fun _ _ x a h => .inl (Flow.exits_either.mpr (.inr (Flow.exits_raised.mpr h)))
    · intro _ _ x a h
      rcases Flow.exits_either.mp h with h | h
      · refine ⟨.inl (.inr h), ?_⟩
        rcases h with ⟨-, rfl, -⟩ | h
        · omega
        · exact outside_of_left h hb hc
      · have h := Flow.exits_raised.mp h
        exact ⟨.inr h, outside_of_left h hb hc⟩
    · simp [Flow.either, Flow.raised]
    · intro _ x a
      simp
  encoded hq _ hb' hc' := by
    subst hfin
    have hr := hfinal.le
    have h₁ := h.encoded (by omega) hq hb' hc'
    have h₂ := hfinal.encoded (by omega) (by omega) hb' hc'
    exact (h₁.append h₂).append (encodedOn_one hraise (encoded_stop (.inr rfl) (by decide)))

/-- A block with handlers for its exceptions. -/
theorem Block.protect {h : Nat} (htry : v.instr? p = some ⟨.try, h⟩)
    (hbody : v.Block (p + 1) h f fin brk cont) (hhandlers : v.Handling h fin False g fin brk cont)
    (hb : Outside p fin brk) (hc : Outside p fin cont) :
    v.Block p fin (f.either g) fin brk cont where
  behaves d := by
    have hle₁ := hbody.le
    have hle₂ := hhandlers.le
    have hflows : Instr.flows ⟨.try, h⟩ p d = [(h, d + 1), (p + 1, d)] := rfl
    have hout : ∀ {e : Flow} {x a : Nat}, e.Exits fin d brk cont x a → Outside p fin x := by
      rintro e x a (⟨-, rfl, -⟩ | h)
      · unfold Outside
        omega
      · exact outside_of_left h hb hc
    have hregister : v.Runs p (p + 1) d fun x a => Only (p + 1) d x a ∨ Only h (d + 1) x a := by
      refine (Runs.instr htry (Nat.zero_le d) fun a => ?_).congr fun x a => ?_
      · simp only [hflows, List.mem_cons, Prod.mk.injEq, List.not_mem_nil, or_false]
        omega
      · simp only [hflows, List.mem_cons, Prod.mk.injEq, List.not_mem_nil, or_false, Only]
        exact or_comm
    have hfirst : v.Behaves p h d (f.balanced = true)
        (fun x a => Only h (d + 1) x a ∨ f.Exits fin d brk cont x a) := by
      refine (hregister.behaves.link (hbody.behaves d) (fun _ => .inl ⟨rfl, rfl⟩) ?_ ?_ ?_).congr
        (by simp) fun _ x a => Iff.rfl
      · exact fun _ _ x a h => h.imp_right .inl
      · exact fun _ _ x a h => .inl (.inr h)
      · rintro - - x a (⟨rfl, rfl⟩ | h)
        · exact ⟨.inl (.inr ⟨rfl, rfl⟩), by omega⟩
        · exact ⟨.inr h, (hout h).mono (Nat.le_refl _) hle₂⟩
    refine (hfirst.link (hhandlers.behaves d) (fun _ => .inl ⟨rfl, rfl⟩)
      (E := (f.either g).Exits fin d brk cont) ?_ ?_ ?_).congr ?_ fun _ x a => Iff.rfl
    · exact fun _ _ x a h => h.imp_right fun h => Flow.exits_either.mpr (.inl h)
    · rintro - - x a (⟨h, -⟩ | h)
      · exact h.elim
      · exact .inl (Flow.exits_either.mpr (.inr h))
    · intro _ _ x a h
      refine ⟨?_, hout h⟩
      exact (Flow.exits_either.mp h).imp .inr .inr
    · simp [Flow.either]
  encoded hq _ hb hc := by
    have hh := Nat.lt_of_le_of_lt hhandlers.le hq
    exact ((encodedOn_one htry (encoded_jump rfl hh)).append (hbody.encoded hh hq hb hc)).append
      (hhandlers.encoded hq hq hb hc)

end CodeView

end Toolchain

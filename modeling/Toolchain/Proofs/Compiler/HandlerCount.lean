import Toolchain.Proofs.Compiler.FinalPart

/-!
# Registered handlers

A `try` registers a handler and another instruction removes the latest one. Along the code of a
statement the number of registered handlers is the same on all ways to an instruction, as long as no
loop is left from the final part of a `try` that an exception passes through: there one handler more
is registered than the jump out of the loop removes.

## Main definitions

* `Opcode.handlerDelta`: what an operation does to the number of registered handlers
* `CodeView.HandlerMachine`: the positions control comes to, with the number of registered handlers
* `CodeView.Counts`: a stretch of code in which each instruction has one number, with its exits
* `Flow.Leads`: the exits of a statement that its flow allows

## Main results

* `CodeView.Counts.link`: two stretches side by side
* `CodeView.StmtAt.counts`: the code of a statement with a balanced flow
-/

namespace Toolchain

/-- What an operation does to the number of registered handlers. -/
def Opcode.handlerDelta : Opcode → Int
  | .try => 1
  | .handle => -1
  | _ => 0

theorem Opcode.handlerDelta_of_isPlain {op : Opcode} (h : op.isPlain = true) :
    op.handlerDelta = 0 := by
  cases op with
  | ret => cases h
  | «try» => cases h
  | handle => cases h
  | _ => rfl

namespace CodeView

/-- The positions that control can come to, each with the number of handlers that are registered
when it does. Control comes to the handler of a `try` while that handler is still registered. -/
inductive HandlerMachine (v : CodeView) : Nat → Int → Prop
  | start : HandlerMachine v 0 0
  | step {p q : Nat} {k δ : Int} {i : Instr} (hp : HandlerMachine v p k) (hi : v.instr? p = some i)
      (he : v.Edge p δ q) : HandlerMachine v q (k + i.op.handlerDelta)

variable {v : CodeView}

/-- Along plain instructions the number stays the same. -/
theorem HandlerMachine.walk {p q : Nat} {k : Int} (h : v.HandlerMachine p k) (hw : v.Walk p q) :
    v.HandlerMachine q k := by
  induction hw with
  | refl => exact h
  | tail _ hstep ih =>
    obtain ⟨i, δ, hi, hplain, he⟩ := hstep
    have := ih.step hi he
    rwa [Opcode.handlerDelta_of_isPlain hplain, Int.add_zero] at this

/-- Control that enters a stretch of code at its start with `n` handlers finds `counts` at its
instructions, one number at each; it removes a handler only if there is one, and leaves the stretch
only as `exits` says. -/
structure Counted (v : CodeView) (p q : Nat) (n : Int) (exits counts : Nat → Int → Prop) :
    Prop where
  le : p ≤ q
  inside : ∀ x k, counts x k → p ≤ x ∧ x < q
  single : ∀ x k k', counts x k → counts x k' → k = k'
  entry : counts p n ∨ exits p n
  enough : ∀ x k j, counts x k → v.instr? x = some ⟨.handle, j⟩ → 0 < k
  step : ∀ x k i δ y, counts x k → v.instr? x = some i → v.Edge x δ y →
    counts y (k + i.op.handlerDelta) ∨ exits y (k + i.op.handlerDelta)

/-- A stretch of code has one number of registered handlers at each instruction, and these exits. -/
def Counts (v : CodeView) (p q : Nat) (n : Int) (exits : Nat → Int → Prop) : Prop :=
  ∃ counts, v.Counted p q n exits counts

/-- The one exit with a position and a number. -/
def Exit (q : Nat) (e : Int) : Nat → Int → Prop := fun x k => x = q ∧ k = e

namespace Counts

variable {p q m : Nat} {n e : Int} {E E' E₁ E₂ : Nat → Int → Prop}

theorem le (h : v.Counts p q n E) : p ≤ q := by
  obtain ⟨C, hC⟩ := h
  exact hC.le

theorem mono (h : v.Counts p q n E) (hE : ∀ x k, E x k → E' x k) : v.Counts p q n E' := by
  obtain ⟨C, hC⟩ := h
  exact ⟨C, hC.le, hC.inside, hC.single, hC.entry.imp_right (hE _ _), hC.enough,
    fun x k i δ y hx hi he => (hC.step x k i δ y hx hi he).imp_right (hE _ _)⟩

/-- A stretch without instructions is left at once. -/
theorem nil (p : Nat) (n : Int) : v.Counts p p n (Exit p n) := by
  refine ⟨fun _ _ => False, Nat.le_refl p, ?_, ?_, .inr ⟨rfl, rfl⟩, ?_, ?_⟩
  · exact fun _ _ h => h.elim
  · exact fun _ _ _ h => h.elim
  · exact fun _ _ _ h => h.elim
  · exact fun _ _ _ _ _ h => h.elim

/-- A single instruction. -/
theorem instr {op : Opcode} {j : Nat} (hi : v.instr? p = some ⟨op, j⟩)
    (henough : op = .handle → 0 < n)
    (hnext : op.terminates = false → E (p + 1) (n + op.handlerDelta))
    (hjump : op.isJump = true → E j (n + op.handlerDelta)) : v.Counts p (p + 1) n E := by
  refine ⟨Exit p n, by omega, ?_, ?_, .inl ⟨rfl, rfl⟩, ?_, ?_⟩
  · rintro x k ⟨rfl, -⟩
    omega
  · rintro x k k' ⟨-, rfl⟩ ⟨-, rfl⟩
    rfl
  · rintro x k l ⟨rfl, rfl⟩ hl
    exact henough (congrArg Instr.op (Option.some.inj (hi.symm.trans hl)))
  · rintro x k i δ y ⟨rfl, rfl⟩ hi' he
    obtain rfl := Option.some.inj (hi.symm.trans hi')
    rcases he.next_or_target hi with ⟨rfl, ht⟩ | ⟨rfl, hj⟩
    · exact .inr (hnext ht)
    · exact .inr (hjump hj)

/-- An instruction that leads nowhere. -/
theorem stop {op : Opcode} {j : Nat} (hi : v.instr? p = some ⟨op, j⟩)
    (hop : op = .ret ∨ op = .raise) : v.Counts p (p + 1) n E := by
  rcases hop with rfl | rfl <;>
    exact instr hi (fun h => by cases h) (fun h => by cases h) (fun h => by cases h)

/-- A jump. -/
theorem jump {j : Nat} (hi : v.instr? p = some ⟨.jump, j⟩) (hj : E j n) : v.Counts p (p + 1) n E :=
  instr hi (fun h => by cases h) (fun h => by cases h) fun _ => (Int.add_zero n).symm ▸ hj

/-- A plain instruction that goes on or jumps. -/
theorem branch {op : Opcode} {j : Nat} (hi : v.instr? p = some ⟨op, j⟩) (hplain : op.isPlain = true)
    (hnext : E (p + 1) n) (hj : E j n) : v.Counts p (p + 1) n E := by
  refine instr hi (fun h => ?_) (fun _ => ?_) fun _ => ?_
  · rw [h] at hplain
    cases hplain
  · rwa [Opcode.handlerDelta_of_isPlain hplain, Int.add_zero]
  · rwa [Opcode.handlerDelta_of_isPlain hplain, Int.add_zero]

/-- A handler is removed. -/
theorem remove {j : Nat} (hi : v.instr? p = some ⟨.handle, j⟩) (hn : 0 < n)
    (hnext : E (p + 1) (n - 1)) : v.Counts p (p + 1) n E :=
  instr hi (fun _ => hn) (fun _ => hnext) fun h => by cases h

/-- A stretch is widened by instructions that are never met. -/
theorem widen (h : v.Counts p m n E) (hmq : m ≤ q) : v.Counts p q n E := by
  obtain ⟨C, hC⟩ := h
  refine ⟨C, Nat.le_trans hC.le hmq, fun x k hx => ?_, hC.single, hC.entry, hC.enough, hC.step⟩
  have := hC.inside x k hx
  omega

/-- Two stretches side by side: the first one leads into the second, which may lead back to the
start of the first. -/
theorem link (h₁ : v.Counts p m n E₁) (h₂ : v.Counts m q e E₂)
    (hE₁ : ∀ x k, E₁ x k → x = m ∧ k = e ∨ E x k)
    (hE₂ : ∀ x k, E₂ x k → E x k ∨ x = p ∧ k = n ∧ ¬ E₁ p n) : v.Counts p q n E := by
  obtain ⟨C₁, h₁⟩ := h₁
  obtain ⟨C₂, h₂⟩ := h₂
  have hle₁ := h₁.le
  have hle₂ := h₂.le
  have hback (x : Nat) (k : Int) (hx : E₂ x k) : C₁ x k ∨ E x k := by
    rcases hE₂ x k hx with hx | ⟨rfl, rfl, hno⟩
    · exact .inr hx
    · exact .inl (h₁.entry.resolve_right hno)
  have hnext (x : Nat) (k : Int) (hx : E₁ x k) : (C₁ x k ∨ C₂ x k) ∨ E x k := by
    rcases hE₁ x k hx with ⟨rfl, rfl⟩ | hx
    · rcases h₂.entry with h | h
      · exact .inl (.inr h)
      · exact (hback _ _ h).imp_left .inl
    · exact .inr hx
  refine ⟨fun x k => C₁ x k ∨ C₂ x k, by omega, ?_, ?_, ?_, ?_, ?_⟩
  · rintro x k (h | h)
    · have := h₁.inside x k h
      omega
    · have := h₂.inside x k h
      omega
  · rintro x k k' (h | h) (h' | h')
    · exact h₁.single x k k' h h'
    · have := h₁.inside x k h
      have := h₂.inside x k' h'
      omega
    · have := h₂.inside x k h
      have := h₁.inside x k' h'
      omega
    · exact h₂.single x k k' h h'
  · rcases h₁.entry with h | h
    · exact .inl (.inl h)
    · exact hnext p n h
  · rintro x k j (h | h) hi
    · exact h₁.enough x k j h hi
    · exact h₂.enough x k j h hi
  · rintro x k i δ y (h | h) hi he
    · rcases h₁.step x k i δ y h hi he with h | h
      · exact .inl (.inl h)
      · exact hnext _ _ h
    · rcases h₂.step x k i δ y h hi he with h | h
      · exact .inl (.inr h)
      · exact (hback _ _ h).imp_left .inl

/-- One stretch after another. -/
theorem append (h₁ : v.Counts p m n (Exit m e)) (h₂ : v.Counts m q e E) : v.Counts p q n E :=
  h₁.link h₂ (fun _ _ h => .inl h) fun _ _ h => .inl h

end Counts

/-- In calm code the number stays the same. -/
theorem Calm.counts {p N q : Nat} {n : Int} (h : v.Calm p N fun _ => False) (hq : q = p + N) :
    v.Counts p q n (Exit q n) := by
  subst hq
  refine ⟨fun x k => (p ≤ x ∧ x < p + N) ∧ k = n, by omega, fun x k h => h.1, ?_, ?_, ?_, ?_⟩
  · rintro x k k' ⟨-, rfl⟩ ⟨-, rfl⟩
    rfl
  · rcases Nat.eq_zero_or_pos N with rfl | hpos
    · exact .inr ⟨rfl, rfl⟩
    · exact .inl ⟨by omega, rfl⟩
  · rintro x k j ⟨hx, rfl⟩ hj
    obtain ⟨i, hi, hplain, -⟩ := h.quiet x hx.1 hx.2
    obtain rfl := Option.some.inj (hi.symm.trans hj)
    cases hplain
  · rintro x k i δ y ⟨hx, rfl⟩ hi he
    obtain ⟨i', hi', hplain, hedge⟩ := h.quiet x hx.1 hx.2
    obtain rfl := Option.some.inj (hi'.symm.trans hi)
    rw [Opcode.handlerDelta_of_isPlain hplain, Int.add_zero]
    obtain ⟨hlo, hhi⟩ := (hedge δ y he).resolve_right id
    rcases Nat.lt_or_eq_of_le hhi with hlt | rfl
    · exact .inl ⟨⟨hlo, hlt⟩, rfl⟩
    · exact .inr ⟨rfl, rfl⟩

/-- In a whole code object without exits the machine finds one number everywhere. -/
theorem Counts.machine {q : Nat} (h : v.Counts 0 q 0 fun _ _ => False) :
    (∀ p k k', v.HandlerMachine p k → v.HandlerMachine p k' → k = k') ∧
      ∀ p k j, v.HandlerMachine p k → v.instr? p = some ⟨.handle, j⟩ → 0 < k := by
  obtain ⟨C, hC⟩ := h
  have hall (p : Nat) (k : Int) (hp : v.HandlerMachine p k) : C p k := by
    induction hp with
    | start => exact hC.entry.resolve_right id
    | step _ hi he ih => exact (hC.step _ _ _ _ _ ih hi he).resolve_right id
  exact ⟨fun p k k' h h' => hC.single p k k' (hall p k h) (hall p k' h'),
    fun p k j h hj => hC.enough p k j (hall p k h) hj⟩

end CodeView

/-! ## Exits of statements -/

namespace Flow

/-- Control leaves a round of the loop around a piece, which is entered with `n` handlers. The
handlers that were registered in the round are removed, but not those of the exceptions that are on
their way. -/
def LeadsOut (f : Flow) (a : Around) (n : Int) (x : Nat) (k : Int) : Prop :=
  ∃ l ∈ f.leaves, ∃ t, a.loop = some t ∧ x = (if l.1 then t.exit else t.again) ∧
    k + a.held = n + l.2

/-- Control leaves a piece that is entered with `n` handlers: at its end, or out of a round of the
loop around it. -/
def Leads (f : Flow) (a : Around) (fin : Nat) (n : Int) (x : Nat) (k : Int) : Prop :=
  f.completes = true ∧ x = fin ∧ k = n ∨ f.LeadsOut a n x k

/-- Control leaves handlers that are entered with `n` handlers: none of them takes the exception, or
one is done with it and is removed, or out of a round of the loop around them. -/
def LeadsHandled (f : Flow) (a : Around) (typed : Bool) (behind fin : Nat) (n : Int) (x : Nat)
    (k : Int) : Prop :=
  typed = true ∧ x = behind ∧ k = n ∨ f.completes = true ∧ x = fin ∧ k = n - 1 ∨ f.LeadsOut a n x k

variable {f g : Flow} {a : Around} {n k : Int} {x fin : Nat}

theorem LeadsOut.mono (h : f.LeadsOut a n x k) (hfg : ∀ l ∈ f.leaves, l ∈ g.leaves) :
    g.LeadsOut a n x k := by
  obtain ⟨l, hl, hx⟩ := h
  exact ⟨l, hfg l hl, hx⟩

theorem LeadsOut.either_left (h : f.LeadsOut a n x k) : (f.either g).LeadsOut a n x k :=
  h.mono fun _ => List.mem_append_left _

theorem LeadsOut.either_right (h : g.LeadsOut a n x k) : (f.either g).LeadsOut a n x k :=
  h.mono fun _ => List.mem_append_right _

theorem LeadsOut.seq_left (h : f.LeadsOut a n x k) : (f.seq g).LeadsOut a n x k := by
  refine h.mono fun l hl => ?_
  unfold seq
  split
  · exact List.mem_append_left _ hl
  · exact hl

theorem LeadsOut.seq_right (h : g.LeadsOut a n x k) (hf : f.completes = true) :
    (f.seq g).LeadsOut a n x k := by
  refine h.mono fun l hl => ?_
  rw [seq, if_pos hf]
  exact List.mem_append_right _ hl

theorem Leads.either_left (h : f.Leads a fin n x k) : (f.either g).Leads a fin n x k := by
  refine h.imp (fun h => ⟨?_, h.2⟩) LeadsOut.either_left
  rw [either, h.1, Bool.true_or]

theorem Leads.either_right (h : g.Leads a fin n x k) : (f.either g).Leads a fin n x k := by
  refine h.imp (fun h => ⟨?_, h.2⟩) LeadsOut.either_right
  rw [either, h.1, Bool.or_true]

/-- With the exception on its way one handler more is registered. -/
theorem LeadsOut.raised (h : f.LeadsOut a (n + 1) x k) : f.raised.LeadsOut a n x k := by
  obtain ⟨l, hl, t, ht, hx, hk⟩ := h
  refine ⟨(l.1, l.2 + 1), List.mem_map_of_mem hl, t, ht, hx, ?_⟩
  push_cast
  omega

/-- A handler of the round is removed too. -/
theorem LeadsOut.guarded (h : f.LeadsOut a.guarded (n + 1) x k) : f.LeadsOut a n x k := by
  obtain ⟨l, hl, t, ht, hx, hk⟩ := h
  refine ⟨l, hl, t, ht, hx, ?_⟩
  simp only [Around.guarded] at hk
  omega

/-- A balanced loop is left, and goes on, with the number it was entered with. -/
theorem LeadsOut.of_loop {t : LoopTarget} (h : f.LeadsOut { loop := some t } n x k)
    (hb : f.loop.balanced = true) : k = n ∧ (x = t.exit ∨ x = t.again) := by
  obtain ⟨l, hl, t', ht, hx, hk⟩ := h
  obtain rfl := Option.some.inj ht
  simp only [loop, Bool.and_eq_true, List.all_eq_true, beq_iff_eq] at hb
  have hnone := hb.2 l hl
  simp only [hnone, Int.ofNat_zero, Int.add_zero] at hk
  refine ⟨hk, ?_⟩
  rw [hx]
  split
  · exact .inl rfl
  · exact .inr rfl

theorem balanced_of_seq (h : (f.seq g).balanced = true) :
    f.balanced = true ∧ (f.completes = true → g.balanced = true) := by
  unfold seq at h
  split at h
  · rw [Bool.and_eq_true] at h
    exact ⟨h.1, fun _ => h.2⟩
  · rename_i hf
    exact ⟨h, fun hf' => absurd hf' hf⟩

theorem balanced_of_either (h : (f.either g).balanced = true) :
    f.balanced = true ∧ g.balanced = true := by
  rwa [either, Bool.and_eq_true] at h

theorem balanced_of_loop (h : f.loop.balanced = true) : f.balanced = true := by
  rw [loop, Bool.and_eq_true] at h
  exact h.1

theorem completes_seq : (f.seq g).completes = true ↔ f.completes = true ∧ g.completes = true := by
  unfold seq
  split
  · rename_i hf
    simp [hf]
  · rename_i hf
    simp [hf]

theorem completes_either :
    (f.either g).completes = true ↔ f.completes = true ∨ g.completes = true := by
  rw [either, Bool.or_eq_true]

end Flow

namespace CodeView

variable {v : CodeView} {file : Text} {a : Around} {p q m fin : Nat} {n : Int} {f g : Flow}

/-- A piece and what comes behind it, which is never met if the piece does not complete. -/
theorem Counts.follow {e : Int} {E : Nat → Int → Prop} (h₁ : v.Counts p m e (f.Leads a m n))
    (h₂ : f.completes = true → v.Counts m q n E) (hle : m ≤ q)
    (hE : ∀ x k, f.LeadsOut a n x k → E x k) : v.Counts p q e E := by
  by_cases hf : f.completes = true
  · exact h₁.link (h₂ hf) (fun x k h => h.imp And.right (hE x k)) fun _ _ h => .inl h
  · refine (h₁.widen hle).mono fun x k h => hE x k (h.resolve_left ?_)
    exact fun h => hf h.1

/-- One piece after another. -/
theorem Counts.seq {e : Int} (h₁ : v.Counts p m e (f.Leads a m n))
    (h₂ : f.completes = true → v.Counts m q n (g.Leads a fin n)) (hle : m ≤ q) :
    v.Counts p q e ((f.seq g).Leads a fin n) := by
  refine h₁.follow (fun hf => (h₂ hf).mono ?_) hle fun x k hx => .inr hx.seq_left
  rintro x k (⟨hg, hx⟩ | hx)
  · exact .inl ⟨Flow.completes_seq.mpr ⟨hf, hg⟩, hx⟩
  · exact .inr (hx.seq_right hf)

/-- Calm code as a piece. -/
theorem Calm.leads {N : Nat} (h : v.Calm p N fun _ => False) (hf : f.completes = true)
    (hq : q = p + N) : v.Counts p q n (f.Leads a q n) :=
  (h.counts hq).mono fun _ _ hx => .inl ⟨hf, hx⟩

/-- A jump out of a round of a loop. -/
theorem LeaveAt.counts {isBreak : Bool} (h : v.LeaveAt a isBreak p) (hn : (a.held : Int) ≤ n) :
    v.Counts p (p + (a.held + 1)) n ((Flow.leave isBreak).Leads a q n) := by
  obtain ⟨t, hloop, hremove, hjump⟩ := h
  -- at the `j`-th instruction `j` handlers are removed
  have hremoved (j : Nat) (hj : j ≤ a.held) : v.Counts p (p + j) n (Exit (p + j) (n - j)) := by
    induction j with
    | zero =>
      simpa only [Nat.add_zero, Int.ofNat_zero, Int.sub_zero] using Counts.nil p n
    | succ j ih =>
      refine (ih (by omega)).append (Counts.remove (hremove j (by omega)) (by omega) ⟨rfl, ?_⟩)
      push_cast
      omega
  refine (hremoved a.held (Nat.le_refl _)).append (Counts.jump hjump (.inr ?_))
  refine ⟨(isBreak, 0), List.mem_singleton_self _, t, hloop, rfl, ?_⟩
  push_cast
  omega

theorem Stmt.flow_of_isSimple {α : Type} {st : Stmt α} (h : st.isSimple = true) :
    st.flow = .straight := by
  cases st with
  | ret | raise | breakLoop | continueLoop | forLoop | whileLoop | ifElse | tryExcept => cases h
  | _ => simp only [Stmt.flow]

/-- A statement that only computes. -/
theorem StmtAt.counts_simple {st : MarkedStmt} (h : v.StmtAt file a st p)
    (hst : st.isSimple = true) :
    v.Counts p (p + st.codeSize a.held) n (st.flow.Leads a (p + st.codeSize a.held) n) := by
  refine (h.calm hst).leads ?_ rfl
  rw [Stmt.flow_of_isSimple hst]
  rfl

/-- A statement that goes nowhere. -/
theorem StmtAt.counts_stop {st : MarkedStmt} {op : Opcode} {E : Nat → Int → Prop}
    (h : v.StmtAt file a st p) (hst : st.stop? = some op) (hop : op = .ret ∨ op = .raise) :
    v.Counts p (p + st.codeSize a.held) n E := by
  obtain ⟨N, k, hN, hcalm, hi⟩ := h.stops hst
  rw [hN]
  exact (hcalm.counts rfl).append (.stop hi hop)

/-- The code before the body of a handler. It goes on to the next handler only if the exception has
to be of some type. -/
theorem HeadAt.counts {next : Nat} {name : Option String} {type : Option MarkedExpr}
    (h : v.HeadAt file next name type p) :
    v.Counts p (p + Handler.headSize type) n fun x k =>
      (x = p + Handler.headSize type ∨ type.isSome = true ∧ x = next) ∧ k = n := by
  cases type with
  | none =>
    simp only [HeadAt] at h
    exact (h.calm.counts (by simp only [Handler.headSize])).mono fun x k hx => ⟨.inl hx.1, hx.2⟩
  | some type =>
    have htested : v.Counts p (p + (1 + type.codeSize + 1)) n
        (Exit (p + (1 + type.codeSize + 1)) n) :=
      h.calm.counts rfl
    simp only [HeadAt, Handler.headSize] at h ⊢
    obtain ⟨-, -, -, hjump, htake⟩ := h
    rw [show p + 1 + type.codeSize + 1 = p + (1 + type.codeSize + 1) by omega] at hjump
    rw [show p + 1 + type.codeSize + 2 = p + (1 + type.codeSize + 1) + 1 by omega] at htake
    have hbranch : v.Counts p (p + (1 + type.codeSize + 1) + 1) n fun x k =>
        (x = p + (1 + type.codeSize + 1) + 1 ∨ x = next) ∧ k = n :=
      htested.append (.branch hjump rfl ⟨.inl rfl, rfl⟩ ⟨.inr rfl, rfl⟩)
    refine hbranch.link (e := n) (htake.calm.counts (by omega)) ?_ ?_
    · rintro x k ⟨rfl | rfl, rfl⟩
      · exact .inl ⟨rfl, rfl⟩
      · exact .inr ⟨.inr ⟨rfl, rfl⟩, rfl⟩
    · rintro x k ⟨rfl, rfl⟩
      exact .inl ⟨.inl rfl, rfl⟩

/-! ## Statements -/

/-- A loop whose body stands between a test and a jump back to it. -/
theorem counts_while {m : Mark} {test : MarkedExpr} {body : List MarkedStmt}
    (h : v.StmtAt file a (.whileLoop m test body) p) {t : LoopTarget}
    (ht : Stmt.whileTarget test body p = t) (hb : f.loop.balanced = true)
    (hbody : v.Counts (p + test.codeSize + 1) (p + test.codeSize + 1 + Stmt.bodySize 0 body) n
      (f.Leads { loop := some t } (p + test.codeSize + 1 + Stmt.bodySize 0 body) n)) :
    v.Counts p t.exit n (f.loop.Leads a t.exit n) := by
  simp only [StmtAt, ht] at h
  obtain ⟨htest, hjump, -, hback⟩ := h
  have hentry : t.entry = p := by rw [← ht]; rfl
  have hagain : t.again = p := by rw [← ht]; rfl
  have hexit : t.exit = p + test.codeSize + 1 + Stmt.bodySize 0 body + 1 := by rw [← ht]; rfl
  have htested : v.Counts p (p + test.codeSize + 1) n fun x k =>
      (x = p + test.codeSize + 1 ∨ x = t.exit) ∧ k = n :=
    (htest.calm.counts rfl).append (.branch hjump rfl ⟨.inl rfl, rfl⟩ ⟨.inr rfl, rfl⟩)
  have hround : v.Counts (p + test.codeSize + 1) t.exit n fun x k =>
      (x = p ∨ x = t.exit) ∧ k = n := by
    rw [hexit]
    refine hbody.link (Counts.jump hback ⟨.inl rfl, rfl⟩) ?_ fun _ _ h => .inl h
    rintro x k (⟨-, hx⟩ | hx)
    · exact .inl hx
    · obtain ⟨rfl, rfl | rfl⟩ := hx.of_loop hb
      · exact .inr ⟨.inr hexit, rfl⟩
      · exact .inr ⟨.inl hagain, rfl⟩
  refine htested.link hround ?_ ?_
  · rintro x k ⟨rfl | rfl, rfl⟩
    · exact .inl ⟨rfl, rfl⟩
    · exact .inr (.inl ⟨rfl, rfl, rfl⟩)
  · rintro x k ⟨rfl | rfl, rfl⟩
    · exact .inr ⟨rfl, rfl, by omega⟩
    · exact .inl (.inl ⟨rfl, rfl, rfl⟩)

/-- A loop over an iterator. Each round but the first begins behind the second `next`. -/
theorem counts_for {m : Mark} {target iter : MarkedExpr} {body : List MarkedStmt}
    (h : v.StmtAt file a (.forLoop m target iter body) p) {t : LoopTarget}
    (ht : Stmt.forTarget target iter body p = t) (hb : f.loop.balanced = true)
    (hbody : v.Counts (p + iter.codeSize + 2 + target.storeSize) t.again n
      (f.Leads { loop := some t } t.again n)) :
    v.Counts p (t.exit + 1) n (f.loop.Leads a (t.exit + 1) n) := by
  simp only [StmtAt, ht] at h
  obtain ⟨hiter, hget, hfirst, hstore, -, hnext, hback, hpop⟩ := h
  have hagain : t.again = p + iter.codeSize + 2 + target.storeSize + Stmt.bodySize 0 body := by
    rw [← ht]; rfl
  have hexit : t.exit = t.again + 2 := by rw [← ht]; rfl
  have hhead : v.Counts p (p + iter.codeSize + 2) n fun x k =>
      (x = p + iter.codeSize + 2 ∨ x = t.exit) ∧ k = n :=
    ((hiter.calm.snoc hget rfl rfl).counts rfl).append
      (.branch hfirst rfl ⟨.inl rfl, rfl⟩ ⟨.inr rfl, rfl⟩)
  have hround : v.Counts (p + iter.codeSize + 2) (t.again + 1) n fun x k =>
      (x = t.again + 1 ∨ x = t.exit) ∧ k = n := by
    refine ((hstore.calm.counts rfl).append hbody).link
      (.branch hnext rfl ⟨.inl rfl, rfl⟩ ⟨.inr rfl, rfl⟩) ?_ fun _ _ h => .inl h
    rintro x k (⟨-, hx⟩ | hx)
    · exact .inl hx
    · obtain ⟨rfl, rfl | rfl⟩ := hx.of_loop hb
      · exact .inr ⟨.inr rfl, rfl⟩
      · exact .inl ⟨rfl, rfl⟩
  have hrounds : v.Counts (p + iter.codeSize + 2) t.exit n (Exit t.exit n) := by
    rw [hexit] at hround ⊢
    have hjump : v.Counts (t.again + 1) (t.again + 2) n (Exit (p + iter.codeSize + 2) n) :=
      .jump hback ⟨rfl, rfl⟩
    refine hround.link hjump ?_ ?_
    · rintro x k ⟨rfl | rfl, rfl⟩
      · exact .inl ⟨rfl, rfl⟩
      · exact .inr ⟨rfl, rfl⟩
    · rintro x k ⟨rfl, rfl⟩
      exact .inr ⟨rfl, rfl, by omega⟩
  have hleft : v.Counts p t.exit n (Exit t.exit n) := by
    refine hhead.link hrounds ?_ fun _ _ h => .inl h
    rintro x k ⟨rfl | rfl, rfl⟩
    · exact .inl ⟨rfl, rfl⟩
    · exact .inr ⟨rfl, rfl⟩
  exact hleft.append ((Calm.instr hpop rfl).leads rfl rfl)

/-- One of two pieces, depending on a test. -/
theorem counts_if {m : Mark} {test : MarkedExpr} {body orelse : List MarkedStmt}
    (h : v.StmtAt file a (.ifElse m test body orelse) p)
    (hbody : v.Counts (p + test.codeSize + 1) (p + test.codeSize + 1 + Stmt.bodySize a.held body) n
      (f.Leads a (p + test.codeSize + 1 + Stmt.bodySize a.held body) n))
    (hnone : orelse.isEmpty = true → g.completes = true)
    (horelse : ∀ b, b = p + test.codeSize + 1 + Stmt.bodySize a.held body + 1 →
      v.BodyAt file a orelse b → v.Counts b (b + Stmt.bodySize a.held orelse) n
        (g.Leads a (b + Stmt.bodySize a.held orelse) n))
    (hq : q = p + (Stmt.ifElse m test body orelse).codeSize a.held) :
    v.Counts p q n ((f.either g).Leads a q n) := by
  simp only [StmtAt, Stmt.codeSize] at h hq
  obtain ⟨htest, -, hjump⟩ := h
  by_cases hempty : orelse.isEmpty = true
  · rw [if_pos hempty] at hjump hq
    obtain rfl : q = p + test.codeSize + 1 + Stmt.bodySize a.held body := by omega
    have htested := (htest.calm.counts (n := n) rfl).append
      (.branch (E := fun x k => (x = p + test.codeSize + 1 ∨
        x = p + test.codeSize + 1 + Stmt.bodySize a.held body) ∧ k = n) hjump rfl
        ⟨.inl rfl, rfl⟩ ⟨.inr rfl, rfl⟩)
    refine htested.link hbody ?_ fun _ _ h => .inl h.either_left
    rintro x k ⟨rfl | rfl, rfl⟩
    · exact .inl ⟨rfl, rfl⟩
    · exact .inr (Flow.Leads.either_right (.inl ⟨hnone hempty, rfl, rfl⟩))
  · rw [if_neg hempty] at hjump hq
    obtain ⟨hjump, hover, helse⟩ := hjump
    obtain ⟨b, hb⟩ : ∃ b, b = p + test.codeSize + 1 + Stmt.bodySize a.held body + 1 := ⟨_, rfl⟩
    obtain rfl : q = b + Stmt.bodySize a.held orelse := by omega
    rw [← hb] at hjump hover helse
    have htested := (htest.calm.counts (n := n) rfl).append
      (.branch (E := fun x k => (x = p + test.codeSize + 1 ∨ x = b) ∧ k = n) hjump rfl
        ⟨.inl rfl, rfl⟩ ⟨.inr rfl, rfl⟩)
    -- behind the first piece control jumps over the second
    have hfirst : v.Counts (p + test.codeSize + 1) b n
        (f.Leads a (b + Stmt.bodySize a.held orelse) n) := by
      rw [hb] at hover ⊢
      exact hbody.follow (fun hf => .jump hover (.inl ⟨hf, rfl, rfl⟩)) (by omega)
        fun _ _ h => .inr h
    have hboth : v.Counts p b n fun x k => x = b ∧ k = n ∨
        f.Leads a (b + Stmt.bodySize a.held orelse) n x k := by
      refine htested.link hfirst ?_ fun _ _ h => .inl (.inr h)
      rintro x k ⟨rfl | rfl, rfl⟩
      · exact .inl ⟨rfl, rfl⟩
      · exact .inr (.inl ⟨rfl, rfl⟩)
    exact hboth.link (horelse b hb helse) (fun _ _ h => h.imp_right Flow.Leads.either_left)
      fun _ _ h => .inl h.either_right

/-- A handler before others. An exception of another type goes on to these. -/
theorem counts_handler {next behind fin : Nat} {name : Option String} {type : Option MarkedExpr}
    {typed : Bool} (hhead : v.HeadAt file next name type p)
    (hbody : v.Counts (p + Handler.headSize type) behind n (f.Leads a behind n))
    (hremove : v.instr? behind = some ⟨.handle, 0⟩)
    (hjump : v.instr? (behind + 1) = some ⟨.jump, fin⟩)
    (hrest : v.Counts next q n (g.LeadsHandled a typed q fin n)) (hnext : next = behind + 2)
    (hn : 0 < n) : v.Counts p q n ((f.either g).LeadsHandled a (type.isSome && typed) q fin n) := by
  have hle := hrest.le
  -- the body, and what follows it
  have hdone : v.Counts (p + Handler.headSize type) next n fun x k =>
      f.completes = true ∧ x = fin ∧ k = n - 1 ∨ f.LeadsOut a n x k := by
    rw [hnext]
    exact hbody.follow (fun hf => (Counts.remove hremove hn ⟨rfl, rfl⟩).append
      (.jump hjump (.inl ⟨hf, rfl, rfl⟩))) (by omega) fun _ _ h => .inr h
  have hout {x : Nat} {k : Int}
    (h : f.completes = true ∧ x = fin ∧ k = n - 1 ∨ f.LeadsOut a n x k) :
      (f.either g).LeadsHandled a (type.isSome && typed) q fin n x k :=
    .inr (h.imp (fun h => ⟨Flow.completes_either.mpr (.inl h.1), h.2⟩) Flow.LeadsOut.either_left)
  have htaken : v.Counts p next n fun x k => type.isSome = true ∧ x = next ∧ k = n ∨
      f.completes = true ∧ x = fin ∧ k = n - 1 ∨ f.LeadsOut a n x k := by
    refine hhead.counts.link hdone ?_ fun _ _ h => .inl (.inr h)
    rintro x k ⟨rfl | ⟨htype, rfl⟩, rfl⟩
    · exact .inl ⟨rfl, rfl⟩
    · exact .inr (.inl ⟨htype, rfl, rfl⟩)
  by_cases htype : type.isSome = true
  · refine htaken.link hrest ?_ ?_
    · rintro x k (⟨-, hx⟩ | hx)
      · exact .inl hx
      · exact .inr (hout hx)
    · rintro x k (⟨htyped, hx⟩ | ⟨hg, hx⟩ | hx)
      · exact .inl (.inl ⟨by rw [htype, htyped]; rfl, hx⟩)
      · exact .inl (.inr (.inl ⟨Flow.completes_either.mpr (.inr hg), hx⟩))
      · exact .inl (.inr (.inr hx.either_right))
  · exact (htaken.widen hle).mono fun x k h => hout (h.resolve_left fun h => htype h.1)

/-- The protected part of a `try` and the alternative, with the removal of the handler between them
and a jump over what follows. -/
theorem counts_protected {removal completed : Nat} {f₁ f₂ : Flow} (hn : 0 ≤ n)
    (hbody : v.Counts p removal (n + 1) (f₁.Leads a.guarded removal (n + 1)))
    (hremove : v.instr? removal = some ⟨.handle, 0⟩)
    (horelse : f₁.completes = true → v.Counts (removal + 1) completed n (f₂.Leads a completed n))
    (hjump : v.instr? completed = some ⟨.jump, fin⟩) (hle : removal < completed) :
    v.Counts p (completed + 1) (n + 1) ((f₁.seq f₂).Leads a fin n) := by
  have hremoved : v.Counts removal (removal + 1) (n + 1) (Exit (removal + 1) n) :=
    .remove hremove (by omega) ⟨rfl, by omega⟩
  refine Counts.follow hbody (fun hf₁ => ?_) (by omega) fun _ _ h => .inr h.guarded.seq_left
  refine (hremoved.append (horelse hf₁)).follow (fun hf₂ => .jump hjump ?_) (by omega)
    fun _ _ h => .inr (h.seq_right hf₁)
  exact .inl ⟨Flow.completes_seq.mpr ⟨hf₁, hf₂⟩, rfl, rfl⟩

/-- A `try`. Its handler is removed behind the protected part and by each of the handlers, and stays
registered in the final part that an exception passes through. -/
theorem counts_try {m : Mark} {body orelse final : List MarkedStmt}
    {handlers : List (Handler Mark MarkedExpr MarkedStmt)}
    (h : v.StmtAt file a (.tryExcept m body handlers orelse final) p) {places : TryPlaces}
    (hplaces : Stmt.tryPlaces a.held body handlers orelse final p = places) {f₁ f₂ e : Flow}
    {typed : Bool} (htyped : (handlers.all fun h => h.type.isSome) = typed) (hn : 0 ≤ n)
    (hbody : v.Counts (p + 1) places.removal (n + 1) (f₁.Leads a.guarded places.removal (n + 1)))
    (horelse : f₁.completes = true → v.Counts (places.removal + 1) places.completed n
      (f₂.Leads a places.completed n))
    (hhandlers : v.Counts places.handlers places.passed (n + 1)
      (g.LeadsHandled a.guarded typed places.passed places.final (n + 1)))
    (hpassed : typed = true → v.Counts places.passed
      (places.passed + Stmt.bodySize a.held final) (n + 1)
      (e.Leads a (places.passed + Stmt.bodySize a.held final) (n + 1)))
    (hfinal : (((f₁.seq f₂).either (if typed then g.either e.raised else g)).completes = true) →
      v.Counts places.final q n (e.Leads a q n)) (hq : places.final ≤ q) :
    v.Counts p q n ((((f₁.seq f₂).either (if typed then g.either e.raised else g)).seq e).Leads a
      q n) := by
  simp only [StmtAt, hplaces, htyped] at h
  obtain ⟨htry, -, hremove, -, hjump, -, hraise, -⟩ := h
  have hlt : places.removal < places.completed := by
    rw [← hplaces]
    simp only [Stmt.tryPlaces]
    omega
  have hstart : places.completed + 1 = places.handlers := by rw [← hplaces]; rfl
  have hend : places.final =
      if typed then places.passed + Stmt.bodySize a.held final + 1 else places.passed := by
    rw [← hplaces, ← htyped]
    rfl
  have hentered : v.Counts p places.handlers n fun x k => x = places.handlers ∧ k = n + 1 ∨
      (f₁.seq f₂).Leads a places.final n x k := by
    have htried : v.Counts p (p + 1) n fun x k => (x = p + 1 ∨ x = places.handlers) ∧ k = n + 1 :=
      .instr htry (fun h => by cases h) (fun _ => ⟨.inl rfl, rfl⟩) fun _ => ⟨.inr rfl, rfl⟩
    have hprotected := counts_protected hn hbody hremove horelse hjump hlt
    rw [hstart] at hprotected
    refine htried.link hprotected ?_ fun _ _ h => .inl (.inr h)
    rintro x k ⟨rfl | rfl, rfl⟩
    · exact .inl ⟨rfl, rfl⟩
    · exact .inr (.inl ⟨rfl, rfl⟩)
  -- a handler that is done goes on with one less than it was entered with
  have hhandled {x : Nat} {k : Int} (h : g.completes = true ∧ x = places.final ∧ k = n + 1 - 1 ∨
      g.LeadsOut a.guarded (n + 1) x k) : g.Leads a places.final n x k :=
    h.imp (fun h => ⟨h.1, h.2.1, by omega⟩) Flow.LeadsOut.guarded
  have hcaught : v.Counts p places.final n
      (((f₁.seq f₂).either (if typed then g.either e.raised else g)).Leads a places.final n) := by
    cases typed with
    | true =>
      rw [if_pos rfl] at hend ⊢
      have htaken : v.Counts p places.passed n fun x k => x = places.passed ∧ k = n + 1 ∨
          ((f₁.seq f₂).either (g.either e.raised)).Leads a places.final n x k := by
        refine hentered.link hhandlers (fun _ _ h => h.imp_right fun h => .inr h.either_left) ?_
        rintro x k (⟨-, hx⟩ | hx)
        · exact .inl (.inl hx)
        · exact .inl (.inr (hhandled hx).either_left.either_right)
      have hraised : v.Counts places.passed places.final (n + 1) (e.raised.LeadsOut a n) := by
        rw [hend]
        exact (hpassed rfl).follow (fun _ => .stop (hraise rfl).2 (.inr rfl)) (by omega)
          fun _ _ h => h.raised
      exact htaken.link hraised (fun _ _ h => h) fun _ _ h =>
        .inl (.inr h.either_right.either_right)
    | false =>
      rw [if_neg Bool.false_ne_true] at hend ⊢
      rw [hend] at hhandled hentered hhandlers ⊢
      refine hentered.link hhandlers (fun _ _ h => h.imp_right Flow.Leads.either_left) ?_
      rintro x k (⟨hfalse, -⟩ | hx)
      · cases hfalse
      · exact .inl (hhandled hx).either_right
  exact hcaught.seq hfinal hq

mutual

/-- **The number of handlers along a statement.** Control that enters the code of a statement with a
balanced flow finds one number at each instruction, and leaves as the flow says. -/
theorem StmtAt.counts : ∀ {st : MarkedStmt} {a : Around} {p : Nat} {n : Int}, v.StmtAt file a st p →
    st.flow.balanced = true → (a.held : Int) ≤ n →
      v.Counts p (p + st.codeSize a.held) n (st.flow.Leads a (p + st.codeSize a.held) n)
  | .forLoop m target iter body, a, p, n, h, hb, hn => by
    have hend : p + (Stmt.forLoop m target iter body).codeSize a.held =
        (Stmt.forTarget target iter body p).exit + 1 := by
      simp only [Stmt.codeSize, Stmt.forTarget]
      omega
    have hat := h
    rw [hend]
    exact counts_for hat rfl hb
      (BodyAt.counts h.2.2.2.2.1 (Flow.balanced_of_loop hb) (by simp only; omega))
  | .whileLoop m test body, a, p, n, h, hb, hn => by
    have hend : p + (Stmt.whileLoop m test body).codeSize a.held =
        (Stmt.whileTarget test body p).exit := by
      simp only [Stmt.codeSize, Stmt.whileTarget]
      omega
    have hat := h
    rw [hend]
    exact counts_while hat rfl hb
      (BodyAt.counts h.2.2.1 (Flow.balanced_of_loop hb) (by simp only; omega))
  | .ifElse m test body orelse, a, p, n, h, hb, hn => by
    obtain ⟨hb₁, hb₂⟩ := Flow.balanced_of_either hb
    have hat := h
    refine counts_if hat (BodyAt.counts h.2.1 hb₁ hn) (fun hnone => ?_)
      (fun b _ hb => BodyAt.counts hb hb₂ hn) rfl
    rw [List.isEmpty_iff.mp hnone, Stmt.bodyFlow]
    rfl
  | .tryExcept m body handlers orelse final, a, p, n, h, hb, hn => by
    obtain ⟨hb, hfinal⟩ := Flow.balanced_of_seq hb
    obtain ⟨hprotected, hcaught⟩ := Flow.balanced_of_either hb
    obtain ⟨hbody, horelse⟩ := Flow.balanced_of_seq hprotected
    obtain ⟨places, hplaces⟩ :
        ∃ places, Stmt.tryPlaces a.held body handlers orelse final p = places := ⟨_, rfl⟩
    have hat := h
    simp only [StmtAt, hplaces] at h
    obtain ⟨-, hinner, -, helse, -, hhandlers, hpassed, hlast⟩ := h
    have hguarded : (a.guarded.held : Int) ≤ n + 1 := by
      simp only [Around.guarded]
      omega
    have hends : places.removal = p + 1 + Stmt.bodySize a.guarded.held body ∧
        places.completed = places.removal + 1 + Stmt.bodySize a.held orelse ∧
        places.passed = places.handlers + Stmt.handlersSize a.guarded.held handlers := by
      rw [← hplaces]
      exact ⟨rfl, rfl, rfl⟩
    have hsize : p + (Stmt.tryExcept m body handlers orelse final).codeSize a.held =
        places.final + Stmt.bodySize a.held final := by
      rw [← hplaces]
      simp only [Stmt.codeSize, Stmt.tryPlaces]
      split <;> omega
    have hhandled : (Stmt.handlersFlow handlers).balanced = true := by
      split at hcaught
      · exact (Flow.balanced_of_either hcaught).1
      · exact hcaught
    rw [hsize]
    refine counts_try hat hplaces rfl (by omega) ?_ ?_ ?_ ?_ ?_ (by omega)
    · rw [hends.1]
      exact BodyAt.counts hinner hbody hguarded
    · rw [hends.2.1]
      exact fun hf => BodyAt.counts helse (horelse hf) hn
    · rw [hends.2.2]
      exact HandlersAt.counts hhandlers hhandled hguarded (by omega)
    · intro htyped
      rw [if_pos htyped] at hcaught
      exact BodyAt.counts (hpassed htyped).1 (Flow.balanced_of_either hcaught).2 (by omega)
    · exact fun hc => BodyAt.counts hlast (hfinal hc) hn
  | .breakLoop m, a, p, n, h, _, hn => by
    simp only [StmtAt, Stmt.codeSize, Stmt.flow] at h ⊢
    exact h.counts hn
  | .continueLoop m, a, p, n, h, _, hn => by
    simp only [StmtAt, Stmt.codeSize, Stmt.flow] at h ⊢
    exact h.counts hn
  | .ret m value, a, p, n, h, _, _ => h.counts_stop rfl (.inl rfl)
  | .raise m exc cause, a, p, n, h, _, _ => h.counts_stop rfl (.inr rfl)
  | .functionDef .., a, p, n, h, _, _ => h.counts_simple rfl
  | .classDef .., a, p, n, h, _, _ => h.counts_simple rfl
  | .delete .., a, p, n, h, _, _ => h.counts_simple rfl
  | .assign .., a, p, n, h, _, _ => h.counts_simple rfl
  | .augAssign .., a, p, n, h, _, _ => h.counts_simple rfl
  | .assert .., a, p, n, h, _, _ => h.counts_simple rfl
  | .imports .., a, p, n, h, _, _ => h.counts_simple rfl
  | .importFrom .., a, p, n, h, _, _ => h.counts_simple rfl
  | .expr .., a, p, n, h, _, _ => h.counts_simple rfl
  | .pass .., a, p, n, h, _, _ => h.counts_simple rfl

/-- The number of handlers along statements. -/
theorem BodyAt.counts : ∀ {ss : List MarkedStmt} {a : Around} {p : Nat} {n : Int},
    v.BodyAt file a ss p → (Stmt.bodyFlow ss).balanced = true → (a.held : Int) ≤ n →
      v.Counts p (p + Stmt.bodySize a.held ss) n
        ((Stmt.bodyFlow ss).Leads a (p + Stmt.bodySize a.held ss) n)
  | [], a, p, n, _, _, _ => by
    exact (Calm.nil v p _).leads rfl rfl
  | st :: ss, a, p, n, h, hb, hn => by
    simp only [BodyAt, Stmt.bodySize, Stmt.bodyFlow] at h hb ⊢
    obtain ⟨hb₁, hb₂⟩ := Flow.balanced_of_seq hb
    rw [← Nat.add_assoc]
    exact (StmtAt.counts h.1 hb₁ hn).seq (fun hf => BodyAt.counts h.2 (hb₂ hf) hn) (by omega)

/-- The number of handlers along handlers. -/
theorem HandlersAt.counts : ∀ {hs : List (Handler Mark MarkedExpr MarkedStmt)} {a : Around}
    {fin p : Nat} {n : Int}, v.HandlersAt file a fin hs p → (Stmt.handlersFlow hs).balanced = true →
      (a.held : Int) ≤ n → 0 < n →
      v.Counts p (p + Stmt.handlersSize a.held hs) n ((Stmt.handlersFlow hs).LeadsHandled a
        (hs.all fun h => h.type.isSome) (p + Stmt.handlersSize a.held hs) fin n)
  | [], a, fin, p, n, _, _, _, _ => by
    exact (Counts.nil p n).mono fun x k hx => .inl ⟨rfl, hx⟩
  | ⟨m, type, name, body⟩ :: rest, a, fin, p, n, h, hb, hn, hpos => by
    simp only [HandlersAt, Stmt.handlersSize, Stmt.handlersFlow] at h hb ⊢
    obtain ⟨hb₁, hb₂⟩ := Flow.balanced_of_either hb
    obtain ⟨hhead, hinner, hremove, hjump, hrest⟩ := h
    rw [show p + (Handler.headSize type + Stmt.bodySize a.held body + 2 +
        Stmt.handlersSize a.held rest) = p + Handler.headSize type + Stmt.bodySize a.held body + 2 +
        Stmt.handlersSize a.held rest by omega]
    exact counts_handler hhead (BodyAt.counts hinner hb₁ hn) hremove hjump
      (HandlersAt.counts hrest hb₂ hn hpos) rfl hpos

end

end CodeView

end Toolchain

import Mathlib.Tactic.Common
import Toolchain.Compiler.Expression
import Toolchain.Proofs.Bytecode.Region
import Toolchain.Proofs.Bytecode.Stored
import Toolchain.Proofs.Outcome

/-!
# Steps of the compiler

What each step of the compiler does to the code object in the making. Code is only appended, and a
place that was reserved is written once; so what holds of the code written so far holds of every
code object that completes it.

## Main definitions

* `CompileState.Grows`: code was appended and nothing else touched
* `CompileState.Refines`: places that were reserved may have been written
* `CodeView.Completes`: a finished code object in which what was written so far stands
* `CodeView.EncodedOn`: a stretch of well-encoded instructions

## Main results

* `Compile.gives_emit`, `Compile.gives_reserve`, `Compile.gives_patch`: what the steps do to the
  state
-/

namespace Toolchain

open Outcome

/-! ## Words -/

/-- An instruction whose operand fits is read back from its word. -/
theorem Instr.decode?_encode {i : Instr} (h : i.operand ≤ maxOperand) :
    Instr.decode? i.encode = some i := by
  rcases i with ⟨op, k⟩
  have hop : op.number < 31 := by cases op <;> decide
  have hk : k < 2048 := Nat.lt_succ_of_le h
  have hmod : ((k : Int).emod 2048).toNat = k := by
    have : (k : Int).emod 2048 = k := Int.emod_eq_of_lt (by omega) (by omega)
    rw [this, Int.toNat_natCast]
  have hword : (Instr.encode ⟨op, k⟩).toNat = op.number * 2048 + k := by
    unfold Instr.encode Word.encode
    rw [hmod, UInt16.toNat_ofNat_of_lt']
    change op.number * 2048 + k < 65536
    omega
  have hnumber : (Instr.encode ⟨op, k⟩).opNumber = op.number := by
    unfold Word.opNumber
    omega
  have hoperand : (Instr.encode ⟨op, k⟩).operand = k := by
    unfold Word.operand
    omega
  simp [Instr.decode?, hnumber, hoperand, Opcode.ofNumber?_number]

/-- No instruction looks like a place that is still to be written. -/
theorem Instr.encode_ne_placeholder {i : Instr} (h : i.operand ≤ maxOperand) :
    i.encode ≠ Word.placeholder := by
  intro heq
  have hdecode := Instr.decode?_encode h
  rw [heq, CodeView.decode?_placeholder] at hdecode
  cases hdecode

/-- What was asked if a word is appended at a position: an instruction, or a place for one. -/
def CodeRequest.ofWord (position : Nat) (w : Word) : CodeRequest :=
  match Instr.decode? w with
  | some i => .emit position i
  | none => .reserve position

theorem CodeRequest.ofWord_encode {i : Instr} (h : i.operand ≤ maxOperand) (position : Nat) :
    ofWord position i.encode = .emit position i := by
  rw [ofWord, Instr.decode?_encode h]

theorem CodeRequest.ofWord_placeholder (position : Nat) :
    ofWord position Word.placeholder = .reserve position := by
  rw [ofWord, CodeView.decode?_placeholder]

/-! ## States -/

namespace CompileState

/-- The words written so far. -/
def words (s : CompileState) : Array Word := s.frame.builder.words

/-- The constants so far. -/
def constants (s : CompileState) : Array Constant := s.frame.builder.constants

/-- The position of the next instruction. -/
def pos (s : CompileState) : Nat := s.words.size

/-- The state after a word. -/
def push (s : CompileState) (w : Word) : CompileState :=
  { s with frame := { s.frame with
    builder := s.frame.builder.push w s.line
    requests := .ofWord s.pos w :: s.frame.requests } }

/-- The state after a request was noted. -/
def noted (s : CompileState) (r : CodeRequest) : CompileState :=
  { s with frame := { s.frame with requests := r :: s.frame.requests } }

/-- The table of lines is as long as the code, and every constant is of a known kind. -/
structure Sane (s : CompileState) : Prop where
  lines : s.frame.builder.lines.size = s.pos
  kinds : ∀ k ∈ s.constants, k ≠ .noCode ∧ ∀ tag, k ≠ .unknown tag

/-- All code objects among the constants are valid. -/
def CodesOk (s : CompileState) : Prop := ∀ c : Code, .code c ∈ s.constants → c.verify = .ok ()

/-- Code was appended, and constants; what was there is as it was. -/
structure Grows (s s' : CompileState) : Prop where
  pos : s.pos ≤ s'.pos
  words : ∀ x : Nat, x < s.pos → s'.words[x]? = s.words[x]?
  constants : ∀ (i : Nat) k, s.constants[i]? = some k → s'.constants[i]? = some k
  sane : s.Sane → s'.Sane

/-- What was written is as it was, and places that were reserved may have been written. -/
structure Refines (s s' : CompileState) : Prop where
  words : ∀ (x : Nat) w, s.words[x]? = some w → w ≠ Word.placeholder → s'.words[x]? = some w
  constants : ∀ (i : Nat) k, s.constants[i]? = some k → s'.constants[i]? = some k

variable {s s' s'' : CompileState}

theorem lt_pos_of_getElem? {x : Nat} {w : Word} (h : s.words[x]? = some w) : x < s.pos := by
  obtain ⟨hlt, -⟩ := Array.getElem?_eq_some_iff.mp h
  exact hlt

theorem Grows.refl (s : CompileState) : s.Grows s :=
  ⟨Nat.le_refl _, fun _ _ => rfl, fun _ _ h => h, id⟩

theorem Grows.trans (h : s.Grows s') (h' : s'.Grows s'') : s.Grows s'' where
  pos := Nat.le_trans h.pos h'.pos
  words x hx := (h'.words x (Nat.lt_of_lt_of_le hx h.pos)).trans (h.words x hx)
  constants i k hk := h'.constants i k (h.constants i k hk)
  sane hs := h'.sane (h.sane hs)

theorem Grows.getElem? (h : s.Grows s') {x : Nat} {w : Word} (hx : s.words[x]? = some w) :
    s'.words[x]? = some w := by
  rw [h.words x (lt_pos_of_getElem? hx), hx]

theorem Grows.refines (h : s.Grows s') : s.Refines s' :=
  ⟨fun _ _ hx _ => h.getElem? hx, h.constants⟩

theorem Refines.refl (s : CompileState) : s.Refines s := ⟨fun _ _ h _ => h, fun _ _ h => h⟩

theorem Refines.trans (h : s.Refines s') (h' : s'.Refines s'') : s.Refines s'' :=
  ⟨fun x w hx hw => h'.words x w (h.words x w hx hw) hw,
    fun i k hk => h'.constants i k (h.constants i k hk)⟩

@[simp] theorem pos_push (s : CompileState) (w : Word) : (s.push w).pos = s.pos + 1 := by
  simp [pos, words, push, CodeBuilder.push]

theorem getElem?_push (s : CompileState) (w : Word) : (s.push w).words[s.pos]? = some w := by
  simp [pos, words, push, CodeBuilder.push]

theorem grows_push (s : CompileState) (w : Word) : s.Grows (s.push w) where
  pos := by
    rw [pos_push]
    omega
  words x hx := by
    have hne : x ≠ s.frame.builder.words.size := Nat.ne_of_lt hx
    simp only [words, push, CodeBuilder.push]
    rw [Array.getElem?_push, if_neg hne]
  constants _ _ h := h
  sane h := by
    refine ⟨?_, h.kinds⟩
    have := h.lines
    simp only [pos_push]
    simpa [push, CodeBuilder.push] using this

end CompileState

/-! ## Finished code objects -/

namespace CodeView

/-- A finished code object in which what was written so far stands. -/
structure Completes (v : CodeView) (s : CompileState) : Prop where
  words : ∀ (x : Nat) w, s.words[x]? = some w → w ≠ Word.placeholder → v.words[x]? = some w
  constants : ∀ (i : Nat) k, s.constants[i]? = some k → v.constants[i]? = some k

theorem Completes.of_refines {v : CodeView} {s s' : CompileState} (h : v.Completes s')
    (hr : s.Refines s') : v.Completes s :=
  ⟨fun x w hx hw => h.words x w (hr.words x w hx hw) hw,
    fun i k hk => h.constants i k (hr.constants i k hk)⟩

theorem Completes.of_grows {v : CodeView} {s s' : CompileState} (h : v.Completes s')
    (hg : s.Grows s') : v.Completes s :=
  h.of_refines hg.refines

/-- An instruction that was written stands in the finished code object. -/
theorem Completes.instr? {v : CodeView} {s : CompileState} (h : v.Completes s) {x : Nat}
    {i : Instr} (hi : i.operand ≤ maxOperand) (hx : s.words[x]? = some i.encode) :
    v.instr? x = some i := by
  unfold CodeView.instr?
  rw [h.words x _ hx (Instr.encode_ne_placeholder hi)]
  exact Instr.decode?_encode hi

/-- All positions of a stretch hold well-encoded instructions. -/
def EncodedOn (v : CodeView) (p q : Nat) : Prop :=
  ∀ x, p ≤ x → x < q → ∃ i, v.instr? x = some i ∧ v.Encoded x i

theorem encodedOn_nil (v : CodeView) (p : Nat) : v.EncodedOn p p := fun x h₁ h₂ => by omega

theorem EncodedOn.append {v : CodeView} {p m q : Nat} (h₁ : v.EncodedOn p m)
    (h₂ : v.EncodedOn m q) : v.EncodedOn p q := by
  intro x hp hq
  rcases Nat.lt_or_ge x m with h | h
  · exact h₁ x hp h
  · exact h₂ x h hq

theorem encodedOn_one {v : CodeView} {p : Nat} {i : Instr} (hi : v.instr? p = some i)
    (he : v.Encoded p i) : v.EncodedOn p (p + 1) := by
  intro x h₁ h₂
  obtain rfl : x = p := by omega
  exact ⟨i, hi, he⟩

/-- A jump is well encoded if its target is in the code. -/
theorem encoded_jump {v : CodeView} {p : Nat} {i : Instr} (hj : i.op.isJump = true)
    (ht : i.operand < v.words.size) : v.Encoded p i := by
  rcases i with ⟨op, k⟩
  refine ⟨fun _ => ht, ?_, ?_, ?_, ?_, ?_, ?_, ?_⟩ <;>
    cases op <;> simp_all [Opcode.isJump, Opcode.usesName, Instr.operandLimit?]

/-- A return and a raise refer to nothing. -/
theorem encoded_stop {v : CodeView} {p k : Nat} {op : Opcode} (hop : op = .ret ∨ op = .raise)
    (hk : k ≤ 2) : v.Encoded p ⟨op, k⟩ := by
  rcases hop with rfl | rfl <;>
    refine ⟨?_, ?_, ?_, ?_, ?_, ?_, ?_, ?_⟩ <;>
    simp [Opcode.isJump, Opcode.usesName, Instr.operandLimit?, hk]

end CodeView

/-! ## Steps of the compiler -/

namespace Compile

variable {α β : Type}

/-- What a step gives, from a state, if it does not fail. -/
def Gives (m : Compile α) (s : CompileState) (Q : α → CompileState → Prop) : Prop :=
  ∀ a s', StateT.run m s = .ok (a, s') → Q a s'

variable {m : Compile α} {f : α → Compile β} {s : CompileState} {P : α → CompileState → Prop}
  {Q : β → CompileState → Prop}

theorem Gives.bind (h : m.Gives s P) (hf : ∀ a t, P a t → (f a).Gives t Q) :
    (m >>= f).Gives s Q := by
  intro b s' hrun
  rw [StateT.run_bind, bind_eq_ok_iff] at hrun
  obtain ⟨⟨a, t⟩, hm, hb⟩ := hrun
  exact hf a t (h a t hm) b s' hb

theorem Gives.mono {P' : α → CompileState → Prop} (h : m.Gives s P)
    (hP : ∀ a t, P a t → P' a t) : m.Gives s P' :=
  fun a t hrun => hP a t (h a t hrun)

theorem Gives.and {P' : α → CompileState → Prop} (h : m.Gives s P) (h' : m.Gives s P') :
    m.Gives s fun a t => P a t ∧ P' a t :=
  fun a t hrun => ⟨h a t hrun, h' a t hrun⟩

theorem gives_pure {a : α} (h : P a s) : (pure a : Compile α).Gives s P := by
  rintro b s' hrun
  rw [StateT.run_pure, pure_eq_ok_iff, Prod.mk.injEq] at hrun
  obtain ⟨rfl, rfl⟩ := hrun
  exact h

theorem gives_get {P : CompileState → CompileState → Prop} (h : P s s) :
    (get : Compile CompileState).Gives s P := by
  rintro a s' hrun
  rw [StateT.run_get, pure_eq_ok_iff, Prod.mk.injEq] at hrun
  obtain ⟨rfl, rfl⟩ := hrun
  exact h

theorem gives_set {t : CompileState} {P : PUnit → CompileState → Prop} (h : P ⟨⟩ t) :
    (set t : Compile PUnit).Gives s P := by
  rintro a s' hrun
  rw [StateT.run_set, pure_eq_ok_iff, Prod.mk.injEq] at hrun
  obtain ⟨rfl, rfl⟩ := hrun
  exact h

theorem gives_modify {g : CompileState → CompileState} {P : PUnit → CompileState → Prop}
    (h : P ⟨⟩ (g s)) : (modify g : Compile PUnit).Gives s P := by
  rintro a s' hrun
  rw [StateT.run_modify, pure_eq_ok_iff, Prod.mk.injEq] at hrun
  obtain ⟨rfl, rfl⟩ := hrun
  exact h

theorem gives_failAt {code : ErrorCode} {pos : Position} {message : Message} :
    (failAt code pos message : Compile α).Gives s P := by
  intro a s' hrun
  simp [failAt, throw, throwThe, MonadExceptOf.throw, StateT.run, StateT.lift, bind,
    Except.bind] at hrun

theorem gives_fail {code : ErrorCode} {message : Message} :
    (fail code message : Compile α).Gives s P :=
  (gives_get (P := fun _ _ => True) trivial).bind fun _ _ _ => gives_failAt

theorem gives_overflow {op : Opcode} {operand limit : Nat} :
    (overflow op operand limit : Compile α).Gives s P :=
  (gives_get (P := fun _ _ => True) trivial).bind fun _ _ _ => gives_fail

/-! ## Writing instructions -/

theorem gives_encoded {op : Opcode} {k : Nat} :
    (encoded op k).Gives s fun w s' => k ≤ maxOperand ∧ w = Instr.encode ⟨op, k⟩ ∧ s' = s := by
  unfold encoded
  by_cases h : k > maxOperand
  · rw [if_pos h]
    exact gives_overflow
  · rw [if_neg h]
    exact gives_pure ⟨Nat.le_of_not_lt h, rfl, rfl⟩

theorem gives_position (s : CompileState) :
    position.Gives s fun p s' => p = s.pos ∧ s' = s := by
  refine (gives_get (P := fun a t => a = s ∧ t = s) ⟨rfl, rfl⟩).bind ?_
  rintro a t ⟨rfl, rfl⟩
  exact gives_pure ⟨rfl, rfl⟩

theorem gives_note (r : CodeRequest) (s : CompileState) :
    (note r).Gives s fun _ s' => s' = s.noted r :=
  gives_modify rfl

/-- An instruction is appended if its operand fits. -/
theorem gives_emit (op : Opcode) (k : Nat) (s : CompileState) :
    (emit op k).Gives s fun _ s' => k ≤ maxOperand ∧ s' = s.push (Instr.encode ⟨op, k⟩) := by
  refine gives_encoded.bind ?_
  rintro w t ⟨hk, rfl, rfl⟩
  refine (gives_position t).bind ?_
  rintro p t' ⟨rfl, rfl⟩
  refine (gives_note (.emit t'.pos ⟨op, k⟩) t').bind ?_
  rintro _ t rfl
  refine (gives_get (P := fun a u => a = t'.noted _ ∧ u = t'.noted _) ⟨rfl, rfl⟩).bind ?_
  rintro a u ⟨rfl, rfl⟩
  refine gives_modify ⟨hk, ?_⟩
  rw [CompileState.push, CodeRequest.ofWord_encode hk]
  rfl

/-- A place is appended; its position is given. -/
theorem gives_reserve (s : CompileState) :
    reserve.Gives s fun place s' => place = s.pos ∧ s' = s.push Word.placeholder := by
  refine (gives_get (P := fun a t => a = s ∧ t = s) ⟨rfl, rfl⟩).bind ?_
  rintro a t ⟨rfl, rfl⟩
  refine (gives_note (.reserve t.pos) t).bind ?_
  rintro _ t' rfl
  refine (gives_modify (P := fun _ t' => t' = t.push Word.placeholder) ?_).bind ?_
  · rw [CompileState.push, CodeRequest.ofWord_placeholder]
    rfl
  · rintro _ t' rfl
    exact gives_pure ⟨rfl, rfl⟩

/-- What is written into places that were reserved. -/
structure Patched (s s' : CompileState) (places : List Nat) (i : Instr) : Prop where
  fits : places ≠ [] → i.operand ≤ maxOperand
  pos : s'.pos = s.pos
  written : ∀ x ∈ places, x < s.pos → s'.words[x]? = some i.encode
  others : ∀ x, x ∉ places → s'.words[x]? = s.words[x]?
  lines : s'.frame.builder.lines = s.frame.builder.lines
  constants : s'.constants = s.constants
  loops : s'.frame.loops = s.frame.loops
  tries : s'.frame.tries = s.frame.tries
  file : s'.file = s.file
  codes : s'.codes = s.codes
  requests : s'.frame.requests = (places.map (.patch · i)).reverse ++ s.frame.requests

theorem gives_patch (place : Nat) (op : Opcode) (target : Nat) (s : CompileState) :
    (patch place op target).Gives s fun _ s' => Patched s s' [place] ⟨op, target⟩ := by
  refine gives_encoded.bind ?_
  rintro w t ⟨hk, rfl, rfl⟩
  refine (gives_note (.patch place ⟨op, target⟩) t).bind ?_
  rintro _ t' rfl
  refine gives_modify ⟨fun _ => hk, ?_, ?_, ?_, rfl, rfl, rfl, rfl, rfl, rfl, rfl⟩
  · simp [CompileState.pos, CompileState.words, CodeBuilder.patch, CompileState.noted]
  · intro x hx hlt
    obtain rfl := List.mem_singleton.mp hx
    exact Array.getElem?_setIfInBounds_self_of_lt hlt
  · intro x hx
    exact Array.getElem?_setIfInBounds_ne fun h => hx (by simp [h])

theorem Patched.nil (s : CompileState) (i : Instr) : Patched s s [] i :=
  ⟨nofun, rfl, nofun, fun _ _ => rfl, rfl, rfl, rfl, rfl, rfl, rfl, rfl⟩

theorem Patched.append {s s' s'' : CompileState} {ps qs : List Nat} {i : Instr}
    (h : Patched s s' ps i) (h' : Patched s' s'' qs i) : Patched s s'' (ps ++ qs) i where
  fits hne := by
    by_cases hps : ps = []
    · exact h'.fits (by simpa [hps] using hne)
    · exact h.fits hps
  pos := h'.pos.trans h.pos
  written x hx hlt := by
    by_cases hq : x ∈ qs
    · exact h'.written x hq (h.pos ▸ hlt)
    · rw [h'.others x hq]
      exact h.written x ((List.mem_append.mp hx).resolve_right hq) hlt
  others x hx := by
    rw [List.mem_append, not_or] at hx
    exact (h'.others x hx.2).trans (h.others x hx.1)
  lines := h'.lines.trans h.lines
  constants := h'.constants.trans h.constants
  loops := h'.loops.trans h.loops
  tries := h'.tries.trans h.tries
  file := h'.file.trans h.file
  codes := h'.codes.trans h.codes
  requests := by simp [h'.requests, h.requests]

/-- All places are written. -/
theorem gives_patchAll (places : List Nat) (op : Opcode) (target : Nat) (s : CompileState) :
    (places.forM fun place => patch place op target).Gives s fun _ s' =>
      Patched s s' places ⟨op, target⟩ := by
  induction places generalizing s with
  | nil => exact gives_pure (.nil s _)
  | cons place places ih =>
    refine (gives_patch place op target s).bind fun _ t h => ?_
    exact (ih t).mono fun _ s' h' => h.append h'

theorem gives_patchHere (op : Opcode) (places : List Nat) (s : CompileState) :
    (patchHere op places).Gives s fun _ s' => Patched s s' places ⟨op, s.pos⟩ := by
  refine (gives_position s).bind ?_
  rintro p t ⟨rfl, rfl⟩
  exact gives_patchAll places op t.pos t

/-- Without places nothing happens. -/
theorem gives_patchHere_nil (op : Opcode) (s : CompileState) :
    (patchHere op []).Gives s fun _ s' => s' = s := by
  refine (gives_position s).bind ?_
  rintro p t ⟨rfl, rfl⟩
  exact gives_pure rfl

section Patched

variable {s s' r : CompileState} {ps : List Nat} {i : Instr}

theorem Patched.refines (h : Patched s s' ps i)
    (hp : ∀ x ∈ ps, s.words[x]? = some Word.placeholder) : s.Refines s' where
  words x w hx hw := by
    rw [h.others x, hx]
    intro hmem
    exact hw (Option.some.inj (hx.symm.trans (hp x hmem)))
  constants i k hk := by rwa [h.constants]

/-- A place that was written holds its instruction in the finished code object. -/
theorem Patched.instr? (h : Patched s s' ps i) {v : CodeView} (hv : v.Completes s') {x : Nat}
    (hx : x ∈ ps) (hlt : x < s.pos) : v.instr? x = some i :=
  hv.instr? (h.fits (List.ne_nil_of_mem hx)) (h.written x hx hlt)

/-- Other places are still to be written. -/
theorem Patched.placeholder (h : Patched s s' ps i) {x : Nat} (hx : x ∉ ps)
    (hw : s.words[x]? = some Word.placeholder) : s'.words[x]? = some Word.placeholder := by
  rw [h.others x hx, hw]

/-- Writing into places of a stretch does not touch what was before the stretch. -/
theorem Patched.grows (h : Patched s s' ps i) (hg : r.Grows s) (hp : ∀ x ∈ ps, r.pos ≤ x) :
    r.Grows s' where
  pos := h.pos ▸ hg.pos
  words x hx := by
    rw [h.others x fun hmem => Nat.not_le_of_lt hx (hp x hmem)]
    exact hg.words x hx
  constants i k hk := h.constants ▸ hg.constants i k hk
  sane hs := by
    obtain ⟨hlines, hkinds⟩ := hg.sane hs
    refine ⟨?_, h.constants ▸ hkinds⟩
    rw [h.lines, h.pos, hlines]

theorem Patched.codesOk_iff (h : Patched s s' ps i) : s'.CodesOk ↔ s.CodesOk := by
  unfold CompileState.CodesOk
  rw [h.constants]

end Patched

end Compile

/-! ## Constants -/

theorem Constant.eq_of_same {a b : Constant} (h : a.same b = true) : a = b := by
  cases a <;> cases b <;> simp_all [Constant.same]

/-- One instruction was written, and perhaps a constant added for it. -/
structure CompileState.Wrote (s s' : CompileState) (i : Instr) : Prop where
  fits : i.operand ≤ maxOperand
  grows : s.Grows s'
  pos : s'.pos = s.pos + 1
  word : s'.words[s.pos]? = some i.encode
  loops : s'.frame.loops = s.frame.loops

theorem CompileState.Wrote.instr? {s s' : CompileState} {i : Instr} (h : s.Wrote s' i)
    {v : CodeView} (hv : v.Completes s') : v.instr? s.pos = some i :=
  hv.instr? h.fits h.word

namespace Compile

theorem wrote_emit (op : Opcode) (k : Nat) (s : CompileState) :
    (emit op k).Gives s fun _ s' => s.Wrote s' ⟨op, k⟩ ∧ s'.constants = s.constants := by
  refine (gives_emit op k s).mono ?_
  rintro _ s' ⟨hk, rfl⟩
  exact ⟨⟨hk, s.grows_push _, s.pos_push _, s.getElem?_push _, rfl⟩, rfl⟩

/-- The code object in the making after a constant was looked up or added. -/
theorem addConstant_cases {k : Constant} {b b' : CodeBuilder} {i : Nat}
    (h : b.addConstant k = (i, b')) :
    b'.constants[i]? = some k ∧ b'.words = b.words ∧ b'.lines = b.lines ∧
      (∀ (j : Nat) k', b.constants[j]? = some k' → b'.constants[j]? = some k') ∧
      ∀ k' ∈ b'.constants, k' ∈ b.constants ∨ k' = k := by
  unfold CodeBuilder.addConstant at h
  split at h
  · rename_i j hj
    obtain ⟨rfl, rfl⟩ := Prod.mk.inj h
    obtain ⟨hlt, hsame, -⟩ := Array.findIdx?_eq_some_iff_getElem.mp hj
    refine ⟨?_, rfl, rfl, fun _ _ h => h, fun _ h => .inl h⟩
    rw [Array.getElem?_eq_getElem hlt, Constant.eq_of_same hsame]
  · obtain ⟨rfl, rfl⟩ := Prod.mk.inj h
    refine ⟨by simp, rfl, rfl, fun i k' h => ?_, fun k' h => ?_⟩
    · obtain ⟨hlt, -⟩ := Array.getElem?_eq_some_iff.mp h
      rw [Array.getElem?_push, if_neg (Nat.ne_of_lt hlt), h]
    · simpa using h

/-- An instruction is written whose operand is the index of a constant. -/
theorem wrote_emitWith (op : Opcode) {k : Constant} (hk : k ≠ .noCode ∧ ∀ tag, k ≠ .unknown tag)
    (s : CompileState) :
    (emitWith op k).Gives s fun _ s' => ∃ i, s.Wrote s' ⟨op, i⟩ ∧ s'.constants[i]? = some k ∧
      ∀ k' ∈ s'.constants, k' ∈ s.constants ∨ k' = k := by
  refine (gives_get (P := fun a t => a = s ∧ t = s) ⟨rfl, rfl⟩).bind ?_
  rintro a t ⟨rfl, rfl⟩
  obtain ⟨⟨i, builder⟩, hadded⟩ : ∃ added, t.frame.builder.addConstant k = added := ⟨_, rfl⟩
  obtain ⟨hget, hwords, hlines, hkeep, hmem⟩ := addConstant_cases hadded
  rw [hadded]
  refine (gives_set (P := fun _ t' => t' = { t with frame := { t.frame with builder } }) rfl).bind
    ?_
  rintro _ t' rfl
  refine (gives_emit op i _).mono ?_
  rintro _ s' ⟨hi, rfl⟩
  have hgrows : t.Grows { t with frame := { t.frame with builder } } := by
    refine ⟨?_, ?_, hkeep, ?_⟩
    · simp [CompileState.pos, CompileState.words, hwords]
    · intro x _
      simp [CompileState.words, hwords]
    · rintro ⟨hl, hkinds⟩
      refine ⟨?_, fun k' hk' => ?_⟩
      · simpa [CompileState.pos, CompileState.words, hwords, hlines] using hl
      · rcases hmem k' hk' with h | rfl
        · exact hkinds k' h
        · exact hk
  have hpos : CompileState.pos { t with frame := { t.frame with builder } } = t.pos := by
    simp [CompileState.pos, CompileState.words, hwords]
  refine ⟨i, ⟨hi, hgrows.trans (CompileState.grows_push _ _), ?_, ?_, rfl⟩, hget, hmem⟩
  · rw [CompileState.pos_push, hpos]
  · rw [← hpos]
    exact CompileState.getElem?_push _ _

end Compile

end Toolchain

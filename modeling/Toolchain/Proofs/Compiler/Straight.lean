import Toolchain.Proofs.Compiler.Emission

/-!
# Straight code

The code of an expression is entered at its first instruction and left behind its last one. It takes
some values from the stack and leaves others in their place; what lies below is not touched. While
such code is being written it may have places from which it will jump to one common target.

## Main definitions

* `CodeView.Path`: a stretch that takes some values and leaves others
* `CodeView.Fork`: the same, with jumps to one target behind it
* `Compile.Straight`, `Compile.Slotted`: what was written is such a stretch
* `Compile.Emits`, `Compile.Opens`: steps that write such a stretch

## Main results

* `CodeView.Path.trans`, `CodeView.Fork.trans`: stretches one after the other
* `Compile.Slotted.close`: with its places written a stretch is straight
* `Compile.Emits.bind`: steps one after the other
-/

namespace Toolchain

namespace Instr

/-- An instruction that leads only to the next one and refers to nothing. -/
def isPlain (i : Instr) : Bool :=
  match i.op with
  | .subscr | .binary | .unary | .compare | .loadSpecial | .format =>
    (operandLimit? i.op).all (i.operand ≤ ·)
  | .build =>
    (splitBuild i.operand).1 < BuildKind.slice.number ||
      (splitBuild i.operand).1 == BuildKind.slice.number && (splitBuild i.operand).2 == 3
  | .dup => i.operand == 1 || i.operand == 2
  | .rot => i.operand == 2 || i.operand == 3
  | .call | .pop | .iter | .handle => true
  | _ => false

theorem flows_of_goes_on {i : Instr} (hj : i.op.isJump = false) (ht : i.op.terminates = false)
    (p d : Nat) : i.flows p d = [(p + 1, i.stackAfter d)] := by
  rcases i with ⟨op, k⟩
  cases op <;> simp_all [flows, Opcode.isJump, Opcode.terminates]

theorem isPlain_goes_on {i : Instr} (h : i.isPlain = true) :
    i.op.isJump = false ∧ i.op.terminates = false := by
  rcases i with ⟨op, k⟩
  cases op <;> simp_all [isPlain, Opcode.isJump, Opcode.terminates]

theorem encoded_of_isPlain {i : Instr} (h : i.isPlain = true) (v : CodeView) (p : Nat) :
    v.Encoded p i := by
  rcases i with ⟨op, k⟩
  cases op with
  | subscr | binary | unary | compare | loadSpecial | format | build | dup | rot | call | pop | iter
  | handle =>
    simp only [isPlain, operandLimit?, Option.all_some, decide_eq_true_eq, Bool.or_eq_true,
      Bool.and_eq_true, beq_iff_eq] at h
    constructor
    all_goals simp [Opcode.isJump, Opcode.usesName, operandLimit?, h]
    try omega
  | _ => cases h

end Instr

namespace CodeView

variable {v : CodeView} {p q m n k j : Nat}

/-- An instruction that uses a name needs the name only. -/
theorem encoded_of_usesName {op : Opcode} {t : Text} (h : op.usesName = true)
    (hname : v.constants[k]? = some (.name t)) : v.Encoded p ⟨op, k⟩ := by
  cases op with
  | loadName | storeName | deleteName | loadAttr | storeAttr | deleteAttr | importModule
  | importFrom =>
    exact ⟨nofun, nofun, fun _ => ⟨t, hname⟩, nofun, nofun, nofun, nofun, nofun⟩
  | _ => cases h

/-- A stretch that takes `n` values from the stack and leaves `k` in their place. -/
structure Path (v : CodeView) (p q n k : Nat) : Prop where
  runs : ∀ d, v.Runs p q (d + n) (Only q (d + k))
  encoded : q < v.words.size → v.EncodedOn p q

theorem Path.le (h : v.Path p q n k) : p ≤ q := (h.runs 0).le

theorem Path.nil (p n : Nat) : v.Path p p n n := ⟨fun _ => .nil p _, fun _ => v.encodedOn_nil p⟩

theorem Path.trans (h₁ : v.Path p m n j) (h₂ : v.Path m q j k) : v.Path p q n k where
  runs d := (h₁.runs d).seq (h₂.runs d)
  encoded hq := (h₁.encoded (Nat.lt_of_le_of_lt h₂.le hq)).append (h₂.encoded hq)

/-- What lies below the values is not touched. -/
theorem Path.frame (h : v.Path p q n k) (j : Nat) : v.Path p q (n + j) (k + j) where
  runs d := by
    have := h.runs (d + j)
    rwa [show d + j + n = d + (n + j) by omega, show d + j + k = d + (k + j) by omega] at this
  encoded := h.encoded

/-- An instruction that leads only to the next one. -/
theorem Path.instr {i : Instr} (hi : v.instr? p = some i) (hj : i.op.isJump = false)
    (ht : i.op.terminates = false) (he : v.Encoded p i) :
    v.Path p (p + 1) i.stackNeed i.stackYield where
  runs d := by
    have hflows := Instr.flows_of_goes_on hj ht p (d + i.stackNeed)
    have hafter : i.stackAfter (d + i.stackNeed) = d + i.stackYield := by
      unfold Instr.stackAfter
      omega
    refine (Runs.instr hi (Nat.le_add_left _ _) ?_).congr ?_
    · intro a ha
      rw [hflows] at ha
      simp at ha
    · intro x a
      simp [hflows, hafter, Only]
  encoded _ := encodedOn_one hi he

/-- A function or a class is made from a code object that was loaded just before. -/
theorem Path.make {op : Opcode} {i : Nat} {c : Code} (hi : v.instr? p = some ⟨.loadConst, i⟩)
    (hc : v.constants[i]? = some (.code c)) (hop : op = .makeFunction ∨ op = .makeClass)
    (hm : v.instr? (p + 1) = some ⟨op, n⟩) : v.Path p (p + 2) n 1 := by
  obtain ⟨hlt, -⟩ := Array.getElem?_eq_some_iff.mp hc
  have hload : v.Path p (p + 1) 0 1 := by
    refine Path.instr hi rfl rfl ⟨?_, fun _ => hlt, ?_, ?_, ?_, ?_, ?_, ?_⟩ <;>
      simp [Opcode.isJump, Opcode.usesName, Instr.operandLimit?]
  have hmake : v.Path (p + 1) (p + 2) (n + 1) 1 := by
    have hloads : v.loadsCode p = true := by simp [loadsCode, hi, hc, Constant.isCode]
    rcases hop with rfl | rfl
    all_goals
      refine Path.instr hm rfl rfl ⟨?_, ?_, ?_, ?_, ?_, ?_, ?_, fun _ => ⟨by omega, hloads⟩⟩ <;>
        simp [Opcode.isJump, Opcode.usesName, Instr.operandLimit?]
  have hframed := hload.frame n
  rw [Nat.zero_add, Nat.add_comm 1 n] at hframed
  exact hframed.trans hmake

/-- A stretch that takes `n` values and leaves `k` in their place, or, if there are jumps in it,
leads to `t` with `e` in their place. -/
structure Fork (v : CodeView) (p q n k : Nat) (jumps : Prop) (t e : Nat) : Prop where
  runs : ∀ d, v.Runs p q (d + n) fun x a => x = q ∧ a = d + k ∨ jumps ∧ x = t ∧ a = d + e
  encoded : q < v.words.size → t < v.words.size → v.EncodedOn p q

theorem Path.fork (h : v.Path p q n k) (t e : Nat) : v.Fork p q n k False t e where
  runs d := (h.runs d).congr fun x a => by simp [Only]
  encoded hq _ := h.encoded hq

theorem Fork.le {jumps : Prop} {t e : Nat} (h : v.Fork p q n k jumps t e) : p ≤ q := (h.runs 0).le

/-- Jumps to the end of a stretch are no exits of their own. -/
theorem Fork.path {jumps : Prop} (h : v.Fork p q n k jumps q k) : v.Path p q n k where
  runs d := (h.runs d).congr fun x a => by
    exact ⟨fun h => h.elim id And.right, .inl⟩
  encoded hq := h.encoded hq hq

theorem Fork.trans {J₁ J₂ : Prop} {t e : Nat} (h₁ : v.Fork p m n j J₁ t e)
    (h₂ : v.Fork m q j k J₂ t e) (ht : q ≤ t) : v.Fork p q n k (J₁ ∨ J₂) t e where
  runs d := by
    have hle₁ := h₁.le
    have hle₂ := h₂.le
    refine (h₁.runs d).link (h₂.runs d) (.inl ⟨rfl, rfl⟩) ?_ ?_ ?_
    · rintro x a (h | ⟨hJ, h⟩)
      · exact .inl h
      · exact .inr (.inr ⟨.inl hJ, h⟩)
    · rintro x a (h | ⟨hJ, h⟩)
      · exact .inl (.inl h)
      · exact .inl (.inr ⟨.inr hJ, h⟩)
    · rintro x a (⟨rfl, rfl⟩ | ⟨hJ | hJ, rfl, rfl⟩)
      · exact ⟨.inr (.inl ⟨rfl, rfl⟩), by omega⟩
      · exact ⟨.inl (.inr ⟨hJ, rfl, rfl⟩), by omega⟩
      · exact ⟨.inr (.inr ⟨hJ, rfl, rfl⟩), by omega⟩
  encoded hq ht' :=
    (h₁.encoded (Nat.lt_of_le_of_lt h₂.le hq) ht').append (h₂.encoded hq ht')

theorem Fork.frame {J : Prop} {t e : Nat} (h : v.Fork p q n k J t e) (j : Nat) :
    v.Fork p q (n + j) (k + j) J t (e + j) where
  runs d := by
    have := h.runs (d + j)
    rw [show d + j + n = d + (n + j) by omega] at this
    refine this.congr fun x a => ?_
    rw [show d + j + k = d + (k + j) by omega, show d + j + e = d + (e + j) by omega]
  encoded := h.encoded

/-- A jump that depends on a value. -/
theorem Fork.jumpIf {op : Opcode} {t : Nat} (hop : op = .jumpIfFalse ∨ op = .jumpIfTrue)
    (hi : v.instr? p = some ⟨op, t⟩) (ht : p < t) : v.Fork p (p + 1) 1 0 True t 0 where
  runs d := by
    have hflows : Instr.flows ⟨op, t⟩ p (d + 1) = [(t, d), (p + 1, d)] := by
      rcases hop with rfl | rfl <;> rfl
    refine (Runs.instr hi ?_ fun a => ?_).congr fun x a => ?_
    · rcases hop with rfl | rfl <;> exact Nat.le_add_left 1 d
    · simp only [hflows, List.mem_cons, Prod.mk.injEq, List.not_mem_nil, or_false]
      omega
    · simp only [hflows, List.mem_cons, Prod.mk.injEq, List.not_mem_nil, or_false, true_and]
      omega
  encoded _ ht' := encodedOn_one hi (encoded_jump (by rcases hop with rfl | rfl <;> rfl) ht')

/-- The next value is asked for. -/
theorem Fork.next {t : Nat} (hi : v.instr? p = some ⟨.next, t⟩) (ht : p < t) :
    v.Fork p (p + 1) 1 2 True t 1 where
  runs d := by
    have hflows : Instr.flows ⟨.next, t⟩ p (d + 1) = [(t, d + 1), (p + 1, d + 2)] := rfl
    refine (Runs.instr hi (Nat.le_add_left 1 d) fun a => ?_).congr fun x a => ?_
    · simp only [hflows, List.mem_cons, Prod.mk.injEq, List.not_mem_nil, or_false]
      omega
    · simp only [hflows, List.mem_cons, Prod.mk.injEq, List.not_mem_nil, or_false, true_and]
      omega
  encoded _ ht' := encodedOn_one hi (encoded_jump rfl ht')

/-- Two ways that come together: one jumps over the other. -/
theorem Fork.join {J : Prop} {e r : Nat} (h : v.Fork p q n k J (q + 1) e) (hJ : J)
    (hj : v.instr? q = some ⟨.jump, r⟩) (h' : v.Path (q + 1) r e k) : v.Path p r n k where
  runs d := by
    have hle := h.le
    have hle' := h'.le
    have hflows : ∀ a, Instr.flows ⟨.jump, r⟩ q a = [(r, a)] := fun a => by simp [Instr.flows,
      Opcode.terminates, Instr.stackAfter, Instr.stackNeed, Instr.stackYield]
    have hjump : v.Runs q (q + 1) (d + k) (Only r (d + k)) := by
      refine (Runs.instr hj (Nat.zero_le _) fun a => ?_).congr fun x a => ?_
      · simp only [hflows, List.mem_singleton, Prod.mk.injEq]
        omega
      · simp only [hflows, List.mem_singleton, Prod.mk.injEq, Only]
    have hfirst : v.Runs p (q + 1) (d + n) fun x a => Only (q + 1) (d + e) x a ∨
        Only r (d + k) x a := by
      refine (h.runs d).link hjump (.inl ⟨rfl, rfl⟩) ?_ (fun x a h => .inl (.inr h)) ?_
      · rintro x a (h | ⟨-, h⟩)
        · exact .inl h
        · exact .inr (.inl h)
      · rintro x a (⟨rfl, rfl⟩ | ⟨rfl, rfl⟩)
        · exact ⟨.inl (.inr ⟨hJ, rfl, rfl⟩), by omega⟩
        · exact ⟨.inr ⟨rfl, rfl⟩, by omega⟩
    refine hfirst.link (h'.runs d) (.inl ⟨rfl, rfl⟩) (fun x a h => h) (fun x a h => .inl h) ?_
    rintro x a ⟨rfl, rfl⟩
    exact ⟨.inr ⟨rfl, rfl⟩, by omega⟩
  encoded hr := by
    have hle' := h'.le
    have hq := h.encoded (by omega) (by omega)
    exact (hq.append (encodedOn_one hj (encoded_jump rfl hr))).append (h'.encoded hr)

end CodeView

/-! ## What was written -/

/-- A stretch was written in which no loop is left, and all new code objects are valid. -/
structure CompileState.Keeps (s s' : CompileState) : Prop where
  grows : s.Grows s'
  loops : s'.frame.loops = s.frame.loops
  codes : s.CodesOk → s'.CodesOk

theorem CompileState.Keeps.trans {s t s' : CompileState} (h : s.Keeps t) (h' : t.Keeps s') :
    s.Keeps s' :=
  ⟨h.grows.trans h'.grows, h'.loops.trans h.loops, fun hs => h'.codes (h.codes hs)⟩

namespace Compile

variable {s t s' : CompileState} {n k j e : Nat} {op : Opcode} {slots slots' : List Nat}

/-- What was written takes `n` values and leaves `k` in their place. -/
structure Straight (s s' : CompileState) (n k : Nat) : Prop where
  keeps : s.Keeps s'
  path : ∀ v : CodeView, v.Completes s' → v.Path s.pos s'.pos n k

/-- What was written takes `n` values and leaves `k` in their place, or jumps from some places with
`e` in their place. -/
structure Slotted (s s' : CompileState) (slots : List Nat) (op : Opcode) (n k e : Nat) : Prop where
  keeps : s.Keeps s'
  reserved : ∀ x ∈ slots, s.pos ≤ x ∧ s'.words[x]? = some Word.placeholder
  fork : ∀ (v : CodeView) (target : Nat), v.Completes s' → s'.pos ≤ target →
    (∀ x ∈ slots, v.instr? x = some ⟨op, target⟩) →
    v.Fork s.pos s'.pos n k (slots ≠ []) target e

theorem Straight.trans (h : Straight s t n j) (h' : Straight t s' j k) : Straight s s' n k :=
  ⟨h.keeps.trans h'.keeps, fun v hv =>
    (h.path v (hv.of_grows h'.keeps.grows)).trans (h'.path v hv)⟩

theorem Straight.frame (h : Straight s s' n k) (j : Nat) : Straight s s' (n + j) (k + j) :=
  ⟨h.keeps, fun v hv => (h.path v hv).frame j⟩

/-- Nothing was written. -/
theorem Straight.of_builder_eq (h : s'.frame.builder = s.frame.builder)
    (hl : s'.frame.loops = s.frame.loops) (n : Nat) : Straight s s' n n := by
  have hwords : s'.words = s.words := congrArg CodeBuilder.words h
  have hconstants : s'.constants = s.constants := congrArg CodeBuilder.constants h
  have hpos : s'.pos = s.pos := congrArg Array.size hwords
  refine ⟨⟨⟨Nat.le_of_eq hpos.symm, fun x _ => by rw [hwords], fun i k hk => by rwa [hconstants],
    fun hs => ?_⟩, hl,
    fun hs => ?_⟩, fun v _ => ?_⟩
  · exact ⟨by rw [h, hpos, hs.lines], hconstants ▸ hs.kinds⟩
  · unfold CompileState.CodesOk at *
    rwa [hconstants]
  · rw [hpos]
    exact .nil _ _

theorem Straight.of_frame_eq (h : s'.frame = s.frame) (n : Nat) : Straight s s' n n :=
  .of_builder_eq (by rw [h]) (by rw [h]) n

theorem Straight.slotted (h : Straight s s' n k) (op : Opcode) (e : Nat) :
    Slotted s s' [] op n k e :=
  ⟨h.keeps, nofun, fun v target hv _ _ => by simpa using (h.path v hv).fork target e⟩

theorem Slotted.trans (h : Slotted s t slots op n j e) (h' : Slotted t s' slots' op j k e) :
    Slotted s s' (slots ++ slots') op n k e where
  keeps := h.keeps.trans h'.keeps
  reserved x hx := by
    rcases List.mem_append.mp hx with hx | hx
    · exact ⟨(h.reserved x hx).1, h'.keeps.grows.getElem? (h.reserved x hx).2⟩
    · exact ⟨Nat.le_trans h.keeps.grows.pos (h'.reserved x hx).1, (h'.reserved x hx).2⟩
  fork v target hv htarget hslots := by
    have h₁ := h.fork v target (hv.of_grows h'.keeps.grows)
      (Nat.le_trans h'.keeps.grows.pos htarget) fun x hx => hslots x (List.mem_append_left _ hx)
    have h₂ := h'.fork v target hv htarget fun x hx => hslots x (List.mem_append_right _ hx)
    have hne : slots ++ slots' ≠ [] ↔ slots ≠ [] ∨ slots' ≠ [] := by
      rw [Ne, List.append_eq_nil_iff, not_and_or]
    rw [hne]
    exact h₁.trans h₂ htarget

theorem Slotted.frame (h : Slotted s s' slots op n k e) (j : Nat) :
    Slotted s s' slots op (n + j) (k + j) (e + j) :=
  ⟨h.keeps, h.reserved, fun v target hv ht hs => (h.fork v target hv ht hs).frame j⟩

/-- A stretch whose places were all written with jumps to its end, after more was written, is
straight. -/
theorem Slotted.close_after {u : CompileState} (h : Slotted s t slots op n k k)
    (h' : Straight t u k j) (hp : Patched u s' slots ⟨op, t.pos⟩) : Straight s s' n j where
  keeps :=
    { grows := hp.grows (h.keeps.grows.trans h'.keeps.grows) fun x hx => (h.reserved x hx).1
      loops := hp.loops.trans (h'.keeps.loops.trans h.keeps.loops)
      codes := fun hs => hp.codesOk_iff.mpr (h'.keeps.codes (h.keeps.codes hs)) }
  path v hv := by
    have hplace : ∀ x ∈ slots, u.words[x]? = some Word.placeholder := fun x hx =>
      h'.keeps.grows.getElem? (h.reserved x hx).2
    have hvu := hv.of_refines (hp.refines hplace)
    have hfork := h.fork v t.pos (hvu.of_grows h'.keeps.grows) (Nat.le_refl _) fun x hx =>
      hp.instr? hv hx (CompileState.lt_pos_of_getElem? (hplace x hx))
    rw [hp.pos]
    exact hfork.path.trans (h'.path v hvu)

/-- A stretch whose places were all written with jumps to its end is straight. -/
theorem Slotted.close (h : Slotted s t slots op n k k) (hp : Patched t s' slots ⟨op, t.pos⟩) :
    Straight s s' n k :=
  h.close_after (.of_frame_eq rfl k) hp

/-! ## Steps that write straight code -/

section Steps

variable {α β : Type} {m : Compile α} {f : α → Compile β}

/-- The step writes code that takes `n` values and leaves `k` in their place. -/
def Emits (m : Compile α) (n k : Nat) : Prop := ∀ s, m.Gives s fun _ s' => Straight s s' n k

/-- The step writes code that takes `n` values and leaves `k` in their place, with places for jumps
that leave `e` in their place. -/
def Opens (m : Compile (List Nat)) (op : Opcode) (n k e : Nat) : Prop :=
  ∀ s, m.Gives s fun slots s' => Slotted s s' slots op n k e

theorem Emits.bind (h : Emits m n j) (hf : ∀ a, Emits (f a) j k) : Emits (m >>= f) n k :=
  fun s => (h s).bind fun a t ht => (hf a t).mono fun _ _ ht' => ht.trans ht'

theorem Emits.frame (h : Emits m n k) (j : Nat) : Emits m (n + j) (k + j) :=
  fun s => (h s).mono fun _ _ ht => ht.frame j

theorem emits_pure (a : α) (n : Nat) : Emits (pure a) n n :=
  fun _ => gives_pure (.of_frame_eq rfl n)

theorem emits_failAt {code : ErrorCode} {pos : Position} {message : Message} :
    Emits (failAt code pos message : Compile α) n k :=
  fun _ => gives_failAt

theorem emits_get (n : Nat) : Emits get n n := fun _ => gives_get (.of_frame_eq rfl n)

theorem emits_setLine (line n : Nat) : Emits (setLine line) n n :=
  fun s => gives_modify (Straight.of_frame_eq (by rfl) n)

theorem straight_of_wrote {i : Instr} (h : s.Wrote s' i)
    (hj : i.op.isJump = false) (ht : i.op.terminates = false) (hcodes : s.CodesOk → s'.CodesOk)
    (he : ∀ v : CodeView, v.Completes s' → v.Encoded s.pos i) :
    Straight s s' i.stackNeed i.stackYield := by
  refine ⟨⟨h.grows, h.loops, hcodes⟩, fun v hv => ?_⟩
  rw [h.pos]
  exact .instr (h.instr? hv) hj ht (he v hv)

/-- An instruction that refers to nothing. -/
theorem emits_emit (op : Opcode) (a : Nat) (h : Instr.isPlain ⟨op, a⟩ = true) :
    Emits (emit op a) (Instr.stackNeed ⟨op, a⟩) (Instr.stackYield ⟨op, a⟩) := by
  intro s
  refine (wrote_emit op a s).mono fun _ s' ⟨hw, hconstants⟩ => ?_
  obtain ⟨hj, ht⟩ := Instr.isPlain_goes_on h
  refine straight_of_wrote hw hj ht ?_ fun v _ => Instr.encoded_of_isPlain h v s.pos
  unfold CompileState.CodesOk
  rw [hconstants]
  exact id

theorem codesOk_of_added {k : Constant} (hk : ∀ c, k ≠ .code c)
    (h : ∀ k' ∈ s'.constants, k' ∈ s.constants ∨ k' = k) (hs : s.CodesOk) : s'.CodesOk := by
  intro c hc
  rcases h _ hc with hc | hc
  · exact hs c hc
  · exact absurd hc.symm (hk c)

/-- An instruction with a name. -/
theorem emits_emitName (op : Opcode) (h : op.usesName = true) (name : String) :
    Emits (emitName op name) (Instr.stackNeed ⟨op, 0⟩) (Instr.stackYield ⟨op, 0⟩) := by
  intro s
  refine (wrote_emitWith op (k := .name name) (by simp) s).mono fun _ s' ⟨i, hw, hget, hadded⟩ => ?_
  have hcodes := codesOk_of_added (by simp) hadded
  have hencoded : ∀ v : CodeView, v.Completes s' → v.Encoded s.pos ⟨op, i⟩ := fun v hv =>
    CodeView.encoded_of_usesName h (hv.constants i _ hget)
  -- the operand has no effect on the stack
  cases op with
  | loadName | storeName | deleteName | loadAttr | storeAttr | deleteAttr | importModule
  | importFrom =>
    have hstraight := straight_of_wrote hw rfl rfl hcodes hencoded
    exact hstraight
  | _ => cases h

/-- A constant that is no code object. -/
theorem emits_emitConst {k : Constant} (hk : k ≠ .noCode ∧ ∀ tag, k ≠ .unknown tag)
    (hcode : ∀ c, k ≠ .code c) : Emits (emitConst k) 0 1 := by
  intro s
  refine (wrote_emitWith .loadConst hk s).mono fun _ s' ⟨i, hw, hget, hadded⟩ => ?_
  refine straight_of_wrote hw rfl rfl (codesOk_of_added hcode hadded) fun v hv => ?_
  obtain ⟨hlt, -⟩ := Array.getElem?_eq_some_iff.mp (hv.constants i _ hget)
  refine ⟨?_, fun _ => hlt, ?_, ?_, ?_, ?_, ?_, ?_⟩ <;>
    simp [Opcode.isJump, Opcode.usesName, Instr.operandLimit?]

/-- A place for a jump that depends on a value. -/
theorem gives_reserve_slotted (hop : op = .jumpIfFalse ∨ op = .jumpIfTrue) (s : CompileState) :
    reserve.Gives s fun place s' => Slotted s s' [place] op 1 0 0 := by
  refine (gives_reserve s).mono ?_
  rintro place s' ⟨rfl, rfl⟩
  refine ⟨⟨s.grows_push _, rfl, id⟩, ?_, ?_⟩
  · intro x hx
    obtain rfl := List.mem_singleton.mp hx
    exact ⟨Nat.le_refl _, s.getElem?_push _⟩
  · intro v target hv ht hslots
    rw [CompileState.pos_push] at ht ⊢
    have := CodeView.Fork.jumpIf hop (hslots s.pos (List.mem_singleton_self _)) ht
    simpa using this

/-- A place where the next value is asked for. -/
theorem gives_reserve_next (s : CompileState) :
    reserve.Gives s fun place s' => Slotted s s' [place] .next 1 2 1 := by
  refine (gives_reserve s).mono ?_
  rintro place s' ⟨rfl, rfl⟩
  refine ⟨⟨s.grows_push _, rfl, id⟩, ?_, ?_⟩
  · intro x hx
    obtain rfl := List.mem_singleton.mp hx
    exact ⟨Nat.le_refl _, s.getElem?_push _⟩
  · intro v target hv ht hslots
    rw [CompileState.pos_push] at ht ⊢
    have := CodeView.Fork.next (hslots s.pos (List.mem_singleton_self _)) ht
    simpa using this

end Steps

end Compile

end Toolchain

import Toolchain.Proofs.Compiler.ExpressionLayout

/-!
# The layout of statements

The code that the compiler writes for a statement has the layout of the statement. The jumps out of
the loop around it are open until the loop ends; they are kept with the loop.

## Main definitions

* `CodeView.Leaving`: places hold the jumps out of a loop
* `CompileState.Holding`: how many handlers a jump out of a round of the loop has to remove
* `Compile.Placed`: a stretch whose jumps out of the loop around it are kept with the loop
* `Compile.Puts`: a step that writes such a stretch

## Main results

* `Compile.puts_stmt`, `Compile.puts_body`: the code of statements
-/

namespace Toolchain

/-- The places hold the jumps out of a loop, each with whether it leaves the loop. -/
def CodeView.Leaving (v : CodeView) (loop : Option LoopTarget)
    (leaves : List (Bool × Nat)) : Prop :=
  ∀ l ∈ leaves, ∃ t, loop = some t ∧
    v.instr? l.2 = some ⟨.jump, if l.1 then t.exit else t.again⟩

theorem CodeView.Leaving.left {v : CodeView} {loop : Option LoopTarget}
    {leaves leaves' : List (Bool × Nat)} (h : v.Leaving loop (leaves ++ leaves')) :
    v.Leaving loop leaves :=
  fun l hl => h l (List.mem_append_left _ hl)

theorem CodeView.Leaving.right {v : CodeView} {loop : Option LoopTarget}
    {leaves leaves' : List (Bool × Nat)} (h : v.Leaving loop (leaves ++ leaves')) :
    v.Leaving loop leaves' :=
  fun l hl => h l (List.mem_append_right _ hl)

namespace CompileState

/-- The number of `try` statements around the innermost loop. -/
def loopDepth (s : CompileState) : Nat := (s.frame.loops.head?.map (·.tryDepth)).getD 0

/-- A jump out of a round of the innermost loop has to remove `held` handlers. -/
structure Holding (s : CompileState) (held : Nat) : Prop where
  depth : s.loopDepth ≤ s.frame.tries.length
  held : Compile.registered (s.frame.tries.take (s.frame.tries.length - s.loopDepth)) = held

theorem Holding.congr {s s' : CompileState} {held : Nat} (h : s.Holding held)
    (hd : s'.loopDepth = s.loopDepth) (ht : s'.frame.tries = s.frame.tries) : s'.Holding held := by
  obtain ⟨hdepth, hheld⟩ := h
  refine ⟨?_, ?_⟩
  · rw [hd, ht]
    exact hdepth
  · rw [hd, ht]
    exact hheld

/-- The innermost `try` statement is in a phase. -/
theorem Holding.phase {s s' : CompileState} {held : Nat} (h : s.Holding held) (phase : TryPhase)
    (hd : s'.loopDepth = s.loopDepth) (ht : s'.frame.tries = phase :: s.frame.tries) :
    s'.Holding (held + if phase = .final then 0 else 1) := by
  have hdepth := h.depth
  refine ⟨?_, ?_⟩
  · rw [hd, ht, List.length_cons]
    omega
  · rw [hd, ht, List.length_cons, Nat.succ_sub hdepth, List.take_succ_cons, Compile.registered,
      List.countP_cons, ← Compile.registered, h.held]
    cases phase <;> simp

/-- A code object in the making is not inside anything. -/
theorem holding_of_empty {s : CompileState} (h : s.frame = {}) : s.Holding 0 := by
  refine ⟨?_, ?_⟩
  · simp [loopDepth, h]
  · simp [h, Compile.registered]

/-- A round of a loop begins. -/
def enterLoop (s : CompileState) : CompileState :=
  { s with frame := { s.frame with
    loops := { tryDepth := s.frame.tries.length } :: s.frame.loops } }

/-- The innermost loop ends. -/
def leaveLoop (s : CompileState) : CompileState :=
  { s with frame := { s.frame with loops := s.frame.loops.drop 1 } }

theorem holding_enterLoop (s : CompileState) : s.enterLoop.Holding 0 := by
  refine ⟨?_, ?_⟩
  · simp [enterLoop, loopDepth]
  · simp [enterLoop, loopDepth, Compile.registered]

end CompileState

namespace Compile

variable {s t s' : CompileState} {n n' held held' : Nat} {slots slots' : List Nat}
  {leaves leaves' : List (Bool × Nat)} {us us' : List CodeUnit}
  {L L' : Text → CodeView → Option LoopTarget → Nat → Prop}

/-- A stretch was written. Places of it are open; those that are jumps out of the loop around it are
kept with the loop. Every finished code object in which these are written shows the layout. -/
structure Placed (s s' : CompileState) (n : Nat) (slots : List Nat) (leaves : List (Bool × Nat))
    (us : List CodeUnit) (L : Text → CodeView → Option LoopTarget → Nat → Prop) : Prop where
  stretch : Stretch s s' n (slots ++ leaves.map Prod.snd) us
  loops : s'.frame.loops = s.frame.loops.modifyHead (·.add leaves)
  inLoop : s.frame.loops = [] → leaves = []
  layout : ∀ (v : CodeView) loop, v.Completes s' → v.Leaving loop leaves → L s.file v loop s.pos

theorem modifyHead_add_nil (loops : List LoopFrame) :
    loops.modifyHead (·.add []) = loops := by
  cases loops with
  | nil => rfl
  | cons l ls => rw [List.modifyHead_cons, LoopFrame.add_nil]

/-- A stretch without jumps out of a loop. -/
theorem Stretch.placed (h : Stretch s s' n slots us) (hl : s'.frame.loops = s.frame.loops)
    (hL : ∀ (v : CodeView) loop, v.Completes s' → L s.file v loop s.pos) :
    Placed s s' n slots [] us L where
  stretch := by simpa using h
  loops := by rw [hl, modifyHead_add_nil]
  inLoop _ := rfl
  layout v loop hv _ := hL v loop hv

theorem Drawn.placed {M : Text → CodeView → Nat → Prop} (h : Drawn s s' n us M) :
    Placed s s' n [] [] us fun file v _ p => M file v p :=
  h.stretch.placed h.around.loops fun v _ hv => h.layout v hv

theorem Draft.placed {op : Opcode} {D : Text → CodeView → Nat → Nat → Prop}
    (h : Draft s s' n slots us op D) :
    Placed s s' n slots [] us fun file v _ p =>
      ∀ target, (∀ x ∈ slots, v.instr? x = some ⟨op, target⟩) → D file v target p :=
  h.stretch.placed h.around.loops fun v _ hv target => h.layout v target hv

/-- Nothing was written. -/
theorem Placed.idle (hb : s'.frame.builder = s.frame.builder)
    (hr : s'.frame.requests = s.frame.requests) (hf : s'.file = s.file)
    (hl : s'.frame.loops = s.frame.loops) (hc : s'.codes = s.codes) :
    Placed s s' 0 [] [] [] fun _ _ _ _ => True :=
  (Stretch.idle hb hr hf hc).placed hl fun _ _ _ => trivial

theorem perm_slots_leaves (a b c d : List Nat) :
    ((a ++ b) ++ (c ++ d)).Perm ((a ++ c) ++ (b ++ d)) := by
  rw [List.perm_iff_count]
  intro x
  simp only [List.count_append]
  omega

theorem Placed.trans (h : Placed s t n slots leaves us L)
    (h' : Placed t s' n' slots' leaves' us' L') :
    Placed s s' (n + n') (slots ++ slots') (leaves ++ leaves') (us ++ us')
      fun file v loop p => L file v loop p ∧ L' file v loop (p + n) where
  stretch := by
    refine (h.stretch.trans h'.stretch).congr rfl ?_ fun _ => Iff.rfl
    rw [List.map_append]
    exact perm_slots_leaves _ _ _ _
  loops := modifyHead_add_append h.loops h'.loops
  inLoop hs := by
    rw [h.inLoop hs, h'.inLoop (by rw [h.loops, hs, List.modifyHead_nil]), List.append_nil]
  layout v loop hv hleaving := by
    have hnext := h'.layout v loop hv hleaving.right
    rw [h.stretch.file, h.stretch.pos] at hnext
    exact ⟨h.layout v loop (h'.stretch.completes hv) hleaving.left, hnext⟩

theorem Placed.sized {N : Nat} {X : List Nat} {U : List CodeUnit}
    (h : Placed s s' n slots leaves us L) (hn : n = N) (hs : slots.Perm X)
    (hu : ∀ u, u ∈ us ↔ u ∈ U) : Placed s s' N X leaves U L where
  stretch := h.stretch.congr hn (hs.append_right _) hu
  loops := h.loops
  inLoop := h.inLoop
  layout := h.layout

theorem Placed.shows (h : Placed s s' n slots leaves us L)
    (hL : ∀ file v loop, L file v loop s.pos → L' file v loop s.pos) :
    Placed s s' n slots leaves us L' where
  stretch := h.stretch
  loops := h.loops
  inLoop := h.inLoop
  layout v loop hv hleaving := hL _ _ _ (h.layout v loop hv hleaving)

/-- Nothing was written after a stretch. -/
theorem Placed.and_idle (h : Placed s t n slots leaves us L)
    (hb : s'.frame.builder = t.frame.builder) (hr : s'.frame.requests = t.frame.requests)
    (hf : s'.file = t.file) (hl : s'.frame.loops = t.frame.loops)
    (hc : s'.codes = t.codes) : Placed s s' n slots leaves us L where
  stretch := h.stretch.and_idle hb hr hf hc
  loops := hl.trans h.loops
  inLoop := h.inLoop
  layout v loop hv := h.layout v loop ((Stretch.idle hb hr hf hc).completes hv)

/-- Some of the open places were written. -/
theorem Placed.close {places : List Nat} {i : Instr}
    (h : Placed s t n (places ++ slots) leaves us L) (hp : Patched t s' places i)
    (hop : i.op.takesConstant = false) :
    Placed s s' n slots leaves us fun file v loop p =>
      L file v loop p ∧ ∀ x ∈ places, v.instr? x = some i := by
  have hstretch : Stretch s t n (places ++ (slots ++ leaves.map Prod.snd)) us := by
    rw [← List.append_assoc]
    exact h.stretch
  refine ⟨hstretch.close hp hop, hp.loops.trans h.loops, h.inLoop,
    fun v loop hv hleaving => ⟨?_, ?_⟩⟩
  · exact h.layout v loop (hstretch.completes_of_patched hp hv) hleaving
  · exact fun x hx => hstretch.instr?_of_patched hp hv hx

/-- One of the open places was written. -/
theorem Placed.close_one {x : Nat} {i : Instr} (h : Placed s t n (x :: slots) leaves us L)
    (hp : Patched t s' [x] i) (hop : i.op.takesConstant = false) :
    Placed s s' n slots leaves us fun file v loop p => L file v loop p ∧ v.instr? x = some i :=
  have hopen : Placed s t n ([x] ++ slots) leaves us L := h
  (hopen.close hp hop).shows fun _ _ _ hL => ⟨hL.1, hL.2 x (List.mem_singleton_self x)⟩

/-- A place was appended. -/
theorem placed_reserve (s : CompileState) :
    reserve.Gives s fun place s' => place = s.pos ∧ SameAround s s' ∧
      Placed s s' 1 [s.pos] [] [] fun _ _ _ _ => True := by
  refine (draft_reserve .jump s).mono ?_
  rintro place s' ⟨rfl, hs⟩
  exact ⟨rfl, hs.around, hs.stretch.placed hs.around.loops fun _ _ _ => trivial⟩

theorem loopDepth_modifyHead (hl : s'.frame.loops = s.frame.loops.modifyHead (·.add leaves)) :
    s'.loopDepth = s.loopDepth := by
  unfold CompileState.loopDepth
  rw [hl]
  cases s.frame.loops with
  | nil => rfl
  | cons l ls => rfl

theorem Placed.holding (h : Placed s s' n slots leaves us L)
    (ht : s'.frame.tries = s.frame.tries) (hs : s.Holding held) : s'.Holding held :=
  hs.congr (loopDepth_modifyHead h.loops) ht

theorem SameAround.holding (h : SameAround s s') (hs : s.Holding held) : s'.Holding held := by
  refine hs.congr ?_ h.tries
  unfold CompileState.loopDepth
  rw [h.loops]

/-! ## Steps -/

section Steps

variable {α β : Type} {m : Compile α} {k : α → Compile β}

/-- The step writes a stretch where `held` handlers have to be removed before a jump out of the
round of the loop around it. -/
def Puts (m : Compile α) (held n : Nat) (us : List CodeUnit)
    (L : Text → CodeView → Option LoopTarget → Nat → Prop) : Prop :=
  ∀ s : CompileState, s.Holding held → m.Gives s fun _ s' =>
    s'.frame.tries = s.frame.tries ∧ ∃ leaves, Placed s s' n [] leaves us L

theorem Lays.puts {M : Text → CodeView → Nat → Prop} (h : Lays m n us M) (held : Nat) :
    Puts m held n us fun file v _ p => M file v p :=
  fun s _ => (h s).mono fun _ _ hs => ⟨hs.around.tries, [], hs.placed⟩

theorem Puts.bind (h : Puts m held n us L) (hk : ∀ a, Puts (k a) held n' us' L') :
    Puts (m >>= k) held (n + n') (us ++ us')
      fun file v loop p => L file v loop p ∧ L' file v loop (p + n) := by
  intro s hs
  refine (h s hs).bind ?_
  rintro a t ⟨htries, leaves, ht⟩
  refine (hk a t (ht.holding htries hs)).mono ?_
  rintro _ s' ⟨htries', leaves', hs'⟩
  exact ⟨htries'.trans htries, leaves ++ leaves', ht.trans hs'⟩

theorem Puts.congr {N : Nat} {U : List CodeUnit} (h : Puts m held n us L) (hn : n = N)
    (hu : ∀ u, u ∈ us ↔ u ∈ U) (hL : ∀ file v loop p, L file v loop p → L' file v loop p) :
    Puts m held N U L' := by
  refine fun s hs => (h s hs).mono ?_
  rintro _ s' ⟨htries, leaves, hs'⟩
  exact ⟨htries, leaves, (hs'.sized hn (.refl _) hu).shows fun file v loop => hL file v loop s.pos⟩

/-- A step before which nothing is written. -/
theorem Lays.before_puts {M : Text → CodeView → Nat → Prop} (h : Lays m 0 [] M)
    (hk : ∀ a, Puts (k a) held n us L) : Puts (m >>= k) held n us L :=
  ((h.puts held).bind hk).congr (Nat.zero_add n) (fun _ => Iff.rfl) fun _ _ _ _ hL => hL.2

theorem lays_forM {step : α → Compile Unit} {size : α → Nat} {layout : α → CodeView → Nat → Prop}
    (h : ∀ a, Lays (step a) (size a) [] fun _ v p => layout a v p) {N : List α → Nat}
    {A : List α → CodeView → Nat → Prop} (hzero : N [] = 0)
    (hsum : ∀ a as, N (a :: as) = size a + N as) (hnil : ∀ v p, A [] v p)
    (hcons : ∀ a as v p, layout a v p → A as v (p + size a) → A (a :: as) v p) (as : List α) :
    Lays (as.forM step) (N as) [] fun _ v p => A as v p := by
  induction as with
  | nil => exact (lays_pure ()).congr hzero.symm rfl fun _ v p _ => hnil v p
  | cons a as ih =>
    refine ((h a).bind fun _ => ih).congr (hsum a as).symm rfl fun _ v p hL => ?_
    exact hcons a as v p hL.1 hL.2

end Steps

theorem lays_enter (m : Mark) : Lays (stmt.enter m) 0 [] fun _ _ _ => True :=
  fun _ => gives_modify (.idle rfl rfl rfl rfl ⟨rfl, rfl⟩)

/-! ## Simple statements -/

theorem lays_importAlias (a : Alias Mark) :
    Lays (importAlias a) a.importSize [] fun _ v p => v.ImportAt a p := by
  unfold importAlias Alias.importSize CodeView.ImportAt
  refine (lays_setLine _).after fun _ => ?_
  cases ha : a.asName with
  | some name =>
    exact (lays_emitName .importModule a.name rfl).bind fun _ => lays_emitName .storeName name rfl
  | none =>
    cases htop : topName? a.name with
    | some top =>
      exact (lays_emitName .importModule a.name rfl).bind fun _ =>
        (lays_emit .pop 0 rfl).bind fun _ =>
        (lays_emitName .importModule top rfl).bind fun _ => lays_emitName .storeName top rfl
    | none =>
      exact (lays_emitName .importModule a.name rfl).bind fun _ => lays_emitName
        .storeName a.name rfl

theorem lays_importFromAlias (a : Alias Mark) :
    Lays (importFromAlias a) 2 [] fun _ v p => v.Loads p .importFrom (.name a.name) ∧
      if a.name = "*" then v.instr? (p + 1) = some ⟨.pop, 0⟩
      else v.Loads (p + 1) .storeName (.name (a.asName.getD a.name)) := by
  refine (lays_setLine _).after fun _ => ?_
  by_cases hall : a.name = "*"
  · simp only [hall, if_true]
    exact (lays_emitName .importFrom "*" rfl).bind fun _ => lays_emit .pop 0 rfl
  · simp only [hall, if_false]
    exact (lays_emitName .importFrom a.name rfl).bind fun _ => lays_emitName .storeName _ rfl

theorem lays_raise (exc cause : Option MarkedExpr) (m : Mark) (held : Nat) :
    Lays (raise exc cause) (Stmt.codeSize held (.raise m exc cause))
      (Stmt.units (.raise m exc cause))
      fun file v p => v.RaiseAt file exc cause p := by
  match exc, cause with
  | none, _ =>
    exact lays_emit .raise 0 rfl
  | some exc, none =>
    exact (lays_expr exc).bind fun _ => lays_emit .raise 1 rfl
  | some exc, some cause =>
    simp only [raise, Stmt.codeSize, Stmt.units, CodeView.RaiseAt, Expr.unitsOfOption]
    refine ((lays_expr exc).bind fun _ => (lays_expr cause).bind fun _ =>
      lays_emit .raise 2 rfl).congr ?_ ?_ fun _ _ _ h => h
    · rw [Nat.add_assoc]
    · rw [List.append_nil]

/-- A test with a jump over straight code if it holds. -/
theorem lays_assert (test : MarkedExpr) (msg : Option MarkedExpr) (m : Mark) (held : Nat) :
    Lays (assert test msg) (Stmt.codeSize held (.assert m test msg))
      (Stmt.units (.assert m test msg)) fun file v p => v.AssertAt file test msg p := by
  -- what is jumped over, in both forms
  have hover {k : Compile Unit} {n : Nat} {us : List CodeUnit}
      {M : Text → CodeView → Nat → Prop} (hk : Lays k n us M) :
      Lays (do
        expr test
        let holds ← reserve
        emitName .loadName "AssertionError"
        k
        patchHere .jumpIfTrue [holds]) (test.codeSize + 2 + n) (test.units ++ us) fun file v p =>
          v.ExprAt file test p ∧
          v.instr? (p + test.codeSize) = some ⟨.jumpIfTrue, p + test.codeSize + 2 + n⟩ ∧
          v.Loads (p + test.codeSize + 1) .loadName (.name "AssertionError") ∧
          M file v (p + test.codeSize + 2) := by
    intro s
    refine (lays_expr test s).bind fun _ t₁ h₁ => ?_
    refine (draft_reserve .jumpIfTrue t₁).bind ?_
    rintro place t₂ ⟨-, h₂⟩
    refine (lays_emitName .loadName "AssertionError" rfl t₂).bind fun _ t₃ h₃ => ?_
    refine (hk t₃).bind fun _ t₄ h₄ => ?_
    refine (gives_patchHere .jumpIfTrue [place] t₄).mono fun _ s' hp => ?_
    have hdraft := (h₁.before (h₂.trans ((h₃.trans h₄).draft .jumpIfTrue))).congr
      (N := test.codeSize + 2 + n) (U := test.units ++ us) (by omega) (by simp)
      fun _ _ _ _ h => h
    have hpos : t₄.pos = s.pos + test.codeSize + 2 + n := by
      rw [hdraft.stretch.pos]
      omega
    refine hdraft.close hp rfl fun file v hD => ?_
    rw [hpos] at hD
    exact ⟨hD.1, hD.2.1, hD.2.2.1, hD.2.2.2⟩
  cases msg with
  | none =>
    have hcall := hover
      ((lays_emit .call (callOperand 0 0) rfl).bind fun _ => lays_emit .raise 1 rfl)
    simp only [bind_assoc] at hcall
    refine hcall.congr ?_ ?_ fun file v p h => h
    · simp only [Stmt.codeSize, Option.map_none, Option.getD_none]
    · simp only [Stmt.units, Expr.unitsOfOption, List.append_nil]
  | some msg =>
    have hcall := hover ((lays_expr msg).bind fun _ =>
      (lays_emit .call (callOperand 1 0) rfl).bind fun _ => lays_emit .raise 1 rfl)
    simp only [bind_assoc] at hcall
    refine hcall.congr ?_ ?_ fun file v p h => ?_
    · simp only [Stmt.codeSize, Option.map_some, Option.getD_some]
      omega
    · simp only [Stmt.units, Expr.unitsOfOption, List.append_nil]
    · obtain ⟨h₁, h₂, h₃, h₄, h₅, h₆⟩ := h
      refine ⟨h₁, ?_, h₃, h₄, h₅, ?_⟩
      · rw [h₂]
        congr 2
        omega
      · rw [← h₆]
        congr 1
        omega

/-- The code that leaves a loop. -/
theorem puts_loopControl (isBreak : Bool) (held : Nat) :
    Puts (loopControl isBreak) held (held + 1) [] fun _ v loop p =>
      v.LeaveAt ⟨loop, held⟩ isBreak p := by
  intro s hs
  refine (gives_get (P := fun a t => a = s ∧ t = s) ⟨rfl, rfl⟩).bind ?_
  rintro a t ⟨rfl, rfl⟩
  cases hloops : t.frame.loops with
  | nil => exact gives_fail
  | cons l ls =>
    have hheld : registered (t.frame.tries.take (t.frame.tries.length - l.tryDepth)) = held := by
      simpa [CompileState.loopDepth, hloops] using hs.held
    dsimp only
    rw [hheld]
    have hremove := lays_forM (fun _ : Unit => lays_emit .handle 0 rfl) (N := List.length)
      (A := fun us v p => ∀ k < us.length, v.instr? (p + k) = some ⟨.handle, 0⟩)
      rfl (fun _ us => Nat.add_comm us.length 1)
      (fun _ _ k hk => absurd hk (Nat.not_lt_zero k)) (fun _ us v p hfirst hrest k hk => by
        cases k with
        | zero => exact hfirst
        | succ k =>
          rw [show p + (k + 1) = p + 1 + k by omega]
          exact hrest k (Nat.lt_of_succ_lt_succ hk)) (List.replicate held ())
    rw [List.length_replicate] at hremove
    refine Gives.bind (hremove t) fun _ u hu => ?_
    refine (placed_reserve u).bind ?_
    rintro place w ⟨rfl, hsame, hw⟩
    have hul : w.frame.loops = l :: ls := by rw [hsame.loops, hu.around.loops, hloops]
    have hopen := (hu.placed.trans hw).stretch
    refine gives_modify ⟨hsame.tries.trans hu.around.tries, [(isBreak, u.pos)], ?_, ?_, ?_, ?_⟩
    · exact hopen.and_idle rfl rfl rfl rfl
    · simp only [hul, hloops, List.modifyHead_cons]
      cases isBreak <;> simp [LoopFrame.add, placesOf]
    · intro h
      rw [hloops] at h
      cases h
    · intro v loop hv hleaving
      obtain ⟨target, hloop, hjump⟩ := hleaving _ (List.mem_singleton_self _)
      refine ⟨target, hloop, ?_, ?_⟩
      · have hv' : v.Completes w := ⟨hv.words, hv.constants⟩
        have := hu.layout v (hw.stretch.completes hv')
        simpa using this
      · rw [← hu.stretch.pos]
        exact hjump

/-! ## Compound statements -/

/-- A block that is jumped over if a test fails. -/
theorem puts_branch {test : MarkedExpr} {m : Compile Unit} (hm : Puts m held n us L) :
    Puts (do
      expr test
      let place ← reserve
      m
      patchHere .jumpIfFalse [place]) held (test.codeSize + 1 + n) (test.units ++ us)
      fun file v loop p => v.ExprAt file test p ∧
        v.instr? (p + test.codeSize) = some ⟨.jumpIfFalse, p + test.codeSize + 1 + n⟩ ∧
        L file v loop (p + test.codeSize + 1) := by
  intro s hs
  refine (lays_expr test s).bind fun _ t₁ h₁ => ?_
  refine (placed_reserve t₁).bind ?_
  rintro place t₂ ⟨rfl, hsame, h₂⟩
  refine (hm t₂ (hsame.holding (h₁.around.holding hs))).bind ?_
  rintro _ t₃ ⟨htries, leaves, h₃⟩
  refine (gives_patchHere .jumpIfFalse [t₁.pos] t₃).mono fun _ s' hp => ?_
  have hopen := (h₁.placed.trans (h₂.trans h₃)).sized (N := test.codeSize + 1 + n)
    (X := [t₁.pos]) (U := test.units ++ us) (by omega) (.refl _) (by simp)
  have hpos₁ := h₁.stretch.pos
  have hpos₃ : t₃.pos = s.pos + test.codeSize + 1 + n := by
    rw [hopen.stretch.pos]
    omega
  refine ⟨?_, _, (hopen.close_one hp rfl).shows fun file v loop h => ?_⟩
  · rw [hp.tries, htries, hsame.tries, h₁.around.tries]
  · obtain ⟨⟨htest, -, hbody⟩, hslot⟩ := h
    rw [hpos₁, hpos₃] at hslot
    exact ⟨htest, hslot, hbody⟩

/-- One of two blocks, depending on a test. -/
theorem puts_alternative {test : MarkedExpr} {m m' : Compile Unit} (hm : Puts m held n us L)
    (hm' : Puts m' held n' us' L') :
    Puts (do
      expr test
      let otherwise ← reserve
      m
      let done ← reserve
      patchHere .jumpIfFalse [otherwise]
      m'
      patchHere .jump [done]) held (test.codeSize + 1 + n + (1 + n')) (test.units ++ us ++ us')
      fun file v loop p => v.ExprAt file test p ∧ L file v loop (p + test.codeSize + 1) ∧
        v.instr? (p + test.codeSize) = some ⟨.jumpIfFalse, p + test.codeSize + 1 + n + 1⟩ ∧
        v.instr? (p + test.codeSize + 1 + n) = some ⟨.jump, p + test.codeSize + 1 + n + 1 + n'⟩ ∧
        L' file v loop (p + test.codeSize + 1 + n + 1) := by
  intro s hs
  refine (lays_expr test s).bind fun _ t₁ h₁ => ?_
  refine (placed_reserve t₁).bind ?_
  rintro place t₂ ⟨rfl, hsame, h₂⟩
  have hheld₂ := hsame.holding (h₁.around.holding hs)
  refine (hm t₂ hheld₂).bind ?_
  rintro _ t₃ ⟨htries, leaves, h₃⟩
  refine (placed_reserve t₃).bind ?_
  rintro done t₄ ⟨rfl, hsame', h₄⟩
  refine (gives_patchHere .jumpIfFalse [t₁.pos] t₄).bind fun _ t₅ hx => ?_
  have hheld₅ := hx.sameAround.holding (hsame'.holding (h₃.holding htries hheld₂))
  refine (hm' t₅ hheld₅).bind ?_
  rintro _ t₆ ⟨htries', leaves', h₆⟩
  refine (gives_patchHere .jump [t₃.pos] t₆).mono fun _ s' hy => ?_
  have hfront := (h₁.placed.trans (h₂.trans (h₃.trans h₄))).sized
    (N := test.codeSize + 1 + n + 1) (U := test.units ++ us) (by omega)
    (X := [t₁.pos, t₃.pos]) (.refl _) (by simp)
  have hwhole := ((hfront.close_one hx rfl).trans h₆).sized (N := test.codeSize + 1 + n + (1 + n'))
    (U := test.units ++ us ++ us') (X := [t₃.pos]) (by omega) (.refl _) (by simp)
  have hpos₁ := h₁.stretch.pos
  have hpos₃ : t₃.pos = s.pos + test.codeSize + 1 + n := by
    rw [h₃.stretch.pos, h₂.stretch.pos, hpos₁]
  have hpos₄ : t₄.pos = s.pos + test.codeSize + 1 + n + 1 := by rw [h₄.stretch.pos, hpos₃]
  have hpos₆ : t₆.pos = s.pos + test.codeSize + 1 + n + 1 + n' := by
    rw [h₆.stretch.pos, hx.pos, hpos₄]
  refine ⟨?_, _, (hwhole.close_one hy rfl).shows fun file v loop h => ?_⟩
  · rw [hy.tries, htries', hx.tries, hsame'.tries, htries, hsame.tries, h₁.around.tries]
  · obtain ⟨⟨⟨⟨htest, -, hbody, -⟩, hslotX⟩, horelse⟩, hslotY⟩ := h
    rw [hpos₁, hpos₄] at hslotX
    rw [hpos₃, hpos₆] at hslotY
    refine ⟨htest, hbody, hslotX, hslotY, ?_⟩
    simpa only [Nat.add_assoc] using horelse

/-! ## Loops -/

/-- The body of a loop. Its jumps out of the loop are open places of the loop. -/
theorem placed_inLoop {m : Compile Unit} (hm : Puts m 0 n us L) (s : CompileState) :
    (inLoop m).Gives s fun l s' => SameAround s s' ∧ ∃ leaves,
      l.continues = placesOf false leaves ∧ l.breaks = placesOf true leaves ∧
      Placed s s' n (leaves.map Prod.snd) [] us fun file v _ p =>
        ∀ t, v.Leaving (some t) leaves → L file v (some t) p := by
  refine (gives_modify (P := fun _ t => t = s.enterLoop) rfl).bind ?_
  rintro _ t rfl
  refine (hm _ s.holding_enterLoop).bind ?_
  rintro _ t ⟨htries, leaves, ht⟩
  refine (gives_get (P := fun a u => a = t ∧ u = t) ⟨rfl, rfl⟩).bind ?_
  rintro a u ⟨rfl, rfl⟩
  refine (gives_set (P := fun _ w => w = u.leaveLoop) rfl).bind ?_
  rintro _ w rfl
  have hloops : u.frame.loops =
      LoopFrame.add { tryDepth := s.frame.tries.length } leaves :: s.frame.loops := ht.loops
  have hback : u.leaveLoop.frame.loops = s.frame.loops := by
    rw [CompileState.leaveLoop, hloops, List.drop_one, List.tail_cons]
  refine gives_pure ⟨⟨hback, htries⟩, leaves, ?_, ?_, ?_⟩
  · simp [hloops, LoopFrame.add]
  · simp [hloops, LoopFrame.add]
  · have henter : Stretch s s.enterLoop 0 [] [] := .idle rfl rfl rfl rfl
    have hleave : Stretch u u.leaveLoop 0 [] [] := .idle rfl rfl rfl rfl
    have hstretch := ((henter.trans ht.stretch).trans hleave).congr (N := n)
      (X := leaves.map Prod.snd) (U := us) (by omega) (.of_eq (by simp)) (by simp)
    refine hstretch.placed hback fun v _ hv t hleaving => ?_
    exact ht.layout v (some t) ⟨hv.words, hv.constants⟩ hleaving

theorem perm_placesOf (leaves : List (Bool × Nat)) :
    (leaves.map Prod.snd).Perm (placesOf false leaves ++ placesOf true leaves) := by
  induction leaves with
  | nil => exact .nil
  | cons l leaves ih =>
    obtain ⟨b, x⟩ := l
    cases b with
    | false => exact List.Perm.cons x ih
    | true => exact (List.Perm.cons x ih).trans List.perm_middle.symm

/-- The jumps of a loop were written. -/
theorem placed_closeLoop {l : LoopFrame} {leaves₀ : List (Bool × Nat)} {again exit : Nat}
    (hl : l.continues = placesOf false leaves₀) (hl' : l.breaks = placesOf true leaves₀)
    (h : Placed s t n (leaves₀.map Prod.snd) leaves us L) :
    (closeLoop l again exit).Gives t fun _ s' => SameAround t s' ∧
      Placed s s' n [] leaves us fun file v loop p =>
        L file v loop p ∧ ∀ entry, v.Leaving (some ⟨entry, again, exit⟩) leaves₀ := by
  refine (gives_patchAll l.continues .jump again t).bind fun _ t₁ h₁ => ?_
  refine (gives_patchAll l.breaks .jump exit t₁).mono fun _ s' h₂ => ?_
  rw [hl] at h₁
  rw [hl'] at h₂
  have hopen := h.sized rfl (perm_placesOf leaves₀) fun _ => Iff.rfl
  have hopen₁ := (hopen.close h₁ rfl).sized (X := placesOf true leaves₀ ++ []) rfl
    (.of_eq (List.append_nil _).symm) fun _ => Iff.rfl
  refine ⟨h₁.sameAround.trans h₂.sameAround,
    (hopen₁.close h₂ rfl).shows fun file v loop hL => ⟨hL.1.1, ?_⟩⟩
  rintro entry ⟨b, x⟩ hx
  refine ⟨_, rfl, ?_⟩
  cases b with
  | false => exact hL.1.2 x (mem_placesOf.mpr hx)
  | true => exact hL.2 x (mem_placesOf.mpr hx)

-- The equations are derived once, and not by each of the proofs that rewrite with them.
attribute [local grind =] stmt Stmt.codeSize Stmt.units CodeView.StmtAt

theorem puts_while {test : MarkedExpr} {inner : List MarkedStmt} (m : Mark) (held : Nat)
    (hm : Puts (body inner) 0 (Stmt.bodySize 0 inner) (Stmt.unitsOfBody inner)
      fun file v loop p => v.BodyAt file ⟨loop, 0⟩ inner p) :
    Puts (stmt (.whileLoop m test inner)) held (Stmt.codeSize held (.whileLoop m test inner))
      (Stmt.units (.whileLoop m test inner))
      fun file v loop p => v.StmtAt file ⟨loop, held⟩ (.whileLoop m test inner) p := by
  refine (lays_enter m).before_puts fun _ s _ => ?_
  refine (gives_position s).bind ?_
  rintro start s₁ ⟨rfl, rfl⟩
  refine (lays_expr test s₁).bind fun _ t₁ h₁ => ?_
  refine (placed_reserve t₁).bind ?_
  rintro place t₂ ⟨rfl, hsame, h₂⟩
  have hback := (lays_setLine m.pos.line).before_puts fun _ => (lays_emit .jump s₁.pos rfl).puts 0
  have hround := hm.bind fun _ => hback
  refine (placed_inLoop hround t₂).bind ?_
  rintro l t₃ ⟨hsame', leaves, hl, hl', h₃⟩
  refine (gives_patchHere .jumpIfFalse [t₁.pos] t₃).bind fun _ t₄ hp => ?_
  refine (gives_position t₄).bind ?_
  rintro exit t₅ ⟨rfl, rfl⟩
  have hopen := (h₁.placed.trans (h₂.trans h₃)).sized
    (N := test.codeSize + 1 + Stmt.bodySize 0 inner + 1)
    (U := test.units ++ Stmt.unitsOfBody inner) (X := t₁.pos :: leaves.map Prod.snd)
    (by omega) (.refl _) (by simp)
  refine (placed_closeLoop hl hl' (hopen.close_one hp rfl)).mono ?_
  rintro _ s' ⟨hsame'', hs'⟩
  have hpos₁ := h₁.stretch.pos
  have hpos₃ : t₃.pos = s₁.pos + test.codeSize + 1 + Stmt.bodySize 0 inner + 1 := by
    rw [h₃.stretch.pos, h₂.stretch.pos, hpos₁]
    omega
  refine ⟨?_, [], hs'.shows fun file v loop h => ?_⟩
  · rw [hsame''.tries, hp.tries, hsame'.tries, hsame.tries, h₁.around.tries]
  · obtain ⟨⟨⟨htest, -, hbody⟩, hslot⟩, hleaving⟩ := h
    have hleaving := hleaving s₁.pos
    rw [hp.pos, hpos₃] at hleaving
    have hbody := hbody (Stmt.whileTarget test inner s₁.pos) hleaving
    rw [hpos₁, hpos₃] at hslot
    exact ⟨htest, hslot, hbody.1, hbody.2⟩

theorem puts_for {target iter : MarkedExpr} {inner : List MarkedStmt} (m : Mark) (held : Nat)
    (hm : Puts (body inner) 0 (Stmt.bodySize 0 inner) (Stmt.unitsOfBody inner)
      fun file v loop p => v.BodyAt file ⟨loop, 0⟩ inner p) :
    Puts (stmt (.forLoop m target iter inner)) held
      (Stmt.codeSize held (.forLoop m target iter inner))
        (Stmt.units (.forLoop m target iter inner))
      fun file v loop p => v.StmtAt file ⟨loop, held⟩ (.forLoop m target iter inner) p := by
  refine (lays_enter m).before_puts fun _ s _ => ?_
  refine (lays_expr iter s).bind fun _ t₁ h₁ => ?_
  refine (lays_emit .iter 0 rfl t₁).bind fun _ t₂ h₂ => ?_
  refine (placed_reserve t₂).bind ?_
  rintro first t₃ ⟨rfl, hsame₃, h₃⟩
  refine (gives_position t₃).bind ?_
  rintro round t₃' ⟨rfl, rfl⟩
  refine (lays_store target t₃').bind fun _ t₄ h₄ => ?_
  refine (placed_inLoop hm t₄).bind ?_
  rintro l t₅ ⟨hsame₅, leaves, hl, hl', h₅⟩
  refine (lays_setLine m.pos.line t₅).bind fun _ t₆ h₆ => ?_
  refine (gives_position t₆).bind ?_
  rintro again t₆' ⟨rfl, rfl⟩
  refine (placed_reserve t₆').bind ?_
  rintro second t₇ ⟨rfl, hsame₇, h₇⟩
  refine (lays_emit .jump t₃'.pos rfl t₇).bind fun _ t₈ h₈ => ?_
  refine (gives_position t₈).bind ?_
  rintro exit t₈' ⟨rfl, rfl⟩
  refine (lays_emit .pop 0 rfl t₈').bind fun _ t₉ h₉ => ?_
  refine (gives_patch t₂.pos .next t₈'.pos t₉).bind fun _ t₁₀ hx => ?_
  refine (gives_patch t₆'.pos .next t₈'.pos t₁₀).bind fun _ t₁₁ hy => ?_
  have hopen := (h₁.placed.trans (h₂.placed.trans (h₃.trans (h₄.placed.trans (h₅.trans
    (h₆.placed.trans (h₇.trans (h₈.placed.trans h₉.placed)))))))).sized
    (N := iter.codeSize + 2 + target.storeSize + Stmt.bodySize 0 inner + 3)
    (U := iter.units ++ target.unitsOfTarget ++ Stmt.unitsOfBody inner)
    (X := t₂.pos :: t₆'.pos :: leaves.map Prod.snd) (by omega)
    (List.Perm.cons _ (by simp)) (by simp)
  refine (placed_closeLoop hl hl' ((hopen.close_one hx rfl).close_one hy rfl)).mono ?_
  rintro _ s' ⟨hsame, hs'⟩
  have hpos₂ : t₂.pos = s.pos + iter.codeSize + 1 := by rw [h₂.stretch.pos, h₁.stretch.pos]
  have hpos₃ : t₃'.pos = s.pos + iter.codeSize + 2 := by rw [h₃.stretch.pos, hpos₂]
  have hpos₆ : t₆'.pos =
      s.pos + iter.codeSize + 2 + target.storeSize + Stmt.bodySize 0 inner := by
    rw [h₆.stretch.pos, h₅.stretch.pos, h₄.stretch.pos, hpos₃, Nat.add_zero]
  have hpos₈ : t₈'.pos =
      s.pos + iter.codeSize + 2 + target.storeSize + Stmt.bodySize 0 inner + 2 := by
    rw [h₈.stretch.pos, h₇.stretch.pos, hpos₆]
  refine ⟨?_, [], hs'.shows fun file v loop h => ?_⟩
  · rw [hsame.tries, hy.tries, hx.tries, h₉.around.tries, h₈.around.tries, hsame₇.tries,
      h₆.around.tries, hsame₅.tries, h₄.around.tries, hsame₃.tries, h₂.around.tries,
      h₁.around.tries]
  · obtain ⟨⟨⟨⟨hiter, hop, -, hstore, hbody, -, -, hjump, hpop⟩, hfirst⟩, hsecond⟩, hleaving⟩ := h
    have hleaving := hleaving s.pos
    rw [hpos₆, hpos₈] at hleaving
    have hbody := hbody (Stmt.forTarget target iter inner s.pos) hleaving
    rw [hpos₂, hpos₈] at hfirst
    rw [hpos₆, hpos₈] at hsecond
    rw [hpos₃] at hjump
    exact ⟨hiter, hop, hfirst, hstore, hbody, hsecond, hjump, hpop⟩

/-! ## Functions and classes -/

/-- A name is bound to what is made from the code object of a unit. -/
theorem lays_define {u : CodeUnit} (op : Opcode) (line count : Nat) (name : String)
    (hu : Fills u.write) (hop : op.takesConstant = false) :
    Lays (do
      let c ← u.compile
      define op line c count name) 3 [u] fun file v p => v.DefineAt file op u count name p :=
  lays_unit line hu ((lays_emit op count hop).bind fun _ => lays_emitName .storeName name rfl)

theorem lays_returnNone : Lays returnNone 2 [] fun _ v p =>
    v.instr? p = some ⟨.loadSpecial, 0⟩ ∧ v.instr? (p + 1) = some ⟨.ret, 0⟩ :=
  (lays_emit .loadSpecial 0 rfl).bind fun _ => lays_emit .ret 0 rfl

/-- The code of statements that end in a return of none. -/
theorem puts_returning {m : Compile Unit} (hm : Puts m 0 n us L) :
    Puts (do m; returnNone) 0 (n + 2) us fun file v loop p => L file v loop p ∧
      v.instr? (p + n) = some ⟨.loadSpecial, 0⟩ ∧ v.instr? (p + n + 1) = some ⟨.ret, 0⟩ :=
  (hm.bind fun _ => lays_returnNone.puts 0).congr rfl (by simp) fun _ _ _ _ h => h

theorem Puts.fills {m : Compile Unit} (hm : Puts m 0 n us L) : Fills m := by
  intro s hs
  refine (hm s (CompileState.holding_of_empty hs)).mono ?_
  rintro _ s' ⟨-, leaves, hs'⟩
  exact hs'.stretch.fills hs

/-! ## Exceptions -/

/-- The code before the body of a handler; the place is the jump to the next handler. -/
theorem placed_handlerHead (type : Option MarkedExpr) (name : Option String) (s : CompileState) :
    (handlerHead type name).Gives s fun next s' => SameAround s s' ∧
      Placed s s' (Handler.headSize type) next.toList [] (Expr.unitsOfOption type)
        fun file v _ p => ∀ target,
          (∀ x ∈ next.toList, v.instr? x = some ⟨.jumpIfFalse, target⟩) →
          v.HeadAt file target name type p := by
  cases type with
  | none =>
    refine Gives.bind (gives_pure (P := fun a t => a = none ∧ t = s) ⟨rfl, rfl⟩) ?_
    rintro next t ⟨rfl, rfl⟩
    cases name with
    | none =>
      exact (lays_emit .pop 0 rfl t).bind fun _ _ h => gives_pure
        ⟨h.around, h.placed.shows fun _ _ _ htake _ _ => htake⟩
    | some name =>
      exact (lays_emitName .storeName name rfl t).bind fun _ _ h => gives_pure
        ⟨h.around, h.placed.shows fun _ _ _ htake _ _ => htake⟩
  | some type =>
    refine Gives.bind (lays_emit .dup 1 rfl s) fun _ t₁ h₁ => ?_
    refine (lays_expr type t₁).bind fun _ t₂ h₂ => ?_
    refine (lays_emit .compare exceptionMatch rfl t₂).bind fun _ t₃ h₃ => ?_
    rw [map_eq_pure_bind, bind_assoc]
    refine (draft_reserve .jumpIfFalse t₃).bind ?_
    rintro place t₄ ⟨-, h₄⟩
    rw [pure_bind]
    -- the name the exception is bound to comes behind the jump
    have htaken {s' : CompileState} (h₅ : Drawn t₄ s' 1 [] fun _ v p => v.TakeAt name p) :
        SameAround s s' ∧ Placed s s' (Handler.headSize (some type)) [place] []
          (Expr.unitsOfOption (some type)) fun file v _ p => ∀ target,
            (∀ x ∈ [place], v.instr? x = some ⟨.jumpIfFalse, target⟩) →
            v.HeadAt file target name (some type) p := by
      have hall := (h₁.before (h₂.before (h₃.before (h₄.trans (h₅.draft .jumpIfFalse))))).congr
        (N := Handler.headSize (some type)) (U := Expr.unitsOfOption (some type))
        (by simp only [Handler.headSize]; omega) (by simp [Expr.unitsOfOption]) fun _ _ _ _ h => h
      refine ⟨hall.around, hall.placed.shows fun file v _ h target hslots => ?_⟩
      simpa only [CodeView.HeadAt] using h target hslots
    cases name with
    | none => exact (lays_emit .pop 0 rfl t₄).bind fun _ _ h => gives_pure (htaken h)
    | some name =>
      exact (lays_emitName .storeName name rfl t₄).bind fun _ _ h => gives_pure (htaken h)

/-- What the code of handlers is to be. The places are the jumps to the final part. -/
def PutsHandlers (hs : List (Handler Mark MarkedExpr MarkedStmt)) (held : Nat) : Prop :=
  ∀ s : CompileState, s.Holding held → (handlers hs).Gives s fun slots s' =>
    s'.frame.tries = s.frame.tries ∧ ∃ leaves,
      Placed s s' (Stmt.handlersSize held hs) slots leaves (Stmt.unitsOfHandlers hs)
        fun file v loop p => ∀ fin, (∀ x ∈ slots, v.instr? x = some ⟨.jump, fin⟩) →
          v.HandlersAt file ⟨loop, held⟩ fin hs p

theorem putsHandlers_nil (held : Nat) : PutsHandlers [] held := by
  intro s _
  refine gives_pure ⟨rfl, [], (Placed.idle rfl rfl rfl rfl rfl).shows fun file v loop _ fin _ => ?_⟩
  trivial

theorem putsHandlers_cons {type : Option MarkedExpr} {inner : List MarkedStmt} (m : Mark)
    (name : Option String) {rest : List (Handler Mark MarkedExpr MarkedStmt)}
    (hm : Puts (body inner) held (Stmt.bodySize held inner) (Stmt.unitsOfBody inner)
      fun file v loop p => v.BodyAt file ⟨loop, held⟩ inner p)
    (hrest : PutsHandlers rest held) : PutsHandlers (⟨m, type, name, inner⟩ :: rest) held := by
  intro s hs
  refine (lays_setLine m.pos.line s).bind fun _ t₁ h₁ => ?_
  refine (placed_handlerHead type name t₁).bind ?_
  rintro next t₂ ⟨hsame₂, h₂⟩
  have hheld₂ := hsame₂.holding (h₁.around.holding hs)
  refine (hm t₂ hheld₂).bind ?_
  rintro _ t₃ ⟨htries₃, leaves, h₃⟩
  refine (lays_setLine m.pos.line t₃).bind fun _ t₄ h₄ => ?_
  refine (lays_emit .handle 0 rfl t₄).bind fun _ t₅ h₅ => ?_
  refine (placed_reserve t₅).bind ?_
  rintro handled t₆ ⟨rfl, hsame₆, h₆⟩
  refine (gives_patchHere .jumpIfFalse next.toList t₆).bind fun _ t₇ hp => ?_
  have hremove := h₄.trans h₅
  have hheld₇ := hp.sameAround.holding (hsame₆.holding (hremove.around.holding
    (h₃.holding htries₃ hheld₂)))
  refine (hrest t₇ hheld₇).bind ?_
  rintro more s' ⟨htries, leaves', h₈⟩
  have hfront := (h₁.placed.trans (h₂.trans (h₃.trans (hremove.placed.trans h₆)))).sized
    (N := Handler.headSize type + Stmt.bodySize held inner + 2)
    (X := next.toList ++ [t₅.pos])
    (U := Expr.unitsOfOption type ++ Stmt.unitsOfBody inner) (by omega) (.of_eq (by simp)) (by simp)
  have hpos₂ : t₂.pos = s.pos + Handler.headSize type := by
    rw [h₂.stretch.pos, h₁.stretch.pos, Nat.add_zero]
  have hpos₅ : t₅.pos = s.pos + Handler.headSize type + Stmt.bodySize held inner + 1 := by
    rw [hremove.stretch.pos, h₃.stretch.pos, hpos₂]
  have hpos₆ : t₆.pos = s.pos + Handler.headSize type + Stmt.bodySize held inner + 2 := by
    rw [h₆.stretch.pos, hpos₅]
  refine gives_pure ⟨?_, _, ((hfront.close hp rfl).trans h₈).sized (N := _) ?_ (.refl _) ?_ |>.shows
    fun file v loop h fin hslots => ?_⟩
  · rw [htries, hp.tries, hsame₆.tries, hremove.around.tries, htries₃, hsame₂.tries,
      h₁.around.tries]
  · rw [Stmt.handlersSize]
  · simp [Stmt.unitsOfHandlers]
  · obtain ⟨⟨⟨-, hhead, hbody, ⟨-, hhandle⟩, -⟩, hnext⟩, hmore⟩ := h
    rw [hpos₆] at hnext
    have hjump := hslots t₅.pos List.mem_cons_self
    rw [hpos₅] at hjump
    refine ⟨hhead _ hnext, hbody, hhandle, hjump, ?_⟩
    simpa only [Nat.add_assoc] using hmore fin fun x hx => hslots x (List.mem_cons_of_mem _ hx)

theorem puts_try {inner orelse final : List MarkedStmt}
    {clauses : List (Handler Mark MarkedExpr MarkedStmt)} (m : Mark) (held : Nat)
    (hinner : Puts (body inner) (held + 1) (Stmt.bodySize (held + 1) inner) (Stmt.unitsOfBody inner)
      fun file v loop p => v.BodyAt file ⟨loop, held + 1⟩ inner p)
    (horelse : Puts (body orelse) held (Stmt.bodySize held orelse) (Stmt.unitsOfBody orelse)
      fun file v loop p => v.BodyAt file ⟨loop, held⟩ orelse p)
    (hclauses : PutsHandlers clauses (held + 1))
    (hfinal : Puts (body final) held (Stmt.bodySize held final) (Stmt.unitsOfBody final)
      fun file v loop p => v.BodyAt file ⟨loop, held⟩ final p) :
    Puts (stmt (.tryExcept m inner clauses orelse final)) held
      (Stmt.codeSize held (.tryExcept m inner clauses orelse final))
      (Stmt.units (.tryExcept m inner clauses orelse final)) fun file v loop p =>
        v.StmtAt file ⟨loop, held⟩ (.tryExcept m inner clauses orelse final) p := by
  simp only [stmt, Stmt.codeSize, Stmt.units, CodeView.StmtAt]
  refine (lays_enter m).before_puts fun _ s hs => ?_
  refine (placed_reserve s).bind ?_
  rintro registration s₁ ⟨rfl, hsame₁, h₁⟩
  -- the protected part, with the handler registered
  refine (gives_modify (P := fun _ t => Placed s₁ t 0 [] [] [] (fun _ _ _ _ => True) ∧
    t.frame.tries = .body :: s.frame.tries)
      ⟨.idle rfl rfl rfl rfl rfl, by rw [← hsame₁.tries]⟩).bind ?_
  rintro _ t₁ ⟨hidle₁, htries₁⟩
  have hheld₁ : t₁.Holding (held + 1) := hs.phase .body
    ((loopDepth_modifyHead hidle₁.loops).trans (loopDepth_modifyHead h₁.loops)) htries₁
  refine (hinner t₁ hheld₁).bind ?_
  rintro _ t₂ ⟨htries₂, leaves₂, h₂⟩
  refine (lays_setLine m.pos.line t₂).bind fun _ t₃ h₃ => ?_
  refine (lays_emit .handle 0 rfl t₃).bind fun _ t₄ h₄ => ?_
  have hremove := h₃.trans h₄
  -- the alternative, without it
  refine (gives_modify (P := fun _ t => Placed t₄ t 0 [] [] [] (fun _ _ _ _ => True) ∧
    t.frame.tries = .final :: s.frame.tries) ⟨.idle rfl rfl rfl rfl rfl, by
      rw [hremove.around.tries, htries₂, htries₁]; rfl⟩).bind ?_
  rintro _ t₅ ⟨hidle₅, htries₅⟩
  have hfront := hidle₁.trans (h₂.trans (hremove.placed.trans hidle₅))
  have hheld₅ : t₅.Holding held := hs.phase .final ((loopDepth_modifyHead hfront.loops).trans
    (loopDepth_modifyHead h₁.loops)) htries₅
  refine (horelse t₅ hheld₅).bind ?_
  rintro _ t₆ ⟨htries₆, leaves₆, h₆⟩
  refine (placed_reserve t₆).bind ?_
  rintro completed t₇ ⟨rfl, hsame₇, h₇⟩
  refine (gives_patchHere .try [s.pos] t₇).bind fun _ t₈ hx => ?_
  have hbody := (h₁.trans (hfront.trans (h₆.trans h₇))).sized
    (N := 1 + Stmt.bodySize (held + 1) inner + 1 + Stmt.bodySize held orelse + 1)
    (X := [s.pos, t₆.pos]) (U := Stmt.unitsOfBody inner ++ Stmt.unitsOfBody orelse)
    (by omega) (.refl _) (by simp)
  have hclosed := hbody.close_one hx rfl
  -- the handlers, with it again
  refine (gives_modify (P := fun _ t => Placed t₈ t 0 [] [] [] (fun _ _ _ _ => True) ∧
    t.frame.tries = .handler :: s.frame.tries) ⟨.idle rfl rfl rfl rfl rfl, by
      rw [hx.tries, hsame₇.tries, htries₆, htries₅]; rfl⟩).bind ?_
  rintro _ t₉ ⟨hidle₉, htries₉⟩
  have hheld₉ : t₉.Holding (held + 1) := hs.phase .handler
    ((loopDepth_modifyHead hidle₉.loops).trans (loopDepth_modifyHead hclosed.loops)) htries₉
  refine (hclauses t₉ hheld₉).bind ?_
  rintro slots w₀ ⟨htries₁₀, leaves₁₀, h₁₀⟩
  refine (gives_modify (P := fun _ t => Placed w₀ t 0 [] [] [] (fun _ _ _ _ => True) ∧
    t.frame.tries = .final :: s.frame.tries) ⟨.idle rfl rfl rfl rfl rfl, by
      rw [htries₁₀, htries₉]; rfl⟩).bind ?_
  rintro _ w ⟨hidle, htriesW⟩
  have hupto := (hclosed.trans (hidle₉.trans (h₁₀.trans hidle))).sized
    (N := 1 + Stmt.bodySize (held + 1) inner + 1 + Stmt.bodySize held orelse + 1 +
      Stmt.handlersSize (held + 1) clauses) (X := t₆.pos :: slots)
    (U := Stmt.unitsOfBody inner ++ Stmt.unitsOfBody orelse ++ Stmt.unitsOfHandlers clauses)
    (by omega) (.of_eq (by simp)) (by simp)
  have hheldW : w.Holding held :=
    hs.phase .final (loopDepth_modifyHead hupto.loops) htriesW
  have hpos₂ : t₂.pos = s.pos + 1 + Stmt.bodySize (held + 1) inner := by
    rw [h₂.stretch.pos, hidle₁.stretch.pos, h₁.stretch.pos, Nat.add_zero]
  have hpos₆ : t₆.pos =
      s.pos + 1 + Stmt.bodySize (held + 1) inner + 1 + Stmt.bodySize held orelse := by
    rw [h₆.stretch.pos, hidle₅.stretch.pos, hremove.stretch.pos, hpos₂]
  have hpos₇ : t₇.pos =
      s.pos + 1 + Stmt.bodySize (held + 1) inner + 1 + Stmt.bodySize held orelse + 1 := by
    rw [h₇.stretch.pos, hpos₆]
  have hposW : w.pos = s.pos + 1 + Stmt.bodySize (held + 1) inner + 1 +
      Stmt.bodySize held orelse + 1 + Stmt.handlersSize (held + 1) clauses := by
    rw [hupto.stretch.pos]
    omega
  -- what comes after the handlers is the same with and without a handler for all exceptions
  have htail {z : CompileState} {k : Nat} {us : List CodeUnit} {leaves : List (Bool × Nat)}
      {M : Text → CodeView → Option LoopTarget → Nat → Prop}
      (hcopy : Placed w z k [] leaves us M) (htries : z.frame.tries = w.frame.tries)
      (hus : ∀ u ∈ us, u ∈ Stmt.unitsOfBody final) : (do
        patchHere .jump (t₆.pos :: slots)
        body final
        modify fun s => { s with frame := { s.frame with tries := s.frame.tries.drop 1 } } :
          Compile Unit).Gives z fun _ s' => s'.frame.tries = s.frame.tries ∧ ∃ leaves,
        Placed s s' (1 + Stmt.bodySize (held + 1) inner + 1 + Stmt.bodySize held orelse + 1 +
            Stmt.handlersSize (held + 1) clauses + k + Stmt.bodySize held final) [] leaves
          (Stmt.unitsOfBody inner ++ Stmt.unitsOfBody orelse ++ Stmt.unitsOfHandlers clauses ++
            Stmt.unitsOfBody final) fun file v loop p =>
          v.instr? p = some ⟨.try, t₇.pos⟩ ∧
          v.BodyAt file ⟨loop, held + 1⟩ inner (p + 1) ∧
          v.instr? t₂.pos = some ⟨.handle, 0⟩ ∧
          v.BodyAt file ⟨loop, held⟩ orelse (t₂.pos + 1) ∧
          v.instr? t₆.pos = some ⟨.jump, w.pos + k⟩ ∧
          v.HandlersAt file ⟨loop, held + 1⟩ (w.pos + k) clauses t₇.pos ∧
          M file v loop w.pos ∧
          v.BodyAt file ⟨loop, held⟩ final (w.pos + k) := by
    refine (gives_patchHere .jump (t₆.pos :: slots) z).bind fun _ z₁ hy => ?_
    have hopen := (hupto.trans hcopy).sized (X := (t₆.pos :: slots) ++ []) rfl (.refl _)
      fun _ => Iff.rfl
    have hdone := hopen.close hy rfl
    have hheld : z₁.Holding held := hy.sameAround.holding (hcopy.holding htries hheldW)
    refine (hfinal z₁ hheld).bind ?_
    rintro _ z₂ ⟨htries₂', leaves', h₁₁⟩
    refine gives_modify ⟨?_, _, ((hdone.trans h₁₁).sized (U := _) rfl (.refl _) ?_ |>.shows
      fun file v loop h => ?_).and_idle rfl rfl rfl rfl rfl⟩
    · rw [htries₂', hy.tries, htries, htriesW]
      rfl
    · intro u
      simp only [List.mem_append]
      have := hus u
      tauto
    · obtain ⟨⟨⟨⟨⟨⟨-, ⟨-, hinner', ⟨-, hhandle⟩, -⟩, horelse', -⟩, htry⟩, -, hhandlers, -⟩, hM⟩,
        hslots⟩, hfinal'⟩ := h
      have hposZ : z.pos = w.pos + k := hcopy.stretch.pos
      rw [hposZ] at hslots
      have hcompleted := hslots t₆.pos List.mem_cons_self
      have hjumps := hhandlers (w.pos + k) fun x hx => hslots x (List.mem_cons_of_mem _ hx)
      refine ⟨htry, hinner', ?_, ?_, hcompleted, ?_, ?_, ?_⟩
      · rw [hpos₂]
        exact hhandle
      · rw [hpos₂]
        simpa only [Nat.add_assoc, Nat.zero_add, Nat.add_zero] using horelse'
      · rw [hpos₇]
        simpa only [Nat.add_assoc] using hjumps
      · rw [hposW]
        simpa only [Nat.add_assoc] using hM
      · rw [hposW]
        simpa only [Nat.add_assoc] using hfinal'
  cases htyped : clauses.all fun h => h.type.isSome with
  | true =>
    refine Gives.bind (hfinal w hheldW) ?_
    rintro _ z₀ ⟨htriesZ, leavesZ, hz₀⟩
    refine (lays_setLine m.pos.line z₀).bind fun _ z₁ hz₁ => ?_
    refine (lays_emit .raise 0 rfl z₁).bind fun _ z hz => ?_
    have hraise := hz₁.trans hz
    refine (htail (hz₀.trans hraise.placed) (hraise.around.tries.trans htriesZ) (by simp)).mono ?_
    rintro _ s' ⟨htries, leaves, hs'⟩
    refine ⟨htries, leaves, (hs'.sized (by simp) (.refl _) fun _ => Iff.rfl).shows
      fun file v loop h => ?_⟩
    rw [hposW, hpos₂, hpos₆, hpos₇] at h
    obtain ⟨htry, hbody', hhandle, horelse', hjump, hhandlers, ⟨hcopy, -, hraise'⟩, hfinal'⟩ := h
    simp only [Stmt.tryPlaces, htyped, if_true]
    exact ⟨htry, hbody', hhandle, horelse', hjump, hhandlers, fun _ => ⟨hcopy, hraise'⟩, hfinal'⟩
  | false =>
    refine (htail (Placed.idle rfl rfl rfl rfl rfl) rfl (by simp)).mono ?_
    rintro _ s' ⟨htries, leaves, hs'⟩
    refine ⟨htries, leaves, (hs'.sized (by simp) (.refl _) fun _ => Iff.rfl).shows
      fun file v loop h => ?_⟩
    rw [hposW, hpos₂, hpos₆, hpos₇] at h
    obtain ⟨htry, hbody', hhandle, horelse', hjump, hhandlers, -, hfinal'⟩ := h
    simp only [Stmt.tryPlaces, htyped, if_false, Bool.false_eq_true]
    exact ⟨htry, hbody', hhandle, horelse', hjump, hhandlers, False.elim, hfinal'⟩

/-! ## All statements -/

/-- Straight code of a statement, after its position was noted. -/
theorem Lays.puts_entered {k : Compile Unit} {M : Text → CodeView → Nat → Prop} (h : Lays k n us M)
    (m : Mark) (held : Nat) :
    Puts (do stmt.enter m; k) held n us fun file v _ p => M file v p :=
  (lays_enter m).before_puts fun _ => h.puts held

mutual

/-- **The code of a statement has the layout of the statement.** -/
theorem puts_stmt : ∀ (st : MarkedStmt) (held : Nat),
    Puts (stmt st) held (st.codeSize held) st.units
      fun file v loop p => v.StmtAt file ⟨loop, held⟩ st p
  | .functionDef m name signature inner, held => by
    have hwrite := (puts_returning (puts_body inner 0)).fills
    have hdefine := lays_define (u := .function m name signature inner) .makeFunction m.pos.line
      signature.defaults.length name hwrite rfl
    simp only [CodeUnit.compile, bind_assoc, pure_bind] at hdefine
    exact ((lays_reversed false signature.defaults).bind fun _ => hdefine).puts_entered m held
  | .classDef m name bases inner, held => by
    have hwrite := (puts_returning (puts_body inner 0)).fills
    have hdefine := lays_define (u := .classBody m name inner) .makeClass m.pos.line
      bases.length name hwrite rfl
    exact ((lays_reversed false bases).bind fun _ => hdefine).puts_entered m held
  | .ret m value, held => by
    exact (((lays_optional value).bind fun _ => lays_emit .ret 0 rfl).congr rfl
      (List.append_nil _) fun _ _ _ h => h).puts_entered m held
  | .delete m targets, held => by
    exact (lays_deletes targets).puts_entered m held
  | .assign m targets value, held => by
    have hcheck : Lays (targets.forM fun target => checkArity target value) 0 []
        fun _ _ _ => True :=
      lays_forM (fun target => lays_checkArity target value) (N := fun _ => 0)
        (A := fun _ _ _ => True) rfl (fun _ _ => rfl) (fun _ _ => trivial)
        (fun _ _ _ _ _ _ => trivial) targets
    exact (hcheck.after fun _ => (lays_expr value).bind fun _ =>
      lays_assignAll targets).puts_entered m held
  | .augAssign m target op value, held => by
    exact (lays_augAssign op value target).puts_entered m held
  | .forLoop m target iter inner, held => puts_for m held (puts_body inner 0)
  | .whileLoop m test inner, held => puts_while m held (puts_body inner 0)
  | .ifElse m test inner orelse, held => by
    simp only [stmt, Stmt.codeSize, Stmt.units, CodeView.StmtAt]
    refine (lays_enter m).before_puts fun _ => ?_
    have hinner := puts_body inner held
    cases orelse with
    | nil =>
      refine (puts_branch hinner).congr rfl (by simp [Stmt.unitsOfBody]) fun file v loop p h => ?_
      exact ⟨h.1, h.2.2, h.2.1⟩
    | cons st ss =>
      refine (puts_alternative hinner (puts_body (st :: ss) held)).congr rfl
        (fun _ => Iff.rfl) fun file v loop p h => ?_
      exact ⟨h.1, h.2.1, h.2.2.1, h.2.2.2.1, h.2.2.2.2⟩
  | .raise m exc cause, held => by
    exact (lays_raise exc cause m held).puts_entered m held
  | .tryExcept m inner clauses orelse final, held =>
    puts_try m held (puts_body inner (held + 1)) (puts_body orelse held)
      (putsHandlers clauses (held + 1)) (puts_body final held)
  | .assert m test msg, held => by
    exact (lays_assert test msg m held).puts_entered m held
  | .imports m names, held => by
    exact (lays_forM lays_importAlias (A := fun names v p => v.ImportsAt names p) rfl
      (fun _ _ => rfl)
      (fun _ _ => trivial) (fun _ _ _ _ h hs => ⟨h, hs⟩) names).puts_entered m held
  | .importFrom m module names level, held => by
    simp only [stmt, Stmt.codeSize, Stmt.units, CodeView.StmtAt]
    have hnames := lays_forM lays_importFromAlias (N := fun names => 2 * names.length)
      (A := fun names v p => v.ImportsFromAt names p) rfl
      (fun _ names => by rw [List.length_cons]; omega) (fun _ _ => trivial)
      (fun _ _ _ _ h hs => ⟨h.1, h.2, hs⟩) names
    refine (((lays_emitName .importModule _ rfl).bind fun _ => hnames.bind fun _ =>
      lays_emit .pop 0 rfl).congr ?_ rfl fun _ _ _ h => h).puts_entered m held
    omega
  | .expr m value, held => by
    exact (((lays_expr value).bind fun _ => lays_emit .pop 0 rfl).congr rfl
      (List.append_nil _) fun _ _ _ h => h).puts_entered m held
  | .pass m, held => by
    exact (lays_enter m).puts held
  | .breakLoop m, held => by
    exact (lays_enter m).before_puts fun _ => puts_loopControl true held
  | .continueLoop m, held => by
    exact (lays_enter m).before_puts fun _ => puts_loopControl false held

theorem puts_body : ∀ (ss : List MarkedStmt) (held : Nat),
    Puts (body ss) held (Stmt.bodySize held ss) (Stmt.unitsOfBody ss)
      fun file v loop p => v.BodyAt file ⟨loop, held⟩ ss p
  | [], held => by
    exact (lays_pure ()).puts held
  | st :: ss, held => by
    exact (puts_stmt st held).bind fun _ => puts_body ss held

theorem putsHandlers : ∀ (hs : List (Handler Mark MarkedExpr MarkedStmt)) (held : Nat),
    PutsHandlers hs held
  | [], held => putsHandlers_nil held
  | ⟨m, _, name, inner⟩ :: rest, held =>
    putsHandlers_cons m name (puts_body inner held) (putsHandlers rest held)

end

/-- The code of a unit is a stretch from the beginning of a code object, with the units inside made
into constants, and the code object that it fills has the layout of the unit. -/
theorem gives_write (u : CodeUnit) (s : CompileState) (hs : s.frame = {}) :
    u.write.Gives s fun _ t => (∃ n, Stretch s t n [] u.parts) ∧
      ∀ v : CodeView, v.words = t.words → v.constants = t.constants → v.UnitAt s.file u := by
  have hpos : s.pos = 0 := by simp [CompileState.pos, CompileState.words, hs]
  have hcompletes {t : CompileState} {v : CodeView} (hw : v.words = t.words)
      (hc : v.constants = t.constants) : v.Completes t :=
    ⟨fun x w hx _ => by rwa [hw], fun i k hk => by rwa [hc]⟩
  have hstatements (ss : List MarkedStmt) : (do body ss; returnNone : Compile Unit).Gives s
      fun _ t => (∃ n, Stretch s t n [] (Stmt.unitsOfBody ss)) ∧
        ∀ v : CodeView, v.words = t.words → v.constants = t.constants →
          v.BodyAt s.file {} ss 0 ∧ v.instr? (Stmt.bodySize 0 ss) = some ⟨.loadSpecial, 0⟩ ∧
          v.instr? (Stmt.bodySize 0 ss + 1) = some ⟨.ret, 0⟩ ∧
          v.words.size = Stmt.bodySize 0 ss + 2 := by
    refine (puts_returning (puts_body ss 0) s (CompileState.holding_of_empty hs)).mono ?_
    rintro _ t ⟨-, leaves, ht⟩
    obtain rfl := ht.inLoop (by rw [hs])
    refine ⟨⟨_, ht.stretch⟩, fun v hw hc => ?_⟩
    have hlayout := ht.layout v none (hcompletes hw hc) fun _ hl => absurd hl List.not_mem_nil
    have hsize := ht.stretch.pos
    rw [hpos, Nat.zero_add] at hsize
    rw [hpos, Nat.zero_add] at hlayout
    refine ⟨hlayout.1, hlayout.2.1, hlayout.2.2, ?_⟩
    rw [hw]
    exact hsize
  have hexpression (e : MarkedExpr) : (do expr e; emit .ret 0 : Compile Unit).Gives s
      fun _ t => (∃ n, Stretch s t n [] e.units) ∧
        ∀ v : CodeView, v.words = t.words → v.constants = t.constants →
          v.ExprAt s.file e 0 ∧ v.instr? e.codeSize = some ⟨.ret, 0⟩ ∧
          v.words.size = e.codeSize + 1 := by
    refine (((lays_expr e).bind fun _ => lays_emit .ret 0 rfl).congr rfl (List.append_nil _)
      (fun _ _ _ h => h) s).mono fun _ t ht => ?_
    refine ⟨⟨_, ht.stretch⟩, fun v hw hc => ?_⟩
    have hlayout := ht.layout v (hcompletes hw hc)
    have hsize := ht.stretch.pos
    rw [hpos, Nat.zero_add] at hsize
    rw [hpos, Nat.zero_add] at hlayout
    refine ⟨hlayout.1, hlayout.2, ?_⟩
    rw [hw]
    exact hsize
  cases u with
  | module m ss => exact hstatements ss
  | function m name signature ss => exact hstatements ss
  | classBody m name ss => exact hstatements ss
  | lambda m signature e => exact hexpression e
  | expression m e => exact hexpression e

end Compile

end Toolchain

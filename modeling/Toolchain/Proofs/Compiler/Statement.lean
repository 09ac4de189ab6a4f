import Toolchain.Proofs.Compiler.Piece
import Toolchain.Proofs.Parser.Program

/-!
# Code of statements

The code of a statement has the flow of the statement: it runs well exactly if the flow is balanced.
So a program that compiles gives a valid code object exactly if all its loops are left as they were
entered; an expression that compiles always gives one.

## Main results

* `Compile.performs_stmt`, `Compile.performs_body`: the code of statements has their flow
* `Compile.gives_bodyCode`: when the code object of statements is valid
* `verify_compileTree`: when the code object of a tree is valid
* `verify_compiled`: when the code object of a program text is valid
-/

namespace Toolchain

namespace Compile

open CodeView (Outside)

-- The equations are derived once, and not by each of the proofs that rewrite with them.
attribute [local grind =] stmt Stmt.WellFormed Stmt.flow Stmt.innerBalanced

variable {s t s' : CompileState} {f g : Flow} {X Y : Prop}

theorem emits_enter (m : Mark) (n : Nat) : Emits (stmt.enter m) n n :=
  fun _ => gives_modify (.of_frame_eq (by rfl) n)

/-- A return or a raise, after what it takes. -/
theorem performs_stop {m : Compile Unit} {n : Nat} (hm : Emits m 0 n) (op : Opcode) (k : Nat)
    (hop : op = .ret ∨ op = .raise) (hk : k ≤ 2) (hn : Instr.stackNeed ⟨op, k⟩ = n) :
    Performs (do m; emit op k) .stop True := by
  intro s
  refine (hm s).bind fun _ t ht => ?_
  refine (wrote_emit op k t).mono fun _ s' ⟨hw, hconstants⟩ => ⟨[], ?_⟩
  refine ⟨⟨ht.keeps.grows.trans hw.grows, ?_, nofun, nofun, fun v brk cont hv _ _ _ => ?_⟩, ?_,
    fun _ => ⟨rfl, rfl⟩⟩
  · have heq : s'.CodesOk ↔ t.CodesOk := by
      unfold CompileState.CodesOk
      rw [hconstants]
    rw [heq, ht.codesOk_iff, and_true]
  · rw [hw.pos]
    exact (ht.path v (hv.of_grows hw.grows)).stop hop (hw.instr? hv) hk hn _ brk cont
  · rw [hw.loops, ht.keeps.loops]
    cases s.frame.loops with
    | nil => rfl
    | cons l ls => rw [List.modifyHead_cons, LoopFrame.add_nil]

/-! ## Simple statements -/

theorem emits_assignAll : ∀ {targets : List MarkedExpr}, targets ≠ [] →
    (∀ t ∈ targets, t.IsTarget .store) → Emits (assignAll targets) 1 0
  | [], hne, _ => absurd rfl hne
  | [target], _, h => emits_store target (h target List.mem_cons_self)
  | target :: target' :: targets, _, h => by
    rw [assignAll]
    · refine (emits_emit .dup 1 rfl).bind fun _ => ?_
      refine ((emits_store target (h target List.mem_cons_self)).frame 1).bind fun _ => ?_
      exact emits_assignAll (List.cons_ne_nil _ _) fun t ht => h t (List.mem_cons_of_mem _ ht)
    · intro hnil
      cases hnil

theorem emits_augAssign {target value : MarkedExpr} (op : BinaryOp) (ht : target.IsTarget .store)
    (hv : value.WellFormed) : Emits (augAssign target op value) 0 0 := by
  have hparts := ht.parts
  cases target with
  | name m id ctx =>
    refine (emits_emitName .loadName rfl id).bind fun _ => ?_
    refine ((emits_expr hv).frame 1).bind fun _ => ?_
    exact (emits_binary op).bind fun _ => emits_emitName .storeName rfl id
  | attr m object label ctx =>
    refine (emits_expr hparts.1).bind fun _ => ?_
    refine (emits_emit .dup 1 rfl).bind fun _ => ?_
    refine ((emits_emitName .loadAttr rfl label).frame 1).bind fun _ => ?_
    refine ((emits_expr hv).frame 2).bind fun _ => ?_
    refine ((emits_binary op).frame 1).bind fun _ => ?_
    refine (emits_emit .rot 2 rfl).bind fun _ => ?_
    exact emits_emitName .storeAttr rfl label
  | subscript m object part ctx =>
    refine (emits_expr hparts.1).bind fun _ => ?_
    refine ((emits_part part hparts.2.1).frame 1).bind fun _ => ?_
    refine (emits_emit .dup 2 rfl).bind fun _ => ?_
    refine ((emits_emit .subscr 0 rfl).frame 2).bind fun _ => ?_
    refine ((emits_expr hv).frame 3).bind fun _ => ?_
    refine ((emits_binary op).frame 2).bind fun _ => ?_
    refine (emits_emit .rot 3 rfl).bind fun _ => ?_
    exact emits_emit .subscr 1 rfl
  | _ => exact emits_failAt

theorem emits_importAlias (a : Alias Mark) : Emits (importAlias a) 0 0 := by
  refine (emits_setLine _ 0).bind fun _ => ?_
  refine (emits_emitName .importModule rfl a.name).bind fun _ => ?_
  split
  · exact emits_emitName .storeName rfl _
  · refine (emits_emit .pop 0 rfl).bind fun _ => ?_
    refine (emits_emitName .importModule rfl _).bind fun _ => ?_
    exact emits_emitName .storeName rfl _
  · exact emits_emitName .storeName rfl _

theorem emits_importFromAlias (a : Alias Mark) : Emits (importFromAlias a) 1 1 := by
  refine (emits_setLine _ 1).bind fun _ => ?_
  refine (emits_emitName .importFrom rfl a.name).bind fun _ => ?_
  split
  · exact (emits_emit .pop 0 rfl).frame 1
  · exact (emits_emitName .storeName rfl _).frame 1

theorem performs_raise {exc cause : Option MarkedExpr} (he : Expr.OptionWellFormed exc)
    (hc : Expr.OptionWellFormed cause) : Performs (raise exc cause) .stop True := by
  match exc, cause with
  | none, _ => exact performs_stop (emits_pure () 0) _ _ (.inr rfl) (by decide) rfl
  | some exc, none =>
    exact performs_stop (emits_expr he) _ _ (.inr rfl) (by decide) rfl
  | some exc, some cause =>
    have hboth : Emits (do expr exc; expr cause) 0 2 :=
      (emits_expr he).bind fun _ => (emits_expr hc).frame 1
    have := performs_stop hboth .raise 2 (.inr rfl) (by decide) rfl
    rw [raise]
    simpa only [bind_assoc] using this

/-- The code that leaves a loop: the handlers in between are removed first. -/
theorem performs_loopControl (isBreak : Bool) :
    Performs (loopControl isBreak) (.leave isBreak) True := by
  intro s
  refine (gives_get (P := fun a t => a = s ∧ t = s) ⟨rfl, rfl⟩).bind ?_
  rintro a t ⟨rfl, rfl⟩
  cases hloops : t.frame.loops with
  | nil => exact gives_fail
  | cons l ls =>
    refine Gives.bind (emits_forM (n := 0) (fun _ _ => emits_emit .handle 0 rfl) t)
      fun _ u hu => ?_
    refine (gives_reserve u).bind ?_
    rintro place w ⟨rfl, rfl⟩
    have hul : u.frame.loops = l :: ls := hu.keeps.loops.trans hloops
    refine gives_modify ⟨[(isBreak, u.pos)], ?_⟩
    refine ⟨(hu.laid_leave isBreak).of_builder_eq rfl rfl, ?_, fun h => ?_⟩
    · simp only [CompileState.push, hul, hloops, List.modifyHead_cons]
      cases isBreak <;> simp [LoopFrame.add, placesOf]
    · rw [hloops] at h
      cases h

/-! ## Functions and classes -/

/-- A name is bound to a function or a class, whose code object may be invalid. -/
theorem gives_define {op : Opcode} (hop : op = .makeFunction ∨ op = .makeClass) (line : Nat)
    (c : Code) {count : Nat} (name : String) (h : Straight s t 0 count) :
    (define op line c count name).Gives t fun _ s' =>
      ∃ leaves, Piece s s' .straight (c.verify = .ok ()) leaves := by
  refine (emits_setLine line count t).bind fun _ t₁ h₁ => ?_
  rw [← bind_assoc]
  refine (gives_make hop c count t₁).bind fun _ t₂ ⟨hgrows, hloops, hcodes, hpath⟩ => ?_
  refine (emits_emitName .storeName rfl name t₂).mono fun _ s' h₃ => ⟨[], ?_⟩
  have h₀ := h.trans h₁
  refine ⟨⟨h₀.keeps.grows.trans (hgrows.trans h₃.keeps.grows), ?_, nofun, nofun,
    fun v brk cont hv _ _ _ => ?_⟩, ?_, fun _ => ⟨rfl, rfl⟩⟩
  · rw [h₃.codesOk_iff, hcodes, h₀.codesOk_iff]
  · have hv₂ := hv.of_grows h₃.keeps.grows
    exact ((h₀.path v (hv₂.of_grows hgrows)).trans ((hpath v hv₂).trans (h₃.path v hv))).block
      brk cont
  · rw [h₃.keeps.loops, hloops, h₀.keeps.loops]
    cases s.frame.loops with
    | nil => rfl
    | cons l ls => rw [List.modifyHead_cons, LoopFrame.add_nil]

/-- **The code object of statements is valid exactly if their flow is balanced and the code objects
in it are valid.** -/
theorem gives_bodyCode {m : Compile Unit} (hm : Performs m f X) (s : CompileState)
    (hs : s.frame = {}) : (do m; returnNone : Compile Unit).Gives s fun _ t =>
      ∀ c : Code, t.Finishes c → (c.verify = .ok () ↔ f.balanced = true ∧ X) := by
  refine (hm s).bind ?_
  rintro _ t ⟨leaves, hpiece⟩
  refine (emits_special none t).bind fun _ t₁ h₁ => ?_
  refine (wrote_emit .ret 0 t₁).mono ?_
  rintro _ u ⟨hw, hconstants⟩ c hc
  obtain ⟨rfl, hleaves⟩ := hpiece.inLoop (by rw [hs])
  have hgrows := hpiece.grows.trans (h₁.keeps.grows.trans hw.grows)
  have hv₁ := hc.completes.of_grows hw.grows
  have hv := hv₁.of_grows h₁.keeps.grows
  have hret : c.view.instr? t₁.pos = some ⟨.ret, 0⟩ := hw.instr? hc.completes
  have hsize : c.view.words.size = u.pos := by rw [hc.words_eq, CompileState.pos]
  have hpos := hw.pos
  have hle := h₁.keeps.grows.pos
  have hcodes : u.CodesOk ↔ X := by
    have heq : u.CodesOk ↔ t₁.CodesOk := by
      unfold CompileState.CodesOk
      rw [hconstants]
    rw [heq, h₁.codesOk_iff, hpiece.codes, and_iff_right (codesOk_of_empty hs)]
  have hout : Outside s.pos u.pos u.pos := by
    unfold Outside
    omega
  have hnone : c.view.LeavesTo [] u.pos u.pos := fun _ hl => absurd hl List.not_mem_nil
  have hblock := hpiece.block c.view u.pos u.pos hv hnone (hout.mono (Nat.le_refl _) (by omega))
    (hout.mono (Nat.le_refl _) (by omega))
  have hstop := (h₁.path c.view hv₁).stop (.inl rfl) hret (by decide) rfl u.pos u.pos u.pos
  rw [← hpos] at hstop
  have hwhole := (hblock.seq hstop (Nat.le_refl _) hout hout).behaves 0
  rw [pos_of_empty hs] at hwhole
  have hbehaves : c.view.Behaves 0 u.pos 0 (f.balanced = true) fun _ _ => False := by
    refine hwhole.congr ?_ fun _ x a => ?_
    · unfold Flow.seq
      split <;> simp [Flow.stop]
    · simp only [Flow.Exits, Flow.Left, Flow.seq, iff_false]
      split <;> simp_all [Flow.stop]
  rw [hc.verify_iff (hgrows.sane (sane_of_empty hs)) (by omega) ?_ hbehaves, hcodes]
  -- the instructions before the return do not refer to what is behind it
  have hbefore := hpiece.block c.view t.pos t.pos hv (fun _ hl => absurd hl List.not_mem_nil)
    (by unfold Outside; omega) (by unfold Outside; omega)
  have hencoded := hbefore.encoded (by omega) (by omega) (by omega) (by omega)
  rw [pos_of_empty hs] at hencoded
  rw [hpos]
  exact (hencoded.append ((h₁.path c.view hv₁).encoded (by omega))).append
    (CodeView.encodedOn_one hret (CodeView.encoded_stop (.inl rfl) (by decide)))

/-! ## Compound statements -/

/-- A test with a place for the jump if it fails, or if it holds. -/
theorem gives_test {test : MarkedExpr} (h : test.WellFormed) {op : Opcode}
    (hop : op = .jumpIfFalse ∨ op = .jumpIfTrue) (s : CompileState) :
    (do expr test; reserve).Gives s fun place s' => Slotted s s' [place] op 0 0 0 := by
  refine (emits_expr h s).bind fun _ t ht => ?_
  exact (gives_reserve_slotted hop t).mono fun place s' hs' => (ht.slotted op 0).trans hs'

theorem performs_branch {m : Compile Unit} {test : MarkedExpr} (h : test.WellFormed)
    (op : Opcode) (hop : op = .jumpIfFalse ∨ op = .jumpIfTrue) (hm : Performs m f X) :
    Performs (do
      expr test
      let place ← reserve
      m
      patchHere op [place]) (f.either .straight) X := by
  intro s
  rw [← bind_assoc]
  refine (gives_test h hop s).bind fun x t ht => ?_
  refine (hm t).bind fun _ u ⟨leaves, hu⟩ => ?_
  refine (gives_patchHere op [x] u).mono fun _ s' hp =>
    ⟨leaves, Laid.branch ht hu.toLaid hp, ?_, ?_⟩
  · rw [hp.loops, hu.loops, ht.keeps.loops]
  · intro hs
    obtain ⟨h₁, h₂⟩ := hu.inLoop (ht.keeps.loops.trans hs)
    exact ⟨h₁, either_leaves h₂ rfl⟩

theorem performs_alternative {m m' : Compile Unit} {test : MarkedExpr} (h : test.WellFormed)
    (hm : Performs m f X) (hm' : Performs m' g Y) :
    Performs (do
      expr test
      let otherwise ← reserve
      m
      let done ← reserve
      patchHere .jumpIfFalse [otherwise]
      m'
      patchHere .jump [done]) (f.either g) (X ∧ Y) := by
  intro s
  rw [← bind_assoc]
  refine (gives_test h (.inl rfl) s).bind fun x t ht => ?_
  refine (hm t).bind fun _ u ⟨leaves, hu⟩ => ?_
  refine (gives_reserve u).bind ?_
  rintro y u' ⟨rfl, rfl⟩
  refine (gives_patchHere .jumpIfFalse [x] _).bind fun _ r hx => ?_
  refine (hm' r).bind fun _ w ⟨leaves', hw⟩ => ?_
  refine (gives_patchHere .jump [u.pos] w).mono fun _ s' hy => ?_
  rw [CompileState.pos_push] at hx
  have hloops : r.frame.loops = u.frame.loops := hx.loops
  refine ⟨leaves ++ leaves', Laid.alternative ht hu.toLaid hx hw.toLaid hy, ?_, fun hs => ?_⟩
  · refine (hy.loops).trans (modifyHead_add_append ?_ hw.loops)
    rw [hloops, hu.loops, ht.keeps.loops]
  · have hs' := ht.keeps.loops.trans hs
    obtain ⟨h₁, h₂⟩ := hu.inLoop hs'
    obtain ⟨h₃, h₄⟩ := hw.inLoop (by rw [hloops, hu.loops, hs', List.modifyHead_nil])
    exact ⟨by rw [h₁, h₃, List.append_nil], either_leaves h₂ h₄⟩

theorem performs_assert {test : MarkedExpr} {msg : Option MarkedExpr} (ht : test.WellFormed)
    (hm : Expr.OptionWellFormed msg) : Performs (assert test msg) .straight True := by
  have hload : Emits (emitName .loadName "AssertionError") 0 1 := emits_emitName _ rfl _
  cases msg with
  | none =>
    have hcall : Emits (emit .call (callOperand 0 0)) 1 1 := emits_call (by decide) 0
    have hfail := performs_stop (hload.bind fun _ => hcall) .raise 1 (.inr rfl) (by decide) rfl
    have hassert := performs_branch ht .jumpIfTrue (.inr rfl) hfail
    simp only [bind_assoc] at hassert
    exact hassert
  | some msg =>
    have hcall : Emits (emit .call (callOperand 1 0)) 2 1 := emits_call (by decide) 0
    have hfail := performs_stop (hload.bind fun _ => ((emits_expr hm).frame 1).bind fun _ => hcall)
      .raise 1 (.inr rfl) (by decide) rfl
    have hassert := performs_branch ht .jumpIfTrue (.inr rfl) hfail
    simp only [bind_assoc] at hassert
    exact hassert

theorem performs_while {test : MarkedExpr} {inner : List MarkedStmt} (ht : test.WellFormed)
    (hm : Performs (body inner) f X) (m : Mark) :
    Performs (stmt (.whileLoop m test inner)) f.loop X := by
  refine (emits_enter m 0).then_performs fun _ s => ?_
  refine (gives_position s).bind ?_
  rintro start s₁ ⟨rfl, rfl⟩
  rw [← bind_assoc]
  refine (gives_test ht (.inl rfl) s₁).bind fun x t htest => ?_
  -- the body with the jump back, as the loop keeps it
  refine (gives_inLoop (P := fun w => ∃ leaves u l, Laid t u f X leaves ∧
    u.Wrote w ⟨.jump, s₁.pos⟩ ∧ w.constants = u.constants ∧ l.continues = [] ∧ l.breaks = [] ∧
    w.frame.loops = LoopFrame.add l leaves :: t.frame.loops) ?_).bind ?_
  · rintro s₀ hb ⟨l, hl₁, hl₂, hloops⟩
    rw [← bind_assoc]
    refine (hm.then_emits (fun _ => emits_setLine m.pos.line 0) s₀).bind fun _ u ⟨leaves, hu⟩ => ?_
    refine (wrote_emit .jump s₁.pos u).mono fun _ w ⟨hw, hconstants⟩ => ?_
    refine ⟨leaves, u, l, hu.toLaid.of_builder_eq hb.symm rfl, hw, hconstants, hl₁, hl₂, ?_⟩
    rw [hw.loops, hu.loops, hloops, List.modifyHead_cons]
  · rintro l t₁ ⟨w, ⟨leaves, u, l', hlaid, hw, hconstants, hl₁, hl₂, hloops⟩, hb, hl, rfl⟩
    have hloops₁ : t₁.frame.loops = t.frame.loops := by
      rw [hl, hloops, List.drop_one, List.tail_cons]
    let u' : CompileState := { u with frame := { u.frame with loops := t.frame.loops } }
    have hlaid' : Laid t u' f X leaves := hlaid.of_builder_eq rfl rfl
    have hw' : u'.Wrote t₁ ⟨.jump, s₁.pos⟩ := wrote_of_builder_eq hw rfl hb hloops₁
    have hconstants' : t₁.constants = u'.constants :=
      (congrArg CodeBuilder.constants hb).trans hconstants
    refine (gives_patchHere .jumpIfFalse [x] t₁).bind fun _ t₂ hp => ?_
    refine (gives_position t₂).bind ?_
    rintro exit t₃ ⟨rfl, rfl⟩
    have hplaces : ∀ l ∈ leaves, t₃.words[l.2]? = some Word.placeholder := fun l hl => by
      have hle := (hlaid'.reserved l hl).1
      have hlt := htest.reserved_one.2.2
      exact hp.placeholder_one (by omega) (hw'.grows.getElem? (hlaid'.reserved l hl).2)
    have hclose : (closeLoop (w.frame.loops.headD { tryDepth := 0 }) s₁.pos t₃.pos).Gives t₃
        fun _ s' => Closed t₃ s' leaves s₁.pos t₃.pos :=
      gives_closeLoop (by simp [hloops, LoopFrame.add, hl₁]) (by simp [hloops, LoopFrame.add, hl₂])
        hplaces hlaid'.distinct
    refine hclose.mono fun _ s' hclosed => ⟨[], ?_⟩
    rw [hp.pos] at hclosed
    refine (Laid.whileLoop htest hlaid' hw' hconstants' hp hclosed).piece ?_ rfl
    rw [hclosed.loops, hp.loops, hloops₁, htest.keeps.loops]

theorem performs_for {target iter : MarkedExpr} {inner : List MarkedStmt}
    (ht : target.IsTarget .store) (hi : iter.WellFormed) (hm : Performs (body inner) f X)
    (m : Mark) : Performs (stmt (.forLoop m target iter inner)) f.loop X := by
  refine (emits_enter m 0).then_performs fun _ s => ?_
  refine (emits_expr hi s).bind fun _ s₁ h₁ => ?_
  refine (emits_emit .iter 0 rfl s₁).bind fun _ s₂ h₂ => ?_
  refine (gives_reserve_next s₂).bind fun x t h₃ => ?_
  refine (gives_position t).bind ?_
  rintro round t' ⟨rfl, rfl⟩
  have hhead : Slotted s t' [x] .next 0 2 1 := ((h₁.trans h₂).slotted .next 1).trans h₃
  refine ((emits_store target ht).frame 1 t').bind fun _ r hstore => ?_
  refine (gives_inLoop (P := fun w => ∃ leaves l, Laid r w f X leaves ∧ l.continues = [] ∧
    l.breaks = [] ∧ w.frame.loops = LoopFrame.add l leaves :: r.frame.loops) ?_).bind ?_
  · rintro s₀ hb ⟨l, hl₁, hl₂, hloops⟩
    refine (hm s₀).mono fun _ w ⟨leaves, hw⟩ => ⟨leaves, l, ?_, hl₁, hl₂, ?_⟩
    · exact hw.toLaid.of_builder_eq hb.symm rfl
    · rw [hw.loops, hloops, List.modifyHead_cons]
  · rintro l u₀ ⟨w, ⟨leaves, l', hlaid, hl₁, hl₂, hloops⟩, hb, hl, rfl⟩
    have hloops₁ : u₀.frame.loops = r.frame.loops := by
      rw [hl, hloops, List.drop_one, List.tail_cons]
    refine (gives_modify (P := fun _ u => u.frame = u₀.frame) rfl).bind fun _ u hu => ?_
    have hlaid' : Laid r u f X leaves := hlaid.of_builder_eq rfl (by rw [hu, hb])
    refine (gives_position u).bind ?_
    rintro again u' ⟨rfl, rfl⟩
    refine (gives_reserve u').bind ?_
    rintro y u₁ ⟨rfl, rfl⟩
    refine (wrote_emit .jump t'.pos _).bind fun _ w₀ ⟨hw, hconstants⟩ => ?_
    refine (gives_position w₀).bind ?_
    rintro exit w₀' ⟨rfl, rfl⟩
    refine ((emits_emit .pop 0 rfl w₀').and (wrote_emit .pop 0 w₀')).bind
      fun _ w₁ ⟨hpop, hone, _⟩ => ?_
    refine (gives_patch x .next w₀'.pos w₁).bind fun _ w₂ hx => ?_
    refine (gives_patch u'.pos .next w₀'.pos w₂).bind fun _ w₃ hy => ?_
    have hlt := hhead.reserved_one.2.2
    have hle₁ := hstore.keeps.grows.pos
    have hplaces : ∀ l ∈ leaves, w₃.words[l.2]? = some Word.placeholder := fun l hl => by
      obtain ⟨hle, hplace⟩ := hlaid'.reserved l hl
      have hlt' := hlaid'.lt_pos hl
      refine hy.placeholder_one (by omega) (hx.placeholder_one (by omega) ?_)
      exact (hw.grows.trans hpop.keeps.grows).getElem? ((u'.grows_push _).getElem? hplace)
    have hclose : (closeLoop (w.frame.loops.headD { tryDepth := 0 }) u'.pos w₀'.pos).Gives w₃
        fun _ s' => Closed w₃ s' leaves u'.pos w₀'.pos :=
      gives_closeLoop (by simp [hloops, LoopFrame.add, hl₁]) (by simp [hloops, LoopFrame.add, hl₂])
        hplaces hlaid'.distinct
    refine hclose.mono fun _ s' hclosed => ⟨[], ?_⟩
    refine (Laid.forLoop hhead hstore hlaid' hw hconstants hpop hx hy hclosed hone.pos).piece ?_ rfl
    rw [hclosed.loops, hy.loops, hx.loops, hpop.keeps.loops, hw.loops]
    change u'.frame.loops = _
    rw [hu, hloops₁, hstore.keeps.loops, hhead.keeps.loops]

/-- The head of a handler takes the exception; the test of its type leaves it for the next one. -/
theorem gives_handlerHead {type : Option MarkedExpr} (htype : Expr.OptionWellFormed type)
    (name : Option String) (s : CompileState) :
    (handlerHead type name).Gives s fun next s' =>
      (∃ x, next = some x ∧ type.isSome = true ∧ Slotted s s' [x] .jumpIfFalse 1 0 1) ∨
      (next = none ∧ type.isSome = false ∧ Straight s s' 1 0) := by
  cases type with
  | none =>
    refine Gives.bind (gives_pure (P := fun a t => a = none ∧ t = s) ⟨rfl, rfl⟩) ?_
    rintro next t ⟨rfl, rfl⟩
    cases name with
    | none =>
      exact (emits_emit .pop 0 rfl t).bind fun _ _ h => gives_pure (.inr ⟨rfl, rfl, h⟩)
    | some name =>
      exact (emits_emitName .storeName rfl name t).bind fun _ _ h => gives_pure (.inr ⟨rfl, rfl, h⟩)
  | some type =>
    refine Gives.bind (emits_emit .dup 1 rfl s) fun _ t₁ h₁ => ?_
    refine ((emits_expr htype).frame 2 t₁).bind fun _ t₂ h₂ => ?_
    refine ((emits_emit .compare exceptionMatch rfl).frame 1 t₂).bind
      fun _ t₃ h₃ => ?_
    rw [map_eq_pure_bind, bind_assoc]
    refine (gives_reserve_slotted (.inl rfl) t₃).bind fun x t₄ h₄ => ?_
    rw [pure_bind]
    have htaken {s' : CompileState} (h : Straight t₄ s' 1 0) :
        Slotted s s' [x] .jumpIfFalse 1 0 1 :=
      ((h₁.trans (h₂.trans h₃)).slotted _ 1).trans ((h₄.frame 1).trans (h.slotted _ 1))
    cases name with
    | none =>
      exact (emits_emit .pop 0 rfl t₄).bind fun _ _ h => gives_pure (.inl ⟨x, rfl, rfl, htaken h⟩)
    | some name =>
      exact (emits_emitName .storeName rfl name t₄).bind
        fun _ _ h => gives_pure (.inl ⟨x, rfl, rfl, htaken h⟩)

theorem performs_try {inner orelse final : List MarkedStmt} {f₁ f₂ e : Flow} {X₁ X₂ Z : Prop}
    {clauses : List (Handler Mark MarkedExpr MarkedStmt)} (hinner : Performs (body inner) f₁ X₁)
    (horelse : Performs (body orelse) f₂ X₂)
    (hhandlers : ∀ s, (handlers clauses).Gives s fun slots s' => ∃ leaves, Handled s s' slots
      ((clauses.all fun h => h.type.isSome) = true) g Y leaves (s'.pos ≤ ·))
    (hfinal : Performs (body final) e Z) (m : Mark) :
    Performs (stmt (.tryExcept m inner clauses orelse final))
      (((f₁.seq f₂).either (if clauses.all fun h => h.type.isSome then g.either e.raised
        else g)).seq e) (((X₁ ∧ X₂) ∧ Y) ∧ Z) := by
  refine (emits_enter m 0).then_performs fun _ s => ?_
  refine (gives_reserve s).bind ?_
  rintro registration s₁ ⟨rfl, rfl⟩
  refine (gives_modify (P := fun _ t => Straight (s.push Word.placeholder) t 0 0)
    (.of_builder_eq (by rfl) (by rfl) 0)).bind fun _ t₁ h₁ => ?_
  refine (hinner t₁).bind fun _ t₂ ⟨leaves₁, h₂⟩ => ?_
  refine (emits_setLine m.pos.line 0 t₂).bind fun _ t₃ h₃ => ?_
  refine (emits_emit .handle 0 rfl t₃).bind fun _ t₄ h₄ => ?_
  refine (gives_modify (P := fun _ t => Straight t₄ t 0 0)
    (.of_builder_eq (by rfl) (by rfl) 0)).bind fun _ t₅ h₅ => ?_
  refine (horelse t₅).bind fun _ u ⟨leaves₂, h₆⟩ => ?_
  have hbody : Piece (s.push Word.placeholder) u (f₁.seq f₂) (X₁ ∧ X₂) (leaves₁ ++ leaves₂) := by
    have := (h₁.piece.seq h₂).seq (((h₃.trans (h₄.trans h₅)).piece).seq h₆)
    simpa using this
  refine (gives_reserve u).bind ?_
  rintro completed u₁ ⟨rfl, rfl⟩
  refine (gives_patchHere .try [s.pos] _).bind fun _ r₀ hx => ?_
  rw [CompileState.pos_push] at hx
  refine (gives_modify (P := fun _ t => t.frame.builder = r₀.frame.builder ∧
    t.frame.loops = r₀.frame.loops) ⟨rfl, rfl⟩).bind fun _ r ⟨hrb, hrl⟩ => ?_
  refine (hhandlers r).bind fun slots w₀ ⟨leaves₃, h₇⟩ => ?_
  refine (gives_modify (P := fun _ t => t.frame.builder = w₀.frame.builder ∧
    t.frame.loops = w₀.frame.loops) ⟨rfl, rfl⟩).bind fun _ w ⟨hwb, hwl⟩ => ?_
  have hwpos : w.pos = w₀.pos := congrArg (fun b : CodeBuilder => b.words.size) hwb
  have hhandled := h₇.of_builder_eq hrb.symm hrl.symm hwb hwl
  -- what comes after the handlers is the same with and without a handler for all exceptions
  have htail {z : CompileState} {g' : Flow} {Y' : Prop} {leaves' : List (Bool × Nat)}
      (hcaught : Handled r₀ z slots False g' Y' leaves' (· = z.pos)) : (do
        patchHere .jump (u.pos :: slots)
        body final
        modify fun s => { s with frame := { s.frame with tries := s.frame.tries.drop 1 } } :
          Compile Unit).Gives z fun _ s' => ∃ leaves,
        Piece s s' (((f₁.seq f₂).either g').seq e) (((X₁ ∧ X₂) ∧ Y') ∧ Z) leaves := by
    refine (gives_patchHere .jump (u.pos :: slots) z).bind fun _ z₁ hy => ?_
    refine (hfinal z₁).bind fun _ z₂ ⟨leaves₄, h₈⟩ => ?_
    refine (gives_modify (P := fun _ t => Straight z₂ t 0 0)
      (.of_builder_eq (by rfl) (by rfl) 0)).mono fun _ s' hs' =>
        ⟨leaves₁ ++ leaves₂ ++ leaves' ++ leaves₄, ?_⟩
    simpa using ((hbody.protect hx hcaught hy).seq h₈).seq hs'.piece
  cases htyped : clauses.all fun h => h.type.isSome with
  | true =>
    rw [htyped, ← hwpos, eq_self] at hhandled
    refine Gives.bind (hfinal w) fun _ z₀ ⟨leaves₅, h₈⟩ => ?_
    refine (emits_setLine m.pos.line 0 z₀).bind fun _ z₁ h₉ => ?_
    refine (wrote_emit .raise 0 z₁).bind fun _ z ⟨hw, hconstants⟩ => ?_
    have hagain : Piece w z₁ e Z leaves₅ := by simpa using h₈.seq h₉.piece
    refine (htail (hhandled.pass hagain hw hconstants)).mono fun _ s' ⟨leaves, hs'⟩ => ⟨leaves, ?_⟩
    exact hs'.congr (by tauto)
  | false =>
    rw [htyped, ← hwpos] at hhandled
    have hcaught : Handled r₀ w slots False g Y leaves₃ (· = w.pos) := by
      simpa using hhandled.mono_ends fun n hn => (Nat.le_of_eq hn.symm)
    exact htail hcaught

theorem performs_function {inner : List MarkedStmt} {signature : Signature Mark MarkedExpr}
    (hs : signature.WellFormed) (hm : Performs (body inner) f X) (m : Mark) (name : String) :
    Performs (stmt (.functionDef m name signature inner)) .straight (f.balanced = true ∧ X) := by
  refine (emits_enter m 0).then_performs fun _ s => ?_
  refine (emits_reversed signature.defaults hs.2 s).bind fun _ t ht => ?_
  refine (gives_nestedCode (gives_bodyCode hm)).bind fun c t₁ ⟨hframe, u, hu, hc⟩ => ?_
  have hverify := hu (withParams c signature) ⟨hc.instructions, hc.lineTable, hc.constants⟩
  rw [← hverify]
  exact gives_define (.inl rfl) m.pos.line _ name (ht.trans (.of_frame_eq hframe _))

theorem performs_class {inner : List MarkedStmt} {bases : List MarkedExpr}
    (hb : Expr.AllWellFormed bases) (hm : Performs (body inner) f X) (m : Mark) (name : String) :
    Performs (stmt (.classDef m name bases inner)) .straight (f.balanced = true ∧ X) := by
  refine (emits_enter m 0).then_performs fun _ s => ?_
  refine (emits_reversed bases hb s).bind fun _ t ht => ?_
  refine (gives_nestedCode (gives_bodyCode hm)).bind fun c t₁ ⟨hframe, u, hu, hc⟩ => ?_
  rw [← hu c hc]
  exact gives_define (.inr rfl) m.pos.line _ name (ht.trans (.of_frame_eq hframe _))

mutual

/-- **The code of a statement has its flow.** -/
theorem performs_stmt : ∀ st : MarkedStmt, st.WellFormed →
    Performs (stmt st) st.flow (st.innerBalanced = true)
  | .functionDef m name signature inner, h => by
    refine (performs_function h.2.1 (performs_body inner h.2.2.2) m name).congr ?_ ?_
    · simp only [Stmt.flow]
    · simp only [Stmt.innerBalanced, Bool.and_eq_true]
  | .classDef m name bases inner, h => by
    refine (performs_class h.2.1 (performs_body inner h.2.2.2) m name).congr ?_ ?_
    · simp only [Stmt.flow]
    · simp only [Stmt.innerBalanced, Bool.and_eq_true]
  | .ret m value, h => by
    rw [Stmt.WellFormed] at h
    simp only [stmt, Stmt.flow, Stmt.innerBalanced]
    exact (emits_enter m 0).then_performs fun _ =>
      performs_stop (emits_optional value h) _ _ (.inl rfl) (by decide) rfl
  | .delete m targets, h => by
    rw [Stmt.WellFormed] at h
    simp only [stmt, Stmt.flow, Stmt.innerBalanced]
    exact ((emits_enter m 0).bind fun _ => emits_deletes targets h.2).performs
  | .assign m targets value, h => by
    rw [Stmt.WellFormed] at h
    simp only [stmt, Stmt.flow, Stmt.innerBalanced]
    refine Emits.performs ((emits_enter m 0).bind fun _ => ?_)
    refine (emits_forM fun target _ => emits_checkArity target value).bind fun _ => ?_
    exact (emits_expr h.2.2).bind fun _ => emits_assignAll h.1 h.2.1
  | .augAssign m target op value, h => by
    rw [Stmt.WellFormed] at h
    simp only [stmt, Stmt.flow, Stmt.innerBalanced]
    exact ((emits_enter m 0).bind fun _ => emits_augAssign op h.2.1 h.2.2).performs
  | .forLoop m target iter inner, h => by
    exact performs_for h.1 h.2.1 (performs_body inner h.2.2.2) m
  | .whileLoop m test inner, h => by
    exact performs_while h.1 (performs_body inner h.2.2) m
  | .ifElse m test inner orelse, h => by
    rw [stmt, Stmt.flow, Stmt.innerBalanced, Bool.and_eq_true]
    refine (emits_enter m 0).then_performs fun _ => ?_
    have hinner := performs_body inner h.2.2.1
    cases orelse with
    | nil =>
      refine (performs_branch h.1 .jumpIfFalse (.inl rfl) hinner).congr ?_ ?_
      · rw [Stmt.bodyFlow]
      · rw [Stmt.bodyInnerBalanced, eq_self, and_true]
    | cons st ss => exact performs_alternative h.1 hinner (performs_body (st :: ss) h.2.2.2)
  | .raise m exc cause, h => by
    rw [Stmt.WellFormed] at h
    simp only [stmt, Stmt.flow, Stmt.innerBalanced]
    exact (emits_enter m 0).then_performs fun _ => performs_raise h.1 h.2.1
  | .tryExcept m inner clauses orelse final, h => by
    obtain ⟨-, hinner, hclauses, horelse, hfinal, -⟩ := h
    refine (performs_try (performs_body inner hinner) (performs_body orelse horelse)
      (gives_handlers clauses hclauses) (performs_body final hfinal) m).congr ?_ ?_
    · rw [Stmt.flow]
    · simp only [Stmt.innerBalanced, Bool.and_eq_true]
  | .assert m test msg, h => by
    rw [Stmt.WellFormed] at h
    simp only [stmt, Stmt.flow, Stmt.innerBalanced]
    exact (emits_enter m 0).then_performs fun _ => performs_assert h.1 h.2
  | .imports m names, h => by
    simp only [stmt, Stmt.flow, Stmt.innerBalanced]
    exact ((emits_enter m 0).bind fun _ => emits_forM fun a _ => emits_importAlias a).performs
  | .importFrom m module names level, h => by
    simp only [stmt, Stmt.flow, Stmt.innerBalanced]
    refine Emits.performs ((emits_enter m 0).bind fun _ => ?_)
    refine (emits_emitName .importModule rfl _).bind fun _ => ?_
    refine (emits_forM fun a _ => emits_importFromAlias a).bind fun _ => ?_
    exact emits_emit .pop 0 rfl
  | .expr m value, h => by
    rw [Stmt.WellFormed] at h
    simp only [stmt, Stmt.flow, Stmt.innerBalanced]
    refine Emits.performs ((emits_enter m 0).bind fun _ => ?_)
    exact (emits_expr h).bind fun _ => emits_emit .pop 0 rfl
  | .pass m, _ => by
    simp only [stmt, Stmt.flow, Stmt.innerBalanced]
    exact (emits_enter m 0).performs
  | .breakLoop m, _ => by
    simp only [stmt, Stmt.flow, Stmt.innerBalanced]
    exact (emits_enter m 0).then_performs fun _ => performs_loopControl true
  | .continueLoop m, _ => by
    simp only [stmt, Stmt.flow, Stmt.innerBalanced]
    exact (emits_enter m 0).then_performs fun _ => performs_loopControl false

theorem performs_body : ∀ ss : List MarkedStmt, Stmt.AllWellFormed ss →
    Performs (body ss) (Stmt.bodyFlow ss) (Stmt.bodyInnerBalanced ss = true)
  | [], _ => by
    rw [body, Stmt.bodyFlow, Stmt.bodyInnerBalanced]
    exact (emits_pure () 0).performs.congr rfl (by simp)
  | st :: ss, h => by
    rw [body, Stmt.bodyFlow, Stmt.bodyInnerBalanced, Bool.and_eq_true]
    exact (performs_stmt st h.1).bind fun _ => performs_body ss h.2

theorem gives_handlers : ∀ hs : List (Handler Mark MarkedExpr MarkedStmt),
    Stmt.HandlersWellFormed hs → ∀ s, (handlers hs).Gives s fun slots s' => ∃ leaves,
      Handled s s' slots ((hs.all fun h => h.type.isSome) = true) (Stmt.handlersFlow hs)
        (Stmt.handlersInnerBalanced hs = true) leaves (s'.pos ≤ ·)
  | [], _, s => by
    rw [handlers, Stmt.handlersFlow, Stmt.handlersInnerBalanced]
    exact gives_pure ⟨[], by simpa using Handled.nil s⟩
  | ⟨m, type, name, inner⟩ :: rest, h, s => by
    obtain ⟨htype, -, hlast, -, hinner, hrest⟩ := h
    rw [handlers, Stmt.handlersFlow, Stmt.handlersInnerBalanced, Bool.and_eq_true]
    refine (emits_setLine m.pos.line 1 s).bind fun _ s₁ h₁ => ?_
    refine (gives_handlerHead htype name s₁).bind fun next t hhead => ?_
    refine (performs_body inner hinner t).bind fun _ u₁ ⟨leaves, h₂⟩ => ?_
    refine (emits_setLine m.pos.line 0 u₁).bind fun _ u₂ h₃ => ?_
    refine (emits_emit .handle 0 rfl u₂).bind fun _ u h₄ => ?_
    have hbody : Piece t u (Stmt.bodyFlow inner) (Stmt.bodyInnerBalanced inner = true) leaves := by
      simpa using h₂.seq (h₃.trans h₄).piece
    refine (gives_reserve u).bind ?_
    rintro handled u' ⟨rfl, rfl⟩
    rcases hhead with ⟨x, rfl, hsome, hslot⟩ | ⟨rfl, hnone, hstraight⟩
    · refine (gives_patchHere .jumpIfFalse [x] _).bind fun _ r hx => ?_
      rw [CompileState.pos_push] at hx
      refine (gives_handlers rest hrest r).bind fun slots s' ⟨leaves', h₅⟩ => ?_
      refine gives_pure ⟨leaves ++ leaves', ?_⟩
      have hall : (List.all (⟨m, type, name, inner⟩ :: rest) fun h => h.type.isSome) =
          rest.all fun h => h.type.isSome := by simp [hsome]
      rw [hall]
      exact Handled.typed ((h₁.slotted _ 1).trans hslot) hbody hx h₅
    · have hrest' : rest = [] := (hlast (by simpa using hnone)).2
      subst hrest'
      refine (gives_patchHere_nil .jumpIfFalse _).bind ?_
      rintro _ r rfl
      rw [handlers, pure_bind]
      refine gives_pure ⟨leaves, ?_⟩
      have huntyped := Handled.untyped (h₁.trans hstraight) hbody
      rw [Stmt.handlersFlow, Stmt.handlersInnerBalanced]
      simpa [hnone] using huntyped

end

end Compile

/-! ## Programs -/

open Compile

/-- A code object was made from a root. -/
theorem Compile.gives_root {r : Root Mark} (h : r.WellFormed) (s : CompileState) :
    (root r).Gives s fun c _ => c.verify = .ok () ↔ r.isBalanced = true := by
  cases r with
  | module m statements =>
    refine (emits_setLine m.pos.line 0 s).bind fun _ t _ => ?_
    refine (gives_nestedCode (gives_bodyCode (performs_body statements h))).mono ?_
    rintro c _ ⟨_, u, hu, hc⟩
    rw [hu c hc, Root.isBalanced, Bool.and_eq_true]
  | expression m e =>
    refine (emits_setLine m.pos.line 0 s).bind fun _ t _ => ?_
    refine (gives_nestedCode (gives_exprCode (emits_expr h))).mono ?_
    rintro c _ ⟨_, u, hu, hc⟩
    simp only [hu c hc, Root.isBalanced]

/-- The code object of a tree is valid exactly if the tree is balanced. -/
theorem verify_compileTree {file : Text} {r : Root Mark} (h : r.WellFormed) {c : Code}
    (hc : (compileTree file r).1 = .ok c) : c.verify = .ok () ↔ r.isBalanced = true := by
  unfold compileTree at hc
  split at hc
  · rename_i code s hrun
    cases hc
    exact gives_root h _ _ _ hrun
  · cases hc

/-- What was parsed and compiled is the code object of a tree. -/
theorem compileParsed_eq_ok {file : Text} {parsed : Logged Parsed} {c : Code}
    (h : (compileParsed file parsed).1 = .ok c) :
    ∃ p, parsed.1 = .ok p ∧ (compileTree file p.root).1 = .ok c := by
  obtain ⟨outcome, logs⟩ := parsed
  cases outcome with
  | error d => cases h
  | ok p => exact ⟨p, rfl, h⟩

/-- **Which compiled programs are valid.** The code object of a program text is valid exactly if no
loop of the program is left with an exception on the stack; the code object of an expression always
is. -/
theorem verify_compiled (file source : Text) :
    (∀ c, (compileModule file source).1 = .ok c →
      ∃ p, (parseModule file source).1 = .ok p ∧
        (c.verify = .ok () ↔ p.root.isBalanced = true)) ∧
    ∀ c, (compileExpression source).1 = .ok c → c.verify = .ok () := by
  constructor
  · intro c hc
    obtain ⟨p, hp, hc⟩ := compileParsed_eq_ok hc
    obtain ⟨m, body, hroot, hbody⟩ := isModule_of_parseModule hp
    exact ⟨p, hp, verify_compileTree (by rw [hroot]; exact hbody) hc⟩
  · intro c hc
    obtain ⟨p, hp, hc⟩ := compileParsed_eq_ok hc
    obtain ⟨m, body, hroot, hbody⟩ := isExpression_of_parseExpression hp
    refine (verify_compileTree (by rw [hroot]; exact hbody) hc).mpr ?_
    rw [hroot, Root.isBalanced]

/-- A loop that is left in the protected part of a `try`. -/
def finishingLoop : Text := "for x in y:\n    try:\n        break\n    finally:\n        f(x)\n"

/-- A loop that is left in the final part of a `try`. -/
def leavingLoop : Text := "while x:\n    try:\n        pass\n    finally:\n        break\n"

theorem verify_compiled_finishingLoop :
    ∃ c, (compileModule "m" finishingLoop).1 = .ok c ∧ c.verify = .ok () := by
  obtain ⟨c, hc, -⟩ : ∃ c, (compileModule "m" finishingLoop).1 = .ok c ∧ true = true :=
    exists_of_any (q := fun _ => true) (by decide +kernel)
  obtain ⟨p', hp', hbalanced⟩ : ∃ p, (parseModule "m" finishingLoop).1 = .ok p ∧
      p.root.isBalanced = true :=
    exists_of_any (q := fun p : Parsed => p.root.isBalanced) (by decide +kernel)
  obtain ⟨p, hp, hiff⟩ := (verify_compiled "m" finishingLoop).1 c hc
  obtain rfl : p' = p := Except.ok.inj (hp'.symm.trans hp)
  exact ⟨c, hc, hiff.mpr hbalanced⟩

/-- The verifier does not accept what the loop is compiled to. -/
theorem not_verify_leavingLoop :
    ∃ c, (compileModule "m" leavingLoop).1 = .ok c ∧ c.verify ≠ .ok () := by
  obtain ⟨c, hc, hverify⟩ : ∃ c, (compileModule "m" leavingLoop).1 = .ok c ∧
      (!c.verify.toBool) = true :=
    exists_of_any (q := fun c : Code => !c.verify.toBool) (by decide +kernel)
  refine ⟨c, hc, fun hok => ?_⟩
  rw [hok] at hverify
  exact absurd hverify (by decide)

end Toolchain

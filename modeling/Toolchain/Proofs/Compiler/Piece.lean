import Toolchain.Proofs.Compiler.Block
import Toolchain.Proofs.Compiler.Expression
import Toolchain.Compiler.Statement

/-!
# Pieces of code

What has been written of a statement is a block with a flow. Its jumps out of the loop around it are
places that the loop writes when it ends; until then they are kept with the loop.

## Main definitions

* `LoopFrame.add`: a loop with more places
* `Compile.Laid`: what was written is a block
* `Compile.Piece`: the same, with its places kept in the loop around it
* `Compile.Handled`: what was written handles exceptions
* `Compile.Performs`: a step writes a block

## Main results

* `Compile.Piece.seq`: pieces one after the other
* `Compile.Laid.branch`, `Compile.Laid.alternative`, `Compile.Laid.whileLoop`,
  `Compile.Laid.forLoop`, `Compile.Laid.protect`: pieces of compound statements
-/

namespace Toolchain

/-- The places among some that do, or do not, leave the loop. -/
def placesOf (isBreak : Bool) (leaves : List (Bool × Nat)) : List Nat :=
  (leaves.filter fun l => l.1 == isBreak).map (·.2)

theorem mem_placesOf {isBreak : Bool} {leaves : List (Bool × Nat)} {x : Nat} :
    x ∈ placesOf isBreak leaves ↔ (isBreak, x) ∈ leaves := by
  simp [placesOf]

/-- A loop with more places: each with whether it leaves the loop. -/
def LoopFrame.add (l : LoopFrame) (leaves : List (Bool × Nat)) : LoopFrame :=
  { l with
    continues := l.continues ++ placesOf false leaves
    breaks := l.breaks ++ placesOf true leaves }

@[simp] theorem LoopFrame.add_nil (l : LoopFrame) : l.add [] = l := by
  simp [add, placesOf]

theorem LoopFrame.add_append (l : LoopFrame) (a b : List (Bool × Nat)) :
    l.add (a ++ b) = (l.add a).add b := by
  simp [add, placesOf]

/-- The places hold the jumps out of a loop. -/
def CodeView.LeavesTo (v : CodeView) (leaves : List (Bool × Nat)) (brk cont : Nat) : Prop :=
  ∀ l ∈ leaves, v.instr? l.2 = some ⟨.jump, if l.1 then brk else cont⟩

namespace Compile

open CodeView (Outside)

variable {s t s' : CompileState} {f g : Flow} {X Y : Prop} {leaves leaves' : List (Bool × Nat)}

/-- What was written is a block with a flow. Its new code objects are valid exactly if `inner`
holds, and it has places for jumps out of the loop around it. -/
structure Laid (s s' : CompileState) (f : Flow) (inner : Prop) (leaves : List (Bool × Nat)) :
    Prop where
  grows : s.Grows s'
  codes : s'.CodesOk ↔ s.CodesOk ∧ inner
  reserved : ∀ l ∈ leaves, s.pos ≤ l.2 ∧ s'.words[l.2]? = some Word.placeholder
  distinct : ∀ x, (true, x) ∈ leaves → (false, x) ∉ leaves
  block : ∀ (v : CodeView) (brk cont : Nat), v.Completes s' → v.LeavesTo leaves brk cont →
    Outside s.pos s'.pos brk → Outside s.pos s'.pos cont →
    v.Block s.pos s'.pos f s'.pos brk cont

/-- What was written is a block with a flow, whose places are kept in the loop around it. Without a
loop it has none. -/
structure Piece (s s' : CompileState) (f : Flow) (inner : Prop) (leaves : List (Bool × Nat)) :
    Prop extends Laid s s' f inner leaves where
  loops : s'.frame.loops = s.frame.loops.modifyHead (·.add leaves)
  inLoop : s.frame.loops = [] → leaves = [] ∧ f.leaves = []

theorem codesOk_iff_of_grows (h : s.Grows s') (hc : s.CodesOk → s'.CodesOk) :
    s'.CodesOk ↔ s.CodesOk := by
  refine ⟨fun h' c hmem => h' c ?_, hc⟩
  obtain ⟨i, hi, heq⟩ := Array.mem_iff_getElem.mp hmem
  exact Array.mem_of_getElem? (h.constants i _ (by rw [Array.getElem?_eq_getElem hi, heq]))

theorem Straight.codesOk_iff {n k : Nat} (h : Straight s s' n k) : s'.CodesOk ↔ s.CodesOk :=
  codesOk_iff_of_grows h.keeps.grows h.keeps.codes

/-- Straight code that leaves the stack as it was. -/
theorem Straight.piece (h : Straight s s' 0 0) : Piece s s' .straight True [] where
  grows := h.keeps.grows
  codes := by rw [h.codesOk_iff, and_true]
  reserved := nofun
  distinct := nofun
  block v brk cont hv _ _ _ := (h.path v hv).block brk cont
  loops := by
    rw [h.keeps.loops]
    cases s.frame.loops with
    | nil => rfl
    | cons l ls => rw [List.modifyHead_cons, LoopFrame.add_nil]
  inLoop _ := ⟨rfl, rfl⟩

theorem Laid.lt_pos (h : Laid s s' f X leaves) {l : Bool × Nat} (hl : l ∈ leaves) : l.2 < s'.pos :=
  CompileState.lt_pos_of_getElem? (h.reserved l hl).2

/-- Only the code that was written matters. -/
theorem Laid.of_builder_eq {r : CompileState} (h : Laid s s' f X leaves)
    (hs : r.frame.builder = s.frame.builder) (ht : t.frame.builder = s'.frame.builder) :
    Laid r t f X leaves := by
  obtain ⟨file, ⟨builder, loops, tries⟩, line, column, codes⟩ := s
  obtain ⟨file', ⟨builder', loops', tries'⟩, line', column', codes'⟩ := s'
  obtain ⟨file₁, ⟨builder₁, loops₁, tries₁⟩, line₁, column₁, codes₁⟩ := r
  obtain ⟨file₂, ⟨builder₂, loops₂, tries₂⟩, line₂, column₂, codes₂⟩ := t
  obtain rfl : builder₁ = builder := hs
  obtain rfl : builder₂ = builder' := ht
  refine ⟨⟨h.grows.pos, h.grows.words, h.grows.constants, fun hr => ?_⟩, h.codes, h.reserved,
    h.distinct, fun v brk cont hv => h.block v brk cont ⟨hv.words, hv.constants⟩⟩
  obtain ⟨hl, hk⟩ := h.grows.sane ⟨hr.lines, hr.kinds⟩
  exact ⟨hl, hk⟩

/-- A block without places leaves the loops as they were. -/
theorem Laid.piece (h : Laid s s' f X []) (hl : s'.frame.loops = s.frame.loops)
    (hf : f.leaves = []) : Piece s s' f X [] := by
  refine ⟨h, ?_, fun _ => ⟨rfl, hf⟩⟩
  rw [hl]
  cases s.frame.loops with
  | nil => rfl
  | cons l ls => rw [List.modifyHead_cons, LoopFrame.add_nil]

/-- One block after another. -/
theorem Laid.seq (h : Laid s t f X leaves) (h' : Laid t s' g Y leaves') :
    Laid s s' (f.seq g) (X ∧ Y) (leaves ++ leaves') where
  grows := h.grows.trans h'.grows
  codes := by rw [h'.codes, h.codes, and_assoc]
  reserved l hl := by
    rcases List.mem_append.mp hl with hl | hl
    · exact ⟨(h.reserved l hl).1, h'.grows.getElem? (h.reserved l hl).2⟩
    · exact ⟨Nat.le_trans h.grows.pos (h'.reserved l hl).1, (h'.reserved l hl).2⟩
  distinct x hb hc := by
    rcases List.mem_append.mp hb with hb | hb <;> rcases List.mem_append.mp hc with hc | hc
    · exact h.distinct x hb hc
    · exact Nat.not_le_of_lt (h.lt_pos hb) (h'.reserved _ hc).1
    · exact Nat.not_le_of_lt (h.lt_pos hc) (h'.reserved _ hb).1
    · exact h'.distinct x hb hc
  block v brk cont hv hleaves hb hc := by
    have h₁ := h.block v brk cont (hv.of_grows h'.grows)
      (fun l hl => hleaves l (List.mem_append_left _ hl))
      (hb.mono (Nat.le_refl _) h'.grows.pos) (hc.mono (Nat.le_refl _) h'.grows.pos)
    have h₂ := h'.block v brk cont hv (fun l hl => hleaves l (List.mem_append_right _ hl))
      (hb.mono h.grows.pos (Nat.le_refl _)) (hc.mono h.grows.pos (Nat.le_refl _))
    exact h₁.seq h₂ (Nat.le_refl _) hb hc

theorem Piece.seq (h : Piece s t f X leaves) (h' : Piece t s' g Y leaves') :
    Piece s s' (f.seq g) (X ∧ Y) (leaves ++ leaves') where
  toLaid := h.toLaid.seq h'.toLaid
  loops := by
    rw [h'.loops, h.loops]
    cases s.frame.loops with
    | nil => rfl
    | cons l ls => simp only [List.modifyHead_cons, LoopFrame.add_append]
  inLoop hs := by
    obtain ⟨h₁, h₂⟩ := h.inLoop hs
    have ht : t.frame.loops = [] := by rw [h.loops, hs, List.modifyHead_nil]
    obtain ⟨h₃, h₄⟩ := h'.inLoop ht
    refine ⟨by rw [h₁, h₃, List.append_nil], ?_⟩
    unfold Flow.seq
    split <;> simp [h₂, h₄]

theorem Piece.congr (h : Piece s s' f X leaves) (hX : X ↔ Y) : Piece s s' f Y leaves :=
  { h with codes := by rw [h.codes, hX] }

/-! ## Steps that write blocks -/

section Steps

variable {α β : Type} {m : Compile α} {k : α → Compile β}

/-- The step writes a block with a flow; its new code objects are valid exactly if `inner` holds. -/
def Performs (m : Compile α) (f : Flow) (inner : Prop) : Prop :=
  ∀ s, m.Gives s fun _ s' => ∃ leaves, Piece s s' f inner leaves

theorem Performs.bind (h : Performs m f X) (hk : ∀ a, Performs (k a) g Y) :
    Performs (m >>= k) (f.seq g) (X ∧ Y) := by
  refine fun s => (h s).bind fun a t ⟨_, ht⟩ => ?_
  exact (hk a t).mono fun _ _ ⟨_, ht'⟩ => ⟨_, ht.seq ht'⟩

theorem Performs.congr (h : Performs m f X) (hf : f = g) (hX : X ↔ Y) : Performs m g Y :=
  hf ▸ fun s => (h s).mono fun _ _ ⟨leaves, hp⟩ => ⟨leaves, hp.congr hX⟩

theorem Emits.performs (h : Emits m 0 0) : Performs m .straight True :=
  fun s => (h s).mono fun _ _ hs => ⟨[], hs.piece⟩

/-- Straight code before a block. -/
theorem Emits.then_performs (h : Emits m 0 0) (hk : ∀ a, Performs (k a) f X) :
    Performs (m >>= k) f X :=
  (h.performs.bind hk).congr (Flow.straight_seq f) (by rw [true_and])

/-- Straight code after a block. -/
theorem Performs.then_emits (h : Performs m f X) (hk : ∀ a, Emits (k a) 0 0) :
    Performs (m >>= k) f X :=
  (h.bind fun a => (hk a).performs).congr (Flow.seq_straight f) (by rw [and_true])

theorem emits_forM {n : Nat} {step : α → Compile Unit} {as : List α}
    (h : ∀ a ∈ as, Emits (step a) n n) : Emits (as.forM step) n n := by
  induction as with
  | nil => exact emits_pure () n
  | cons a as ih =>
    exact (h a List.mem_cons_self).bind fun _ => ih fun a' ha' => h a' (List.mem_cons_of_mem _ ha')

end Steps

/-- A place for a jump out of a loop, after straight code. -/
theorem Straight.laid_leave (h : Straight s t 0 0) (isBreak : Bool) :
    Laid s (t.push Word.placeholder) (.leave isBreak) True [(isBreak, t.pos)] where
  grows := h.keeps.grows.trans (t.grows_push _)
  codes := by
    change t.CodesOk ↔ _
    rw [h.codesOk_iff, and_true]
  reserved l hl := by
    obtain rfl := List.mem_singleton.mp hl
    exact ⟨h.keeps.grows.pos, t.getElem?_push _⟩
  distinct := by cases isBreak <;> simp
  block v brk cont hv hleaves hb hc := by
    have hjump := hleaves _ (List.mem_singleton_self _)
    have hle := h.keeps.grows.pos
    rw [CompileState.pos_push] at hb hc ⊢
    have hhandle := (h.path v (hv.of_grows (t.grows_push _))).block brk cont
    have hleave := CodeView.Block.leave hjump (hb.mono hle (Nat.le_refl _))
      (hc.mono hle (Nat.le_refl _)) (t.pos + 1)
    have := hhandle.seq hleave (Nat.le_refl _) hb hc
    rwa [Flow.straight_seq] at this

/-! ## Tests -/

theorem Slotted.codesOk_iff {slots : List Nat} {op : Opcode} {n k e : Nat}
    (h : Slotted s s' slots op n k e) : s'.CodesOk ↔ s.CodesOk :=
  codesOk_iff_of_grows h.keeps.grows h.keeps.codes

section Tests

variable {u w r : CompileState} {x y : Nat} {op : Opcode}

theorem Slotted.reserved_one {n k e : Nat} (h : Slotted s t [x] op n k e) :
    s.pos ≤ x ∧ t.words[x]? = some Word.placeholder ∧ x < t.pos := by
  obtain ⟨hle, hplace⟩ := h.reserved x (List.mem_singleton_self x)
  exact ⟨hle, hplace, CompileState.lt_pos_of_getElem? hplace⟩

theorem Patched.refines_one {i : Instr} (h : Patched s s' [x] i)
    (hx : s.words[x]? = some Word.placeholder) : s.Refines s' :=
  h.refines fun _ hmem => List.mem_singleton.mp hmem ▸ hx

theorem Patched.instr?_one {i : Instr} (h : Patched s s' [x] i) {v : CodeView}
    (hv : v.Completes s') (hx : x < s.pos) : v.instr? x = some i :=
  h.instr? hv (List.mem_singleton_self x) hx

theorem Patched.grows_one {i : Instr} (h : Patched s s' [x] i) (hg : r.Grows s) (hx : r.pos ≤ x) :
    r.Grows s' :=
  h.grows hg fun _ hmem => List.mem_singleton.mp hmem ▸ hx

theorem Patched.placeholder_one {i : Instr} (h : Patched s s' [x] i) (hne : y ≠ x)
    (hy : s.words[y]? = some Word.placeholder) : s'.words[y]? = some Word.placeholder :=
  h.placeholder (fun hmem => hne (List.mem_singleton.mp hmem)) hy

/-- A block that is jumped over if a test fails. -/
theorem Laid.branch (h : Slotted s t [x] op 0 0 0) (hbody : Laid t u f X leaves)
    (hp : Patched u s' [x] ⟨op, u.pos⟩) : Laid s s' (f.either .straight) X leaves := by
  obtain ⟨hle, hplace, hlt⟩ := h.reserved_one
  have hplace' := hbody.grows.getElem? hplace
  have hgrows := h.keeps.grows.trans hbody.grows
  refine ⟨hp.grows_one hgrows hle, ?_, fun l hl => ?_, hbody.distinct, ?_⟩
  · rw [hp.codesOk_iff, hbody.codes, h.codesOk_iff]
  · obtain ⟨hle', hplace⟩ := hbody.reserved l hl
    exact ⟨Nat.le_trans h.keeps.grows.pos hle', hp.placeholder_one (by omega) hplace⟩
  · intro v brk cont hv hleaves hb hc
    have hvu := hv.of_refines (hp.refines_one hplace')
    have hx : v.instr? x = some ⟨op, u.pos⟩ :=
      hp.instr?_one hv (CompileState.lt_pos_of_getElem? hplace')
    have hfork := h.fork v u.pos (hvu.of_grows hbody.grows) hbody.grows.pos fun _ hmem =>
      List.mem_singleton.mp hmem ▸ hx
    rw [hp.pos] at hb hc ⊢
    have hblock := hbody.block v brk cont hvu hleaves (hb.mono h.keeps.grows.pos (Nat.le_refl _))
      (hc.mono h.keeps.grows.pos (Nat.le_refl _))
    exact .branch hfork (by simp) hblock hb hc

/-- One of two blocks, depending on a test. -/
theorem Laid.alternative (h : Slotted s t [x] op 0 0 0) (hbody : Laid t u f X leaves)
    (hx : Patched (u.push Word.placeholder) r [x] ⟨op, u.pos + 1⟩) (horelse : Laid r w g Y leaves')
    (hy : Patched w s' [u.pos] ⟨.jump, w.pos⟩) :
    Laid s s' (f.either g) (X ∧ Y) (leaves ++ leaves') := by
  obtain ⟨hle, hplace, hlt⟩ := h.reserved_one
  have hpush := u.grows_push Word.placeholder
  have hpos : r.pos = u.pos + 1 := by rw [hx.pos, CompileState.pos_push]
  have htu := hbody.grows.pos
  have hplace' := hpush.getElem? (hbody.grows.getElem? hplace)
  have hplaceY : w.words[u.pos]? = some Word.placeholder :=
    horelse.grows.getElem? (hx.placeholder_one (by omega) (u.getElem?_push _))
  have hgrows : s.Grows w := (hx.grows_one
    (h.keeps.grows.trans (hbody.grows.trans hpush)) hle).trans horelse.grows
  have hle' := h.keeps.grows.pos
  refine ⟨hy.grows_one hgrows (by omega), ?_, fun l hl => ?_, fun z hb hc => ?_, ?_⟩
  · rw [hy.codesOk_iff, horelse.codes, hx.codesOk_iff, ← and_assoc, ← h.codesOk_iff, ← hbody.codes]
    exact Iff.rfl
  · rcases List.mem_append.mp hl with hl | hl
    · obtain ⟨hle₁, hplace₁⟩ := hbody.reserved l hl
      have hlt₁ := hbody.lt_pos hl
      refine ⟨by omega, hy.placeholder_one (by omega) (horelse.grows.getElem? ?_)⟩
      exact hx.placeholder_one (by omega) (hpush.getElem? hplace₁)
    · obtain ⟨hle₁, hplace₁⟩ := horelse.reserved l hl
      exact ⟨by omega, hy.placeholder_one (by omega) hplace₁⟩
  · rcases List.mem_append.mp hb with hb | hb <;> rcases List.mem_append.mp hc with hc | hc
    · exact hbody.distinct z hb hc
    · have := hbody.lt_pos hb
      have := (horelse.reserved _ hc).1
      omega
    · have := hbody.lt_pos hc
      have := (horelse.reserved _ hb).1
      omega
    · exact horelse.distinct z hb hc
  · intro v brk cont hv hleaves hb hc
    have hvw := hv.of_refines (hy.refines_one hplaceY)
    have hvr := hvw.of_grows horelse.grows
    have hvu := (hvr.of_refines (hx.refines_one hplace')).of_grows hpush
    have hrw := horelse.grows.pos
    have hinstrX : v.instr? x = some ⟨op, u.pos + 1⟩ :=
      hx.instr?_one hvr (CompileState.lt_pos_of_getElem? hplace')
    have hinstrY : v.instr? u.pos = some ⟨.jump, w.pos⟩ :=
      hy.instr?_one hv (CompileState.lt_pos_of_getElem? hplaceY)
    have hfork := h.fork v (u.pos + 1) (hvu.of_grows hbody.grows) (by omega) fun _ hmem =>
      List.mem_singleton.mp hmem ▸ hinstrX
    rw [hy.pos] at hb hc ⊢
    have hblock := hbody.block v brk cont hvu (fun l hl => hleaves l (List.mem_append_left _ hl))
      (hb.mono hle' (by omega)) (hc.mono hle' (by omega))
    have hjump := hblock.jump hinstrY (by unfold Outside; omega) (hb.mono hle' (by omega))
      (hc.mono hle' (by omega))
    have helse := horelse.block v brk cont hvw
      (fun l hl => hleaves l (List.mem_append_right _ hl)) (hb.mono (by omega) (Nat.le_refl _))
      (hc.mono (by omega) (Nat.le_refl _))
    rw [hpos] at helse
    exact .alternative hfork (by simp) hjump helse hb hc

end Tests

/-! ## Loops -/

/-- The jumps of a loop were written. -/
structure Closed (s s' : CompileState) (leaves : List (Bool × Nat)) (again exit : Nat) : Prop where
  refines : s.Refines s'
  pos : s'.pos = s.pos
  loops : s'.frame.loops = s.frame.loops
  codes : s'.CodesOk ↔ s.CodesOk
  grows : ∀ r : CompileState, r.Grows s → (∀ l ∈ leaves, r.pos ≤ l.2) → r.Grows s'
  leaves : ∀ v : CodeView, v.Completes s' → v.LeavesTo leaves exit again

theorem gives_closeLoop {l : LoopFrame} {again exit : Nat}
    (hl : l.continues = placesOf false leaves)
    (hl' : l.breaks = placesOf true leaves)
    (hplaces : ∀ l ∈ leaves, s.words[l.2]? = some Word.placeholder)
    (hdistinct : ∀ x, (true, x) ∈ leaves → (false, x) ∉ leaves) :
    (closeLoop l again exit).Gives s fun _ s' => Closed s s' leaves again exit := by
  refine (gives_patchAll l.continues .jump again s).bind fun _ t h => ?_
  refine (gives_patchAll l.breaks .jump exit t).mono fun _ s' h' => ?_
  rw [hl] at h
  rw [hl'] at h'
  have hbreaks : ∀ x, (true, x) ∈ leaves → t.words[x]? = some Word.placeholder := fun x hx =>
    h.placeholder (fun hmem => hdistinct x hx (mem_placesOf.mp hmem)) (hplaces _ hx)
  have hrefines : t.Refines s' := h'.refines fun x hx => hbreaks x (mem_placesOf.mp hx)
  refine ⟨.trans (h.refines fun x hx => hplaces _ (mem_placesOf.mp hx)) hrefines,
    h'.pos.trans h.pos, h'.loops.trans h.loops, h'.codesOk_iff.trans h.codesOk_iff, ?_, ?_⟩
  · intro r hr hle
    refine h'.grows (h.grows hr fun x hx => ?_) fun x hx => ?_
    · exact hle _ (mem_placesOf.mp hx)
    · exact hle _ (mem_placesOf.mp hx)
  · rintro v hv ⟨b, x⟩ hx
    have hlt : x < s.pos := CompileState.lt_pos_of_getElem? (hplaces _ hx)
    cases b with
    | true => exact h'.instr? hv (mem_placesOf.mpr hx) (h.pos ▸ hlt)
    | false => exact h.instr? (hv.of_refines hrefines) (mem_placesOf.mpr hx) hlt

/-- The body of a loop: its places are given, and the loops around it are as they were. -/
theorem gives_inLoop {m : Compile Unit} {s : CompileState} {P : CompileState → Prop}
    (h : ∀ s₀ : CompileState, s₀.frame.builder = s.frame.builder →
      (∃ l : LoopFrame, l.continues = [] ∧ l.breaks = [] ∧
        s₀.frame.loops = l :: s.frame.loops) → m.Gives s₀ fun _ s₁ => P s₁) :
    (inLoop m).Gives s fun l s' => ∃ s₁, P s₁ ∧ s'.frame.builder = s₁.frame.builder ∧
      s'.frame.loops = s₁.frame.loops.drop 1 ∧ l = s₁.frame.loops.headD { tryDepth := 0 } := by
  refine Gives.bind (gives_modify (P := fun _ s₀ => s₀.frame.builder = s.frame.builder ∧
    ∃ l : LoopFrame, l.continues = [] ∧ l.breaks = [] ∧ s₀.frame.loops = l :: s.frame.loops)
    ⟨rfl, _, rfl, rfl, rfl⟩) fun _ s₀ ⟨hb, hl⟩ => ?_
  refine (h s₀ hb hl).bind fun _ s₁ hs₁ => ?_
  refine (gives_get (P := fun a t => a = s₁ ∧ t = s₁) ⟨rfl, rfl⟩).bind ?_
  rintro a t ⟨rfl, rfl⟩
  refine Gives.bind (gives_set (P := fun _ s' => s'.frame.builder = t.frame.builder ∧
    s'.frame.loops = t.frame.loops.drop 1) ⟨rfl, rfl⟩) fun _ s' ⟨hb', hl'⟩ => ?_
  exact gives_pure ⟨t, hs₁, hb', hl', rfl⟩

section Loops

variable {u w w₁ w₂ : CompileState} {x : Nat}

theorem wrote_of_builder_eq {i : Instr} (h : s.Wrote s' i) (hs : u.frame.builder = s.frame.builder)
    (hs' : w.frame.builder = s'.frame.builder) (hl : w.frame.loops = u.frame.loops) :
    u.Wrote w i := by
  obtain ⟨file, ⟨builder, loops, tries⟩, line, column, codes⟩ := s
  obtain ⟨file', ⟨builder', loops', tries'⟩, line', column', codes'⟩ := s'
  obtain ⟨file₁, ⟨builder₁, loops₁, tries₁⟩, line₁, column₁, codes₁⟩ := u
  obtain ⟨file₂, ⟨builder₂, loops₂, tries₂⟩, line₂, column₂, codes₂⟩ := w
  obtain rfl : builder₁ = builder := hs
  obtain rfl : builder₂ = builder' := hs'
  refine ⟨h.fits, ⟨h.grows.pos, h.grows.words, h.grows.constants, fun hr => ?_⟩, h.pos, h.word, hl⟩
  obtain ⟨hl, hk⟩ := h.grows.sane ⟨hr.lines, hr.kinds⟩
  exact ⟨hl, hk⟩

theorem Laid.whileLoop (h : Slotted s t [x] .jumpIfFalse 0 0 0) (hbody : Laid t u f X leaves)
    (hw : u.Wrote w ⟨.jump, s.pos⟩) (hconstants : w.constants = u.constants)
    (hp : Patched w w₁ [x] ⟨.jumpIfFalse, w.pos⟩) (hclosed : Closed w₁ s' leaves s.pos w.pos) :
    Laid s s' f.loop X [] := by
  obtain ⟨hle, hplace, hlt⟩ := h.reserved_one
  have hplace' := hw.grows.getElem? (hbody.grows.getElem? hplace)
  have hgrows := hp.grows_one (h.keeps.grows.trans (hbody.grows.trans hw.grows)) hle
  have hle₁ := h.keeps.grows.pos
  have hle₂ := hbody.grows.pos
  refine ⟨hclosed.grows s hgrows fun l hl => ?_, ?_, nofun, nofun, ?_⟩
  · have := (hbody.reserved l hl).1
    omega
  · have heq : w.CodesOk ↔ u.CodesOk := by
      unfold CompileState.CodesOk
      rw [hconstants]
    rw [hclosed.codes, hp.codesOk_iff, heq, hbody.codes, h.codesOk_iff]
  · intro v brk cont hv _ _ _
    have hv₁ := hv.of_refines hclosed.refines
    have hvw := hv₁.of_refines (hp.refines_one hplace')
    have hvu := hvw.of_grows hw.grows
    have hinstr : v.instr? x = some ⟨.jumpIfFalse, w.pos⟩ :=
      hp.instr?_one hv₁ (CompileState.lt_pos_of_getElem? hplace')
    have hpos := hw.pos
    have hfork := h.fork v w.pos (hvu.of_grows hbody.grows) (by omega) fun _ hmem =>
      List.mem_singleton.mp hmem ▸ hinstr
    have hblock := hbody.block v w.pos s.pos hvu (hclosed.leaves v hv) (by unfold Outside; omega)
      (by unfold Outside; omega)
    have hround := hblock.jump (hw.instr? hvw) (by unfold Outside; omega)
      (by unfold Outside; omega) (by unfold Outside; omega)
    rw [hclosed.pos, hp.pos]
    rw [← hpos] at hround
    exact .whileLoop hfork (by simp) (by omega) hround brk cont

theorem Laid.forLoop {r w₃ : CompileState} (h : Slotted s t [x] .next 0 2 1)
    (hstore : Straight t r 2 1) (hbody : Laid r u f X leaves)
    (hw : (u.push Word.placeholder).Wrote w ⟨.jump, t.pos⟩)
    (hconstants : w.constants = u.constants) (hpop : Straight w w₁ 1 0)
    (hx : Patched w₁ w₂ [x] ⟨.next, w.pos⟩) (hy : Patched w₂ w₃ [u.pos] ⟨.next, w.pos⟩)
    (hclosed : Closed w₃ s' leaves u.pos w.pos) (hone : w₁.pos = w.pos + 1) :
    Laid s s' f.loop X [] := by
  obtain ⟨hle, hplace, hlt⟩ := h.reserved_one
  have hpush := u.grows_push Word.placeholder
  have hposPush : (u.push Word.placeholder).pos = u.pos + 1 := u.pos_push _
  have hle₁ := h.keeps.grows.pos
  have hle₂ := hbody.grows.pos
  have hle₃ := hstore.keeps.grows.pos
  have hposW := hw.pos
  have htw₁ := hw.grows.trans hpop.keeps.grows
  have hplaceX : w₁.words[x]? = some Word.placeholder := htw₁.getElem? (hpush.getElem?
    (hbody.grows.getElem? (hstore.keeps.grows.getElem? hplace)))
  have hplaceY : w₂.words[u.pos]? = some Word.placeholder :=
    hx.placeholder_one (by omega) (htw₁.getElem? (u.getElem?_push _))
  have hgrows : s.Grows w₁ :=
    h.keeps.grows.trans (hstore.keeps.grows.trans (hbody.grows.trans (hpush.trans htw₁)))
  refine ⟨hclosed.grows s (hy.grows_one (hx.grows_one hgrows hle) (by omega)) fun l hl => ?_, ?_,
    nofun, nofun, ?_⟩
  · have := (hbody.reserved l hl).1
    omega
  · have heq : w.CodesOk ↔ u.CodesOk := by
      unfold CompileState.CodesOk
      rw [hconstants]
    rw [hclosed.codes, hy.codesOk_iff, hx.codesOk_iff, hpop.codesOk_iff, heq, hbody.codes,
      hstore.codesOk_iff, h.codesOk_iff]
  · intro v brk cont hv _ _ _
    have hv₃ := hv.of_refines hclosed.refines
    have hv₂ := hv₃.of_refines (hy.refines_one hplaceY)
    have hv₁ := hv₂.of_refines (hx.refines_one hplaceX)
    have hvw := hv₁.of_grows hpop.keeps.grows
    have hvu := (hvw.of_grows hw.grows).of_grows hpush
    have hvr := hvu.of_grows hbody.grows
    have hinstrX : v.instr? x = some ⟨.next, w.pos⟩ :=
      hx.instr?_one hv₂ (CompileState.lt_pos_of_getElem? hplaceX)
    have hinstrY : v.instr? u.pos = some ⟨.next, w.pos⟩ :=
      hy.instr?_one hv₃ (CompileState.lt_pos_of_getElem? hplaceY)
    have hjump := hw.instr? hvw
    have hfork := h.fork v w.pos (hvr.of_grows hstore.keeps.grows) (by omega) fun _ hmem =>
      List.mem_singleton.mp hmem ▸ hinstrX
    have hblock := hbody.block v w.pos u.pos hvu (hclosed.leaves v hv) (by unfold Outside; omega)
      (by unfold Outside; omega)
    have hdrop := hpop.path v hv₁
    rw [hone] at hdrop
    rw [hposPush] at hjump
    rw [hclosed.pos, hy.pos, hx.pos, hone]
    exact .forLoop hfork (by simp) (hstore.path v hvr) hblock hinstrY hjump (by omega)
      hdrop brk cont

end Loops

/-! ## Exceptions -/

/-- What was written handles exceptions. It has places for jumps to where a `try` goes on, which may
be at any position with `ends`. -/
structure Handled (s s' : CompileState) (slots : List Nat) (passes : Prop) (g : Flow) (inner : Prop)
    (leaves : List (Bool × Nat)) (ends : Nat → Prop) : Prop where
  grows : s.Grows s'
  codes : s'.CodesOk ↔ s.CodesOk ∧ inner
  reserved : ∀ l ∈ leaves, s.pos ≤ l.2 ∧ s'.words[l.2]? = some Word.placeholder
  distinct : ∀ x, (true, x) ∈ leaves → (false, x) ∉ leaves
  jumps : ∀ x ∈ slots, s.pos ≤ x ∧ s'.words[x]? = some Word.placeholder ∧ ∀ b, (b, x) ∉ leaves
  loops : s'.frame.loops = s.frame.loops.modifyHead (·.add leaves)
  inLoop : s.frame.loops = [] → leaves = [] ∧ g.leaves = []
  handling : ∀ (v : CodeView) (fin brk cont : Nat), v.Completes s' → v.LeavesTo leaves brk cont →
    (∀ x ∈ slots, v.instr? x = some ⟨.jump, fin⟩) → ends fin → Outside s.pos s'.pos brk →
    Outside s.pos s'.pos cont → v.Handling s.pos s'.pos passes g fin brk cont

theorem Handled.nil (s : CompileState) : Handled s s [] True .stop True [] (s.pos ≤ ·) where
  grows := .refl s
  codes := (and_iff_left trivial).symm
  reserved := nofun
  distinct := nofun
  jumps := nofun
  loops := by
    cases s.frame.loops with
    | nil => rfl
    | cons l ls => rw [List.modifyHead_cons, LoopFrame.add_nil]
  inLoop _ := ⟨rfl, rfl⟩
  handling v fin brk cont _ _ _ _ _ _ := .nil v s.pos fin brk cont

theorem either_leaves (h : f.leaves = []) (h' : g.leaves = []) : (f.either g).leaves = [] := by
  simp [Flow.either, h, h']

section Exceptions

variable {u r w z : CompileState} {x : Nat} {slots : List Nat} {passes : Prop}

theorem modifyHead_add_append {ls ls' ls'' : List LoopFrame}
    (h : ls' = ls.modifyHead (·.add leaves)) (h' : ls'' = ls'.modifyHead (·.add leaves')) :
    ls'' = ls.modifyHead (·.add (leaves ++ leaves')) := by
  subst h h'
  cases ls with
  | nil => rfl
  | cons l ls => simp only [List.modifyHead_cons, LoopFrame.add_append]

/-- A handler for one type of exceptions, before others. -/
theorem Handled.typed (hhead : Slotted s t [x] .jumpIfFalse 1 0 1) (hbody : Piece t u f X leaves)
    (hx : Patched (u.push Word.placeholder) r [x] ⟨.jumpIfFalse, u.pos + 1⟩)
    (hrest : Handled r s' slots passes g Y leaves' (s'.pos ≤ ·)) :
    Handled s s' (u.pos :: slots) passes (f.either g) (X ∧ Y) (leaves ++ leaves') (s'.pos ≤ ·) := by
  obtain ⟨hle, hplace, hlt⟩ := hhead.reserved_one
  have hpush := u.grows_push Word.placeholder
  have hpos : r.pos = u.pos + 1 := by rw [hx.pos, CompileState.pos_push]
  have hle₁ := hhead.keeps.grows.pos
  have hle₂ := hbody.grows.pos
  have hle₃ := hrest.grows.pos
  have hplaceX := hpush.getElem? (hbody.grows.getElem? hplace)
  have hgrows : s.Grows r :=
    hx.grows_one (hhead.keeps.grows.trans (hbody.grows.trans hpush)) hle
  have hkept : ∀ l ∈ leaves, r.words[l.2]? = some Word.placeholder := fun l hl => by
    obtain ⟨hle', hplace'⟩ := hbody.reserved l hl
    exact hx.placeholder_one (by omega) (hpush.getElem? hplace')
  refine ⟨hgrows.trans hrest.grows, ?_, fun l hl => ?_, fun y hb hc => ?_, fun y hy => ?_, ?_,
    fun hs => ?_, ?_⟩
  · rw [hrest.codes, hx.codesOk_iff, ← and_assoc, ← hhead.codesOk_iff, ← hbody.codes]
    exact Iff.rfl
  · rcases List.mem_append.mp hl with hl | hl
    · have := (hbody.reserved l hl).1
      exact ⟨by omega, hrest.grows.getElem? (hkept l hl)⟩
    · have := hrest.reserved l hl
      exact ⟨by omega, this.2⟩
  · rcases List.mem_append.mp hb with hb | hb <;> rcases List.mem_append.mp hc with hc | hc
    · exact hbody.distinct y hb hc
    · have := hbody.lt_pos hb
      have := (hrest.reserved _ hc).1
      omega
    · have := hbody.lt_pos hc
      have := (hrest.reserved _ hb).1
      omega
    · exact hrest.distinct y hb hc
  · rcases List.mem_cons.mp hy with rfl | hy
    · refine ⟨by omega, hrest.grows.getElem? (hx.placeholder_one (by omega) (u.getElem?_push _)),
        fun b hb => ?_⟩
      rcases List.mem_append.mp hb with hb | hb
      · exact Nat.lt_irrefl _ (hbody.lt_pos hb)
      · have := (hrest.reserved _ hb).1
        omega
    · obtain ⟨hle', hplace', hnot⟩ := hrest.jumps y hy
      refine ⟨by omega, hplace', fun b hb => ?_⟩
      rcases List.mem_append.mp hb with hb | hb
      · have := hbody.lt_pos hb
        omega
      · exact hnot b hb
  · refine modifyHead_add_append ?_ hrest.loops
    rw [hx.loops, ← hhead.keeps.loops, ← hbody.loops]
    rfl
  · have ht : t.frame.loops = [] := hhead.keeps.loops.trans hs
    have hr : r.frame.loops = [] := by
      rw [hx.loops]
      change u.frame.loops = []
      rw [hbody.loops, ht, List.modifyHead_nil]
    obtain ⟨h₁, h₂⟩ := hbody.inLoop ht
    obtain ⟨h₃, h₄⟩ := hrest.inLoop hr
    exact ⟨by rw [h₁, h₃, List.append_nil], either_leaves h₂ h₄⟩
  · intro v fin brk cont hv hleaves hslots hfin hb hc
    have hvr := hv.of_grows hrest.grows
    have hvu := (hvr.of_refines (hx.refines_one hplaceX)).of_grows hpush
    have hinstr : v.instr? x = some ⟨.jumpIfFalse, u.pos + 1⟩ :=
      hx.instr?_one hvr (CompileState.lt_pos_of_getElem? hplaceX)
    have hfork := hhead.fork v (u.pos + 1) (hvu.of_grows hbody.grows) (by omega) fun _ hmem =>
      List.mem_singleton.mp hmem ▸ hinstr
    have hblock := hbody.block v brk cont hvu (fun l hl => hleaves l (List.mem_append_left _ hl))
      (hb.mono hle₁ (by omega)) (hc.mono hle₁ (by omega))
    have hout := hblock.jump (hslots u.pos List.mem_cons_self) (by unfold Outside; omega)
      (hb.mono hle₁ (by omega)) (hc.mono hle₁ (by omega))
    have hothers := hrest.handling v fin brk cont hv
      (fun l hl => hleaves l (List.mem_append_right _ hl))
      (fun y hy => hslots y (List.mem_cons_of_mem _ hy)) hfin (hb.mono (by omega) (Nat.le_refl _))
      (hc.mono (by omega) (Nat.le_refl _))
    rw [hpos] at hothers
    exact .typed hfork (by simp) hout hothers hfin hb hc

/-- A handler for all exceptions. -/
theorem Handled.untyped (hhead : Straight s t 1 0) (hbody : Piece t u f X leaves) :
    Handled s (u.push Word.placeholder) [u.pos] False (f.either .stop) X leaves
      ((u.push Word.placeholder).pos ≤ ·) := by
  have hpush := u.grows_push Word.placeholder
  have hpos : (u.push Word.placeholder).pos = u.pos + 1 := u.pos_push _
  have hle₁ := hhead.keeps.grows.pos
  have hle₂ := hbody.grows.pos
  refine ⟨hhead.keeps.grows.trans (hbody.grows.trans hpush), ?_, fun l hl => ?_, hbody.distinct,
    fun y hy => ?_, ?_, fun hs => ?_, ?_⟩
  · change u.CodesOk ↔ _
    rw [hbody.codes, hhead.codesOk_iff]
  · obtain ⟨hle, hplace⟩ := hbody.reserved l hl
    exact ⟨by omega, hpush.getElem? hplace⟩
  · obtain rfl := List.mem_singleton.mp hy
    exact ⟨by omega, u.getElem?_push _, fun b hb => Nat.lt_irrefl _ (hbody.lt_pos hb)⟩
  · change u.frame.loops = _
    rw [hbody.loops, hhead.keeps.loops]
  · obtain ⟨h₁, h₂⟩ := hbody.inLoop (hhead.keeps.loops.trans hs)
    exact ⟨h₁, either_leaves h₂ rfl⟩
  · intro v fin brk cont hv hleaves hslots hfin hb hc
    have hvu := hv.of_grows hpush
    rw [hpos] at hb hc hfin ⊢
    have hblock := hbody.block v brk cont hvu hleaves (hb.mono hle₁ (by omega))
      (hc.mono hle₁ (by omega))
    have hout := hblock.jump (hslots u.pos (List.mem_singleton_self _)) (by unfold Outside; omega)
      (hb.mono hle₁ (by omega)) (hc.mono hle₁ (by omega))
    exact .untyped (hhead.path v (hvu.of_grows hbody.grows)) hout hfin hb hc

/-- Exceptions that no handler handles run the final part and go on. -/
theorem Handled.pass (h : Handled s t slots True g X leaves (t.pos ≤ ·))
    (hfinal : Piece t u f Y leaves') (hw : u.Wrote w ⟨.raise, 0⟩)
    (hconstants : w.constants = u.constants) :
    Handled s w slots False (g.either f.raised) (X ∧ Y) (leaves ++ leaves') (· = w.pos) := by
  have hle₁ := h.grows.pos
  have hle₂ := hfinal.grows.pos
  have hpos := hw.pos
  refine ⟨h.grows.trans (hfinal.grows.trans hw.grows), ?_, fun l hl => ?_, fun y hb hc => ?_,
    fun y hy => ?_, ?_, fun hs => ?_, ?_⟩
  · have heq : w.CodesOk ↔ u.CodesOk := by
      unfold CompileState.CodesOk
      rw [hconstants]
    rw [heq, hfinal.codes, h.codes, and_assoc]
  · rcases List.mem_append.mp hl with hl | hl
    · exact ⟨(h.reserved l hl).1, hw.grows.getElem? (hfinal.grows.getElem? (h.reserved l hl).2)⟩
    · have := (hfinal.reserved l hl).1
      exact ⟨by omega, hw.grows.getElem? (hfinal.reserved l hl).2⟩
  · rcases List.mem_append.mp hb with hb | hb <;> rcases List.mem_append.mp hc with hc | hc
    · exact h.distinct y hb hc
    · have := CompileState.lt_pos_of_getElem? (h.reserved _ hb).2
      have := (hfinal.reserved _ hc).1
      omega
    · have := CompileState.lt_pos_of_getElem? (h.reserved _ hc).2
      have := (hfinal.reserved _ hb).1
      omega
    · exact hfinal.distinct y hb hc
  · obtain ⟨hle, hplace, hnot⟩ := h.jumps y hy
    refine ⟨hle, hw.grows.getElem? (hfinal.grows.getElem? hplace), fun b hb => ?_⟩
    rcases List.mem_append.mp hb with hb | hb
    · exact hnot b hb
    · have := CompileState.lt_pos_of_getElem? hplace
      have := (hfinal.reserved _ hb).1
      omega
  · rw [hw.loops]
    exact modifyHead_add_append h.loops hfinal.loops
  · obtain ⟨h₁, h₂⟩ := h.inLoop hs
    have ht : t.frame.loops = [] := by rw [h.loops, hs, List.modifyHead_nil]
    obtain ⟨h₃, h₄⟩ := hfinal.inLoop ht
    exact ⟨by rw [h₁, h₃, List.append_nil], either_leaves h₂ (by simp [Flow.raised, h₄])⟩
  · rintro v fin brk cont hv hleaves hslots rfl hb hc
    have hvu := hv.of_grows hw.grows
    have hhandling := h.handling v w.pos brk cont (hvu.of_grows hfinal.grows)
      (fun l hl => hleaves l (List.mem_append_left _ hl)) hslots (by omega)
      (hb.mono (Nat.le_refl _) (by omega)) (hc.mono (Nat.le_refl _) (by omega))
    have hblock := hfinal.block v brk cont hvu (fun l hl => hleaves l (List.mem_append_right _ hl))
      (hb.mono hle₁ (by omega)) (hc.mono hle₁ (by omega))
    exact hhandling.pass hblock (hw.instr? hv) hpos hb hc

/-- A block with handlers, up to its final part. -/
theorem Laid.protect (hbody : Laid (s.push Word.placeholder) u f X leaves)
    (hx : Patched (u.push Word.placeholder) r [s.pos] ⟨.try, u.pos + 1⟩)
    (hcaught : Handled r w slots False g Y leaves' (· = w.pos))
    (hy : Patched w z (u.pos :: slots) ⟨.jump, w.pos⟩) :
    Laid s z (f.either g) (X ∧ Y) (leaves ++ leaves') := by
  have hpush₀ := s.grows_push Word.placeholder
  have hpos₀ : (s.push Word.placeholder).pos = s.pos + 1 := s.pos_push _
  have hpush := u.grows_push Word.placeholder
  have hpos : r.pos = u.pos + 1 := by rw [hx.pos, CompileState.pos_push]
  have hle₁ := hbody.grows.pos
  have hle₂ := hcaught.grows.pos
  have hplaceX := hpush.getElem? (hbody.grows.getElem? (s.getElem?_push _))
  have hgrows : s.Grows r :=
    hx.grows_one (hpush₀.trans (hbody.grows.trans hpush)) (Nat.le_refl _)
  have hkept : ∀ l ∈ leaves, r.words[l.2]? = some Word.placeholder := fun l hl => by
    obtain ⟨hle', hplace'⟩ := hbody.reserved l hl
    exact hx.placeholder_one (by omega) (hpush.getElem? hplace')
  have hplaces : ∀ y ∈ u.pos :: slots, s.pos ≤ y ∧ w.words[y]? = some Word.placeholder := by
    intro y hy
    rcases List.mem_cons.mp hy with rfl | hy
    · exact ⟨by omega, hcaught.grows.getElem? (hx.placeholder_one (by omega) (u.getElem?_push _))⟩
    · obtain ⟨hle', hplace', -⟩ := hcaught.jumps y hy
      exact ⟨by omega, hplace'⟩
  -- the places that leave the block are not those of the jumps to the final part
  have hnot : ∀ l ∈ leaves ++ leaves', l.2 ∉ u.pos :: slots := by
    intro l hl hmem
    rcases List.mem_append.mp hl with hl | hl
    · have hlt := hbody.lt_pos hl
      rcases List.mem_cons.mp hmem with heq | hmem
      · omega
      · have := (hcaught.jumps _ hmem).1
        omega
    · rcases List.mem_cons.mp hmem with heq | hmem
      · have := (hcaught.reserved l hl).1
        omega
      · exact (hcaught.jumps _ hmem).2.2 l.1 hl
  refine ⟨hy.grows (hgrows.trans hcaught.grows) fun y hy => (hplaces y hy).1, ?_, fun l hl => ?_,
    fun y hb hc => ?_, ?_⟩
  · rw [hy.codesOk_iff, hcaught.codes, hx.codesOk_iff, ← and_assoc]
    change u.CodesOk ∧ Y ↔ ((s.push Word.placeholder).CodesOk ∧ X) ∧ Y
    rw [hbody.codes]
  · refine ⟨?_, hy.placeholder (hnot l hl) ?_⟩
    · rcases List.mem_append.mp hl with hl | hl
      · have := (hbody.reserved l hl).1
        omega
      · have := (hcaught.reserved l hl).1
        omega
    · rcases List.mem_append.mp hl with hl | hl
      · exact hcaught.grows.getElem? (hkept l hl)
      · exact (hcaught.reserved l hl).2
  · rcases List.mem_append.mp hb with hb | hb <;> rcases List.mem_append.mp hc with hc | hc
    · exact hbody.distinct y hb hc
    · have := hbody.lt_pos hb
      have := (hcaught.reserved _ hc).1
      omega
    · have := hbody.lt_pos hc
      have := (hcaught.reserved _ hb).1
      omega
    · exact hcaught.distinct y hb hc
  · intro v brk cont hv hleaves hb hc
    have hvw := hv.of_refines (hy.refines fun y hy => (hplaces y hy).2)
    have hvr := hvw.of_grows hcaught.grows
    have hvu := (hvr.of_refines (hx.refines_one hplaceX)).of_grows hpush
    have hjumps : ∀ y ∈ u.pos :: slots, v.instr? y = some ⟨.jump, w.pos⟩ := fun y hmem =>
      hy.instr? hv hmem (CompileState.lt_pos_of_getElem? (hplaces y hmem).2)
    have htry : v.instr? s.pos = some ⟨.try, u.pos + 1⟩ :=
      hx.instr?_one hvr (CompileState.lt_pos_of_getElem? hplaceX)
    rw [hy.pos] at hb hc ⊢
    have hblock := hbody.block v brk cont hvu (fun l hl => hleaves l (List.mem_append_left _ hl))
      (hb.mono (by omega) (by omega)) (hc.mono (by omega) (by omega))
    have hout := hblock.jump (hjumps u.pos List.mem_cons_self) (by unfold Outside; omega)
      (hb.mono (by omega) (by omega)) (hc.mono (by omega) (by omega))
    have hhandling := hcaught.handling v w.pos brk cont hvw
      (fun l hl => hleaves l (List.mem_append_right _ hl))
      (fun y hy => hjumps y (List.mem_cons_of_mem _ hy)) rfl (hb.mono (by omega) (Nat.le_refl _))
      (hc.mono (by omega) (Nat.le_refl _))
    rw [hpos] at hhandling
    rw [hpos₀] at hout
    exact .protect htry hout hhandling hb hc

theorem Piece.protect (hbody : Piece (s.push Word.placeholder) u f X leaves)
    (hx : Patched (u.push Word.placeholder) r [s.pos] ⟨.try, u.pos + 1⟩)
    (hcaught : Handled r w slots False g Y leaves' (· = w.pos))
    (hy : Patched w z (u.pos :: slots) ⟨.jump, w.pos⟩) :
    Piece s z (f.either g) (X ∧ Y) (leaves ++ leaves') := by
  have hloops : r.frame.loops = s.frame.loops.modifyHead (·.add leaves) :=
    hx.loops.trans hbody.loops
  refine ⟨hbody.toLaid.protect hx hcaught hy, ?_, fun hs => ?_⟩
  · exact hy.loops.trans (modifyHead_add_append hloops hcaught.loops)
  · obtain ⟨h₁, h₂⟩ := hbody.inLoop hs
    obtain ⟨h₃, h₄⟩ := hcaught.inLoop (by rw [hloops, hs, List.modifyHead_nil])
    exact ⟨by rw [h₁, h₃, List.append_nil], either_leaves h₂ h₄⟩

theorem Handled.mono_ends {ends ends' : Nat → Prop}
    (h : Handled s s' slots passes g X leaves ends) (hends : ∀ n, ends' n → ends n) :
    Handled s s' slots passes g X leaves ends' :=
  { h with
    handling := fun v fin brk cont hv hleaves hslots hfin =>
      h.handling v fin brk cont hv hleaves hslots (hends fin hfin) }

/-- Only the code that was written and the loops matter. -/
theorem Handled.of_builder_eq {ends : Nat → Prop} (h : Handled s s' slots passes g X leaves ends)
    (hs : r.frame.builder = s.frame.builder) (hl : r.frame.loops = s.frame.loops)
    (hs' : w.frame.builder = s'.frame.builder) (hl' : w.frame.loops = s'.frame.loops) :
    Handled r w slots passes g X leaves ends := by
  obtain ⟨file, ⟨builder, loops, tries⟩, line, column, codes⟩ := s
  obtain ⟨file', ⟨builder', loops', tries'⟩, line', column', codes'⟩ := s'
  obtain ⟨file₁, ⟨builder₁, loops₁, tries₁⟩, line₁, column₁, codes₁⟩ := r
  obtain ⟨file₂, ⟨builder₂, loops₂, tries₂⟩, line₂, column₂, codes₂⟩ := w
  obtain rfl : builder₁ = builder := hs
  obtain rfl : builder₂ = builder' := hs'
  obtain rfl : loops₁ = loops := hl
  obtain rfl : loops₂ = loops' := hl'
  refine ⟨⟨h.grows.pos, h.grows.words, h.grows.constants, fun hr => ?_⟩, h.codes, h.reserved,
    h.distinct, h.jumps, h.loops, h.inLoop, fun v fin brk cont hv => h.handling v fin brk cont
    ⟨hv.words, hv.constants⟩⟩
  obtain ⟨hl, hk⟩ := h.grows.sane ⟨hr.lines, hr.kinds⟩
  exact ⟨hl, hk⟩

end Exceptions

end Compile

end Toolchain

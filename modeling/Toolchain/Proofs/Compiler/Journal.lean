import Mathlib.Data.List.Perm.Lattice
import Toolchain.Proofs.Compiler.Layout

/-!
# The journal of a code object

The compiler notes what it asks of a code object in the making. The journal is accounted for if
every position was appended once, every place was written once or is still open, and every
instruction that was asked for stands where it was asked for. Each step of the compiler keeps this;
when the code object is finished and no place is open, nothing is missing.

## Main definitions

* `CodeRequest.appended?`, `CodeRequest.reserved?`, `CodeRequest.patched?`, `CodeRequest.asked?`:
  the entries of a journal
* `CompileState.Accounted`: the journal is accounted for, with these places open
* `CodeView.Fulfils`: a finished code object has all that its journal asks for

## Main results

* `CompileState.Accounted.push_instr`, `CompileState.Accounted.push_place`,
  `Compile.Patched.accounted`: what the steps of the compiler do to the journal
* `CompileState.Accounted.fulfils`: a finished code object fulfils its journal
-/

namespace Toolchain

namespace CodeRequest

/-- The position at which something was appended. -/
def appended? : CodeRequest → Option Nat
  | emit p _ => some p
  | reserve p => some p
  | patch .. => none

/-- The position of a place that was appended. -/
def reserved? : CodeRequest → Option Nat
  | reserve p => some p
  | _ => none

/-- The place that was written. -/
def patched? : CodeRequest → Option Nat
  | patch p _ => some p
  | _ => none

/-- The instruction that was asked for, with its position. -/
def asked? : CodeRequest → Option (Nat × Instr)
  | emit p i => some (p, i)
  | patch p i => some (p, i)
  | reserve _ => none

end CodeRequest

open CodeRequest

namespace CompileState

/-- The journal is accounted for, and these places are open: every position was appended once, every
place that was reserved is open or was written, and each only once; what was asked for stands where
it was asked for, and open places are still to be written. -/
structure Accounted (s : CompileState) (opened : List Nat) : Prop where
  appended : (s.frame.requests.filterMap appended?).Perm (List.range s.pos)
  reserved : (s.frame.requests.filterMap reserved?).Perm
    (opened ++ s.frame.requests.filterMap patched?)
  stored : ∀ x i, (x, i) ∈ s.frame.requests.filterMap asked? →
    i.operand ≤ maxOperand ∧ s.words[x]? = some i.encode
  placeholders : ∀ x ∈ opened, s.words[x]? = some Word.placeholder

variable {s s' : CompileState} {opened opened' : List Nat}

/-- A new code object has an empty journal. -/
theorem accounted_of_empty (h : s.frame = {}) : s.Accounted [] := by
  have hpos : s.pos = 0 := by simp [pos, words, h]
  refine ⟨?_, ?_, ?_, ?_⟩
  · simp [h, hpos]
  · simp [h]
  · simp [h]
  · simp

/-- The order of the open places does not matter. -/
theorem Accounted.perm (h : s.Accounted opened) (hp : opened.Perm opened') :
    s.Accounted opened' where
  appended := h.appended
  reserved := h.reserved.trans (hp.append_right _)
  stored := h.stored
  placeholders x hx := h.placeholders x (hp.mem_iff.mpr hx)

/-- Only the code that was written and the journal matter. -/
theorem Accounted.congr (h : s.Accounted opened) (hw : s'.words = s.words)
    (hr : s'.frame.requests = s.frame.requests) : s'.Accounted opened := by
  have hpos : s'.pos = s.pos := congrArg Array.size hw
  refine ⟨?_, ?_, ?_, ?_⟩
  · rw [hr, hpos]
    exact h.appended
  · rw [hr]
    exact h.reserved
  · intro x i hx
    rw [hr] at hx
    rw [hw]
    exact h.stored x i hx
  · intro x hx
    rw [hw]
    exact h.placeholders x hx

theorem requests_push (s : CompileState) (w : Word) :
    (s.push w).frame.requests = .ofWord s.pos w :: s.frame.requests := rfl

/-- An instruction was appended. -/
theorem Accounted.push_instr (h : s.Accounted opened) {i : Instr} (hi : i.operand ≤ maxOperand) :
    (s.push i.encode).Accounted opened := by
  have hgrows := s.grows_push i.encode
  have hr : (s.push i.encode).frame.requests = .emit s.pos i :: s.frame.requests := by
    rw [requests_push, CodeRequest.ofWord_encode hi]
  refine ⟨?_, ?_, ?_, fun x hx => hgrows.getElem? (h.placeholders x hx)⟩
  · rw [hr, pos_push, List.range_succ]
    exact (List.Perm.cons _ h.appended).trans (List.perm_append_singleton _ _).symm
  · rw [hr]
    exact h.reserved
  · intro x j hx
    rw [hr, List.filterMap_cons_some (by rfl), List.mem_cons] at hx
    rcases hx with heq | hx
    · obtain ⟨rfl, rfl⟩ := Prod.mk.inj heq
      exact ⟨hi, s.getElem?_push _⟩
    · obtain ⟨hfits, hword⟩ := h.stored x j hx
      exact ⟨hfits, hgrows.getElem? hword⟩

/-- A place was appended. -/
theorem Accounted.push_place (h : s.Accounted opened) :
    (s.push Word.placeholder).Accounted (s.pos :: opened) := by
  have hgrows := s.grows_push Word.placeholder
  have hr : (s.push Word.placeholder).frame.requests = .reserve s.pos :: s.frame.requests := by
    rw [requests_push, CodeRequest.ofWord_placeholder]
  refine ⟨?_, ?_, ?_, ?_⟩
  · rw [hr, pos_push, List.range_succ]
    exact (List.Perm.cons _ h.appended).trans (List.perm_append_singleton _ _).symm
  · rw [hr]
    exact List.Perm.cons _ h.reserved
  · intro x i hx
    rw [hr] at hx
    obtain ⟨hfits, hword⟩ := h.stored x i hx
    exact ⟨hfits, hgrows.getElem? hword⟩
  · intro x hx
    rcases List.mem_cons.mp hx with rfl | hx
    · exact s.getElem?_push _
    · exact hgrows.getElem? (h.placeholders x hx)

/-- What was asked for does not stand in an open place. -/
theorem Accounted.not_mem_of_asked (h : s.Accounted opened) {x : Nat} {i : Instr}
    (hx : (x, i) ∈ s.frame.requests.filterMap asked?) : x ∉ opened := by
  intro hopen
  obtain ⟨hfits, hword⟩ := h.stored x i hx
  exact Instr.encode_ne_placeholder hfits
    (Option.some.inj (hword.symm.trans (h.placeholders x hopen)))

/-- Open places are different from each other. -/
theorem Accounted.nodup (h : s.Accounted opened) : opened.Nodup := by
  have happended : (s.frame.requests.filterMap appended?).Nodup :=
    h.appended.nodup_iff.mpr List.nodup_range
  have hsub : (s.frame.requests.filterMap reserved?).Sublist
      (s.frame.requests.filterMap appended?) := by
    induction s.frame.requests with
    | nil => exact .slnil
    | cons r rs ih =>
      cases r with
      | emit p i => exact ih.cons p
      | reserve p => exact ih.cons_cons p
      | patch p i => exact ih
  exact ((h.reserved.nodup_iff.mp (hsub.nodup happended)).of_append_left)

end CompileState

namespace Compile

open CompileState

variable {s s' : CompileState} {places opened : List Nat} {i : Instr}

theorem filterMap_patches {β : Type} (f : CodeRequest → Option β) (places : List Nat) (i : Instr)
    (hf : ∀ x, f (.patch x i) = none) (rs : List CodeRequest) :
    ((places.map (CodeRequest.patch · i)).reverse ++ rs).filterMap f = rs.filterMap f := by
  have hnil : (places.map (CodeRequest.patch · i)).reverse.filterMap f = [] := by
    simp [hf]
  rw [List.filterMap_append, hnil, List.nil_append]

/-- Open places were written. -/
theorem Patched.accounted (hp : Patched s s' places i) (h : s.Accounted (places ++ opened)) :
    s'.Accounted opened where
  appended := by
    rw [hp.requests, filterMap_patches _ _ _ (fun _ => rfl), hp.pos]
    exact h.appended
  reserved := by
    have hpatched : ((places.map (CodeRequest.patch · i)).reverse ++
        s.frame.requests).filterMap patched? =
        places.reverse ++ s.frame.requests.filterMap patched? := by
      rw [List.filterMap_append, ← List.map_reverse, List.filterMap_map]
      congr 1
      exact (List.filterMap_congr fun _ _ => rfl).trans List.filterMap_some
    rw [hp.requests, filterMap_patches reserved? _ _ (fun _ => rfl), hpatched]
    refine h.reserved.trans ?_
    rw [List.append_assoc]
    refine (List.perm_append_comm_assoc _ _ _).trans (List.Perm.append_left _ ?_)
    exact List.Perm.append_right _ (List.reverse_perm _).symm
  stored x j hx := by
    rw [hp.requests, List.filterMap_append, List.mem_append] at hx
    rcases hx with hx | hx
    · obtain ⟨r, hr, hj⟩ := List.mem_filterMap.mp hx
      obtain ⟨y, hy, rfl⟩ := List.mem_map.mp (List.mem_reverse.mp hr)
      obtain ⟨rfl, rfl⟩ := Prod.mk.inj (Option.some.inj hj)
      refine ⟨hp.fits (List.ne_nil_of_mem hy), hp.written y hy ?_⟩
      exact lt_pos_of_getElem? (h.placeholders y (List.mem_append_left _ hy))
    · obtain ⟨hfits, hword⟩ := h.stored x j hx
      have hnot := h.not_mem_of_asked hx
      refine ⟨hfits, ?_⟩
      rw [hp.others x fun hmem => hnot (List.mem_append_left _ hmem), hword]
  placeholders x hx := by
    have hdisjoint := List.disjoint_of_nodup_append h.nodup
    rw [hp.others x fun hmem => hdisjoint hmem hx]
    exact h.placeholders x (List.mem_append_right _ hx)

end Compile

/-! ## Finished code objects -/

/-- A finished code object has all that its journal asks for: every position was appended once,
every place that was reserved was written once, every instruction that was asked for is read back
from its position, and no place is left. -/
structure CodeView.Fulfils (v : CodeView) (requests : List CodeRequest) : Prop where
  appended : (requests.filterMap appended?).Perm (List.range v.words.size)
  written : (requests.filterMap reserved?).Perm (requests.filterMap patched?)
  readBack : ∀ x i, (x, i) ∈ requests.filterMap asked? → v.instr? x = some i
  complete : Word.placeholder ∉ v.words

/-- A position at which something was appended holds what was asked for it, if it is no open
place. -/
theorem CompileState.Accounted.exists_asked {s : CompileState} {opened : List Nat}
    (h : s.Accounted opened) {x : Nat} (hx : x < s.pos) (hopen : x ∉ opened) :
    ∃ i, (x, i) ∈ s.frame.requests.filterMap asked? := by
  have happended : x ∈ s.frame.requests.filterMap appended? :=
    h.appended.mem_iff.mpr (List.mem_range.mpr hx)
  obtain ⟨r, hr, hrx⟩ := List.mem_filterMap.mp happended
  cases r with
  | emit p i =>
    obtain rfl := Option.some.inj hrx
    exact ⟨i, List.mem_filterMap.mpr ⟨_, hr, rfl⟩⟩
  | reserve p =>
    obtain rfl := Option.some.inj hrx
    have hreserved : p ∈ s.frame.requests.filterMap reserved? :=
      List.mem_filterMap.mpr ⟨_, hr, rfl⟩
    rcases List.mem_append.mp (h.reserved.mem_iff.mp hreserved) with hmem | hmem
    · exact absurd hmem hopen
    · obtain ⟨r', hr', hrp⟩ := List.mem_filterMap.mp hmem
      cases r' with
      | patch q i =>
        obtain rfl := Option.some.inj hrp
        exact ⟨i, List.mem_filterMap.mpr ⟨_, hr', rfl⟩⟩
      | emit q i => cases hrp
      | reserve q => cases hrp
  | patch p i => cases hrx

/-- A code object in which no place is open fulfils its journal once it is finished. -/
theorem CompileState.Accounted.fulfils {s : CompileState} (h : s.Accounted []) {v : CodeView}
    (hv : v.words = s.words) : v.Fulfils s.frame.requests where
  appended := by
    rw [hv]
    exact h.appended
  written := h.reserved
  readBack x i hx := by
    obtain ⟨hfits, hword⟩ := h.stored x i hx
    rw [CodeView.instr?, hv, hword, Option.bind_some, Instr.decode?_encode hfits]
  complete hmem := by
    rw [hv] at hmem
    obtain ⟨x, hlt, heq⟩ := Array.mem_iff_getElem.mp hmem
    obtain ⟨i, hi⟩ := h.exists_asked hlt List.not_mem_nil
    obtain ⟨hfits, hword⟩ := h.stored x i hi
    rw [Array.getElem?_eq_getElem hlt, heq] at hword
    exact Instr.encode_ne_placeholder hfits (Option.some.inj hword).symm

end Toolchain

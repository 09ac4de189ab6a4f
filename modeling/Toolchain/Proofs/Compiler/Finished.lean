import Toolchain.Proofs.Compiler.Straight

/-!
# Finished code objects

A code object is finished when everything in it has been written. It is valid exactly if it runs
well and all code objects among its constants are valid.

## Main definitions

* `CompileState.Finishes`: a code object holds what was written

## Main results

* `CompileState.Finishes.verify_iff`: when a finished code object is valid
* `Compile.gives_nestedCode`: a code object inside another
-/

namespace Toolchain

namespace Word

/-- A word is read back from its bytes. -/
theorem ofBytes_bytes (w : Word) :
    ofBytes (UInt8.ofNat (w.toNat / 256)) (UInt8.ofNat (w.toNat % 256)) = w := by
  have hw : w.toNat < 65536 := w.toNat_lt
  have hhigh : (UInt8.ofNat (w.toNat / 256)).toNat = w.toNat / 256 :=
    UInt8.toNat_ofNat_of_lt' (by change _ < 256; omega)
  have hlow : (UInt8.ofNat (w.toNat % 256)).toNat = w.toNat % 256 :=
    UInt8.toNat_ofNat_of_lt' (by change _ < 256; omega)
  unfold ofBytes
  rw [hhigh, hlow, Nat.div_add_mod', UInt16.ofNat_toNat]

theorem ofByteList_flatMap_bytes (ws : List Word) : ofByteList (ws.flatMap bytes) = ws := by
  induction ws with
  | nil => rfl
  | cons w ws ih =>
    rw [List.flatMap_cons, bytes, List.cons_append, List.cons_append, List.nil_append, ofByteList,
      ofBytes_bytes, ih]

end Word

/-- A code object is valid if it is on its own and those among its constants are. -/
theorem Code.verify_iff_checkAlone (c : Code) :
    c.verify = .ok () ↔ (∃ deepest, c.checkAlone = .ok deepest) ∧
      ∀ inner : Code, .code inner ∈ c.constants → inner.verify = .ok () := by
  simp only [verify_eq_ok_iff]
  constructor
  · intro h
    refine ⟨h c (by rw [nested_eq]; exact List.mem_cons_self), fun inner hinner o ho => h o ?_⟩
    rw [nested_eq]
    exact List.mem_cons_of_mem _ (nested_subset_of_mem hinner ho)
  · rintro ⟨halone, hinner⟩ o ho
    rw [nested_eq, List.mem_cons] at ho
    rcases ho with rfl | ho
    · exact halone
    · obtain ⟨inner, hmem, ho⟩ := exists_of_mem_nestedIn ho
      exact hinner inner hmem o ho

namespace CompileState

/-- A code object that holds what was written. -/
structure Finishes (t : CompileState) (c : Code) : Prop where
  instructions : c.instructions = t.frame.builder.bytes
  lineTable : c.lineTable = t.frame.builder.lineTable
  constants : c.constants = t.constants.toList

variable {t : CompileState} {c : Code}

theorem Finishes.words_eq (h : t.Finishes c) : c.view.words = t.words := by
  rw [Code.view, CodeObject.words, h.instructions, CodeBuilder.bytes,
    Word.ofByteList_flatMap_bytes]
  rfl

theorem Finishes.constants_eq (h : t.Finishes c) : c.view.constants = t.constants := by
  rw [Code.view, h.constants]

theorem Finishes.size_eq (h : t.Finishes c) : c.size = t.pos := by
  rw [← Code.size_view_words, h.words_eq, pos]

theorem Finishes.completes (h : t.Finishes c) : c.view.Completes t :=
  ⟨fun x w hx _ => by rwa [h.words_eq], fun i k hk => by rwa [h.constants_eq]⟩

/-- A finished code object is well encoded if all its instructions are. -/
theorem Finishes.wellEncoded (h : t.Finishes c) (hs : t.Sane) (hpos : 0 < t.pos)
    (he : c.view.EncodedOn 0 t.pos) : c.WellEncoded where
  even := by
    rw [h.instructions, CodeBuilder.bytes]
    have : ∀ ws : List Word, (ws.flatMap Word.bytes).length = 2 * ws.length := by
      intro ws
      induction ws with
      | nil => rfl
      | cons w ws ih => simp [Word.bytes, ih]; omega
    rw [this]
    omega
  lines := by
    have hlines := hs.lines
    have hne : t.frame.builder.lines.isEmpty = false := by
      rw [Array.isEmpty_eq_false_iff, Ne, ← Array.size_eq_zero_iff]
      omega
    rw [h.size_eq, CodeObject.lines, h.lineTable, CodeBuilder.lineTable, hne]
    simpa using hlines
  words p w hp := by
    have hget : c.view.words[p]? = some w := by simpa [Code.view] using hp
    have hlt : p < t.pos := by
      rw [h.words_eq] at hget
      exact lt_pos_of_getElem? hget
    obtain ⟨i, hi, hei⟩ := he p (Nat.zero_le p) hlt
    refine ⟨i, ?_, hei⟩
    simpa [CodeView.instr?, hget] using hi
  constants k hk := by
    rw [h.constants] at hk
    exact hs.kinds k (Array.mem_def.mpr hk)

/-- **A finished code object is valid exactly if it runs well and those among its constants are
valid.** -/
theorem Finishes.verify_iff (h : t.Finishes c) (hs : t.Sane) (hpos : 0 < t.pos)
    (he : c.view.EncodedOn 0 t.pos) {safe : Prop}
    (hb : c.view.Behaves 0 t.pos 0 safe fun _ _ => False) :
    c.verify = .ok () ↔ safe ∧ t.CodesOk := by
  have hsize : t.pos = c.view.words.size := by rw [h.words_eq, pos]
  rw [hsize] at hb
  rw [Code.verify_iff_checkAlone, Code.checkAlone_isOk_iff (h.size_eq ▸ hpos),
    hb.assignment_iff, and_iff_right (h.wellEncoded hs hpos he), h.constants]
  simp only [Array.mem_toList_iff, CodesOk]

end CompileState

namespace Compile

/-- A code object is made of what is written from an empty frame on. -/
theorem run_nestedCode (name : Text) (kind : CodeKind) (first : Nat) (body : Compile Unit)
    (s : CompileState) : StateT.run (nestedCode name kind first body) s =
      StateT.run body { s with frame := {}, codes := s.codes + 1 } >>= fun r =>
        .ok ({ name, filename := r.2.file, kind, firstLine := first,
               instructions := r.2.frame.builder.bytes, lineTable := r.2.frame.builder.lineTable,
               constants := r.2.frame.builder.constants.toList }, { r.2 with frame := s.frame }) :=
                 rfl

/-- A code object inside another, which is one more that was begun: the one around it is as it was,
and both are of one file. -/
theorem gives_nested {name : Text} {kind : CodeKind} {line : Nat} {body : Compile Unit}
    {s : CompileState} {P : CompileState → Prop}
    (h : ∀ s₀ : CompileState, s₀.frame = {} → s₀.file = s.file → s₀.codes = s.codes + 1 →
      body.Gives s₀ fun _ t => P t) :
    (nestedCode name kind line body).Gives s fun c s' =>
      s'.frame = s.frame ∧ ∃ t, P t ∧ t.Finishes c ∧ s'.file = t.file ∧ s'.codes = t.codes := by
  refine (gives_get (P := fun a t => a = s ∧ t = s) ⟨rfl, rfl⟩).bind ?_
  rintro a t ⟨rfl, rfl⟩
  refine (gives_modify (P := fun _ t' => t'.frame = {} ∧ t'.file = t.file ∧
    t'.codes = t.codes + 1) ⟨rfl, rfl, rfl⟩).bind fun _ t' ⟨hframe, hfile, hcodes⟩ => ?_
  refine (h t' hframe hfile hcodes).bind fun _ u hu => ?_
  refine (gives_get (P := fun a t => a = u ∧ t = u) ⟨rfl, rfl⟩).bind ?_
  rintro a u' ⟨rfl, rfl⟩
  extract_lets b
  refine Gives.bind (gives_set (P := fun _ s' => s'.frame = t.frame ∧ s'.file = u'.file ∧
    s'.codes = u'.codes) ⟨by rfl, by rfl, by rfl⟩) fun _ s' ⟨hs', hfile', hcodes'⟩ => ?_
  exact gives_pure ⟨hs', u', hu, ⟨rfl, rfl, rfl⟩, hfile', hcodes'⟩

/-- A code object inside another: the one around it is as it was. -/
theorem gives_nestedCode {name : Text} {kind : CodeKind} {line : Nat} {body : Compile Unit}
    {s : CompileState} {P : CompileState → Prop}
    (h : ∀ s₀ : CompileState, s₀.frame = {} → body.Gives s₀ fun _ t => P t) :
    (nestedCode name kind line body).Gives s fun c s' =>
      s'.frame = s.frame ∧ ∃ t, P t ∧ t.Finishes c := by
  refine (gives_nested fun s₀ hs₀ _ _ => h s₀ hs₀).mono ?_
  rintro c s' ⟨hframe, t, ht, hc, -, -⟩
  exact ⟨hframe, t, ht, hc⟩

end Compile

end Toolchain

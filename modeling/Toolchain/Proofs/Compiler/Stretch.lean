import Toolchain.Proofs.Compiler.Pool

/-!
# Stretches of code with a layout

What a step of the compiler has written: how many instructions, which places among them are still
open, which units were made into constants, and what a finished code object shows there. Stretches
that are written one after the other are put together; the layout of the later one begins where the
earlier one ends.

## Main definitions

* `Compile.Stretch`: a stretch was written, with these places open and these units made
* `Compile.Drawn`: a stretch without open places, with a layout
* `Compile.Draft`: a stretch whose open places get jumps to one target, with a layout
* `Compile.Lays`, `Compile.Sketches`: steps that write such stretches

## Main results

* `Compile.Lays.bind`: steps one after the other
* `Compile.Draft.close`: the open places are written
* `Compile.lays_emit`, `Compile.lays_emitWith`, `Compile.lays_unit`: single instructions and units
-/

namespace Toolchain

namespace Compile

variable {s t s' : CompileState} {n n' : Nat} {slots slots' : List Nat} {us us' : List CodeUnit}

/-- A stretch of `n` instructions was written. Places of it are open; the code objects that are new
among the constants were made from units, and each of these has one. All that were begun are
loaded. -/
structure Stretch (s s' : CompileState) (n : Nat) (slots : List Nat) (us : List CodeUnit) :
    Prop where
  file : s'.file = s.file
  pos : s'.pos = s.pos + n
  words : ∀ x : Nat, x < s.pos → s'.words[x]? = s.words[x]?
  reserved : ∀ x ∈ slots, s.pos ≤ x ∧ s'.words[x]? = some Word.placeholder
  distinct : slots.Nodup
  accounted : ∀ opened, s.Accounted opened → s'.Accounted (slots ++ opened)
  pooled : s.Pooled → s'.Pooled
  counted : s'.codes + s.loaded = s.codes + s'.loaded
  constants : ∀ (i : Nat) k, s.constants[i]? = some k → s'.constants[i]? = some k
  codes : ∀ c, .code c ∈ s'.constants → .code c ∈ s.constants ∨ ∃ u ∈ us, u.Makes s.file c
  made : ∀ u ∈ us, ∃ c, .code c ∈ s'.constants ∧ u.Makes s.file c

/-- The loops and the `try` statements around are as they were. -/
structure SameAround (s s' : CompileState) : Prop where
  loops : s'.frame.loops = s.frame.loops
  tries : s'.frame.tries = s.frame.tries

theorem SameAround.refl (s : CompileState) : SameAround s s := ⟨rfl, rfl⟩

theorem SameAround.trans (h : SameAround s t) (h' : SameAround t s') : SameAround s s' :=
  ⟨h'.loops.trans h.loops, h'.tries.trans h.tries⟩

theorem Patched.sameAround {places : List Nat} {i : Instr} (h : Patched s s' places i) :
    SameAround s s' :=
  ⟨h.loops, h.tries⟩

namespace Stretch

theorem lt_pos (h : Stretch s s' n slots us) {x : Nat} (hx : x ∈ slots) : x < s'.pos :=
  CompileState.lt_pos_of_getElem? (h.reserved x hx).2

theorem mem_constants (h : Stretch s s' n slots us) {k : Constant} (hk : k ∈ s.constants) :
    k ∈ s'.constants := by
  obtain ⟨i, hi, rfl⟩ := Array.mem_iff_getElem.mp hk
  exact Array.mem_of_getElem? (h.constants i _ (Array.getElem?_eq_getElem hi))

/-- What was written stands in what follows. -/
theorem completes (h : Stretch s s' n slots us) {v : CodeView} (hv : v.Completes s') :
    v.Completes s := by
  refine ⟨fun x w hx hw => hv.words x w ?_ hw, fun i k hk => hv.constants i k (h.constants i k hk)⟩
  rw [h.words x (CompileState.lt_pos_of_getElem? hx), hx]

/-- Nothing was written. -/
theorem idle (hb : s'.frame.builder = s.frame.builder)
    (hr : s'.frame.requests = s.frame.requests) (hf : s'.file = s.file)
    (hc : s'.codes = s.codes) : Stretch s s' 0 [] [] := by
  have hwords : s'.words = s.words := congrArg CodeBuilder.words hb
  have hconstants : s'.constants = s.constants := congrArg CodeBuilder.constants hb
  refine ⟨hf, congrArg Array.size hwords, fun x _ => by rw [hwords], nofun, .nil, ?_,
    fun h => h.congr hb hr, ?_, ?_, ?_, nofun⟩
  · exact fun opened h => h.congr hwords hr
  · rw [hc, CompileState.loaded, CompileState.loaded, hconstants]
  · intro i k hk
    rwa [hconstants]
  · intro c hc
    rw [hconstants] at hc
    exact .inl hc

/-- One stretch after another. -/
theorem trans (h : Stretch s t n slots us) (h' : Stretch t s' n' slots' us') :
    Stretch s s' (n + n') (slots ++ slots') (us ++ us') := by
  have hle : s.pos ≤ t.pos := by
    have := h.pos
    omega
  have hkept : ∀ x ∈ slots, s'.words[x]? = some Word.placeholder := fun x hx => by
    rw [h'.words x (h.lt_pos hx), (h.reserved x hx).2]
  refine ⟨h'.file.trans h.file, ?_, fun x hx => ?_, fun x hx => ?_, ?_, fun opened ho => ?_,
    fun hs => h'.pooled (h.pooled hs), ?_, ?_, fun c hc => ?_, fun u hu => ?_⟩
  · rw [h'.pos, h.pos, Nat.add_assoc]
  · rw [h'.words x (Nat.lt_of_lt_of_le hx hle), h.words x hx]
  · rcases List.mem_append.mp hx with hx | hx
    · exact ⟨(h.reserved x hx).1, hkept x hx⟩
    · exact ⟨Nat.le_trans hle (h'.reserved x hx).1, (h'.reserved x hx).2⟩
  · refine List.nodup_append.mpr ⟨h.distinct, h'.distinct, fun x hx y hy heq => ?_⟩
    have hlt := h.lt_pos hx
    have hge := (h'.reserved y hy).1
    omega
  · refine (h'.accounted _ (h.accounted opened ho)).perm ?_
    rw [List.append_assoc]
    exact List.perm_append_comm_assoc _ _ _
  · have := h.counted
    have := h'.counted
    omega
  · exact fun i k hk => h'.constants i k (h.constants i k hk)
  · rcases h'.codes c hc with hc | ⟨u, hu, hmakes⟩
    · rcases h.codes c hc with hc | ⟨u, hu, hmakes⟩
      · exact .inl hc
      · exact .inr ⟨u, List.mem_append_left _ hu, hmakes⟩
    · exact .inr ⟨u, List.mem_append_right _ hu, h.file ▸ hmakes⟩
  · rcases List.mem_append.mp hu with hu | hu
    · obtain ⟨c, hc, hmakes⟩ := h.made u hu
      exact ⟨c, h'.mem_constants hc, hmakes⟩
    · obtain ⟨c, hc, hmakes⟩ := h'.made u hu
      exact ⟨c, hc, h.file ▸ hmakes⟩

theorem congr {N : Nat} {X : List Nat} {U : List CodeUnit} (h : Stretch s s' n slots us)
    (hn : n = N) (hs : slots.Perm X) (hu : ∀ u, u ∈ us ↔ u ∈ U) : Stretch s s' N X U := by
  subst hn
  refine ⟨h.file, h.pos, h.words, fun x hx => h.reserved x (hs.mem_iff.mpr hx),
    hs.nodup_iff.mp h.distinct, fun opened ho => ?_, h.pooled, h.counted, h.constants,
    fun c hc => ?_, fun u hu' => ?_⟩
  · exact (h.accounted opened ho).perm (hs.append_right _)
  · rcases h.codes c hc with hc | ⟨u, hu', hmakes⟩
    · exact .inl hc
    · exact .inr ⟨u, (hu u).mp hu', hmakes⟩
  · exact h.made u ((hu u).mpr hu')

/-- Nothing was written after a stretch. -/
theorem and_idle (h : Stretch s t n slots us) (hb : s'.frame.builder = t.frame.builder)
    (hr : s'.frame.requests = t.frame.requests) (hf : s'.file = t.file)
    (hc : s'.codes = t.codes) : Stretch s s' n slots us :=
  (h.trans (.idle hb hr hf hc)).congr rfl (.of_eq (List.append_nil slots)) (by simp)

/-- Some of the open places were written, with instructions that take no constant. -/
theorem close {places : List Nat} {i : Instr} (h : Stretch s t n (places ++ slots) us)
    (hp : Patched t s' places i) (hop : i.op.takesConstant = false) :
    Stretch s s' n slots us where
  file := hp.file.trans h.file
  pos := hp.pos.trans h.pos
  words x hx := by
    rw [hp.others x fun hmem => ?_, h.words x hx]
    have := (h.reserved x (List.mem_append_left _ hmem)).1
    omega
  reserved x hx := by
    have hnot : x ∉ places := fun hmem => List.disjoint_of_nodup_append h.distinct hmem hx
    obtain ⟨hle, hword⟩ := h.reserved x (List.mem_append_right _ hx)
    exact ⟨hle, hp.placeholder hnot hword⟩
  distinct := h.distinct.of_append_right
  accounted opened ho := by
    refine hp.accounted ?_
    rw [← List.append_assoc]
    exact h.accounted opened ho
  pooled hs := hp.pooled hop (h.pooled hs)
  counted := by
    rw [hp.codes, h.counted, CompileState.loaded, CompileState.loaded, hp.constants]
  constants i k hk := by
    rw [hp.constants]
    exact h.constants i k hk
  codes c hc := by
    rw [hp.constants] at hc
    exact h.codes c hc
  made u hu := by
    rw [hp.constants]
    exact h.made u hu

/-- What was written before some of the open places were stands in what follows. -/
theorem completes_of_patched {places : List Nat} {i : Instr}
    (h : Stretch s t n (places ++ slots) us) (hp : Patched t s' places i) {v : CodeView}
    (hv : v.Completes s') : v.Completes t :=
  hv.of_refines (hp.refines fun x hx => (h.reserved x (List.mem_append_left _ hx)).2)

/-- A place that was written holds its instruction. -/
theorem instr?_of_patched {places : List Nat} {i : Instr}
    (h : Stretch s t n (places ++ slots) us) (hp : Patched t s' places i) {v : CodeView}
    (hv : v.Completes s') {x : Nat} (hx : x ∈ places) : v.instr? x = some i :=
  hp.instr? hv hx (h.lt_pos (List.mem_append_left _ hx))

end Stretch

/-! ## Stretches with a layout -/

variable {op : Opcode} {L L' : Text → CodeView → Nat → Prop}
  {D D' : Text → CodeView → Nat → Nat → Prop}

/-- A stretch without open places was written, and every finished code object shows the layout. -/
structure Drawn (s s' : CompileState) (n : Nat) (us : List CodeUnit)
    (L : Text → CodeView → Nat → Prop) : Prop where
  stretch : Stretch s s' n [] us
  around : SameAround s s'
  layout : ∀ v : CodeView, v.Completes s' → L s.file v s.pos

/-- A stretch with open places was written, and every finished code object in which these hold jumps
to one target shows the layout. -/
structure Draft (s s' : CompileState) (n : Nat) (slots : List Nat) (us : List CodeUnit)
    (op : Opcode) (D : Text → CodeView → Nat → Nat → Prop) : Prop where
  stretch : Stretch s s' n slots us
  around : SameAround s s'
  layout : ∀ (v : CodeView) (target : Nat), v.Completes s' →
    (∀ x ∈ slots, v.instr? x = some ⟨op, target⟩) → D s.file v target s.pos

theorem Drawn.congr {N : Nat} {U : List CodeUnit} (h : Drawn s s' n us L) (hn : n = N)
    (hu : us = U) (hL : ∀ file v p, L file v p → L' file v p) : Drawn s s' N U L' := by
  subst hn hu
  exact ⟨h.stretch, h.around, fun v hv => hL _ _ _ (h.layout v hv)⟩

theorem Draft.congr {N : Nat} {U : List CodeUnit} (h : Draft s s' n slots us op D) (hn : n = N)
    (hu : us = U) (hD : ∀ file v target p, D file v target p → D' file v target p) :
    Draft s s' N slots U op D' := by
  subst hn hu
  exact ⟨h.stretch, h.around, fun v target hv hslots => hD _ _ _ _ (h.layout v target hv hslots)⟩

/-- Nothing was written. -/
theorem Drawn.idle (hb : s'.frame.builder = s.frame.builder)
    (hr : s'.frame.requests = s.frame.requests) (hf : s'.file = s.file)
    (hc : s'.codes = s.codes) (ha : SameAround s s') : Drawn s s' 0 [] fun _ _ _ => True :=
  ⟨.idle hb hr hf hc, ha, fun _ _ => trivial⟩

theorem Drawn.trans (h : Drawn s t n us L) (h' : Drawn t s' n' us' L') :
    Drawn s s' (n + n') (us ++ us') fun file v p => L file v p ∧ L' file v (p + n) where
  stretch := h.stretch.trans h'.stretch
  around := h.around.trans h'.around
  layout v hv := by
    have hnext := h'.layout v hv
    rw [h.stretch.file, h.stretch.pos] at hnext
    exact ⟨h.layout v (h'.stretch.completes hv), hnext⟩

theorem Drawn.draft (h : Drawn s s' n us L) (op : Opcode) :
    Draft s s' n [] us op fun file v _ p => L file v p :=
  ⟨h.stretch, h.around, fun v _ hv _ => h.layout v hv⟩

theorem Draft.trans (h : Draft s t n slots us op D) (h' : Draft t s' n' slots' us' op D') :
    Draft s s' (n + n') (slots ++ slots') (us ++ us') op
      fun file v target p => D file v target p ∧ D' file v target (p + n) where
  stretch := h.stretch.trans h'.stretch
  around := h.around.trans h'.around
  layout v target hv hslots := by
    have hnext := h'.layout v target hv fun x hx => hslots x (List.mem_append_right _ hx)
    rw [h.stretch.file, h.stretch.pos] at hnext
    exact ⟨h.layout v target (h'.stretch.completes hv) fun x hx =>
      hslots x (List.mem_append_left _ hx), hnext⟩

/-- Straight code before a stretch with open places. -/
theorem Drawn.before (h : Drawn s t n us L) (h' : Draft t s' n' slots us' op D) :
    Draft s s' (n + n') slots (us ++ us') op
      fun file v target p => L file v p ∧ D file v target (p + n) :=
  (h.draft op).trans h'

/-- The open places were written. -/
theorem Draft.close {target : Nat} (h : Draft s t n slots us op D)
    (hp : Patched t s' slots ⟨op, target⟩) (hop : op.takesConstant = false)
    (hL : ∀ file v, D file v target s.pos → L file v s.pos) : Drawn s s' n us L := by
  have hopen : Stretch s t n (slots ++ []) us := by
    rw [List.append_nil]
    exact h.stretch
  refine ⟨hopen.close hp hop, h.around.trans hp.sameAround, fun v hv => hL _ _ ?_⟩
  exact h.layout v target (hopen.completes_of_patched hp hv) fun x hx =>
    hopen.instr?_of_patched hp hv hx

/-! ## Steps -/

section Steps

variable {α β : Type} {m : Compile α} {k : α → Compile β}

/-- The step writes a stretch without open places. -/
def Lays (m : Compile α) (n : Nat) (us : List CodeUnit) (L : Text → CodeView → Nat → Prop) : Prop :=
  ∀ s, m.Gives s fun _ s' => Drawn s s' n us L

/-- The step writes a stretch and gives its open places. -/
def Sketches (m : Compile (List Nat)) (op : Opcode) (n : Nat) (us : List CodeUnit)
    (D : Text → CodeView → Nat → Nat → Prop) : Prop :=
  ∀ s, m.Gives s fun slots s' => Draft s s' n slots us op D

theorem Lays.congr {N : Nat} {U : List CodeUnit} (h : Lays m n us L) (hn : n = N) (hu : us = U)
    (hL : ∀ file v p, L file v p → L' file v p) : Lays m N U L' :=
  fun s => (h s).mono fun _ _ hs => hs.congr hn hu hL

/-- One step after another. -/
theorem Lays.bind (h : Lays m n us L) (hk : ∀ a, Lays (k a) n' us' L') :
    Lays (m >>= k) (n + n') (us ++ us') fun file v p => L file v p ∧ L' file v (p + n) :=
  fun s => (h s).bind fun a t ht => (hk a t).mono fun _ _ hs => ht.trans hs

/-- A step before which nothing is written. -/
theorem Lays.after {L₀ : Text → CodeView → Nat → Prop} (h : Lays m 0 [] L₀)
    (hk : ∀ a, Lays (k a) n us L) : Lays (m >>= k) n us L :=
  (h.bind hk).congr (Nat.zero_add n) rfl fun _ _ _ hL => hL.2

/-- The open places get jumps to what follows. -/
theorem Sketches.close {m : Compile (List Nat)} (h : Sketches m op n us D)
    (hop : op.takesConstant = false) : Lays (do
      let slots ← m
      patchHere op slots) n us fun file v p => D file v (p + n) p := by
  intro s
  refine (h s).bind fun slots t ht => ?_
  refine (gives_patchHere op slots t).mono fun _ s' hp => ht.close hp hop fun file v hD => ?_
  rw [ht.stretch.pos] at hD
  exact hD

theorem lays_pure (a : α) : Lays (pure a : Compile α) 0 [] fun _ _ _ => True :=
  fun s => gives_pure (.idle rfl rfl rfl rfl (.refl s))

theorem lays_get : Lays (get : Compile CompileState) 0 [] fun _ _ _ => True :=
  fun s => gives_get (.idle rfl rfl rfl rfl (.refl s))

theorem lays_setLine (line : Nat) : Lays (setLine line) 0 [] fun _ _ _ => True :=
  fun _ => gives_modify (.idle rfl rfl rfl rfl ⟨rfl, rfl⟩)

theorem lays_failAt {code : ErrorCode} {pos : Position} {message : Message} :
    Lays (failAt code pos message : Compile α) n us L :=
  fun _ => gives_failAt

theorem lays_overflow {op : Opcode} {operand limit : Nat} :
    Lays (overflow op operand limit : Compile α) n us L :=
  fun _ => gives_overflow

end Steps

/-- An instruction that takes no constant was appended. -/
theorem stretch_push {i : Instr} (hi : i.operand ≤ maxOperand)
    (hop : i.op.takesConstant = false) (s : CompileState) :
    Stretch s (s.push i.encode) 1 [] [] where
  file := rfl
  pos := s.pos_push _
  words := (s.grows_push _).words
  reserved := nofun
  distinct := .nil
  accounted _ ho := ho.push_instr hi
  pooled hs := hs.push_other hi hop
  counted := rfl
  constants _ _ hk := hk
  codes _ hc := .inl hc
  made := nofun

theorem lays_emit (op : Opcode) (k : Nat) (hop : op.takesConstant = false) :
    Lays (emit op k) 1 [] fun _ v p => v.instr? p = some ⟨op, k⟩ := by
  refine fun s => (gives_emit op k s).mono ?_
  rintro _ s' ⟨hk, rfl⟩
  exact ⟨stretch_push (i := ⟨op, k⟩) hk hop s, ⟨rfl, rfl⟩,
    fun v hv => hv.instr? hk (s.getElem?_push _)⟩

/-- A place was appended. -/
theorem draft_reserve (op : Opcode) (s : CompileState) :
    reserve.Gives s fun place s' => place = s.pos ∧
      Draft s s' 1 [place] [] op fun _ v target p => v.instr? p = some ⟨op, target⟩ := by
  refine (gives_reserve s).mono ?_
  rintro place s' ⟨rfl, rfl⟩
  have hgrows := s.grows_push Word.placeholder
  refine ⟨rfl, ⟨rfl, s.pos_push _, hgrows.words, fun x hx => ?_, List.nodup_singleton _,
    fun _ ho => ho.push_place, fun hs => hs.push_place, rfl, fun _ _ hk => hk, fun _ hc => .inl hc,
    nofun⟩, ⟨rfl, rfl⟩, fun v target _ hslots => hslots _ (List.mem_singleton_self _)⟩
  obtain rfl := List.mem_singleton.mp hx
  exact ⟨Nat.le_refl _, s.getElem?_push _⟩

section Constants

variable {r : CompileState} {k : Constant}

/-- A constant was looked up or added, and an instruction that takes it was appended. If it is a
code object it was made from a unit; it and those nested in it were begun just before. -/
theorem stretch_pushTaking {op : Opcode} {i : Nat} {builder : CodeBuilder}
    (hframe : t.frame = s.frame) (hfile : t.file = s.file)
    (hcodes : t.codes = s.codes + (Code.nestedIn [k]).length)
    (hadded : t.frame.builder.addConstant k = (i, builder)) (hi : i ≤ maxOperand)
    (hop : op.takesConstant = true) (hk : ∀ c, k = .code c → ∃ u ∈ us, u.Makes s.file c)
    (hu : ∀ u ∈ us, ∃ c, k = .code c ∧ u.Makes s.file c) :
    Stretch s (CompileState.push { t with frame := { t.frame with builder } }
      (Instr.encode ⟨op, i⟩)) 1 [] us := by
  rw [hframe] at hadded
  obtain ⟨hget, hwords, -, hkeep, hmem⟩ := addConstant_cases hadded
  have hloaded := CodeBuilder.length_nestedIn_addConstant hadded
  -- the code object in the making, with the constant in its pool
  obtain ⟨looked, hlooked⟩ : ∃ looked : CompileState,
      looked = { t with frame := { s.frame with builder } } := ⟨_, rfl⟩
  rw [hframe, ← hlooked]
  have hwords' : looked.words = s.words := by
    rw [hlooked]
    exact hwords
  have hpos : looked.pos = s.pos := congrArg Array.size hwords'
  have haccounted (opened : List Nat) (ho : s.Accounted opened) : looked.Accounted opened :=
    ho.congr hwords' (by rw [hlooked])
  refine ⟨?_, ?_, fun x hx => ?_, nofun, .nil, fun opened ho => ?_, fun hs => ?_, ?_, ?_, ?_, ?_⟩
  · rw [← hfile, hlooked]
    rfl
  · rw [CompileState.pos_push, hpos]
  · rw [(looked.grows_push _).words x (by rwa [hpos]), hwords']
  · exact (haccounted opened ho).push_instr (i := ⟨op, i⟩) hi
  · have hpooled := hs.push_taking hadded hi hop
    rw [hlooked]
    exact ⟨hpooled.distinct, hpooled.inOrder⟩
  · rw [hlooked]
    change t.codes + s.loaded = s.codes + (Code.nestedIn builder.constants.toList).length
    rw [hloaded, hcodes, CompileState.loaded, CompileState.constants]
    omega
  · rw [hlooked]
    exact hkeep
  · intro c hc
    rw [hlooked] at hc
    exact (hmem _ hc).imp_right fun heq => hk c heq.symm
  · intro u hmem'
    obtain ⟨c, rfl, hmakes⟩ := hu u hmem'
    refine ⟨c, ?_, hmakes⟩
    rw [hlooked]
    exact Array.mem_of_getElem? hget

end Constants

/-- A constant is loaded, or a name is used. -/
theorem drawn_emitWith (op : Opcode) {k : Constant} (hframe : t.frame = s.frame)
    (hfile : t.file = s.file) (hcodes : t.codes = s.codes + (Code.nestedIn [k]).length)
    (hk : ∀ c, k = .code c → ∃ u ∈ us, u.Makes s.file c)
    (hu : ∀ u ∈ us, ∃ c, k = .code c ∧ u.Makes s.file c)
    (hop : op.takesConstant = true) :
    (emitWith op k).Gives t fun _ s' => Drawn s s' 1 us fun _ v p => v.Loads p op k := by
  refine (gives_get (P := fun a t' => a = t ∧ t' = t) ⟨rfl, rfl⟩).bind ?_
  rintro a t ⟨rfl, rfl⟩
  obtain ⟨⟨i, builder⟩, hadded⟩ : ∃ added, t.frame.builder.addConstant k = added := ⟨_, rfl⟩
  obtain ⟨hget, hwords, -, -, -⟩ := addConstant_cases hadded
  rw [hadded]
  refine (gives_set (P := fun _ t' => t' = { t with frame := { t.frame with builder } }) rfl).bind
    ?_
  rintro _ t' rfl
  refine (gives_emit op i _).mono ?_
  rintro _ s' ⟨hi, rfl⟩
  have hpos : CompileState.pos { t with frame := { t.frame with builder } } = s.pos := by
    rw [hframe] at hwords
    exact congrArg Array.size hwords
  refine ⟨stretch_pushTaking hframe hfile hcodes hadded hi hop hk hu, ?_, fun v hv => ⟨i, ?_, ?_⟩⟩
  · have hloops : t.frame.loops = s.frame.loops := by rw [hframe]
    have htries : t.frame.tries = s.frame.tries := by rw [hframe]
    exact ⟨hloops, htries⟩
  · rw [← hpos]
    exact hv.instr? hi (CompileState.getElem?_push _ _)
  · exact hv.constants i k hget

theorem lays_emitWith (op : Opcode) {k : Constant} (hk : ∀ c, k ≠ .code c)
    (hop : op.takesConstant = true) :
    Lays (emitWith op k) 1 [] fun _ v p => v.Loads p op k := by
  have hnone : Code.nestedIn [k] = [] := by
    cases k with
    | code c => exact absurd rfl (hk c)
    | _ => simp [Code.nestedIn]
  refine fun s => drawn_emitWith op rfl rfl ?_ (fun c hc => absurd hc (hk c)) nofun hop
  rw [hnone, List.length_nil, Nat.add_zero]

theorem lays_emitName (op : Opcode) (name : String) (hop : op.takesConstant = true) :
    Lays (emitName op name) 1 [] fun _ v p => v.Loads p op (.name name) :=
  lays_emitWith op nofun hop

/-! ## Units -/

/-- A step begins with an empty code object and fills it: the file stays, and every code object that
is begun is in the pool, or nested in one that is. -/
def Fills (m : Compile Unit) : Prop :=
  ∀ s : CompileState, s.frame = {} → m.Gives s fun _ t =>
    t.file = s.file ∧ t.codes = s.codes + t.loaded

theorem Stretch.fills (h : Stretch s t n slots us) (hs : s.frame = {}) :
    t.file = s.file ∧ t.codes = s.codes + t.loaded := by
  have hzero : s.loaded = 0 := by
    simp [CompileState.loaded, CompileState.constants, hs, Code.nestedIn]
  have hcounted := h.counted
  rw [hzero, Nat.add_zero] at hcounted
  exact ⟨h.file, hcounted⟩

theorem Lays.fills {m : Compile Unit} {L : Text → CodeView → Nat → Prop} (h : Lays m n us L) :
    Fills m :=
  fun s hs => (h s).mono fun _ _ ht => ht.stretch.fills hs

/-- A code object that was made from a unit holds what the unit writes into an empty one. -/
theorem gives_compile {P : CompileState → Prop} (u : CodeUnit) (s : CompileState)
    (h : ∀ s₀ : CompileState, s₀.frame = {} → s₀.file = s.file → s₀.codes = s.codes + 1 →
      u.write.Gives s₀ fun _ t => P t) :
    u.compile.Gives s fun c s' =>
      s'.frame = s.frame ∧ ∃ t, P t ∧ t.Finishes c ∧ s'.file = t.file ∧ s'.codes = t.codes := by
  cases u with
  | module m body => exact gives_nested h
  | function m name signature body =>
    refine (gives_nested h).bind fun c s' ⟨hframe, t, ht, hc, hs'⟩ => ?_
    exact gives_pure ⟨hframe, t, ht, ⟨hc.instructions, hc.lineTable, hc.constants⟩, hs'⟩
  | classBody m name body => exact gives_nested h
  | lambda m signature e =>
    refine (gives_nested h).bind fun c s' ⟨hframe, t, ht, hc, hs'⟩ => ?_
    exact gives_pure ⟨hframe, t, ht, ⟨hc.instructions, hc.lineTable, hc.constants⟩, hs'⟩
  | expression m e => exact gives_nested h

/-- As many code objects are begun for a unit as are nested in the one that is made from it. -/
theorem gives_compile_counted {u : CodeUnit} (hu : Fills u.write) (s : CompileState) :
    u.compile.Gives s fun c s' =>
      s'.frame = s.frame ∧ s'.file = s.file ∧ s'.codes = s.codes + c.nested.length := by
  refine (gives_compile u s fun s₀ hs₀ hfile hcodes =>
    (hu s₀ hs₀).mono fun _ t ht => And.intro (ht.1.trans hfile) (ht.2.trans (by rw [hcodes]))).mono
      ?_
  rintro c s' ⟨hframe, t, ⟨htfile, htcodes⟩, hc, hfile, hcodes⟩
  refine ⟨hframe, hfile.trans htfile, ?_⟩
  rw [hcodes, htcodes, hc.length_nested]
  omega

/-- The code object of a unit is made and loaded. -/
theorem lays_unit {u : CodeUnit} {rest : Compile Unit}
    {L : Text → CodeView → Nat → Prop} (line : Nat)
    (hu : Fills u.write) (hrest : Lays rest n us L) :
    Lays (do
      let c ← u.compile
      setLine line
      emitConst (.code c)
      rest) (1 + n) (u :: us) fun file v p =>
        (∃ c, u.Makes file c ∧ v.Loads p .loadConst (.code c)) ∧ L file v (p + 1) := by
  intro s
  have hrun : u.compile.Gives s fun c t => u.compile.run s = .ok (c, t) := fun _ _ hrun => hrun
  refine ((gives_compile_counted hu s).and hrun).bind ?_
  rintro c t ⟨⟨hframe, hfile, hcodes⟩, hrun⟩
  have hmakes : u.Makes s.file c := ⟨s, t, rfl, hrun⟩
  refine (gives_modify (P := fun _ t' => t'.frame = t.frame ∧ t'.file = t.file ∧
    t'.codes = t.codes) ⟨rfl, rfl, rfl⟩).bind fun _ t' ⟨hframe', hfile', hcodes'⟩ => ?_
  -- the code object is loaded right after it was made
  have hload : (emitConst (.code c)).Gives t' fun _ s' =>
      Drawn s s' 1 [u] fun _ v p => v.Loads p .loadConst (.code c) := by
    refine drawn_emitWith .loadConst (hframe'.trans hframe) (hfile'.trans hfile) ?_ ?_ ?_ rfl
    · rw [hcodes', hcodes, Code.nestedIn, Code.nestedIn, List.append_nil]
    · rintro c' ⟨⟩
      exact ⟨u, List.mem_singleton_self u, hmakes⟩
    · intro u' hu'
      obtain rfl := List.mem_singleton.mp hu'
      exact ⟨c, rfl, hmakes⟩
  refine hload.bind fun _ t₁ h₁ => (hrest t₁).mono fun _ s' h₂ => ?_
  have hall := h₁.trans h₂
  refine ⟨hall.stretch, hall.around, fun v hv => ?_⟩
  obtain ⟨hloads, hafter⟩ := hall.layout v hv
  exact ⟨⟨c, hmakes, hloads⟩, hafter⟩

end Compile

end Toolchain

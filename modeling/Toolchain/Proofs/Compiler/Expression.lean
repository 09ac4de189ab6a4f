import Toolchain.Proofs.Compiler.Finished
import Toolchain.Proofs.Tree.WellFormed

/-!
# Code of expressions

The code of an expression leaves one value on the stack, whatever the expression; the code that
stores into a target takes one. Code objects of lambdas are always valid.

## Main results

* `Compile.emits_code`: the code of an expression leaves one value
* `Compile.emits_store`, `Compile.emits_delete`: the code of targets
* `Compile.gives_exprCode`: the code object of an expression is valid
-/

namespace Toolchain

/-! ## Operands -/

/-- The parts of a packed operand are read back. -/
theorem splitBuild_buildOperand (kind : Nat) {count : Nat} (h : count ≤ maxBuildCount) :
    splitBuild (buildOperand kind count) = (kind, count) := by
  have hlt : count < 2 ^ 9 := Nat.lt_succ_of_le h
  unfold splitBuild buildOperand
  rw [← Nat.shiftLeft_add_eq_or_of_lt hlt, Nat.shiftLeft_eq, Nat.shiftRight_eq_div_pow,
    show 511 = 2 ^ 9 - 1 from rfl, Nat.and_two_pow_sub_one_eq_mod]
  exact Prod.ext (by dsimp only; omega) (by dsimp only; omega)

theorem splitCall_callOperand {positional : Nat} (h : positional ≤ maxPositional) (keywords : Nat) :
    splitCall (callOperand positional keywords) = (positional, keywords) := by
  have hlt : positional < 2 ^ 6 := Nat.lt_succ_of_le h
  unfold splitCall callOperand
  rw [← Nat.shiftLeft_add_eq_or_of_lt hlt, Nat.shiftLeft_eq, Nat.shiftRight_eq_div_pow,
    show 63 = 2 ^ 6 - 1 from rfl, Nat.and_two_pow_sub_one_eq_mod]
  exact Prod.ext (by dsimp only; omega) (by dsimp only; omega)

namespace Compile

/-! ## Single instructions -/

theorem emits_binary (op : BinaryOp) : Emits (emit .binary op.code) 2 1 :=
  emits_emit _ _ (by cases op <;> decide)

theorem emits_unary (op : UnaryOp) : Emits (emit .unary op.code) 1 1 :=
  emits_emit _ _ (by cases op <;> decide)

theorem emits_compare (op : CompareOp) : Emits (emit .compare op.code) 2 1 :=
  emits_emit _ _ (by cases op <;> decide)

theorem emits_special (value : Option Bool) : Emits (emitSpecial value) 0 1 :=
  emits_emit _ _ (by rcases value with _ | _ | _ <;> rfl)

theorem emits_literal (value : Literal) : Emits (literal value) 0 1 := by
  cases value with
  | none => exact emits_special none
  | bool b => exact emits_special (some b)
  | int n => exact emits_emitConst (by simp) (by simp)
  | float x => exact emits_emitConst (by simp) (by simp)
  | str s => exact emits_emitConst (by simp) (by simp)

theorem emits_format (conversion : Option Conversion) :
    Emits (emit .format (Conversion.code conversion)) 1 1 := by
  rcases conversion with _ | _ | _ | _ <;> exact emits_emit _ _ (by rfl)

theorem emits_formatSpec (conversion : Option Conversion) :
    Emits (emit .format (Conversion.code conversion + formatSpecBit)) 2 1 := by
  rcases conversion with _ | _ | _ | _ <;> exact emits_emit _ _ (by rfl)

/-- Several values are built into one; a slice is built of three. -/
theorem emits_build (kind : BuildKind) {count : Nat} (h : count ≤ maxBuildCount)
    (hslice : kind = .slice → count = 3) :
    Emits (emitBuild kind count) (if kind = .dict then count * 2 else count) 1 := by
  have hsplit := splitBuild_buildOperand kind.number h
  have hplain : Instr.isPlain ⟨.build, buildOperand kind.number count⟩ = true := by
    cases kind <;> simp_all [Instr.isPlain, BuildKind.number]
  have hneed : Instr.stackNeed ⟨.build, buildOperand kind.number count⟩ =
      if kind = .dict then count * 2 else count := by
    cases kind <;> simp_all [Instr.stackNeed, BuildKind.number]
  rw [← hneed]
  exact emits_emit _ _ hplain

theorem emits_call {positional : Nat} (h : positional ≤ maxPositional) (keywords : Nat) :
    Emits (emit .call (callOperand positional keywords)) (positional + 2 * keywords + 1) 1 := by
  have hneed : Instr.stackNeed ⟨.call, callOperand positional keywords⟩ =
      positional + 2 * keywords + 1 := by
    simp only [Instr.stackNeed, splitCall_callOperand h]
  rw [← hneed]
  exact emits_emit _ _ rfl

/-- Too many values are refused. -/
theorem gives_checkCount (count : Nat) (s : CompileState) :
    (checkCount count).Gives s fun _ s' => count ≤ maxBuildCount ∧ s' = s := by
  unfold checkCount
  split
  · exact gives_overflow
  · exact gives_pure ⟨by omega, rfl⟩

theorem emits_lined {c : Bool} {line n k : Nat} {f : Unit → Compile Unit} (h : Emits (f ()) n k) :
    Emits (if c = true then (do let r ← setLine line; f r) else f ()) n k := by
  by_cases hc : c = true
  · rw [if_pos hc]
    exact (emits_setLine line n).bind fun _ => h
  · rw [if_neg hc]
    exact h

/-! ## Code objects of expressions -/

/-- A state in which every code object that holds what was written is valid. -/
def Valid (t : CompileState) : Prop := ∀ c : Code, t.Finishes c → c.verify = .ok ()

theorem sane_of_empty {s : CompileState} (h : s.frame = {}) : s.Sane :=
  ⟨by simp [CompileState.pos, CompileState.words, h], by simp [CompileState.constants, h]⟩

theorem codesOk_of_empty {s : CompileState} (h : s.frame = {}) : s.CodesOk := by
  intro c hc
  simp [CompileState.constants, h] at hc

theorem pos_of_empty {s : CompileState} (h : s.frame = {}) : s.pos = 0 := by
  simp [CompileState.pos, CompileState.words, h]

/-- **The code object of an expression is valid.** -/
theorem gives_exprCode {m : Compile Unit} (hm : Emits m 0 1) (s : CompileState)
    (hs : s.frame = {}) : (do m; emit .ret 0 : Compile Unit).Gives s fun _ t => Valid t := by
  refine (hm s).bind fun _ t hstraight => ?_
  refine (wrote_emit .ret 0 t).mono ?_
  rintro _ u ⟨hw, hconstants⟩ c hc
  have hgrows := hstraight.keeps.grows.trans hw.grows
  have hpath := hstraight.path c.view (hc.completes.of_grows hw.grows)
  have hret : c.view.instr? t.pos = some ⟨.ret, 0⟩ := hw.instr? hc.completes
  have hsize : c.view.words.size = u.pos := by rw [hc.words_eq, CompileState.pos]
  have hpos := hw.pos
  rw [pos_of_empty hs] at hpath
  have hcodes : u.CodesOk := by
    have := hstraight.keeps.codes (codesOk_of_empty hs)
    unfold CompileState.CodesOk at this ⊢
    rwa [hconstants]
  have hruns : c.view.Runs 0 u.pos 0 fun _ _ => False := by
    have hstop := CodeView.Runs.stop hret (d := 1) (Nat.le_refl 1) rfl
    rw [hpos]
    exact (hpath.runs 0).link hstop ⟨rfl, rfl⟩ (fun x a h => .inl h) (fun _ _ => False.elim)
      fun _ _ => False.elim
  refine (hc.verify_iff (hgrows.sane (sane_of_empty hs)) (by omega) ?_ hruns.behaves).mpr
    ⟨trivial, hcodes⟩
  rw [hpos]
  exact (hpath.encoded (by omega)).append
    (CodeView.encodedOn_one hret (CodeView.encoded_stop (.inl rfl) (by decide)))

/-- A function or a class is made from a code object. -/
theorem gives_make {op : Opcode} (hop : op = .makeFunction ∨ op = .makeClass) (c : Code)
    (count : Nat) (s : CompileState) :
    (do emitConst (.code c); emit op count : Compile Unit).Gives s fun _ s' =>
      s.Grows s' ∧ s'.frame.loops = s.frame.loops ∧
      (s'.CodesOk ↔ s.CodesOk ∧ c.verify = .ok ()) ∧
      ∀ v : CodeView, v.Completes s' → v.Path s.pos s'.pos count 1 := by
  refine (wrote_emitWith .loadConst (by simp) s).bind fun _ t ⟨i, hload, hget, hadded⟩ => ?_
  refine (wrote_emit op count t).mono fun _ u ⟨hmake, hconstants⟩ => ?_
  refine ⟨hload.grows.trans hmake.grows, hmake.loops.trans hload.loops, ?_, fun v hv => ?_⟩
  · unfold CompileState.CodesOk
    rw [hconstants]
    refine ⟨fun h => ⟨fun c' hc' => ?_, h c (Array.mem_of_getElem? hget)⟩, fun ⟨h, hc⟩ c' hc' => ?_⟩
    · obtain ⟨j, hj, heq⟩ := Array.mem_iff_getElem.mp hc'
      exact h c' (Array.mem_of_getElem? (hload.grows.constants j _
        (by rw [Array.getElem?_eq_getElem hj, heq])))
    · rcases hadded _ hc' with hc' | hc'
      · exact h c' hc'
      · cases hc'
        exact hc
  · have hpos := hload.pos
    have hvt := hv.of_grows hmake.grows
    have hm := hmake.instr? hv
    rw [hpos] at hm
    rw [hmake.pos, hpos]
    exact .make (hload.instr? hvt) (hvt.constants i _ hget) hop hm

theorem emits_make {op : Opcode} (hop : op = .makeFunction ∨ op = .makeClass) {c : Code}
    (hc : c.verify = .ok ()) (count : Nat) :
    Emits (do emitConst (.code c); emit op count : Compile Unit) count 1 := by
  refine fun s => (gives_make hop c count s).mono fun _ s' ⟨hgrows, hloops, hcodes, hpath⟩ => ?_
  exact ⟨⟨hgrows, hloops, fun hs => hcodes.mpr ⟨hs, hc⟩⟩, hpath⟩

/-! ## Expressions -/

/-- The chain of comparisons after its first operand, with the jump over what a failed comparison
does. -/
theorem emits_closeComparisons {places : List Nat} {s t : CompileState}
    (h : Slotted s t places .jumpIfFalse 0 1 2) :
    (if (!places.isEmpty) = true then do
        let done ← reserve
        patchHere .jumpIfFalse places
        emit .rot 2
        emit .pop 0
        patchHere .jump [done]
      else pure () : Compile Unit).Gives t fun _ s' => Straight s s' 0 1 := by
  by_cases hp : places = []
  · subst hp
    refine gives_pure ⟨h.keeps, fun v hv => ?_⟩
    have hfork := h.fork v t.pos hv (Nat.le_refl _) nofun
    refine ⟨fun d => (hfork.runs d).congr fun x a => by simp [CodeView.Only], fun hq =>
      hfork.encoded hq hq⟩
  have hcond : (!places.isEmpty) = true := by simpa using hp
  rw [if_pos hcond]
  refine (gives_reserve t).bind ?_
  rintro done t₁ ⟨rfl, rfl⟩
  refine (gives_patchHere .jumpIfFalse places _).bind fun _ t₂ h₂ => ?_
  refine (emits_emit .rot 2 rfl t₂).bind fun _ t₃ h₃ => ?_
  refine (emits_emit .pop 0 rfl t₃).bind fun _ t₄ h₄ => ?_
  refine (gives_patchHere .jump [t.pos] t₄).mono fun _ t₅ h₅ => ?_
  have hdrop : Straight t₂ t₄ 2 1 := h₃.trans (h₄.frame 1)
  have hlt : ∀ x ∈ places, x < t.pos := fun x hx =>
    CompileState.lt_pos_of_getElem? (h.reserved x hx).2
  have hgrows := t.grows_push Word.placeholder
  have hpos₂ : t₂.pos = t.pos + 1 := by rw [h₂.pos, CompileState.pos_push]
  have hslot : t₄.words[t.pos]? = some Word.placeholder := by
    refine hdrop.keeps.grows.getElem? (h₂.placeholder (fun hmem => ?_) (t.getElem?_push _))
    exact Nat.lt_irrefl _ (hlt _ hmem)
  have hlt₄ : t.pos < t₄.pos := CompileState.lt_pos_of_getElem? hslot
  have hgrows₂ : s.Grows t₂ :=
    h₂.grows (h.keeps.grows.trans hgrows) fun x hx => (h.reserved x hx).1
  have hgrows₄ := hgrows₂.trans hdrop.keeps.grows
  refine ⟨⟨h₅.grows hgrows₄ ?_, ?_, fun hs => ?_⟩, fun v hv => ?_⟩
  · intro x hx
    obtain rfl := List.mem_singleton.mp hx
    exact h.keeps.grows.pos
  · rw [h₅.loops, hdrop.keeps.loops, h₂.loops]
    exact h.keeps.loops
  · exact h₅.codesOk_iff.mpr (hdrop.keeps.codes (h₂.codesOk_iff.mpr (h.keeps.codes hs)))
  · have hv₄ : v.Completes t₄ := hv.of_refines (h₅.refines fun x hx => by
      obtain rfl := List.mem_singleton.mp hx
      exact hslot)
    have hv₂ := hv₄.of_grows hdrop.keeps.grows
    have hv₁ : v.Completes t := (hv₂.of_refines (h₂.refines fun x hx =>
      hgrows.getElem? (h.reserved x hx).2)).of_grows hgrows
    have hfork := h.fork v (t.pos + 1) hv₁ (Nat.le_succ _) fun x hx => by
      have := h₂.instr? hv₂ hx (Nat.lt_of_lt_of_le (hlt x hx) hgrows.pos)
      rwa [CompileState.pos_push] at this
    have hjump : v.instr? t.pos = some ⟨.jump, t₄.pos⟩ :=
      h₅.instr? hv (List.mem_singleton_self _) hlt₄
    have hpath := hdrop.path v hv₄
    rw [hpos₂] at hpath
    rw [h₅.pos]
    exact hfork.join hp hjump hpath

mutual

/-- **The code of an expression leaves one value.** -/
theorem emits_code : ∀ e : MarkedExpr, e.WellFormed → Emits (code false e) 0 1
  | .boolOp m op values, h => by
    rw [Expr.WellFormed] at h
    have hne : values ≠ [] := by
      rintro rfl
      simp at h
    cases op with
    | and =>
      rw [code]
      refine emits_lined fun s => ?_
      refine (opens_connected (.inl rfl) values hne h.2 s).bind fun places t ht => ?_
      exact (gives_patchHere _ places t).mono fun _ s' hp => ht.close hp
    | or =>
      rw [code]
      refine emits_lined fun s => ?_
      refine (opens_connected (.inr rfl) values hne h.2 s).bind fun places t ht => ?_
      exact (gives_patchHere _ places t).mono fun _ s' hp => ht.close hp
  | .binOp m left op right, h => by
    rw [Expr.WellFormed] at h
    rw [code]
    exact emits_lined ((emits_code left h.1).bind fun _ =>
      ((emits_code right h.2).frame 1).bind fun _ => emits_binary op)
  | .unaryOp m op operand, h => by
    rw [Expr.WellFormed] at h
    rw [code]
    exact emits_lined ((emits_code operand h).bind fun _ => emits_unary op)
  | .lambda m ⟨params, defaults, vararg, kwarg⟩ body, h => by
    rw [Expr.WellFormed] at h
    rw [code]
    refine emits_lined ((emits_reversed defaults h.2.1).bind fun _ => ?_)
    refine (emits_get _).bind fun st s => ?_
    refine (gives_nestedCode (gives_exprCode (emits_code body h.2.2))).bind
      fun inner t ⟨hframe, u, hvalid, hfin⟩ => ?_
    have hc := hvalid (withParams inner ({ params, vararg, kwarg } : Signature Mark MarkedExpr))
      ⟨hfin.instructions, hfin.lineTable, hfin.constants⟩
    have hmake := (emits_setLine st.line defaults.length).bind fun _ =>
      emits_make (.inl rfl) hc defaults.length
    exact (hmake t).mono fun _ s' hs' => (Straight.of_frame_eq hframe _).trans hs'
  | .dict m items', h => by
    rw [Expr.WellFormed] at h
    rw [code]
    refine emits_lined fun s => ?_
    refine (gives_checkCount items'.length s).bind ?_
    rintro _ t ⟨hcount, rfl⟩
    exact ((emits_items items' h).bind fun _ => emits_build .dict hcount nofun) t
  | .compare m left rest, h => by
    rw [Expr.WellFormed] at h
    rw [code]
    refine emits_lined fun s => ?_
    refine (emits_code left h.1 s).bind fun _ t ht => ?_
    refine (opens_comparisons rest h.2.1 h.2.2 t).bind fun places u hu => ?_
    exact emits_closeComparisons ((ht.slotted .jumpIfFalse 2).trans hu)
  | .call m func args kws, h => by
    rw [Expr.WellFormed] at h
    rw [code]
    refine emits_lined ?_
    extract_lets rest
    split
    · exact (emits_get _).bind fun _ _ => gives_fail.bind fun _ _ (hf : False) => hf.elim
    · rename_i hcount
      have hargs : args.length ≤ maxPositional := by
        simp only [Bool.or_eq_true, decide_eq_true_eq, not_or] at hcount
        omega
      refine (emits_code func h.1).bind fun _ => ?_
      refine ((emits_keywords kws h.2.2).frame 1).bind fun _ => ?_
      have hargsCode := (emits_reversed args h.2.1).frame (2 * kws.length + 1)
      rw [Nat.zero_add] at hargsCode
      exact hargsCode.bind fun _ => emits_call hargs kws.length
  | .constant m value, h => by
    rw [code]
    exact emits_lined (emits_literal value)
  | .attr m value label ctx, h => by
    rw [Expr.WellFormed] at h
    rw [code]
    exact emits_lined ((emits_code value h.1).bind fun _ => emits_emitName _ rfl label)
  | .subscript m value part ctx, h => by
    rw [Expr.WellFormed] at h
    rw [code]
    refine emits_lined ((emits_code value h.1).bind fun _ => ?_)
    exact ((emits_part part h.2.1).frame 1).bind fun _ => emits_emit _ _ rfl
  | .name m id ctx, h => by
    rw [code]
    exact emits_lined (emits_emitName _ rfl id)
  | .list m elts ctx, h => by
    rw [Expr.WellFormed] at h
    rw [code]
    refine emits_lined fun s => ?_
    refine (gives_checkCount elts.length s).bind ?_
    rintro _ t ⟨hcount, rfl⟩
    exact ((emits_reversed elts h.1).bind fun _ => emits_build .list hcount nofun) t
  | .tuple m elts ctx, h => by
    rw [Expr.WellFormed] at h
    rw [code]
    refine emits_lined fun s => ?_
    refine (gives_checkCount elts.length s).bind ?_
    rintro _ t ⟨hcount, rfl⟩
    exact ((emits_reversed elts h.1).bind fun _ => emits_build .tuple hcount nofun) t
  | .slice .., h => by
    exact h.elim
  | .index .., h => by
    exact h.elim
  | .formatted m value conversion none, h => by
    rw [Expr.WellFormed] at h
    rw [code]
    exact emits_lined ((emits_code value h.1).bind fun _ => emits_format conversion)
  | .formatted m value conversion (some spec), h => by
    rw [Expr.WellFormed, Expr.OptionWellFormed] at h
    rw [code]
    refine emits_lined ((emits_code value h.1).bind fun _ => ?_)
    exact ((emits_code spec h.2).frame 1).bind fun _ => emits_formatSpec conversion

/-- The code of a part of a subscript leaves one value. -/
theorem emits_part : ∀ e : MarkedExpr, e.PartWellFormed → Emits (code true e) 0 1
  | .index m value, h => by
    rw [Expr.PartWellFormed] at h
    rw [code]
    exact emits_lined (emits_code value h)
  | .slice m lower upper step, h => by
    rw [Expr.PartWellFormed] at h
    rw [code]
    refine emits_lined ((emits_optional step h.2.2).bind fun _ => ?_)
    refine ((emits_optional upper h.2.1).frame 1).bind fun _ => ?_
    refine ((emits_optional lower h.1).frame 2).bind fun _ => ?_
    exact emits_build .slice (by decide) fun _ => rfl

theorem emits_optional : ∀ e : Option MarkedExpr, Expr.OptionWellFormed e → Emits (optional e) 0 1
  | none, _ => by
    exact emits_special none
  | some e, h => by
    exact emits_code e h

theorem emits_reversed : ∀ es : List MarkedExpr, Expr.AllWellFormed es →
    Emits (reversed false es) 0 es.length
  | [], _ => by
    exact emits_pure () 0
  | e :: es, h => by
    rw [reversed, List.length_cons, Nat.add_comm]
    have hlast := (emits_code e h.1).frame es.length
    rw [Nat.zero_add] at hlast
    exact (emits_reversed es h.2).bind fun _ => hlast

theorem emits_items : ∀ pairs : List (MarkedExpr × MarkedExpr), Expr.ItemsWellFormed pairs →
    Emits (items pairs) 0 (pairs.length * 2)
  | [], _ => by
    exact emits_pure () 0
  | (key, value) :: rest, h => by
    rw [items, List.length_cons, Nat.add_mul, Nat.add_comm]
    have hvalue := (emits_code value h.2.1).frame (rest.length * 2)
    have hkey := (emits_code key h.1).frame (1 + rest.length * 2)
    rw [Nat.zero_add] at hvalue hkey
    rw [← Nat.add_assoc] at hkey
    exact (emits_items rest h.2.2).bind fun _ => hvalue.bind fun _ => hkey

theorem emits_keywords : ∀ kws : List (KeywordArg Mark MarkedExpr), Expr.KeywordsWellFormed kws →
    Emits (keywords kws) 0 (2 * kws.length)
  | [], _ => by
    exact emits_pure () 0
  | ⟨m, key, value⟩ :: rest, h => by
    rw [keywords, List.length_cons, Nat.mul_add, Nat.add_comm]
    have hvalue := (emits_code value h.2.1).frame (2 * rest.length)
    have hkey := (emits_emitConst (k := .string (key.getD mappingName)) (by simp) (by simp)).frame
      (1 + 2 * rest.length)
    rw [Nat.zero_add] at hvalue hkey
    rw [← Nat.add_assoc] at hkey
    exact (emits_keywords rest h.2.2).bind fun _ => hvalue.bind fun _ => hkey

/-- The operands of a connective: each but the last is dropped if the next one is evaluated. -/
theorem opens_connected {op : Opcode} (hop : op = .jumpIfFalse ∨ op = .jumpIfTrue) :
    ∀ es : List MarkedExpr, es ≠ [] → Expr.AllWellFormed es → Opens (connected es) op 0 1 1
  | [], hne, _ => absurd rfl hne
  | [e], _, h => by
    intro s
    exact (emits_code e h.1 s).bind fun _ t ht => gives_pure (ht.slotted op 1)
  | e :: e' :: es, _, h => by
    rw [Expr.AllWellFormed] at h
    rw [connected]
    · intro s
      refine (emits_code e h.1 s).bind fun _ t₁ h₁ => ?_
      refine (emits_emit .dup 1 rfl t₁).bind fun _ t₂ h₂ => ?_
      refine (gives_reserve_slotted hop t₂).bind fun place t₃ h₃ => ?_
      refine (emits_emit .pop 0 rfl t₃).bind fun _ t₄ h₄ => ?_
      refine (opens_connected hop (e' :: es) nofun h.2 t₄).bind fun places s' h₅ => ?_
      refine gives_pure ?_
      exact ((h₁.trans h₂).slotted op 1).trans ((h₃.frame 1).trans ((h₄.slotted op 1).trans h₅))
    · nofun

/-- The operands of a chain of comparisons. -/
theorem opens_comparisons : ∀ rest : List (CompareOp × MarkedExpr), rest ≠ [] →
    Expr.RestWellFormed rest → Opens (comparisons rest) .jumpIfFalse 1 1 2
  | [], hne, _ => absurd rfl hne
  | [(op, e)], _, h => by
    intro s
    refine ((emits_code e h.1).frame 1 s).bind fun _ t ht => ?_
    refine (emits_compare op t).bind fun _ t' ht' => ?_
    exact gives_pure ((ht.trans ht').slotted _ 2)
  | (op, e) :: p :: rest, _, h => by
    rw [Expr.RestWellFormed] at h
    rw [comparisons]
    · intro s
      refine ((emits_code e h.1).frame 1 s).bind fun _ t₁ h₁ => ?_
      refine ((emits_emit .dup 1 rfl).frame 1 t₁).bind fun _ t₂ h₂ => ?_
      refine (emits_emit .rot 3 rfl t₂).bind fun _ t₃ h₃ => ?_
      refine ((emits_compare op).frame 1 t₃).bind fun _ t₄ h₄ => ?_
      refine ((emits_emit .dup 1 rfl).frame 1 t₄).bind fun _ t₅ h₅ => ?_
      refine (gives_reserve_slotted (.inl rfl) t₅).bind fun place t₆ h₆ => ?_
      refine ((emits_emit .pop 0 rfl).frame 1 t₆).bind fun _ t₇ h₇ => ?_
      refine (opens_comparisons (p :: rest) nofun h.2 t₇).bind fun places s' h₈ => ?_
      refine gives_pure ?_
      have hhead := h₁.trans (h₂.trans (h₃.trans (h₄.trans h₅)))
      exact (hhead.slotted _ 2).trans ((h₆.frame 2).trans ((h₇.slotted _ 2).trans h₈))
    · nofun

end

theorem emits_expr {e : MarkedExpr} (h : e.WellFormed) : Emits (expr e) 0 1 := emits_code e h

/-! ## Targets -/

/-- A value is unpacked: the iterator over it is dropped at the end. -/
theorem emits_unpack {m : Compile (List Nat)} (h : Opens m .next 1 1 1) :
    Emits (do
      emit .iter 0
      let places ← m
      let done ← position
      emit .pop 0
      places.forM fun place => patch place .next done) 1 0 := by
  intro s
  refine (emits_emit .iter 0 rfl s).bind fun _ t ht => ?_
  refine (h t).bind fun places t₁ h₁ => ?_
  refine (gives_position t₁).bind ?_
  rintro done t₂ ⟨rfl, rfl⟩
  refine (emits_emit .pop 0 rfl t₂).bind fun _ t₃ h₃ => ?_
  refine (gives_patchAll places .next t₂.pos t₃).mono fun _ s' hp => ?_
  exact ((ht.slotted .next 1).trans h₁).close_after h₃ hp

mutual

/-- **The code that stores into a target takes one value.** -/
theorem emits_store {ctx : Context} : ∀ t : MarkedExpr, t.IsTarget ctx → Emits (store t) 1 0
  | .name m id c, _ => by
    exact emits_emitName _ rfl id
  | .attr m value label c, h => by
    obtain ⟨hvalue, -⟩ := h.parts
    exact ((emits_expr hvalue).frame 1).bind fun _ => emits_emitName _ rfl label
  | .subscript m value part c, h => by
    obtain ⟨hvalue, hpart, -⟩ := h.parts
    refine ((emits_expr hvalue).frame 1).bind fun _ => ?_
    exact ((emits_part part hpart).frame 2).bind fun _ => emits_emit _ _ rfl
  | .list m elts c, h => by
    obtain ⟨helts, -⟩ := h.parts
    exact emits_unpack (opens_stores elts helts)
  | .tuple m elts c, h => by
    obtain ⟨helts, -⟩ := h.parts
    exact emits_unpack (opens_stores elts helts)
  | .boolOp .., h | .binOp .., h | .unaryOp .., h | .lambda .., h | .dict .., h | .compare .., h
  | .call .., h | .constant .., h | .slice .., h | .index .., h | .formatted .., h => h.parts.elim

/-- The code that stores the values of an iterator leaves the iterator. -/
theorem opens_stores {ctx : Context} : ∀ ts : List MarkedExpr, (∀ t ∈ ts, t.IsTarget ctx) →
    Opens (stores ts) .next 1 1 1
  | [], _ => by
    exact fun s => gives_pure ((Straight.of_frame_eq rfl 1).slotted .next 1)
  | t :: ts, h => by
    intro s
    refine (gives_reserve_next s).bind fun place t₁ h₁ => ?_
    refine ((emits_store t (h t List.mem_cons_self)).frame 1 t₁).bind fun _ t₂ h₂ => ?_
    refine (opens_stores ts (fun t' ht' => h t' (List.mem_cons_of_mem _ ht')) t₂).bind
      fun places s' h₃ => ?_
    exact gives_pure (h₁.trans ((h₂.slotted .next 1).trans h₃))

end

mutual

/-- The code that deletes a target leaves the stack as it was. -/
theorem emits_delete {ctx : Context} : ∀ t : MarkedExpr, t.IsTarget ctx → Emits (delete t) 0 0
  | .name m id c, _ => by
    exact emits_emitName _ rfl id
  | .attr m value label c, h => by
    obtain ⟨hvalue, -⟩ := h.parts
    exact (emits_expr hvalue).bind fun _ => emits_emitName _ rfl label
  | .subscript m value part c, h => by
    obtain ⟨hvalue, hpart, -⟩ := h.parts
    refine (emits_expr hvalue).bind fun _ => ?_
    exact ((emits_part part hpart).frame 1).bind fun _ => emits_emit _ _ rfl
  | .list m elts c, h => by
    obtain ⟨helts, -⟩ := h.parts
    exact emits_deletes elts helts
  | .tuple m elts c, h => by
    obtain ⟨helts, -⟩ := h.parts
    exact emits_deletes elts helts
  | .boolOp .., h | .binOp .., h | .unaryOp .., h | .lambda .., h | .dict .., h | .compare .., h
  | .call .., h | .constant .., h | .slice .., h | .index .., h | .formatted .., h => h.parts.elim

theorem emits_deletes {ctx : Context} : ∀ ts : List MarkedExpr, (∀ t ∈ ts, t.IsTarget ctx) →
    Emits (deletes ts) 0 0
  | [], _ => by
    exact emits_pure () 0
  | t :: ts, h => by
    refine (emits_delete t (h t List.mem_cons_self)).bind fun _ => ?_
    exact emits_deletes ts fun t' ht' => h t' (List.mem_cons_of_mem _ ht')

end

theorem emits_unpacked (pos : Position) (count : Nat) (value : MarkedExpr) :
    Emits (unpacked pos count value) 0 0 := by
  unfold unpacked
  split
  · exact emits_pure _ 0
  · split
    · exact emits_pure _ 0
    · exact emits_failAt

mutual

/-- The check of a display writes nothing. -/
theorem emits_checkArity : ∀ target value : MarkedExpr, Emits (checkArity target value) 0 0
  | .tuple m targets c, value => by
    exact (emits_unpacked _ _ value).bind fun values => emits_checkArities targets values
  | .list m targets c, value => by
    exact (emits_unpacked _ _ value).bind fun values => emits_checkArities targets values
  | .boolOp .., _ | .binOp .., _ | .unaryOp .., _ | .lambda .., _ | .dict .., _ | .compare .., _
  | .call .., _ | .constant .., _ | .slice .., _ | .index .., _ | .formatted .., _ | .name .., _
  | .attr .., _ | .subscript .., _ =>
    emits_pure () 0

theorem emits_checkArities : ∀ targets values : List MarkedExpr,
    Emits (checkArities targets values) 0 0
  | target :: targets, value :: values => by
    exact (emits_checkArity target value).bind fun _ => emits_checkArities targets values
  | [], _ => by
    rw [checkArities]
    · exact emits_pure () 0
    · nofun
  | _ :: _, [] => by
    rw [checkArities]
    · exact emits_pure () 0
    · nofun

end

end Compile

end Toolchain

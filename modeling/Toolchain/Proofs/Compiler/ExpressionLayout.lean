import Toolchain.Proofs.Compiler.Stretch

/-!
# The layout of expressions and targets

The code that the compiler writes for an expression, or for a target, has the layout of the
expression or the target: its size, the constants it makes, and the instruction at each position.

## Main results

* `Compile.lays_code`: the code of an expression
* `Compile.lays_store`, `Compile.lays_delete`: the code that stores into a target, or deletes it
-/

namespace Toolchain

namespace Compile

open CodeView (ExprAt)

variable {n : Nat} {us : List CodeUnit} {L : Text → CodeView → Nat → Prop}

/-- The source line may be set before. -/
theorem lays_lined {c : Bool} {line : Nat} {f : Unit → Compile Unit} (h : Lays (f ()) n us L) :
    Lays (if c = true then (do let r ← setLine line; f r) else f ()) n us L := by
  by_cases hc : c = true
  · rw [if_pos hc]
    exact (lays_setLine line).after fun _ => h
  · rw [if_neg hc]
    exact h

theorem lays_checkCount (count : Nat) : Lays (checkCount count) 0 [] fun _ _ _ => True := by
  unfold checkCount
  split
  · exact lays_overflow
  · exact lays_pure ()

theorem lays_literal (value : Literal) :
    Lays (literal value) 1 [] fun _ v p => v.LiteralAt value p := by
  cases value with
  | none => exact lays_emit .loadSpecial 0 rfl
  | bool b =>
    cases b with
    | true => exact lays_emit .loadSpecial 1 rfl
    | false => exact lays_emit .loadSpecial 2 rfl
  | int n => exact lays_emitWith .loadConst nofun rfl
  | float x => exact lays_emitWith .loadConst nofun rfl
  | str s => exact lays_emitWith .loadConst nofun rfl

/-! ## Expressions -/

/-- A chain of comparisons: where one before the last fails, the last operand is dropped. -/
theorem drawn_closeComparisons {s t : CompileState} {places : List Nat}
    {D : Text → CodeView → Nat → Nat → Prop} (h : Draft s t n places us .jumpIfFalse D)
    {chained : Prop} [Decidable chained] (hchained : chained ↔ places ≠ []) :
    (if (!places.isEmpty) = true then do
        let done ← reserve
        patchHere .jumpIfFalse places
        emit .rot 2
        emit .pop 0
        patchHere .jump [done]
      else pure () : Compile Unit).Gives t fun _ s' =>
        Drawn s s' (n + if chained then 3 else 0) us fun file v p =>
          D file v (p + n + 1) p ∧ (chained → v.instr? (p + n) = some ⟨.jump, p + n + 3⟩ ∧
            v.instr? (p + n + 1) = some ⟨.rot, 2⟩ ∧ v.instr? (p + n + 2) = some ⟨.pop, 0⟩) := by
  by_cases hp : places = []
  · subst hp
    have hnot : ¬ chained := fun hc => hchained.mp hc rfl
    rw [if_neg hnot]
    refine gives_pure ⟨h.stretch, h.around, fun v hv => ⟨?_, fun hc => absurd hc hnot⟩⟩
    exact h.layout v _ hv nofun
  have hc : chained := hchained.mpr hp
  have hcond : (!places.isEmpty) = true := by simpa using hp
  rw [if_pos hcond, if_pos hc]
  refine (draft_reserve .jump t).bind ?_
  rintro done t₁ ⟨rfl, h₁⟩
  refine (gives_patchHere .jumpIfFalse places t₁).bind fun _ t₂ h₂ => ?_
  refine (lays_emit .rot 2 rfl t₂).bind fun _ t₃ h₃ => ?_
  refine (lays_emit .pop 0 rfl t₃).bind fun _ t₄ h₄ => ?_
  refine (gives_patchHere .jump [t.pos] t₄).mono fun _ s' h₅ => ?_
  have hopen : Stretch s t₁ (n + 1) (places ++ [t.pos]) us :=
    (h.stretch.trans h₁.stretch).congr rfl (.refl _) (by simp)
  have hpos₁ : t₁.pos = s.pos + n + 1 := by rw [hopen.pos, Nat.add_assoc]
  have hpos₂ : t₂.pos = s.pos + n + 1 := by rw [h₂.pos, hpos₁]
  have hdrop := h₃.trans h₄
  have hopen₄ : Stretch s t₄ (n + 3) ([t.pos] ++ []) us :=
    ((hopen.close h₂ rfl).trans hdrop.stretch).congr (by omega) (.refl _) (by simp)
  have hpos₄ : t₄.pos = s.pos + n + 3 := by rw [hopen₄.pos, Nat.add_assoc]
  refine ⟨hopen₄.close h₅ rfl, ?_, fun v hv => ⟨?_, fun _ => ⟨?_, ?_, ?_⟩⟩⟩
  · exact h.around.trans (h₁.around.trans (h₂.sameAround.trans (hdrop.around.trans h₅.sameAround)))
  · have hv₄ := hopen₄.completes_of_patched h₅ hv
    have hv₂ := hdrop.stretch.completes hv₄
    have hv₁ := hopen.completes_of_patched h₂ hv₂
    refine h.layout v _ (h₁.stretch.completes hv₁) fun x hx => ?_
    rw [← hpos₁]
    exact hopen.instr?_of_patched h₂ hv₂ hx
  · rw [← hpos₄, ← h.stretch.pos]
    exact hopen₄.instr?_of_patched h₅ hv (List.mem_singleton_self _)
  · rw [← hpos₂]
    exact (hdrop.layout v (hopen₄.completes_of_patched h₅ hv)).1
  · have hpop := (hdrop.layout v (hopen₄.completes_of_patched h₅ hv)).2
    rwa [hpos₂] at hpop

/-- The code of a lambda is made into a constant, and a function is made from it. -/
theorem lays_makeLambda {m : Mark} {params : List (Param Mark)} {defaults : List MarkedExpr}
    {vararg kwarg : Option (Param Mark)} {body : MarkedExpr} {M : Text → CodeView → Nat → Prop}
    (hbody : Lays (code false body) n us M) (line : Nat) :
    Lays (do
      let inner ← nestedCode "<lambda>" .lambda m.pos.line do
        code false body
        emit .ret 0
      setLine line
      emitConst (.code (withParams inner
        ({ params, vararg, kwarg } : Signature Mark MarkedExpr)))
      emit .makeFunction defaults.length : Compile Unit) 2
      [.lambda m ⟨params, defaults, vararg, kwarg⟩ body] fun file v p =>
        (∃ c, CodeUnit.Makes (.lambda m ⟨params, defaults, vararg, kwarg⟩ body) file c ∧
          v.Loads p .loadConst (.code c)) ∧
        v.instr? (p + 1) = some ⟨.makeFunction, defaults.length⟩ := by
  have hwrite : Fills (CodeUnit.lambda m ⟨params, defaults, vararg, kwarg⟩ body).write :=
    (hbody.bind fun _ => lays_emit .ret 0 rfl).fills
  have hmake := lays_unit line hwrite (lays_emit .makeFunction defaults.length rfl)
  simp only [CodeUnit.compile, bind_assoc, pure_bind] at hmake
  exact hmake

mutual

/-- **The code of an expression has the layout of the expression.** -/
theorem lays_code (part : Bool) : ∀ e : MarkedExpr,
    Lays (code part e) e.codeSize e.units fun file v p => v.ExprAt file e p
  | .boolOp m op values => by
    have hconnected := (sketches_connected (CodeView.connectiveJump op) values).close
      (by cases op <;> rfl)
    cases op with
    | and =>
      rw [code]
      exact lays_lined hconnected
    | or =>
      rw [code]
      exact lays_lined hconnected
  | .binOp m left op right => by
    rw [code]
    refine lays_lined (((lays_code false left).bind fun _ => (lays_code false right).bind fun _ =>
      lays_emit .binary op.code rfl).congr ?_ ?_ fun file v p h => ?_)
    · simp only [Expr.codeSize, Nat.add_assoc]
    · simp only [Expr.units, List.append_nil]
    · simpa only [CodeView.ExprAt] using h
  | .unaryOp m op operand => by
    rw [code]
    refine lays_lined (((lays_code false operand).bind fun _ =>
      lays_emit .unary op.code rfl).congr ?_ ?_ fun file v p h => ?_)
    · simp only [Expr.codeSize]
    · simp only [Expr.units, List.append_nil]
    · simpa only [CodeView.ExprAt] using h
  | .lambda m ⟨params, defaults, vararg, kwarg⟩ body => by
    rw [code]
    refine lays_lined (((lays_reversed false defaults).bind fun _ => lays_get.after fun st =>
      lays_makeLambda (lays_code false body) st.line).congr ?_ ?_ fun file v p h => ?_)
    · simp only [Expr.codeSize]
    · simp only [Expr.units]
    · simpa only [CodeView.ExprAt] using h
  | .dict m pairs => by
    rw [code]
    refine lays_lined ((lays_checkCount pairs.length).after fun _ =>
      ((lays_items pairs).bind fun _ => lays_emit .build _ rfl).congr ?_ ?_ fun file v p h => ?_)
    · simp only [Expr.codeSize]
    · simp only [Expr.units, List.append_nil]
    · simpa only [CodeView.ExprAt] using h
  | .compare m left rest => by
    rw [code]
    refine lays_lined fun s => ?_
    refine (lays_code false left s).bind fun _ t ht => ?_
    refine ((sketches_comparisons rest t).and (gives_comparisons_places rest t)).bind ?_
    rintro places u ⟨hu, hplaces⟩
    refine (drawn_closeComparisons (ht.before hu) hplaces).mono fun _ s' hs => ?_
    refine hs.congr ?_ ?_ fun file v p h => ?_
    · simp only [Expr.codeSize, Nat.add_assoc]
    · simp only [Expr.units]
    · simp only [CodeView.ExprAt]
      simpa only [Nat.add_assoc, and_assoc] using h
  | .call m func args kws => by
    rw [code]
    refine lays_lined ?_
    extract_lets rest
    split
    · exact lays_get.after fun _ s => gives_fail.bind fun _ _ (hf : False) => hf.elim
    · refine ((lays_code false func).bind fun _ => (lays_keywords kws).bind fun _ =>
        (lays_reversed false args).bind fun _ => lays_emit .call _ rfl).congr ?_ ?_
          fun file v p h => ?_
      · simp only [Expr.codeSize, Nat.add_assoc]
      · simp only [Expr.units, List.append_nil, List.append_assoc]
      · simpa only [CodeView.ExprAt] using h
  | .constant m value => by
    rw [code]
    refine lays_lined ((lays_literal value).congr ?_ ?_ fun file v p h => ?_)
    · simp only [Expr.codeSize]
    · simp only [Expr.units]
    · simpa only [CodeView.ExprAt] using h
  | .attr m value label ctx => by
    rw [code]
    refine lays_lined (((lays_code false value).bind fun _ =>
      lays_emitName .loadAttr label rfl).congr ?_ ?_ fun file v p h => ?_)
    · simp only [Expr.codeSize]
    · simp only [Expr.units, List.append_nil]
    · simpa only [CodeView.ExprAt] using h
  | .subscript m value index ctx => by
    rw [code]
    refine lays_lined (((lays_code false value).bind fun _ => (lays_code true index).bind fun _ =>
      lays_emit .subscr 0 rfl).congr ?_ ?_ fun file v p h => ?_)
    · simp only [Expr.codeSize, Nat.add_assoc]
    · simp only [Expr.units, List.append_nil]
    · simpa only [CodeView.ExprAt] using h
  | .name m id ctx => by
    rw [code]
    refine lays_lined ((lays_emitName .loadName id rfl).congr ?_ ?_ fun file v p h => ?_)
    · simp only [Expr.codeSize]
    · simp only [Expr.units]
    · simpa only [CodeView.ExprAt] using h
  | .list m elts ctx => by
    rw [code]
    refine lays_lined ((lays_checkCount elts.length).after fun _ =>
      ((lays_reversed false elts).bind fun _ => lays_emit .build _ rfl).congr ?_ ?_
        fun file v p h => ?_)
    · simp only [Expr.codeSize]
    · simp only [Expr.units, List.append_nil]
    · simpa only [CodeView.ExprAt] using h
  | .tuple m elts ctx => by
    have hbuild : Lays (do
        reversed part elts
        emitBuild .tuple elts.length) (Expr.codeSize (.tuple m elts ctx))
        (Expr.units (.tuple m elts ctx))
        fun file v p => v.ExprAt file (.tuple m elts ctx) p := by
      refine ((lays_reversed part elts).bind fun _ => lays_emit .build _ rfl).congr ?_ ?_
        fun file v p h => ?_
      · simp only [Expr.codeSize]
      · simp only [Expr.units, List.append_nil]
      · simpa only [CodeView.ExprAt] using h
    cases part with
    | true =>
      rw [code]
      exact lays_lined hbuild
    | false =>
      rw [code]
      exact lays_lined ((lays_checkCount elts.length).after fun _ => hbuild)
  | .slice m lower upper step => by
    rw [code]
    refine lays_lined (((lays_optional step).bind fun _ => (lays_optional upper).bind fun _ =>
      (lays_optional lower).bind fun _ => lays_emit .build _ rfl).congr ?_ ?_ fun file v p h => ?_)
    · simp only [Expr.codeSize, Nat.add_assoc]
    · simp only [Expr.units, List.append_nil, List.append_assoc]
    · simpa only [CodeView.ExprAt] using h
  | .index m value => by
    rw [code]
    refine lays_lined ((lays_code false value).congr ?_ ?_ fun file v p h => ?_)
    · simp only [Expr.codeSize]
    · simp only [Expr.units]
    · simpa only [CodeView.ExprAt] using h
  | .formatted m value conversion none => by
    rw [code]
    refine lays_lined (((lays_code false value).bind fun _ =>
      lays_emit .format _ rfl).congr ?_ ?_ fun file v p h => ?_)
    · simp only [Expr.codeSize, Nat.add_zero]
    · simp only [Expr.units]
    · simpa only [CodeView.ExprAt] using h
  | .formatted m value conversion (some spec) => by
    rw [code]
    refine lays_lined (((lays_code false value).bind fun _ => (lays_code false spec).bind fun _ =>
      lays_emit .format _ rfl).congr ?_ ?_ fun file v p h => ?_)
    · simp only [Expr.codeSize, Nat.add_assoc]
    · simp only [Expr.units, List.append_nil]
    · simpa only [CodeView.ExprAt] using h

theorem lays_optional : ∀ e : Option MarkedExpr,
    Lays (optional e) (Expr.optionSize e) (Expr.unitsOfOption e) fun file v p => v.OptionAt file e p
  | none => by
    exact lays_emit .loadSpecial 0 rfl
  | some e => by
    exact lays_code false e

theorem lays_reversed (part : Bool) : ∀ es : List MarkedExpr,
    Lays (reversed part es) (Expr.sumSize es) (Expr.unitsOfReversed es)
      fun file v p => v.ReversedAt file es p
  | [] => by
    exact lays_pure ()
  | e :: es => by
    exact (lays_reversed part es).bind fun _ => lays_code part e

theorem lays_items : ∀ pairs : List (MarkedExpr × MarkedExpr),
    Lays (items pairs) (Expr.itemsSize pairs) (Expr.unitsOfItems pairs)
      fun file v p => v.ItemsAt file pairs p
  | [] => by
    exact lays_pure ()
  | (key, value) :: rest => by
    simp only [items, Expr.itemsSize, Expr.unitsOfItems, CodeView.ItemsAt, Nat.add_assoc,
      List.append_assoc]
    refine ((lays_items rest).bind fun _ => (lays_code false value).bind fun _ =>
      lays_code false key).congr rfl rfl fun file v p h => ?_
    simpa only [Nat.add_assoc] using h

theorem lays_keywords : ∀ kws : List (KeywordArg Mark MarkedExpr),
    Lays (keywords kws) (Expr.keywordsSize kws) (Expr.unitsOfKeywords kws)
      fun file v p => v.KeywordsAt file kws p
  | [] => by
    exact lays_pure ()
  | ⟨m, key, value⟩ :: rest => by
    simp only [keywords, Expr.keywordsSize, Expr.unitsOfKeywords, CodeView.KeywordsAt]
    refine ((lays_keywords rest).bind fun _ => (lays_code false value).bind fun _ =>
      lays_emitWith (k := .string (key.getD mappingName)) .loadConst nofun rfl).congr ?_ ?_
        fun file v p h => h
    · rw [Nat.add_assoc]
    · rw [List.append_nil]

/-- The code of the operands of a connective; the places are the jumps to its end. -/
theorem sketches_connected (op : Opcode) : ∀ es : List MarkedExpr,
    Sketches (connected es) op (Expr.connectedSize es) (Expr.unitsOfList es)
      fun file v done p => v.ConnectedAt file op done es p
  | [] => by
    exact fun s => gives_pure ((Drawn.idle rfl rfl rfl rfl (.refl s)).draft op)
  | [e] => by
    simp only [connected, Expr.connectedSize, Expr.unitsOfList, CodeView.ConnectedAt,
      List.append_nil]
    exact fun s => (lays_code false e s).bind fun _ t ht => gives_pure (ht.draft op)
  | e :: e' :: es => by
    rw [connected]
    · intro s
      refine (lays_code false e s).bind fun _ t₁ h₁ => ?_
      refine (lays_emit .dup 1 rfl t₁).bind fun _ t₂ h₂ => ?_
      refine (draft_reserve op t₂).bind fun place t₃ ⟨_, h₃⟩ => ?_
      refine (lays_emit .pop 0 rfl t₃).bind fun _ t₄ h₄ => ?_
      refine (sketches_connected op (e' :: es) t₄).bind fun places s' h₅ => ?_
      refine gives_pure ((h₁.before (h₂.before (h₃.trans (h₄.before h₅)))).congr ?_ ?_
        fun file v done p h => ?_)
      · rw [Expr.connectedSize]
        omega
      · simp [Expr.unitsOfList]
      · rw [CodeView.ConnectedAt]
        exact h
    · nofun

/-- The code of a chain of comparisons; the places are the jumps to where the last operand is
dropped. -/
theorem sketches_comparisons : ∀ rest : List (CompareOp × MarkedExpr),
    Sketches (comparisons rest) .jumpIfFalse (Expr.comparisonsSize rest) (Expr.unitsOfRest rest)
      fun file v drop p => v.ComparisonsAt file drop rest p
  | [] => by
    exact fun s => gives_pure ((Drawn.idle rfl rfl rfl rfl (.refl s)).draft _)
  | [(op, e)] => by
    intro s
    refine (lays_code false e s).bind fun _ t ht => ?_
    refine (lays_emit .compare op.code rfl t).bind fun _ s' hs => ?_
    exact gives_pure ((ht.trans hs).draft _)
  | (op, e) :: pair :: rest => by
    rw [comparisons]
    · intro s
      refine (lays_code false e s).bind fun _ t₁ h₁ => ?_
      refine (lays_emit .dup 1 rfl t₁).bind fun _ t₂ h₂ => ?_
      refine (lays_emit .rot 3 rfl t₂).bind fun _ t₃ h₃ => ?_
      refine (lays_emit .compare op.code rfl t₃).bind fun _ t₄ h₄ => ?_
      refine (lays_emit .dup 1 rfl t₄).bind fun _ t₅ h₅ => ?_
      refine (draft_reserve .jumpIfFalse t₅).bind fun place t₆ ⟨_, h₆⟩ => ?_
      refine (lays_emit .pop 0 rfl t₆).bind fun _ t₇ h₇ => ?_
      refine (sketches_comparisons (pair :: rest) t₇).bind fun places s' h₈ => ?_
      refine gives_pure ((h₁.before (h₂.before (h₃.before (h₄.before (h₅.before (h₆.trans
        (h₇.before h₈))))))).congr ?_ ?_ fun file v done p h => ?_)
      · rw [Expr.comparisonsSize]
        omega
      · simp [Expr.unitsOfRest]
      · rw [CodeView.ComparisonsAt]
        exact h
    · nofun

/-- A chain has places if it has more than one comparison. -/
theorem gives_comparisons_places : ∀ (rest : List (CompareOp × MarkedExpr)) (s : CompileState),
    (comparisons rest).Gives s fun places _ => 2 ≤ rest.length ↔ places ≠ []
  | [], s => by
    exact gives_pure (by simp)
  | [(op, e)], s => by
    refine (lays_code false e s).bind fun _ t _ => ?_
    exact (lays_emit .compare op.code rfl t).bind fun _ _ _ => gives_pure (by simp)
  | (op, e) :: pair :: rest, s => by
    rw [comparisons]
    · refine (lays_code false e s).bind fun _ t₁ _ => ?_
      refine (lays_emit .dup 1 rfl t₁).bind fun _ t₂ _ => ?_
      refine (lays_emit .rot 3 rfl t₂).bind fun _ t₃ _ => ?_
      refine (lays_emit .compare op.code rfl t₃).bind fun _ t₄ _ => ?_
      refine (lays_emit .dup 1 rfl t₄).bind fun _ t₅ _ => ?_
      refine (draft_reserve .jumpIfFalse t₅).bind fun place t₆ _ => ?_
      refine (lays_emit .pop 0 rfl t₆).bind fun _ t₇ _ => ?_
      exact (sketches_comparisons (pair :: rest) t₇).bind fun places s' _ =>
        gives_pure (by simp)
    · nofun

end

theorem lays_expr (e : MarkedExpr) :
    Lays (expr e) e.codeSize e.units fun file v p => v.ExprAt file e p :=
  lays_code false e

theorem lays_subscriptPart (e : MarkedExpr) :
    Lays (subscriptPart e) e.codeSize e.units fun file v p => v.ExprAt file e p :=
  lays_code true e

/-! ## Targets -/

/-- A value is unpacked: the places where the next value is asked for jump to where the iterator is
dropped. -/
theorem lays_unpack {m : Compile (List Nat)} {D : Text → CodeView → Nat → Nat → Prop}
    (h : Sketches m .next n us D) :
    Lays (do
      emit .iter 0
      let places ← m
      let done ← position
      emit .pop 0
      places.forM fun place => patch place .next done) (n + 2) us fun file v p =>
        v.instr? p = some ⟨.iter, 0⟩ ∧ D file v (p + 1 + n) (p + 1) ∧
          v.instr? (p + 1 + n) = some ⟨.pop, 0⟩ := by
  intro s
  refine (lays_emit .iter 0 rfl s).bind fun _ t ht => ?_
  refine (h t).bind fun places t₁ h₁ => ?_
  refine (gives_position t₁).bind ?_
  rintro done t₂ ⟨rfl, rfl⟩
  refine (lays_emit .pop 0 rfl t₂).bind fun _ t₃ h₃ => ?_
  refine (gives_patchAll places .next t₂.pos t₃).mono fun _ s' hp => ?_
  have hbefore := ht.before h₁
  have hpos : t₂.pos = s.pos + 1 + n := by rw [hbefore.stretch.pos, Nat.add_assoc]
  have hdraft := (hbefore.trans (h₃.draft .next)).congr (N := n + 2) (U := us) (by omega)
    (by simp) fun _ _ _ _ h => h
  rw [List.append_nil] at hdraft
  refine hdraft.close hp rfl fun file v hD => ?_
  rw [hpos] at hD
  exact ⟨hD.1.1, hD.1.2, by simpa only [Nat.add_assoc] using hD.2⟩

mutual

/-- **The code that stores into a target has the layout of the target.** -/
theorem lays_store : ∀ e : MarkedExpr,
    Lays (store e) e.storeSize e.unitsOfTarget fun file v p => v.StoreAt file e p
  | .name m id ctx => by
    exact lays_emitName .storeName id rfl
  | .attr m value label ctx => by
    exact ((lays_expr value).bind fun _ => lays_emitName .storeAttr label rfl).congr rfl
      (List.append_nil _) fun _ _ _ h => h
  | .subscript m value index ctx => by
    simp only [store, Expr.storeSize, Expr.unitsOfTarget, CodeView.StoreAt]
    refine ((lays_expr value).bind fun _ => (lays_subscriptPart index).bind fun _ =>
      lays_emit .subscr 1 rfl).congr ?_ ?_ fun _ _ _ h => h
    · rw [Nat.add_assoc]
    · rw [List.append_nil]
  | .tuple m elts ctx => by
    exact lays_unpack (sketches_stores elts)
  | .list m elts ctx => by
    exact lays_unpack (sketches_stores elts)
  | .boolOp .. | .binOp .. | .unaryOp .. | .lambda .. | .dict .. | .compare .. | .call ..
  | .constant .. | .slice .. | .index .. | .formatted .. =>
    lays_failAt

/-- The code that stores the values of an iterator; the places ask for the next one. -/
theorem sketches_stores : ∀ es : List MarkedExpr,
    Sketches (stores es) .next (Expr.storesSize es) (Expr.unitsOfTargets es)
      fun file v done p => v.StoresAt file done es p
  | [] => by
    exact fun s => gives_pure ((Drawn.idle rfl rfl rfl rfl (.refl s)).draft _)
  | e :: es => by
    simp only [stores, Expr.storesSize, Expr.unitsOfTargets, CodeView.StoresAt]
    intro s
    refine (draft_reserve .next s).bind fun place t₁ ⟨_, h₁⟩ => ?_
    refine (lays_store e t₁).bind fun _ t₂ h₂ => ?_
    refine (sketches_stores es t₂).bind fun places s' h₃ => ?_
    exact gives_pure ((h₁.trans (h₂.before h₃)).congr (by omega) rfl fun _ _ _ _ h => h)

end

mutual

/-- The code that deletes a target has the layout of the target. -/
theorem lays_delete : ∀ e : MarkedExpr,
    Lays (delete e) e.deleteSize e.unitsOfTarget fun file v p => v.DeleteAt file e p
  | .name m id ctx => by
    exact lays_emitName .deleteName id rfl
  | .attr m value label ctx => by
    exact ((lays_expr value).bind fun _ => lays_emitName .deleteAttr label rfl).congr rfl
      (List.append_nil _) fun _ _ _ h => h
  | .subscript m value index ctx => by
    simp only [delete, Expr.deleteSize, Expr.unitsOfTarget, CodeView.DeleteAt]
    refine ((lays_expr value).bind fun _ => (lays_subscriptPart index).bind fun _ =>
      lays_emit .subscr 2 rfl).congr ?_ ?_ fun _ _ _ h => h
    · rw [Nat.add_assoc]
    · rw [List.append_nil]
  | .tuple m elts ctx => by
    exact lays_deletes elts
  | .list m elts ctx => by
    exact lays_deletes elts
  | .boolOp .. | .binOp .. | .unaryOp .. | .lambda .. | .dict .. | .compare .. | .call ..
  | .constant .. | .slice .. | .index .. | .formatted .. =>
    lays_failAt

theorem lays_deletes : ∀ es : List MarkedExpr,
    Lays (deletes es) (Expr.deletesSize es) (Expr.unitsOfTargets es)
      fun file v p => v.DeletesAt file es p
  | [] => by
    exact lays_pure ()
  | e :: es => by
    exact (lays_delete e).bind fun _ => lays_deletes es

end

theorem lays_assignAll : ∀ targets : List MarkedExpr,
    Lays (assignAll targets) (Expr.assignSize targets) (Expr.unitsOfTargets targets)
      fun file v p => v.AssignAt file targets p
  | [] => by
    exact lays_pure ()
  | [target] => by
    simp only [assignAll, Expr.assignSize, Expr.unitsOfTargets, CodeView.AssignAt, List.append_nil]
    exact lays_store target
  | target :: next :: targets => by
    rw [assignAll]
    · refine ((lays_emit .dup 1 rfl).bind fun _ => (lays_store target).bind fun _ =>
        lays_assignAll (next :: targets)).congr ?_ ?_ fun file v p h => ?_
      · rw [Expr.assignSize]
        omega
      · simp [Expr.unitsOfTargets]
      · rw [CodeView.AssignAt]
        exact h
    · nofun

/-- The code that reads a target and stores into it. -/
theorem lays_augAssign (op : BinaryOp) (value : MarkedExpr) (target : MarkedExpr) :
    Lays (augAssign target op value) (Expr.augAssignSize value target)
      (target.unitsOfTarget ++ value.units) fun file v p => v.AugAssignAt file op value
        target p := by
  cases target with
  | name m id ctx =>
    refine ((lays_emitName .loadName id rfl).bind fun _ => (lays_expr value).bind fun _ =>
      (lays_emit .binary op.code rfl).bind fun _ => lays_emitName .storeName id rfl).congr ?_ ?_
      fun _ _ _ h => h
    · simp only [Expr.augAssignSize]
      omega
    · simp [Expr.unitsOfTarget]
  | attr m object label ctx =>
    refine ((lays_expr object).bind fun _ => (lays_emit .dup 1 rfl).bind fun _ =>
      (lays_emitName .loadAttr label rfl).bind fun _ => (lays_expr value).bind fun _ =>
      (lays_emit .binary op.code rfl).bind fun _ => (lays_emit .rot 2 rfl).bind fun _ =>
      lays_emitName .storeAttr label rfl).congr ?_ ?_ fun _ _ _ h => h
    · simp only [Expr.augAssignSize]
      omega
    · simp [Expr.unitsOfTarget]
  | subscript m object index ctx =>
    refine ((lays_expr object).bind fun _ => (lays_subscriptPart index).bind fun _ =>
      (lays_emit .dup 2 rfl).bind fun _ => (lays_emit .subscr 0 rfl).bind fun _ =>
      (lays_expr value).bind fun _ => (lays_emit .binary op.code rfl).bind fun _ =>
      (lays_emit .rot 3 rfl).bind fun _ => lays_emit .subscr 1 rfl).congr ?_ ?_ fun _ _ _ h => h
    · simp only [Expr.augAssignSize]
      omega
    · simp [Expr.unitsOfTarget]
  | _ => exact lays_failAt

/-! ## Checks -/

theorem lays_unpacked (pos : Position) (count : Nat) (value : MarkedExpr) :
    Lays (unpacked pos count value) 0 [] fun _ _ _ => True := by
  unfold unpacked
  split
  · exact lays_pure _
  · split
    · exact lays_pure _
    · exact lays_failAt

mutual

/-- The check of a display writes nothing. -/
theorem lays_checkArity : ∀ target value : MarkedExpr,
    Lays (checkArity target value) 0 [] fun _ _ _ => True
  | .tuple m targets c, value => by
    exact (lays_unpacked _ _ value).after fun values => lays_checkArities targets values
  | .list m targets c, value => by
    exact (lays_unpacked _ _ value).after fun values => lays_checkArities targets values
  | .boolOp .., _ | .binOp .., _ | .unaryOp .., _ | .lambda .., _ | .dict .., _ | .compare .., _
  | .call .., _ | .constant .., _ | .slice .., _ | .index .., _ | .formatted .., _ | .name .., _
  | .attr .., _ | .subscript .., _ =>
    lays_pure ()

theorem lays_checkArities : ∀ targets values : List MarkedExpr,
    Lays (checkArities targets values) 0 [] fun _ _ _ => True
  | target :: targets, value :: values => by
    exact (lays_checkArity target value).after fun _ => lays_checkArities targets values
  | [], _ => by
    rw [checkArities]
    · exact lays_pure ()
    · nofun
  | _ :: _, [] => by
    rw [checkArities]
    · exact lays_pure ()
    · nofun

end

end Compile

end Toolchain

import Toolchain.Proofs.Decimal.Shortest
import Toolchain.Proofs.Tree.Sketch

/-!
# The words that are shown of a program

The labels of nodes, the names of operators and the texts of numbers are words: none of them holds a
bracket, a comma or a quote. So the sketch of a program's outline is plain.

## Main results

* `Literal.isWord_text`: the texts of literals
* `Root.plain_outline`: the words that are shown of a program are words
-/

namespace Toolchain

open Outline

namespace Sketch

-- Over the list with `all`: characters are a finite type, so that `∀ c ∈ w` may be decided over all
-- of them.
instance (w : List Char) : Decidable (IsWord w) :=
  decidable_of_iff (w ≠ [] ∧ (w.all fun c => !isMark c) = true)
    ⟨fun h => ⟨h.1, by simpa using h.2⟩, fun h => ⟨h.ne_nil, by simpa using h.plain⟩⟩

theorem isMark_of_isDigit {c : Char} (h : c.isDigit = true) : isMark c = false := by
  have hne {e : Char} (he : e.isDigit = false) : e ≠ c := by
    rintro rfl
    rw [he] at h
    cases h
  have hnot : c ∉ ['(', ')', '[', ']', ',', '\''] := by
    intro hmem
    fin_cases hmem <;> exact absurd h (by decide)
  simpa [isMark] using hnot

theorem isWord_toDigits (n : Nat) : IsWord (Nat.toDigits 10 n) where
  ne_nil := Nat.toDigits_ne_nil
  plain _ hc := isMark_of_isDigit (Nat.isDigit_of_mem_toDigits (by decide) (by decide) hc)

theorem IsWord.append {v w : List Char} (hv : IsWord v) (hw : ∀ c ∈ w, isMark c = false) :
    IsWord (v ++ w) where
  ne_nil := by simp [hv.ne_nil]
  plain c hc := (List.mem_append.mp hc).elim (hv.plain c) (hw c)

end Sketch

open Sketch

theorem NodeTag.isWord_label (tag : NodeTag) : IsWord tag.label.toList := by
  cases tag <;> decide

theorem BinaryOp.isWord_name (op : BinaryOp) : IsWord op.name.toList := by
  cases op <;> decide

theorem BoolOp.isWord_name (op : BoolOp) : IsWord op.name.toList := by
  cases op <;> decide

theorem UnaryOp.isWord_name (op : UnaryOp) : IsWord op.name.toList := by
  cases op <;> decide

theorem CompareOp.isWord_name (op : CompareOp) : IsWord op.name.toList := by
  cases op <;> decide

theorem Context.isWord_name (c : Context) : IsWord c.name.toList := by
  cases c <;> decide

/-- The digits of numbers are digits, whatever the numbers are. -/
theorem Binary64.isDigit_shortest (x : Binary64) : ∀ c ∈ x.shortest.digits, c.isDigit = true := by
  have hofNat (n : Nat) (k : Int) : ∀ c ∈ (Digits.ofNat n k).digits, c.isDigit = true := by
    by_cases hn : n = 0
    · subst hn
      simp [Digits.ofNat]
    · exact (Digits.proper_ofNat hn k).isDigit
  have hsearch (i : Interval) (n : Nat) (k : Int) :
      ∀ c ∈ (i.search n k).digits, c.isDigit = true := by
    induction n generalizing k with
    | zero => exact hofNat _ k
    | succ n ih =>
      rw [Interval.search]
      split
      · exact hofNat _ k
      · exact ih (k - 1)
  unfold shortest
  split
  · simp
  · exact hsearch _ _ _

namespace Digits

variable {d : Digits}

theorem isWord_positional (hd : ∀ c ∈ d.digits, c.isDigit = true) :
    IsWord d.positional.toList := by
  have hdigits (c : Char) (hc : c ∈ d.digits) : isMark c = false := isMark_of_isDigit (hd c hc)
  have hzeros (n : Nat) (c : Char) (hc : c ∈ List.replicate n '0') : isMark c = false := by
    rw [(List.mem_replicate.mp hc).2]
    rfl
  unfold positional
  simp only [String.toList_ofList]
  split
  · refine ⟨by simp, fun c hc => ?_⟩
    simp only [List.mem_cons, List.mem_append] at hc
    rcases hc with rfl | rfl | hc | hc
    · rfl
    · rfl
    · exact hzeros _ c hc
    · exact hdigits c hc
  · next hpoint =>
    split
    · next hlength =>
      refine ⟨?_, fun c hc => (List.mem_append.mp hc).elim (hdigits c) (hzeros _ c)⟩
      intro hnil
      have hzero := congrArg List.length hnil
      simp only [List.length_append, List.length_replicate, List.length_nil] at hzero
      omega
    · refine ⟨by simp, fun c hc => ?_⟩
      simp only [List.mem_cons, List.mem_append] at hc
      rcases hc with hc | rfl | hc
      · exact hdigits c (List.mem_of_mem_take hc)
      · rfl
      · exact hdigits c (List.mem_of_mem_drop hc)

theorem isWord_scientific (hd : ∀ c ∈ d.digits, c.isDigit = true) (width : Nat) :
    IsWord (d.scientific width).toList := by
  have hmantissa : ∀ c ∈ d.mantissa, isMark c = false := by
    unfold mantissa
    intro c hc
    split at hc
    · rw [List.mem_singleton.mp hc]
      rfl
    · next c' heq => exact isMark_of_isDigit (hd c (heq ▸ hc))
    · next c' rest _ heq =>
      rcases List.mem_cons.mp hc with rfl | hc
      · exact isMark_of_isDigit (hd c (heq ▸ List.mem_cons_self))
      rcases List.mem_cons.mp hc with rfl | hc
      · rfl
      · exact isMark_of_isDigit (hd c (heq ▸ List.mem_cons_of_mem _ hc))
  rw [toList_scientific]
  refine ⟨by simp, fun c hc => ?_⟩
  simp only [List.mem_cons, List.mem_append] at hc
  rcases hc with hc | rfl | hc | hc | hc
  · exact hmantissa c hc
  · rfl
  · split at hc <;> (subst hc; rfl)
  · rw [(List.mem_replicate.mp hc).2]
    rfl
  · exact (isWord_toDigits _).plain c hc

end Digits

theorem Binary64.isWord_general (x : Binary64) : IsWord x.general.toList := by
  have hsigned {t : String} (ht : IsWord t.toList) : IsWord (x.signed t).toList := by
    unfold signed
    split
    · rw [String.toList_append]
      exact IsWord.append (by decide) ht.plain
    · exact ht
  unfold general
  split
  · next t hspecial =>
    unfold special? at hspecial
    split at hspecial
    · cases hspecial
      decide
    split at hspecial
    · cases hspecial
      split <;> decide
    · cases hspecial
  · refine hsigned ?_
    split
    · exact Digits.isWord_scientific x.isDigit_shortest 2
    · exact Digits.isWord_positional x.isDigit_shortest

/-- An integer is shown by its digits, after a sign if it is negative. -/
theorem toList_toString_int (n : Int) :
    (toString n).toList = if 0 ≤ n then Nat.toDigits 10 n.toNat
      else '-' :: Nat.toDigits 10 (-n).toNat := by
  rw [Int.toString_eq_repr, Int.repr_eq_if]
  split
  · exact Nat.toList_repr
  · rw [String.toList_append, Nat.toList_repr]
    rfl

namespace Literal

/-- Whether a literal is a string. -/
def isString : Literal → Bool
  | .str _ => true
  | _ => false

theorem isWord_text (v : Literal) (hv : v.isString = false) : IsWord (literalText v).toList := by
  cases v with
  | none => decide
  | bool b => cases b <;> decide
  | int n =>
    rw [literalText, toList_toString_int]
    split
    · exact isWord_toDigits _
    · exact IsWord.append (v := ['-']) (by decide) (isWord_toDigits _).plain
  | float x =>
    rw [literalText, floatLiteral]
    split
    · exact x.isWord_general
    · rw [String.toList_append]
      have hpoint : IsWord ".0".toList := by decide
      exact x.isWord_general.append hpoint.plain
  | str t => cases hv

theorem sketch_eq_word {v : Literal} (hv : v.isString = false) :
    (literal v).sketch = .word (literalText v).toList := by
  cases v with
  | str t => cases hv
  | _ =>
    rw [Outline.sketch]
    rintro t ⟨⟩

end Literal

/-- What is shown of a literal, a string apart, is a word. -/
theorem plain_literal (v : Literal) : (literal v).sketch.Plain := by
  cases hv : v.isString with
  | false =>
    rw [Literal.sketch_eq_word hv, Plain]
    exact v.isWord_text hv
  | true =>
    cases v with
    | str t =>
      trivial
    | _ => cases hv

theorem plain_missing : missing.sketch.Plain := by
  rw [Outline.sketch, Plain]
  decide

theorem plain_string (s : String) : (Outline.string s).sketch.Plain := by
  trivial

theorem plain_string? (s : Option String) : (ofString? s).sketch.Plain := by
  cases s with
  | none => exact plain_missing
  | some s => exact plain_string s

theorem plain_number (n : Nat) : (number n).sketch.Plain := by
  exact isWord_toDigits n

theorem plain_symbol {s : String} (h : IsWord s.toList) : (symbol s).sketch.Plain := by
  exact h

theorem plain_context (c : Context) : (context c).sketch.Plain := by
  exact c.isWord_name

theorem plain_list {items : List Outline} (h : AllPlain (sketches items)) :
    (Outline.list items).sketch.Plain := by
  exact h

theorem plain_nil : (Outline.list []).sketch.Plain := by
  trivial

theorem allPlain_sketches_map {β : Type} (xs : List β) (f : β → Outline)
    (h : ∀ x ∈ xs, (f x).sketch.Plain) : AllPlain (sketches (xs.map f)) := by
  induction xs with
  | nil =>
    trivial
  | cons x xs ih =>
    exact ⟨h x List.mem_cons_self, ih fun y hy => h y (List.mem_cons_of_mem _ hy)⟩

theorem allPlain_fieldSketches {fields : List (String × Outline)}
    (h : ∀ f ∈ fields, f.2.sketch.Plain) : AllPlain (fieldSketches fields) := by
  induction fields with
  | nil =>
    trivial
  | cons f fields ih =>
    rcases f with ⟨key, v⟩
    have hrest := ih fun f hf => h f (List.mem_cons_of_mem _ hf)
    rw [fieldSketches]
    split
    · exact ⟨h (key, v) List.mem_cons_self, hrest⟩
    · exact hrest

/-- A node whose label is a word and whose fields show words. -/
theorem plain_node {label : String} (hlabel : IsWord label.toList) (pos : Option Position)
    {fields : List (String × Outline)} (h : fields.Forall fun f => f.2.sketch.Plain) :
    (node label pos fields).sketch.Plain := by
  cases fields with
  | nil =>
    exact hlabel
  | cons f fields =>
    exact ⟨hlabel, allPlain_fieldSketches (List.forall_iff_forall_mem.mp h)⟩

theorem plain_ofNode (tag : NodeTag) (m : Mark) {fields : List (String × Outline)}
    (h : fields.Forall fun f => f.2.sketch.Plain) : (ofNode tag m fields).sketch.Plain :=
  plain_node tag.isWord_label _ h

theorem Param.plain_outline (p : Param Mark) : p.outline.sketch.Plain :=
  plain_ofNode _ _ (plain_string p.name)

theorem Param.plain_outline? (p : Option (Param Mark)) : (Param.outline? p).sketch.Plain := by
  cases p with
  | none => exact plain_missing
  | some p => exact p.plain_outline

theorem plain_signatureOutline (params : List (Param Mark)) {defaults : List Outline}
    (h : AllPlain (sketches defaults)) (vararg kwarg : Option (Param Mark)) :
    (signatureOutline params defaults vararg kwarg).sketch.Plain := by
  have hparams := plain_list (allPlain_sketches_map params _ fun p _ => p.plain_outline)
  exact plain_node (by decide) _
    ⟨hparams, plain_list h, Param.plain_outline? vararg, Param.plain_outline? kwarg⟩

namespace Expr

mutual

/-- The words that are shown of an expression are words. -/
theorem plain_outline : ∀ e : Expr Mark, e.outline.sketch.Plain
  | .boolOp m op values => by
    exact plain_ofNode _ _ ⟨plain_symbol op.isWord_name, plain_list (plain_outlines values)⟩
  | .binOp m left op right => by
    exact plain_ofNode _ _ ⟨plain_outline left, plain_symbol op.isWord_name, plain_outline right⟩
  | .unaryOp m op operand => by
    exact plain_ofNode _ _ ⟨plain_symbol op.isWord_name, plain_outline operand⟩
  | .lambda m ⟨params, defaults, vararg, kwarg⟩ body => by
    exact plain_ofNode _ _
      ⟨plain_signatureOutline params (plain_outlines defaults) vararg kwarg, plain_outline body⟩
  | .dict m items => by
    exact plain_ofNode _ _
      ⟨plain_list (plain_keyOutlines items), plain_list (plain_valueOutlines items)⟩
  | .compare m left rest => by
    have hops := plain_list (allPlain_sketches_map rest _ fun p _ => plain_symbol p.1.isWord_name)
    exact plain_ofNode _ _ ⟨plain_outline left, hops, plain_list (plain_operandOutlines rest)⟩
  | .call m func args keywords => by
    exact plain_ofNode _ _ ⟨plain_outline func, plain_list (plain_outlines args),
      plain_list (plain_keywordOutlines keywords)⟩
  | .constant m value => by
    exact plain_ofNode _ _ (plain_literal value)
  | .attr m value label ctx => by
    exact plain_ofNode _ _ ⟨plain_outline value, plain_string label, plain_context ctx⟩
  | .subscript m value part ctx => by
    exact plain_ofNode _ _ ⟨plain_outline value, plain_outline part, plain_context ctx⟩
  | .name m id ctx => by
    exact plain_ofNode _ _ ⟨plain_string id, plain_context ctx⟩
  | .list m elts ctx => by
    exact plain_ofNode _ _ ⟨plain_list (plain_outlines elts), plain_context ctx⟩
  | .tuple m elts ctx => by
    exact plain_ofNode _ _ ⟨plain_list (plain_outlines elts), plain_context ctx⟩
  | .slice m lower upper step => by
    exact plain_ofNode _ _ ⟨plain_outline? lower, plain_outline? upper, plain_outline? step⟩
  | .index m value => by
    exact plain_ofNode _ _ (plain_outline value)
  | .formatted m value conversion spec => by
    exact plain_ofNode _ _ ⟨plain_outline value, plain_string? _, plain_outline? spec⟩

theorem plain_outlines : ∀ es : List (Expr Mark), AllPlain (sketches (outlines es))
  | [] => by
    trivial
  | e :: es => by
    exact ⟨plain_outline e, plain_outlines es⟩

theorem plain_outline? : ∀ e : Option (Expr Mark), (outline? e).sketch.Plain
  | none => plain_missing
  | some e => by
    exact plain_outline e

theorem plain_keyOutlines : ∀ items : List (Expr Mark × Expr Mark),
    AllPlain (sketches (keyOutlines items))
  | [] => by
    trivial
  | (key, value) :: rest => by
    exact ⟨plain_outline key, plain_keyOutlines rest⟩

theorem plain_valueOutlines : ∀ items : List (Expr Mark × Expr Mark),
    AllPlain (sketches (valueOutlines items))
  | [] => by
    trivial
  | (key, value) :: rest => by
    exact ⟨plain_outline value, plain_valueOutlines rest⟩

theorem plain_operandOutlines : ∀ rest : List (CompareOp × Expr Mark),
    AllPlain (sketches (operandOutlines rest))
  | [] => by
    trivial
  | (op, e) :: rest => by
    exact ⟨plain_outline e, plain_operandOutlines rest⟩

theorem plain_keywordOutlines : ∀ keywords : List (KeywordArg Mark (Expr Mark)),
    AllPlain (sketches (keywordOutlines keywords))
  | [] => by
    trivial
  | ⟨m, key, value⟩ :: rest => by
    exact ⟨plain_ofNode _ _ ⟨plain_string _, plain_outline value⟩, plain_keywordOutlines rest⟩

end

end Expr

theorem Signature.plain_outline (sig : Signature Mark (Expr Mark)) : sig.outline.sketch.Plain :=
  plain_signatureOutline _ (Expr.plain_outlines sig.defaults) _ _

theorem Alias.plain_outline (a : Alias Mark) : a.outline.sketch.Plain :=
  plain_ofNode _ _ ⟨plain_string a.name, plain_string? a.asName⟩

theorem plain_aliases (names : List (Alias Mark)) :
    (Outline.list (names.map Alias.outline)).sketch.Plain :=
  plain_list (allPlain_sketches_map names _ fun a _ => a.plain_outline)

namespace Stmt

open Expr (plain_outlines plain_outline?)

mutual

/-- The words that are shown of a statement are words. -/
theorem plain_outline : ∀ s : Stmt Mark, s.outline.sketch.Plain
  | .functionDef m name sig body => by
    exact plain_ofNode _ _ ⟨plain_string name, sig.plain_outline, plain_list (plain_body body)⟩
  | .classDef m name bases body => by
    exact plain_ofNode _ _ ⟨plain_string name, plain_list (plain_outlines bases),
      plain_list (plain_body body)⟩
  | .ret m value => by
    exact plain_ofNode _ _ (plain_outline? value)
  | .delete m targets => by
    exact plain_ofNode _ _ (plain_list (plain_outlines targets))
  | .assign m targets value => by
    exact plain_ofNode _ _ ⟨plain_list (plain_outlines targets), value.plain_outline⟩
  | .augAssign m target op value => by
    exact plain_ofNode _ _ ⟨target.plain_outline, plain_symbol op.isWord_name, value.plain_outline⟩
  | .forLoop m target iter body => by
    exact plain_ofNode _ _ ⟨target.plain_outline, iter.plain_outline, plain_list (plain_body body),
      plain_nil⟩
  | .whileLoop m test body => by
    exact plain_ofNode _ _ ⟨test.plain_outline, plain_list (plain_body body),
      plain_nil⟩
  | .ifElse m test body orelse => by
    exact plain_ofNode _ _ ⟨test.plain_outline, plain_list (plain_body body),
      plain_list (plain_body orelse)⟩
  | .raise m exc cause => by
    exact plain_ofNode _ _ ⟨plain_outline? exc, plain_outline? cause⟩
  | .tryExcept m body handlers orelse final => by
    exact plain_ofNode _ _ ⟨plain_list (plain_body body), plain_list (plain_handlers handlers),
      plain_list (plain_body orelse), plain_list (plain_body final)⟩
  | .assert m test msg => by
    exact plain_ofNode _ _ ⟨test.plain_outline, plain_outline? msg⟩
  | .imports m names => by
    exact plain_ofNode _ _ (plain_aliases names)
  | .importFrom m module names level => by
    exact plain_ofNode _ _ ⟨plain_string? module, plain_aliases names, plain_number level⟩
  | .expr m value => by
    exact plain_ofNode _ _ value.plain_outline
  | .pass m => by
    exact plain_ofNode _ _ trivial
  | .breakLoop m => by
    exact plain_ofNode _ _ trivial
  | .continueLoop m => by
    exact plain_ofNode _ _ trivial

theorem plain_body : ∀ ss : List (Stmt Mark), AllPlain (sketches (outlines ss))
  | [] => by
    trivial
  | s :: ss => by
    exact ⟨plain_outline s, plain_body ss⟩

theorem plain_handlers : ∀ handlers : List (Handler Mark (Expr Mark) (Stmt Mark)),
    AllPlain (sketches (handlerOutlines handlers))
  | [] => by
    trivial
  | ⟨m, type, name, body⟩ :: rest => by
    refine ⟨plain_ofNode _ _ ⟨plain_outline? type, plain_string? name, ?_⟩, plain_handlers rest⟩
    exact plain_list (plain_body body)

end

end Stmt

/-- The words that are shown of a program are words. -/
theorem Root.plain_outline (r : Root Mark) : r.outline.sketch.Plain := by
  cases r with
  | module m body => exact plain_ofNode _ _ (plain_list (Stmt.plain_body body))
  | expression m body => exact plain_ofNode _ _ body.plain_outline

end Toolchain

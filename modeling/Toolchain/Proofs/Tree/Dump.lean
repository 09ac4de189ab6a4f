import Toolchain.Proofs.Tree.Legible
import Toolchain.Proofs.Tree.Words

/-!
# What the short form of a program tells

Nothing but annotations is lost in the short form of a legible program. Both forms of two programs
are compared from the top down: a node tells its kind, so the two programs have the same kind of
node there, and the fields that are shown tell the parts.

## Main results

* `Literal.sketch_inj`: literals that are shown alike are the same
* `Expr.map_eq_of_sketch`, `Stmt.map_eq_of_outline`: so are expressions and statements, up to
  annotations
* `Root.map_eq_of_dump`: **legible programs with the same short form are the same**
-/

namespace Toolchain

open Outline Sketch

variable {β : Type} {c : β}

/-! ## Names tell what they name -/

/-- The kinds of node. -/
def NodeTag.all : List NodeTag :=
  [.module, .expression, .functionDef, .classDef, .ret, .delete, .assign, .augAssign, .forLoop,
   .whileLoop, .ifElse, .raise, .tryExcept, .assert, .imports, .importFrom, .expr,
     .pass, .breakLoop,
   .continueLoop, .boolOp, .binOp, .unaryOp, .lambda, .dict, .compare, .call, .constant, .attr,
   .subscript, .name, .list, .tuple, .slice, .index, .formattedValue, .arg, .importName, .handler,
   .keyword]

theorem NodeTag.label_inj {a b : NodeTag} (h : a.label = b.label) : a = b := by
  have hmem (t : NodeTag) : t ∈ all := by cases t <;> decide
  exact List.inj_on_of_nodup_map (by decide) (hmem a) (hmem b) h

theorem NodeTag.label_ne_none (t : NodeTag) : t.label ≠ "None" := by
  cases t <;> decide

theorem BinaryOp.name_inj {a b : BinaryOp} (h : a.name = b.name) : a = b := by
  have hmem (op : BinaryOp) : op ∈ all := by cases op <;> decide
  exact List.inj_on_of_nodup_map (by decide) (hmem a) (hmem b) h

theorem BoolOp.name_inj {a b : BoolOp} (h : a.name = b.name) : a = b := by
  have hmem (op : BoolOp) : op ∈ [.and, .or] := by cases op <;> decide
  exact List.inj_on_of_nodup_map (by decide) (hmem a) (hmem b) h

theorem UnaryOp.name_inj {a b : UnaryOp} (h : a.name = b.name) : a = b := by
  have hmem (op : UnaryOp) : op ∈ [.invert, .not, .plus, .minus] := by cases op <;> decide
  exact List.inj_on_of_nodup_map (by decide) (hmem a) (hmem b) h

theorem CompareOp.name_inj {a b : CompareOp} (h : a.name = b.name) : a = b := by
  have hmem (op : CompareOp) :
      op ∈ [.eq, .notEq, .lt, .ltE, .gt, .gtE, .is, .isNot, .isIn, .notIn] := by
    cases op <;> decide
  exact List.inj_on_of_nodup_map (by decide) (hmem a) (hmem b) h

theorem Conversion.letter_inj {a b : Conversion} (h : a.letter = b.letter) : a = b := by
  cases a <;> cases b <;> first | rfl | cases h

/-! ## Leaves -/

theorem symbol_inj {s t : String} (h : (symbol s).sketch = (symbol t).sketch) : s = t := by
  exact String.toList_inj.mp (Sketch.word.inj h)

theorem string_inj {s t : String} (h : (Outline.string s).sketch = (Outline.string t).sketch) :
    s = t := by
  exact String.toList_inj.mp (Sketch.quoted.inj h)

theorem string?_inj {s t : Option String} (h : (ofString? s).sketch = (ofString? t).sketch) :
    s = t := by
  cases s with
  | none =>
    cases t with
    | none => rfl
    | some t =>
      cases h
  | some s =>
    cases t with
    | none =>
      cases h
    | some t => exact congrArg some (string_inj h)

theorem number_inj {m n : Nat} (h : (number m).sketch = (number n).sketch) : m = n := by
  have hvalue := congrArg Binary64.digitsValue (Sketch.word.inj h)
  rwa [Binary64.digitsValue_toDigits, Binary64.digitsValue_toDigits] at hvalue

theorem list_inj {xs ys : List Outline} (h : (Outline.list xs).sketch = (Outline.list ys).sketch) :
    sketches xs = sketches ys := by
  exact Sketch.list.inj h

/-- A field for a context at the end tells the context, also by its absence. -/
theorem context_inj {key key' : String} {c c' : Context}
    (h : fieldSketches [(key, context c)] = fieldSketches [(key', context c')]) : c = c' := by
  cases c <;> cases c' <;> simp_all [fieldSketches, isShown, Outline.sketch, Context.name]

/-- A name that is not empty is told from a missing one. -/
theorem keyword_inj {key key' : Option String} (h : key ≠ some "") (h' : key' ≠ some "")
    (heq : key.getD "" = key'.getD "") : key = key' := by
  cases key <;> cases key' <;> simp_all

theorem conversion_inj {c c' : Option Conversion}
    (h : (c.map fun c => c.letter.toString) = c'.map fun c => c.letter.toString) : c = c' := by
  cases c with
  | none => cases c' <;> simp_all
  | some c =>
    cases c' with
    | none => simp_all
    | some c' =>
      have hletter := congrArg String.toList (Option.some.inj h)
      exact congrArg some (Conversion.letter_inj (by simpa [Char.toString] using hletter))

namespace Literal

/-- Whether the text of a literal begins with a digit, and whether it has nothing but digits. -/
def digitKind : Literal → Bool × Bool
  | .int _ => (true, true)
  | .float _ => (true, false)
  | _ => (false, false)

theorem digitKind_text {v : Literal} (hv : v.WellFormed) (hstr : v.isString = false) :
    ((literalText v).toList.head?.any Char.isDigit, (literalText v).toList.all Char.isDigit) =
      v.digitKind := by
  cases v with
  | none => decide
  | bool b => cases b <;> decide
  | int n =>
    have hdigits : ∀ c ∈ Nat.toDigits 10 n.toInt.toNat, c.isDigit = true := fun c hc =>
      Nat.isDigit_of_mem_toDigits (by decide) (by decide) hc
    obtain ⟨c, cs, hcs⟩ := List.exists_cons_of_ne_nil
      (Nat.toDigits_ne_nil (n := n.toInt.toNat) (b := 10))
    have hn : 0 ≤ n.toInt := hv
    rw [literalText, toList_toString_int, if_pos hn, digitKind]
    rw [List.all_eq_true.mpr hdigits]
    rw [hcs] at hdigits ⊢
    simpa using hdigits c List.mem_cons_self
  | float x =>
    have hx : x.IsFinite := hv
    have hproper := Binary64.proper_shortest hx
    rw [literalText, digitKind]
    rcases toList_floatLiteral hx with htext | htext
    · obtain ⟨c, t, hmantissa, hc⟩ : ∃ c t, x.shortest.mantissa = c :: t ∧ c.isDigit = true := by
        have hdigits := hproper.isDigit
        unfold Digits.mantissa
        split
        · exact ⟨_, _, rfl, by decide⟩
        · next c heq => exact ⟨_, _, rfl, hdigits c (by simp [heq])⟩
        · next c rest _ heq => exact ⟨_, _, rfl, hdigits c (by simp [heq])⟩
      rw [htext, Digits.toList_scientific, hmantissa]
      simp [hc]
    · obtain ⟨whole, fraction, hfloat, hwhole, -, hdigits, -⟩ := Format.float_spec hx
      obtain ⟨c, cs, rfl⟩ := List.exists_cons_of_ne_nil hwhole
      rw [htext, hfloat]
      simp [hdigits c (by simp)]
  | str t => cases hstr

/-- Literals with the same text are the same, if they are no strings. -/
theorem text_inj {v w : Literal} (hv : v.WellFormed) (hw : w.WellFormed) (hsv : v.isString = false)
    (hsw : w.isString = false) (h : (literalText v).toList = (literalText w).toList) : v = w := by
  have hkind : v.digitKind = w.digitKind := by
    rw [← digitKind_text hv hsv, ← digitKind_text hw hsw, h]
  cases v with
  | none =>
    cases w with
    | none => rfl
    | bool b => cases b <;> exact absurd h (by decide)
    | str t => cases hsw
    | _ => cases hkind
  | bool b =>
    cases w with
    | none => cases b <;> exact absurd h (by decide)
    | bool b' =>
      cases b <;> cases b' <;> first | rfl | exact absurd h (by decide)
    | str t => cases hsw
    | _ => cases hkind
  | int n =>
    cases w with
    | int m =>
      have hn : 0 ≤ n.toInt := hv
      have hm : 0 ≤ m.toInt := hw
      rw [literalText, literalText, toList_toString_int, toList_toString_int, if_pos hn,
        if_pos hm] at h
      have hvalue := congrArg Binary64.digitsValue h
      rw [Binary64.digitsValue_toDigits, Binary64.digitsValue_toDigits] at hvalue
      exact congrArg _ (Int64.toInt_inj.mp (by omega))
    | str t => cases hsw
    | _ => cases hkind
  | float x =>
    cases w with
    | float y =>
      exact congrArg _ (floatLiteral_injective hv hw (String.toList_inj.mp h))
    | str t => cases hsw
    | _ => cases hkind
  | str t => cases hsv

/-- Literals that are shown alike are the same. -/
theorem sketch_inj {v w : Literal} (hv : v.WellFormed) (hw : w.WellFormed)
    (h : (literal v).sketch = (literal w).sketch) : v = w := by
  cases hsv : v.isString with
  | true =>
    cases v with
    | str s =>
      cases hsw : w.isString with
      | true =>
        cases w with
        | str t =>
          exact congrArg _ (String.toList_inj.mp (Sketch.quoted.inj h))
        | _ => cases hsw
      | false =>
        rw [Outline.sketch, sketch_eq_word hsw] at h
        cases h
    | _ => cases hsv
  | false =>
    cases hsw : w.isString with
    | true =>
      cases w with
      | str t =>
        rw [sketch_eq_word hsv, Outline.sketch] at h
        cases h
      | _ => cases hsw
    | false =>
      rw [sketch_eq_word hsv, sketch_eq_word hsw] at h
      exact text_inj hv hw hsv hsw (Sketch.word.inj h)

end Literal

/-! ## Nodes -/

/-- A node tells its kind, and what is shown of its fields. -/
theorem ofNode_inj {tag tag' : NodeTag} {m m' : Mark} {fields fields' : List (String × Outline)}
    (h : (ofNode tag m fields).sketch = (ofNode tag' m' fields').sketch) :
    tag = tag' ∧ fieldSketches fields = fieldSketches fields' := by
  cases fields with
  | nil =>
    cases fields' with
    | nil =>
      exact ⟨NodeTag.label_inj (String.toList_inj.mp (Sketch.word.inj h)), rfl⟩
    | cons f fields' =>
      cases h
  | cons f fields =>
    cases fields' with
    | nil =>
      cases h
    | cons f' fields' =>
      obtain ⟨hlabel, hfields⟩ := Sketch.node.inj h
      exact ⟨NodeTag.label_inj (String.toList_inj.mp hlabel), hfields⟩

/-- A node is not shown like a part that is missing. -/
theorem ofNode_ne_missing (tag : NodeTag) (m : Mark) (fields : List (String × Outline)) :
    (ofNode tag m fields).sketch ≠ missing.sketch := by
  intro h
  cases fields with
  | nil =>
    exact tag.label_ne_none (String.toList_inj.mp (Sketch.word.inj h))
  | cons f fields =>
    cases h

/-- The first of some fields, if it is shown. -/
theorem fieldSketches_cons {key : String} {v : Outline} (hv : v.isShown = true)
    (rest : List (String × Outline)) :
    fieldSketches ((key, v) :: rest) = v.sketch :: fieldSketches rest := by
  rw [fieldSketches, if_pos hv]

theorem fields_inj {key key' : String} {v v' : Outline} (hv : v.isShown = true)
    (hv' : v'.isShown = true) {rest rest' : List (String × Outline)}
    (h : fieldSketches ((key, v) :: rest) = fieldSketches ((key', v') :: rest')) :
    v.sketch = v'.sketch ∧ fieldSketches rest = fieldSketches rest' := by
  rw [fieldSketches_cons hv, fieldSketches_cons hv'] at h
  exact List.cons.inj h

theorem isShown_string? (s : Option String) : (ofString? s).isShown = true := by
  cases s <;> rfl

namespace Param

theorem sketch_inj {p q : Param Mark} (h : p.outline.sketch = q.outline.sketch) :
    p.map (fun _ => c) = q.map fun _ => c := by
  obtain ⟨-, hfields⟩ := ofNode_inj h
  have hname := string_inj (fields_inj rfl rfl hfields).1
  simp only [Param.map, hname]

theorem isShown_outline? (p : Option (Param Mark)) : (Param.outline? p).isShown = true := by
  cases p <;> rfl

theorem sketch?_inj {p q : Option (Param Mark)}
    (h : (Param.outline? p).sketch = (Param.outline? q).sketch) :
    p.map (Param.map fun _ => c) = q.map (Param.map fun _ => c) := by
  cases p with
  | none =>
    cases q with
    | none => rfl
    | some q => exact absurd h.symm (ofNode_ne_missing _ _ _)
  | some p =>
    cases q with
    | none => exact absurd h (ofNode_ne_missing _ _ _)
    | some q => exact congrArg some (sketch_inj h)

theorem sketches_inj : ∀ {ps qs : List (Param Mark)},
    sketches (ps.map Param.outline) = sketches (qs.map Param.outline) →
      ps.map (Param.map fun _ => c) = qs.map (Param.map fun _ => c)
  | [], [], _ => rfl
  | [], q :: qs, h => by
    cases h
  | p :: ps, [], h => by
    cases h
  | p :: ps, q :: qs, h => by
    obtain ⟨hhead, htail⟩ := List.cons.inj h
    rw [List.map_cons, List.map_cons, sketch_inj hhead, sketches_inj htail]

end Param

/-- A signature tells its parameters, and what is shown of its defaults. -/
theorem signatureOutline_inj {params params' : List (Param Mark)}
    {defaults defaults' : List Outline}
    {vararg vararg' kwarg kwarg' : Option (Param Mark)}
    (h : (signatureOutline params defaults vararg kwarg).sketch =
      (signatureOutline params' defaults' vararg' kwarg').sketch) :
    params.map (Param.map fun _ => c) = params'.map (Param.map fun _ => c) ∧
      sketches defaults = sketches defaults' ∧
      vararg.map (Param.map fun _ => c) = vararg'.map (Param.map fun _ => c) ∧
      kwarg.map (Param.map fun _ => c) = kwarg'.map (Param.map fun _ => c) := by
  obtain ⟨-, hfields⟩ := Sketch.node.inj h
  obtain ⟨hparams, hfields⟩ := fields_inj rfl rfl hfields
  obtain ⟨hdefaults, hfields⟩ := fields_inj rfl rfl hfields
  obtain ⟨hvararg, hfields⟩ :=
    fields_inj (Param.isShown_outline? vararg) (Param.isShown_outline? vararg') hfields
  obtain ⟨hkwarg, -⟩ :=
    fields_inj (Param.isShown_outline? kwarg) (Param.isShown_outline? kwarg') hfields
  exact ⟨Param.sketches_inj (list_inj hparams), list_inj hdefaults, Param.sketch?_inj hvararg,
    Param.sketch?_inj hkwarg⟩

namespace Expr

/-- The outline of an expression is a node of its kind. -/
theorem exists_outline (e : Expr Mark) : ∃ m fields, e.outline = ofNode e.tag m fields := by
  cases e with
  | lambda m sig body =>
    cases sig
    exact ⟨m, _, by rw [outline]; rfl⟩
  | _ => exact ⟨_, _, by rw [outline]; rfl⟩

theorem isShown_outline (e : Expr Mark) : e.outline.isShown = true := by
  obtain ⟨m, fields, h⟩ := e.exists_outline
  rw [h]
  rfl

theorem isShown_outline? (e : Option (Expr Mark)) : (outline? e).isShown = true := by
  cases e with
  | none => rfl
  | some e =>
    exact e.isShown_outline

/-- What is shown of an expression tells its kind. -/
theorem tag_eq_of_sketch {e e' : Expr Mark} (h : e.outline.sketch = e'.outline.sketch) :
    e.tag = e'.tag := by
  obtain ⟨m, fields, he⟩ := e.exists_outline
  obtain ⟨m', fields', he'⟩ := e'.exists_outline
  rw [he, he'] at h
  exact (ofNode_inj h).1

theorem sketch_ne_missing (e : Expr Mark) : e.outline.sketch ≠ missing.sketch := by
  obtain ⟨m, fields, h⟩ := e.exists_outline
  rw [h]
  exact ofNode_ne_missing _ _ _

mutual

/-- **Legible expressions that are shown alike are the same, up to annotations.** -/
theorem map_eq_of_sketch : ∀ (e e' : Expr Mark), e.Legible → e'.Legible →
    e.outline.sketch = e'.outline.sketch → e.map (fun _ => c) = e'.map fun _ => c
  -- The tag is shown, so both have the same form; then their fields are shown alike one by one.
  | .boolOp m op values, e', he, he', h => by
    have htag := tag_eq_of_sketch h
    cases e' with
    | boolOp m' op' values' =>
      obtain ⟨-, hfields⟩ := ofNode_inj h
      obtain ⟨hop, hfields⟩ := fields_inj rfl rfl hfields
      obtain ⟨hvalues, -⟩ := fields_inj rfl rfl hfields
      rw [map, map, BoolOp.name_inj (symbol_inj hop),
        mapList_eq_of_sketches values values' he he' (list_inj hvalues)]
    | _ => cases htag
  | .binOp m left op right, e', he, he', h => by
    have htag := tag_eq_of_sketch h
    cases e' with
    | binOp m' left' op' right' =>
      obtain ⟨-, hfields⟩ := ofNode_inj h
      obtain ⟨hleft, hfields⟩ := fields_inj left.isShown_outline left'.isShown_outline hfields
      obtain ⟨hop, hfields⟩ := fields_inj rfl rfl hfields
      obtain ⟨hright, -⟩ := fields_inj right.isShown_outline right'.isShown_outline hfields
      rw [map, map, BinaryOp.name_inj (symbol_inj hop),
        map_eq_of_sketch left left' he.1 he'.1 hleft,
        map_eq_of_sketch right right' he.2 he'.2 hright]
    | _ => cases htag
  | .unaryOp m op operand, e', he, he', h => by
    have htag := tag_eq_of_sketch h
    cases e' with
    | unaryOp m' op' operand' =>
      obtain ⟨-, hfields⟩ := ofNode_inj h
      obtain ⟨hop, hfields⟩ := fields_inj rfl rfl hfields
      obtain ⟨hoperand, -⟩ := fields_inj operand.isShown_outline operand'.isShown_outline hfields
      rw [map, map, UnaryOp.name_inj (symbol_inj hop),
        map_eq_of_sketch operand operand' he he' hoperand]
    | _ => cases htag
  | .lambda m ⟨params, defaults, vararg, kwarg⟩ body, e', he, he', h => by
    have htag := tag_eq_of_sketch h
    cases e' with
    | lambda m' sig' body' =>
      rcases sig' with ⟨params', defaults', vararg', kwarg'⟩
      obtain ⟨-, hfields⟩ := ofNode_inj h
      obtain ⟨hsig, hfields⟩ := fields_inj rfl rfl hfields
      obtain ⟨hbody, -⟩ := fields_inj body.isShown_outline body'.isShown_outline hfields
      obtain ⟨hparams, hdefaults, hvararg, hkwarg⟩ := signatureOutline_inj hsig
      rw [map, map, hparams, hvararg, hkwarg,
        mapList_eq_of_sketches defaults defaults' he.1 he'.1 hdefaults,
        map_eq_of_sketch body body' he.2 he'.2 hbody]
    | _ => cases htag
  | .dict m items, e', he, he', h => by
    have htag := tag_eq_of_sketch h
    cases e' with
    | dict m' items' =>
      obtain ⟨-, hfields⟩ := ofNode_inj h
      obtain ⟨hkeys, hfields⟩ := fields_inj rfl rfl hfields
      obtain ⟨hvalues, -⟩ := fields_inj rfl rfl hfields
      rw [map, map, mapItems_eq_of_sketches items items' he he' (list_inj hkeys) (list_inj hvalues)]
    | _ => cases htag
  | .compare m left rest, e', he, he', h => by
    have htag := tag_eq_of_sketch h
    cases e' with
    | compare m' left' rest' =>
      obtain ⟨-, hfields⟩ := ofNode_inj h
      obtain ⟨hleft, hfields⟩ := fields_inj left.isShown_outline left'.isShown_outline hfields
      obtain ⟨hops, hfields⟩ := fields_inj rfl rfl hfields
      obtain ⟨hrest, -⟩ := fields_inj rfl rfl hfields
      rw [map, map, map_eq_of_sketch left left' he.1 he'.1 hleft,
        mapRest_eq_of_sketches rest rest' he.2 he'.2 (list_inj hops) (list_inj hrest)]
    | _ => cases htag
  | .call m func args keywords, e', he, he', h => by
    have htag := tag_eq_of_sketch h
    cases e' with
    | call m' func' args' keywords' =>
      obtain ⟨-, hfields⟩ := ofNode_inj h
      obtain ⟨hfunc, hfields⟩ := fields_inj func.isShown_outline func'.isShown_outline hfields
      obtain ⟨hargs, hfields⟩ := fields_inj rfl rfl hfields
      obtain ⟨hkeywords, -⟩ := fields_inj rfl rfl hfields
      rw [map, map, map_eq_of_sketch func func' he.1 he'.1 hfunc,
        mapList_eq_of_sketches args args' he.2.1 he'.2.1 (list_inj hargs),
        mapKeywords_eq_of_sketches keywords keywords' he.2.2 he'.2.2 (list_inj hkeywords)]
    | _ => cases htag
  | .constant m value, e', he, he', h => by
    have htag := tag_eq_of_sketch h
    cases e' with
    | constant m' value' =>
      obtain ⟨-, hfields⟩ := ofNode_inj h
      obtain ⟨hvalue, -⟩ := fields_inj rfl rfl hfields
      rw [map, map, Literal.sketch_inj he he' hvalue]
    | _ => cases htag
  | .attr m value label ctx, e', he, he', h => by
    have htag := tag_eq_of_sketch h
    cases e' with
    | attr m' value' label' ctx' =>
      obtain ⟨-, hfields⟩ := ofNode_inj h
      obtain ⟨hvalue, hfields⟩ := fields_inj value.isShown_outline value'.isShown_outline hfields
      obtain ⟨hlabel, hctx⟩ := fields_inj rfl rfl hfields
      rw [map, map, map_eq_of_sketch value value' he he' hvalue, string_inj hlabel,
        context_inj hctx]
    | _ => cases htag
  | .subscript m value part ctx, e', he, he', h => by
    have htag := tag_eq_of_sketch h
    cases e' with
    | subscript m' value' part' ctx' =>
      obtain ⟨-, hfields⟩ := ofNode_inj h
      obtain ⟨hvalue, hfields⟩ := fields_inj value.isShown_outline value'.isShown_outline hfields
      obtain ⟨hpart, hctx⟩ := fields_inj part.isShown_outline part'.isShown_outline hfields
      rw [map, map, map_eq_of_sketch value value' he.1 he'.1 hvalue,
        map_eq_of_sketch part part' he.2 he'.2 hpart, context_inj hctx]
    | _ => cases htag
  | .name m id ctx, e', _, _, h => by
    have htag := tag_eq_of_sketch h
    cases e' with
    | name m' id' ctx' =>
      obtain ⟨-, hfields⟩ := ofNode_inj h
      obtain ⟨hid, hctx⟩ := fields_inj rfl rfl hfields
      rw [map, map, string_inj hid, context_inj hctx]
    | _ => cases htag
  | .list m elts ctx, e', he, he', h => by
    have htag := tag_eq_of_sketch h
    cases e' with
    | list m' elts' ctx' =>
      obtain ⟨-, hfields⟩ := ofNode_inj h
      obtain ⟨helts, hctx⟩ := fields_inj rfl rfl hfields
      rw [map, map, mapList_eq_of_sketches elts elts' he he' (list_inj helts), context_inj hctx]
    | _ => cases htag
  | .tuple m elts ctx, e', he, he', h => by
    have htag := tag_eq_of_sketch h
    cases e' with
    | tuple m' elts' ctx' =>
      obtain ⟨-, hfields⟩ := ofNode_inj h
      obtain ⟨helts, hctx⟩ := fields_inj rfl rfl hfields
      rw [map, map, mapList_eq_of_sketches elts elts' he he' (list_inj helts), context_inj hctx]
    | _ => cases htag
  | .slice m lower upper step, e', he, he', h => by
    have htag := tag_eq_of_sketch h
    cases e' with
    | slice m' lower' upper' step' =>
      obtain ⟨-, hfields⟩ := ofNode_inj h
      obtain ⟨hlower, hfields⟩ :=
        fields_inj (isShown_outline? lower) (isShown_outline? lower') hfields
      obtain ⟨hupper, hfields⟩ :=
        fields_inj (isShown_outline? upper) (isShown_outline? upper') hfields
      obtain ⟨hstep, -⟩ := fields_inj (isShown_outline? step) (isShown_outline? step') hfields
      rw [map, map, mapOption_eq_of_sketch lower lower' he.1 he'.1 hlower,
        mapOption_eq_of_sketch upper upper' he.2.1 he'.2.1 hupper,
        mapOption_eq_of_sketch step step' he.2.2 he'.2.2 hstep]
    | _ => cases htag
  | .index m value, e', he, he', h => by
    have htag := tag_eq_of_sketch h
    cases e' with
    | index m' value' =>
      obtain ⟨-, hfields⟩ := ofNode_inj h
      obtain ⟨hvalue, -⟩ := fields_inj value.isShown_outline value'.isShown_outline hfields
      rw [map, map, map_eq_of_sketch value value' he he' hvalue]
    | _ => cases htag
  | .formatted m value conversion spec, e', he, he', h => by
    have htag := tag_eq_of_sketch h
    cases e' with
    | formatted m' value' conversion' spec' =>
      obtain ⟨-, hfields⟩ := ofNode_inj h
      obtain ⟨hvalue, hfields⟩ := fields_inj value.isShown_outline value'.isShown_outline hfields
      obtain ⟨hconv, hfields⟩ := fields_inj (isShown_string? _) (isShown_string? _) hfields
      obtain ⟨hspec, -⟩ := fields_inj (isShown_outline? spec) (isShown_outline? spec') hfields
      have hconversion : conversion = conversion' := conversion_inj (string?_inj hconv)
      rw [map, map, map_eq_of_sketch value value' he.1 he'.1 hvalue, hconversion,
        mapOption_eq_of_sketch spec spec' he.2 he'.2 hspec]
    | _ => cases htag

theorem mapList_eq_of_sketches : ∀ (es es' : List (Expr Mark)), AllLegible es → AllLegible es' →
    sketches (outlines es) = sketches (outlines es') →
      mapList (fun _ => c) es = mapList (fun _ => c) es'
  | [], [], _, _, _ => rfl
  | [], e' :: es', _, _, h => by
    cases h
  | e :: es, [], _, _, h => by
    cases h
  | e :: es, e' :: es', he, he', h => by
    obtain ⟨hhead, htail⟩ := List.cons.inj h
    rw [mapList, mapList, map_eq_of_sketch e e' he.1 he'.1 hhead,
      mapList_eq_of_sketches es es' he.2 he'.2 htail]

theorem mapOption_eq_of_sketch : ∀ (e e' : Option (Expr Mark)), OptionLegible e → OptionLegible e' →
    (outline? e).sketch = (outline? e').sketch →
      mapOption (fun _ => c) e = mapOption (fun _ => c) e'
  | none, none, _, _, _ => rfl
  | none, some e', _, _, h => by
    exact absurd h.symm e'.sketch_ne_missing
  | some e, none, _, _, h => by
    exact absurd h e.sketch_ne_missing
  | some e, some e', he, he', h => by
    rw [mapOption, mapOption, map_eq_of_sketch e e' he he' h]

theorem mapItems_eq_of_sketches : ∀ (items items' : List (Expr Mark × Expr Mark)),
    ItemsLegible items → ItemsLegible items' →
    sketches (keyOutlines items) = sketches (keyOutlines items') →
    sketches (valueOutlines items) = sketches (valueOutlines items') →
      mapItems (fun _ => c) items = mapItems (fun _ => c) items'
  | [], [], _, _, _, _ => rfl
  | [], (key', value') :: rest', _, _, h, _ => by
    cases h
  | (key, value) :: rest, [], _, _, h, _ => by
    cases h
  | (key, value) :: rest, (key', value') :: rest', hi, hi', hk, hv => by
    obtain ⟨hkey, hkeys⟩ := List.cons.inj hk
    obtain ⟨hvalue, hvalues⟩ := List.cons.inj hv
    rw [mapItems, mapItems, map_eq_of_sketch key key' hi.1 hi'.1 hkey,
      map_eq_of_sketch value value' hi.2.1 hi'.2.1 hvalue,
      mapItems_eq_of_sketches rest rest' hi.2.2 hi'.2.2 hkeys hvalues]

theorem mapRest_eq_of_sketches : ∀ (rest rest' : List (CompareOp × Expr Mark)),
    RestLegible rest → RestLegible rest' →
    sketches (rest.map fun p => symbol p.1.name) = sketches (rest'.map fun p => symbol p.1.name) →
    sketches (operandOutlines rest) = sketches (operandOutlines rest') →
      mapRest (fun _ => c) rest = mapRest (fun _ => c) rest'
  | [], [], _, _, _, _ => rfl
  | [], (op', e') :: rest', _, _, h, _ => by
    cases h
  | (op, e) :: rest, [], _, _, h, _ => by
    cases h
  | (op, e) :: rest, (op', e') :: rest', hr, hr', ho, h => by
    obtain ⟨hop, hops⟩ := List.cons.inj ho
    obtain ⟨hhead, htail⟩ := List.cons.inj h
    have hsame : op = op' := CompareOp.name_inj (symbol_inj hop)
    rw [mapRest, mapRest, hsame, map_eq_of_sketch e e' hr.1 hr'.1 hhead,
      mapRest_eq_of_sketches rest rest' hr.2 hr'.2 hops htail]

theorem mapKeywords_eq_of_sketches : ∀ (keywords keywords' : List (KeywordArg Mark (Expr Mark))),
    KeywordsLegible keywords → KeywordsLegible keywords' →
    sketches (keywordOutlines keywords) = sketches (keywordOutlines keywords') →
      mapKeywords (fun _ => c) keywords = mapKeywords (fun _ => c) keywords'
  | [], [], _, _, _ => rfl
  | [], ⟨_, _, _⟩ :: _, _, _, h => by
    cases h
  | ⟨_, _, _⟩ :: _, [], _, _, h => by
    cases h
  | ⟨m, key, value⟩ :: rest, ⟨m', key', value'⟩ :: rest', hk, hk', h => by
    obtain ⟨hhead, htail⟩ := List.cons.inj h
    obtain ⟨-, hfields⟩ := ofNode_inj hhead
    obtain ⟨hkey, hfields⟩ := fields_inj rfl rfl hfields
    obtain ⟨hvalue, -⟩ := fields_inj value.isShown_outline value'.isShown_outline hfields
    have hname : key = key' := keyword_inj hk.1 hk'.1 (string_inj hkey)
    rw [mapKeywords, mapKeywords, hname, map_eq_of_sketch value value' hk.2.1 hk'.2.1 hvalue,
      mapKeywords_eq_of_sketches rest rest' hk.2.2 hk'.2.2 htail]

end

end Expr

theorem Signature.mapExprs_eq_of_sketch {sig sig' : Signature Mark (Expr Mark)}
    (h : Expr.AllLegible sig.defaults) (h' : Expr.AllLegible sig'.defaults)
    (hshape : sig.outline.sketch = sig'.outline.sketch) :
    sig.mapExprs (fun _ => c) = sig'.mapExprs fun _ => c := by
  obtain ⟨hparams, hdefaults, hvararg, hkwarg⟩ := signatureOutline_inj hshape
  rw [mapExprs, mapExprs, hparams, hvararg, hkwarg,
    Expr.mapList_eq_of_sketches sig.defaults sig'.defaults h h' hdefaults]

namespace Alias

theorem sketches_inj : ∀ {as bs : List (Alias Mark)},
    sketches (as.map Alias.outline) = sketches (bs.map Alias.outline) →
      as.map (Alias.map fun _ => c) = bs.map (Alias.map fun _ => c)
  | [], [], _ => rfl
  | [], b :: bs, h => by
    cases h
  | a :: as, [], h => by
    cases h
  | a :: as, b :: bs, h => by
    obtain ⟨hhead, htail⟩ := List.cons.inj h
    obtain ⟨-, hfields⟩ := ofNode_inj hhead
    obtain ⟨hname, hfields⟩ := fields_inj rfl rfl hfields
    obtain ⟨hasName, -⟩ := fields_inj (isShown_string? _) (isShown_string? _) hfields
    have hsame : a.map (fun _ => c) = b.map fun _ => c := by
      rw [Alias.map, Alias.map, string_inj hname, string?_inj hasName]
    rw [List.map_cons, List.map_cons, hsame, sketches_inj htail]

end Alias

namespace Stmt

open Expr (isShown_outline isShown_outline? map_eq_of_sketch mapOption_eq_of_sketch
  mapList_eq_of_sketches)

/-- The outline of a statement is a node of its kind. -/
theorem exists_outline (s : Stmt Mark) : ∃ m fields, s.outline = ofNode s.tag m fields := by
  cases s with
  | _ => exact ⟨_, _, by rw [outline]; rfl⟩

/-- What is shown of a statement tells its kind. -/
theorem tag_eq_of_sketch {s s' : Stmt Mark} (h : s.outline.sketch = s'.outline.sketch) :
    s.tag = s'.tag := by
  obtain ⟨m, fields, hs⟩ := s.exists_outline
  obtain ⟨m', fields', hs'⟩ := s'.exists_outline
  rw [hs, hs'] at h
  exact (ofNode_inj h).1

mutual

/-- **Legible statements that are shown alike are the same, up to annotations.** -/
theorem map_eq_of_outline : ∀ (s s' : Stmt Mark), s.Legible → s'.Legible →
    s.outline.sketch = s'.outline.sketch → s.map (fun _ => c) = s'.map fun _ => c
  -- As for expressions: the tags agree, and then the fields.
  | .functionDef m name sig body, s', hs, hs', h => by
    have htag := tag_eq_of_sketch h
    cases s' with
    | functionDef m' name' sig' body' =>
      obtain ⟨-, hfields⟩ := ofNode_inj h
      obtain ⟨hname, hfields⟩ := fields_inj rfl rfl hfields
      obtain ⟨hsig, hfields⟩ := fields_inj rfl rfl hfields
      obtain ⟨hbody, -⟩ := fields_inj rfl rfl hfields
      rw [map, map, string_inj hname, Signature.mapExprs_eq_of_sketch hs.1 hs'.1 hsig,
        mapList_eq_of_outlines body body' hs.2 hs'.2 (list_inj hbody)]
    | _ => cases htag
  | .classDef m name bases body, s', hs, hs', h => by
    have htag := tag_eq_of_sketch h
    cases s' with
    | classDef m' name' bases' body' =>
      obtain ⟨-, hfields⟩ := ofNode_inj h
      obtain ⟨hname, hfields⟩ := fields_inj rfl rfl hfields
      obtain ⟨hbases, hfields⟩ := fields_inj rfl rfl hfields
      obtain ⟨hbody, -⟩ := fields_inj rfl rfl hfields
      rw [map, map, string_inj hname,
        mapList_eq_of_sketches bases bases' hs.1 hs'.1 (list_inj hbases),
        mapList_eq_of_outlines body body' hs.2 hs'.2 (list_inj hbody)]
    | _ => cases htag
  | .ret m value, s', hs, hs', h => by
    have htag := tag_eq_of_sketch h
    cases s' with
    | ret m' value' =>
      obtain ⟨-, hfields⟩ := ofNode_inj h
      obtain ⟨hvalue, -⟩ := fields_inj (isShown_outline? value) (isShown_outline? value') hfields
      rw [map, map, mapOption_eq_of_sketch value value' hs hs' hvalue]
    | _ => cases htag
  | .delete m targets, s', hs, hs', h => by
    have htag := tag_eq_of_sketch h
    cases s' with
    | delete m' targets' =>
      obtain ⟨-, hfields⟩ := ofNode_inj h
      obtain ⟨htargets, -⟩ := fields_inj rfl rfl hfields
      rw [map, map, mapList_eq_of_sketches targets targets' hs hs' (list_inj htargets)]
    | _ => cases htag
  | .assign m targets value, s', hs, hs', h => by
    have htag := tag_eq_of_sketch h
    cases s' with
    | assign m' targets' value' =>
      obtain ⟨-, hfields⟩ := ofNode_inj h
      obtain ⟨htargets, hfields⟩ := fields_inj rfl rfl hfields
      obtain ⟨hvalue, -⟩ := fields_inj (isShown_outline value) (isShown_outline value') hfields
      rw [map, map, mapList_eq_of_sketches targets targets' hs.1 hs'.1 (list_inj htargets),
        map_eq_of_sketch value value' hs.2 hs'.2 hvalue]
    | _ => cases htag
  | .augAssign m target op value, s', hs, hs', h => by
    have htag := tag_eq_of_sketch h
    cases s' with
    | augAssign m' target' op' value' =>
      obtain ⟨-, hfields⟩ := ofNode_inj h
      obtain ⟨htarget, hfields⟩ :=
        fields_inj (isShown_outline target) (isShown_outline target') hfields
      obtain ⟨hop, hfields⟩ := fields_inj rfl rfl hfields
      obtain ⟨hvalue, -⟩ := fields_inj (isShown_outline value) (isShown_outline value') hfields
      rw [map, map, map_eq_of_sketch target target' hs.1 hs'.1 htarget,
        BinaryOp.name_inj (symbol_inj hop), map_eq_of_sketch value value' hs.2 hs'.2 hvalue]
    | _ => cases htag
  | .forLoop m target iter body, s', hs, hs', h => by
    have htag := tag_eq_of_sketch h
    cases s' with
    | forLoop m' target' iter' body' =>
      obtain ⟨-, hfields⟩ := ofNode_inj h
      obtain ⟨htarget, hfields⟩ :=
        fields_inj (isShown_outline target) (isShown_outline target') hfields
      obtain ⟨hiter, hfields⟩ := fields_inj (isShown_outline iter) (isShown_outline iter') hfields
      obtain ⟨hbody, -⟩ := fields_inj rfl rfl hfields
      rw [map, map, map_eq_of_sketch target target' hs.1 hs'.1 htarget,
        map_eq_of_sketch iter iter' hs.2.1 hs'.2.1 hiter,
        mapList_eq_of_outlines body body' hs.2.2 hs'.2.2 (list_inj hbody)]
    | _ => cases htag
  | .whileLoop m test body, s', hs, hs', h => by
    have htag := tag_eq_of_sketch h
    cases s' with
    | whileLoop m' test' body' =>
      obtain ⟨-, hfields⟩ := ofNode_inj h
      obtain ⟨htest, hfields⟩ := fields_inj (isShown_outline test) (isShown_outline test') hfields
      obtain ⟨hbody, -⟩ := fields_inj rfl rfl hfields
      rw [map, map, map_eq_of_sketch test test' hs.1 hs'.1 htest,
        mapList_eq_of_outlines body body' hs.2 hs'.2 (list_inj hbody)]
    | _ => cases htag
  | .ifElse m test body orelse, s', hs, hs', h => by
    have htag := tag_eq_of_sketch h
    cases s' with
    | ifElse m' test' body' orelse' =>
      obtain ⟨-, hfields⟩ := ofNode_inj h
      obtain ⟨htest, hfields⟩ := fields_inj (isShown_outline test) (isShown_outline test') hfields
      obtain ⟨hbody, hfields⟩ := fields_inj rfl rfl hfields
      obtain ⟨horelse, -⟩ := fields_inj rfl rfl hfields
      rw [map, map, map_eq_of_sketch test test' hs.1 hs'.1 htest,
        mapList_eq_of_outlines body body' hs.2.1 hs'.2.1 (list_inj hbody),
        mapList_eq_of_outlines orelse orelse' hs.2.2 hs'.2.2 (list_inj horelse)]
    | _ => cases htag
  | .raise m exc cause, s', hs, hs', h => by
    have htag := tag_eq_of_sketch h
    cases s' with
    | raise m' exc' cause' =>
      obtain ⟨-, hfields⟩ := ofNode_inj h
      obtain ⟨hexc, hfields⟩ := fields_inj (isShown_outline? exc) (isShown_outline? exc') hfields
      obtain ⟨hcause, -⟩ := fields_inj (isShown_outline? cause) (isShown_outline? cause') hfields
      rw [map, map, mapOption_eq_of_sketch exc exc' hs.1 hs'.1 hexc,
        mapOption_eq_of_sketch cause cause' hs.2 hs'.2 hcause]
    | _ => cases htag
  | .tryExcept m body handlers orelse final, s', hs, hs', h => by
    have htag := tag_eq_of_sketch h
    cases s' with
    | tryExcept m' body' handlers' orelse' final' =>
      obtain ⟨-, hfields⟩ := ofNode_inj h
      obtain ⟨hbody, hfields⟩ := fields_inj rfl rfl hfields
      obtain ⟨hhandlers, hfields⟩ := fields_inj rfl rfl hfields
      obtain ⟨horelse, hfields⟩ := fields_inj rfl rfl hfields
      obtain ⟨hfinal, -⟩ := fields_inj rfl rfl hfields
      rw [map, map, mapList_eq_of_outlines body body' hs.1 hs'.1 (list_inj hbody),
        mapHandlers_eq_of_outlines handlers handlers' hs.2.1 hs'.2.1 (list_inj hhandlers),
        mapList_eq_of_outlines orelse orelse' hs.2.2.1 hs'.2.2.1 (list_inj horelse),
        mapList_eq_of_outlines final final' hs.2.2.2 hs'.2.2.2 (list_inj hfinal)]
    | _ => cases htag
  | .assert m test msg, s', hs, hs', h => by
    have htag := tag_eq_of_sketch h
    cases s' with
    | assert m' test' msg' =>
      obtain ⟨-, hfields⟩ := ofNode_inj h
      obtain ⟨htest, hfields⟩ := fields_inj (isShown_outline test) (isShown_outline test') hfields
      obtain ⟨hmsg, -⟩ := fields_inj (isShown_outline? msg) (isShown_outline? msg') hfields
      rw [map, map, map_eq_of_sketch test test' hs.1 hs'.1 htest,
        mapOption_eq_of_sketch msg msg' hs.2 hs'.2 hmsg]
    | _ => cases htag
  | .imports m names, s', _, _, h => by
    have htag := tag_eq_of_sketch h
    cases s' with
    | imports m' names' =>
      obtain ⟨-, hfields⟩ := ofNode_inj h
      obtain ⟨hnames, -⟩ := fields_inj rfl rfl hfields
      rw [map, map, Alias.sketches_inj (list_inj hnames)]
    | _ => cases htag
  | .importFrom m module names level, s', _, _, h => by
    have htag := tag_eq_of_sketch h
    cases s' with
    | importFrom m' module' names' level' =>
      obtain ⟨-, hfields⟩ := ofNode_inj h
      obtain ⟨hmodule, hfields⟩ :=
        fields_inj (isShown_string? module) (isShown_string? module') hfields
      obtain ⟨hnames, hfields⟩ := fields_inj rfl rfl hfields
      obtain ⟨hlevel, -⟩ := fields_inj rfl rfl hfields
      rw [map, map, string?_inj hmodule, Alias.sketches_inj (list_inj hnames), number_inj hlevel]
    | _ => cases htag
  | .expr m value, s', hs, hs', h => by
    have htag := tag_eq_of_sketch h
    cases s' with
    | expr m' value' =>
      obtain ⟨-, hfields⟩ := ofNode_inj h
      obtain ⟨hvalue, -⟩ := fields_inj (isShown_outline value) (isShown_outline value') hfields
      rw [map, map, map_eq_of_sketch value value' hs hs' hvalue]
    | _ => cases htag
  | .pass m, s', _, _, h => by
    have htag := tag_eq_of_sketch h
    cases s' with
    | pass m' => rw [map, map]
    | _ => cases htag
  | .breakLoop m, s', _, _, h => by
    have htag := tag_eq_of_sketch h
    cases s' with
    | breakLoop m' => rw [map, map]
    | _ => cases htag
  | .continueLoop m, s', _, _, h => by
    have htag := tag_eq_of_sketch h
    cases s' with
    | continueLoop m' => rw [map, map]
    | _ => cases htag

theorem mapList_eq_of_outlines : ∀ (ss ss' : List (Stmt Mark)), AllLegible ss → AllLegible ss' →
    sketches (outlines ss) = sketches (outlines ss') →
      mapList (fun _ => c) ss = mapList (fun _ => c) ss'
  | [], [], _, _, _ => rfl
  | [], s' :: ss', _, _, h => by
    cases h
  | s :: ss, [], _, _, h => by
    cases h
  | s :: ss, s' :: ss', hs, hs', h => by
    obtain ⟨hhead, htail⟩ := List.cons.inj h
    rw [mapList, mapList, map_eq_of_outline s s' hs.1 hs'.1 hhead,
      mapList_eq_of_outlines ss ss' hs.2 hs'.2 htail]

theorem mapHandlers_eq_of_outlines :
    ∀ (handlers handlers' : List (Handler Mark (Expr Mark) (Stmt Mark))),
      HandlersLegible handlers → HandlersLegible handlers' →
      sketches (handlerOutlines handlers) = sketches (handlerOutlines handlers') →
        mapHandlers (fun _ => c) handlers = mapHandlers (fun _ => c) handlers'
  | [], [], _, _, _ => rfl
  | [], ⟨_, _, _, _⟩ :: _, _, _, h => by
    cases h
  | ⟨_, _, _, _⟩ :: _, [], _, _, h => by
    cases h
  | ⟨m, type, name, body⟩ :: rest, ⟨m', type', name', body'⟩ :: rest', hs, hs', h => by
    obtain ⟨hhead, htail⟩ := List.cons.inj h
    obtain ⟨-, hfields⟩ := ofNode_inj hhead
    obtain ⟨htype, hfields⟩ := fields_inj (isShown_outline? type) (isShown_outline? type') hfields
    obtain ⟨hname, hfields⟩ := fields_inj (isShown_string? name) (isShown_string? name') hfields
    obtain ⟨hbody, -⟩ := fields_inj rfl rfl hfields
    rw [mapHandlers, mapHandlers, mapOption_eq_of_sketch type type' hs.1 hs'.1 htype,
      string?_inj hname, mapList_eq_of_outlines body body' hs.2.1 hs'.2.1 (list_inj hbody),
      mapHandlers_eq_of_outlines rest rest' hs.2.2 hs'.2.2 htail]

end

end Stmt

/-- **Legible programs with the same short form are the same, up to annotations.** -/
theorem Root.map_eq_of_dump (c : β) {r r' : Root Mark} (h : r.Legible) (h' : r'.Legible)
    (hdump : r.dump = r'.dump) : r.map (fun _ => c) = r'.map fun _ => c := by
  have hshape := sketch_eq_of_dump r.plain_outline r'.plain_outline hdump
  cases r with
  | module m body =>
    cases r' with
    | module m' body' =>
      obtain ⟨-, hfields⟩ := ofNode_inj hshape
      obtain ⟨hbody, -⟩ := fields_inj rfl rfl hfields
      exact congrArg (Root.module c) (Stmt.mapList_eq_of_outlines body body' h h' (list_inj hbody))
    | expression m' e' => cases (ofNode_inj hshape).1
  | expression m e =>
    cases r' with
    | module m' body' => cases (ofNode_inj hshape).1
    | expression m' e' =>
      obtain ⟨-, hfields⟩ := ofNode_inj hshape
      obtain ⟨hbody, -⟩ := fields_inj e.isShown_outline e'.isShown_outline hfields
      exact congrArg (Root.expression c) (Expr.map_eq_of_sketch e e' h h' hbody)

example : Root.dump
    (.expression ⟨3, {}⟩
      (.boolOp ⟨2, {}⟩ .and [.name ⟨0, {}⟩ "x" .load, .constant ⟨1, {}⟩ .none])) =
    "Expression(BoolOp(And, [Name('x'), Constant(None)]))" := by
  decide +kernel

end Toolchain

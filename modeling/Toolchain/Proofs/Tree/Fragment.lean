import Toolchain.Proofs.Parser.Program
import Toolchain.Proofs.Tree.Dump

/-!
# The short form tells parsed trees apart

What the parser makes is a program, and all that stands in it: statements, expressions, and the
expressions inside these. Two such fragments have the same short form exactly when they are the same
up to annotations. One half is that the short form of what the grammar makes leaves nothing out but
annotations; the other is that it has nothing of them in it.

## Main definitions

* `Outline.Alike`: outlines that are shown alike
* `Fragment`, `Fragment.children`: programs, statements and expressions, and what they are made of
* `Fragment.IsParsed`: what the parser makes

## Main results

* `Expr.alike_map`, `Stmt.alike_map`: what is shown does not depend on annotations
* `Fragment.IsParsed.legible`: the short form of what the parser makes leaves nothing out
* `Fragment.dump_eq_iff`: **parsed fragments with the same short form are those that agree up to
  annotations**
-/

namespace Toolchain

/-! ## What is shown does not depend on annotations -/

namespace Outline

/-- Outlines that are shown alike. -/
structure Alike (o o' : Outline) : Prop where
  shown : o.isShown = o'.isShown
  sketch : o.sketch = o'.sketch

namespace Alike

theorem refl (o : Outline) : Alike o o := ⟨rfl, rfl⟩

theorem sketches_eq {os os' : List Outline} (h : List.Forall₂ Alike os os') :
    sketches os = sketches os' := by
  induction h with
  | nil => rfl
  | cons hhead _ ih => rw [sketches, sketches, hhead.sketch, ih]

theorem fieldSketches_eq {fields fields' : List (String × Outline)}
    (h : List.Forall₂ (fun f f' => Alike f.2 f'.2) fields fields') :
    fieldSketches fields = fieldSketches fields' := by
  induction h with
  | nil => rfl
  | cons hhead _ ih => rw [fieldSketches, fieldSketches, hhead.shown, hhead.sketch, ih]

/-- Lists of outlines that are shown alike. -/
theorem list {os os' : List Outline} (h : List.Forall₂ Alike os os') :
    Alike (.list os) (.list os') := by
  constructor
  · rfl
  · rw [Outline.sketch, Outline.sketch, sketches_eq h]

/-- Nodes with the same label, whatever their positions. -/
theorem node (label : String) {pos pos' : Option Position}
    {fields fields' : List (String × Outline)}
    (h : List.Forall₂ (fun f f' => Alike f.2 f'.2) fields fields') :
    Alike (.node label pos fields) (.node label pos' fields') := by
  constructor
  · rfl
  · have hfields := fieldSketches_eq h
    cases h with
    | nil => rw [Outline.sketch, Outline.sketch]
    | cons hhead htail => rw [Outline.sketch, Outline.sketch, hfields]

/-- Outlines that are shown alike have the same short form. -/
theorem dump_eq {o o' : Outline} (h : Alike o o') : o.dump = o'.dump := by
  apply String.toList_inj.mp
  rw [toList_dump, toList_dump, h.sketch]

end Alike

end Outline

open Outline

section Annotations

variable {β : Type} (f : Mark → β) (g : β → Mark)

namespace Param

theorem alike_map (p : Param Mark) : Alike ((p.map f).map g).outline p.outline :=
  .node _ (.cons (.refl _) .nil)

theorem alike_map? (p : Option (Param Mark)) :
    Alike (outline? ((p.map (Param.map f)).map (Param.map g))) (outline? p) := by
  cases p with
  | none => exact .refl _
  | some p => exact p.alike_map f g

theorem alike_maps (ps : List (Param Mark)) :
    List.Forall₂ Alike (((ps.map (Param.map f)).map (Param.map g)).map outline)
      (ps.map outline) := by
  induction ps with
  | nil => exact .nil
  | cons p ps ih => exact .cons (p.alike_map f g) ih

end Param

theorem alike_signatureOutline (params : List (Param Mark)) {defaults defaults' : List Outline}
    (h : List.Forall₂ Alike defaults defaults') (vararg kwarg : Option (Param Mark)) :
    Alike (signatureOutline ((params.map (Param.map f)).map (Param.map g)) defaults
        ((vararg.map (Param.map f)).map (Param.map g))
          ((kwarg.map (Param.map f)).map (Param.map g)))
      (signatureOutline params defaults' vararg kwarg) :=
  .node _ (.cons (.list (Param.alike_maps f g params)) (.cons (.list h)
    (.cons (Param.alike_map? f g vararg) (.cons (Param.alike_map? f g kwarg) .nil))))

namespace Expr

theorem symbols_mapRest {α β : Type} (f : α → β) (rest : List (CompareOp × Expr α)) :
    (mapRest f rest).map (fun p => symbol p.1.name) = rest.map fun p => symbol p.1.name := by
  induction rest with
  | nil => rfl
  | cons p rest ih => rw [mapRest, List.map_cons, List.map_cons, ih]

mutual

/-- **What is shown of an expression does not depend on annotations.** -/
theorem alike_map : ∀ e : Expr Mark, Alike ((e.map f).map g).outline e.outline
  | .boolOp m op values => by
    exact .node _ (.cons (.refl _) (.cons (.list (alike_mapList values)) .nil))
  | .binOp m left op right => by
    exact .node _ (.cons (alike_map left) (.cons (.refl _) (.cons (alike_map right) .nil)))
  | .unaryOp m op operand => by
    exact .node _ (.cons (.refl _) (.cons (alike_map operand) .nil))
  | .lambda m ⟨params, defaults, vararg, kwarg⟩ body => by
    exact .node _ (.cons (alike_signatureOutline f g params (alike_mapList defaults) vararg kwarg)
      (.cons (alike_map body) .nil))
  | .dict m items => by
    exact .node _ (.cons (.list (alike_keys items)) (.cons (.list (alike_values items)) .nil))
  | .compare m left rest => by
    rw [map, map, outline, outline, symbols_mapRest, symbols_mapRest]
    exact .node _ (.cons (alike_map left)
      (.cons (.refl _) (.cons (.list (alike_mapRest rest)) .nil)))
  | .call m func args keywords => by
    exact .node _ (.cons (alike_map func) (.cons (.list (alike_mapList args))
      (.cons (.list (alike_mapKeywords keywords)) .nil)))
  | .constant m value => by
    exact .node _ (.cons (.refl _) .nil)
  | .attr m value label ctx => by
    exact .node _ (.cons (alike_map value) (.cons (.refl _) (.cons (.refl _) .nil)))
  | .subscript m value part ctx => by
    exact .node _ (.cons (alike_map value) (.cons (alike_map part) (.cons (.refl _) .nil)))
  | .name m id ctx => by
    exact .node _ (.cons (.refl _) (.cons (.refl _) .nil))
  | .list m elts ctx => by
    exact .node _ (.cons (.list (alike_mapList elts)) (.cons (.refl _) .nil))
  | .tuple m elts ctx => by
    exact .node _ (.cons (.list (alike_mapList elts)) (.cons (.refl _) .nil))
  | .slice m lower upper step => by
    exact .node _ (.cons (alike_mapOption lower) (.cons (alike_mapOption upper)
      (.cons (alike_mapOption step) .nil)))
  | .index m value => by
    exact .node _ (.cons (alike_map value) .nil)
  | .formatted m value conversion spec => by
    exact .node _ (.cons (alike_map value) (.cons (.refl _) (.cons (alike_mapOption spec) .nil)))

theorem alike_mapList : ∀ es : List (Expr Mark),
    List.Forall₂ Alike (outlines (mapList g (mapList f es))) (outlines es)
  | [] => .nil
  | e :: es => by
    exact .cons (alike_map e) (alike_mapList es)

theorem alike_mapOption : ∀ e : Option (Expr Mark),
    Alike (outline? (mapOption g (mapOption f e))) (outline? e)
  | none => .refl _
  | some e => by
    exact alike_map e

theorem alike_keys : ∀ items : List (Expr Mark × Expr Mark),
    List.Forall₂ Alike (keyOutlines (mapItems g (mapItems f items))) (keyOutlines items)
  | [] => .nil
  | (key, value) :: rest => by
    exact .cons (alike_map key) (alike_keys rest)

theorem alike_values : ∀ items : List (Expr Mark × Expr Mark),
    List.Forall₂ Alike (valueOutlines (mapItems g (mapItems f items))) (valueOutlines items)
  | [] => .nil
  | (key, value) :: rest => by
    exact .cons (alike_map value) (alike_values rest)

theorem alike_mapRest : ∀ rest : List (CompareOp × Expr Mark),
    List.Forall₂ Alike (operandOutlines (mapRest g (mapRest f rest))) (operandOutlines rest)
  | [] => .nil
  | (op, e) :: rest => by
    exact .cons (alike_map e) (alike_mapRest rest)

theorem alike_mapKeywords : ∀ keywords : List (KeywordArg Mark (Expr Mark)),
    List.Forall₂ Alike (keywordOutlines (mapKeywords g (mapKeywords f keywords)))
      (keywordOutlines keywords)
  | [] => .nil
  | ⟨m, key, value⟩ :: rest => by
    exact .cons (.node _ (.cons (.refl _) (.cons (alike_map value) .nil))) (alike_mapKeywords rest)

end

end Expr

theorem Signature.alike_mapExprs (s : Signature Mark (Expr Mark)) :
    Alike ((s.mapExprs f).mapExprs g).outline s.outline :=
  alike_signatureOutline f g s.params (Expr.alike_mapList f g s.defaults) s.vararg s.kwarg

theorem Alias.alike_maps (names : List (Alias Mark)) :
    List.Forall₂ Alike (((names.map (Alias.map f)).map (Alias.map g)).map Alias.outline)
      (names.map Alias.outline) := by
  induction names with
  | nil => exact .nil
  | cons a names ih => exact .cons (.node _ (.cons (.refl _) (.cons (.refl _) .nil))) ih

namespace Stmt

mutual

/-- **What is shown of a statement does not depend on annotations.** -/
theorem alike_map : ∀ s : Stmt Mark, Alike ((s.map f).map g).outline s.outline
  | .functionDef m name signature body => by
    exact .node _ (.cons (.refl _) (.cons (signature.alike_mapExprs f g)
      (.cons (.list (alike_mapList body)) .nil)))
  | .classDef m name bases body => by
    exact .node _ (.cons (.refl _) (.cons (.list (Expr.alike_mapList f g bases))
      (.cons (.list (alike_mapList body)) .nil)))
  | .ret m value => by
    exact .node _ (.cons (Expr.alike_mapOption f g value) .nil)
  | .delete m targets => by
    exact .node _ (.cons (.list (Expr.alike_mapList f g targets)) .nil)
  | .assign m targets value => by
    exact .node _ (.cons (.list (Expr.alike_mapList f g targets))
      (.cons (value.alike_map f g) .nil))
  | .augAssign m target op value => by
    exact .node _ (.cons (target.alike_map f g)
      (.cons (.refl _) (.cons (value.alike_map f g) .nil)))
  | .forLoop m target iter body => by
    exact .node _ (.cons (target.alike_map f g) (.cons (iter.alike_map f g)
      (.cons (.list (alike_mapList body)) (.cons (.refl _) .nil))))
  | .whileLoop m test body => by
    exact .node _ (.cons (test.alike_map f g) (.cons (.list (alike_mapList body))
      (.cons (.refl _) .nil)))
  | .ifElse m test body orelse => by
    exact .node _ (.cons (test.alike_map f g) (.cons (.list (alike_mapList body))
      (.cons (.list (alike_mapList orelse)) .nil)))
  | .raise m exc cause => by
    exact .node _ (.cons (Expr.alike_mapOption f g exc)
      (.cons (Expr.alike_mapOption f g cause) .nil))
  | .tryExcept m body handlers orelse final => by
    exact .node _ (.cons (.list (alike_mapList body)) (.cons (.list (alike_mapHandlers handlers))
      (.cons (.list (alike_mapList orelse)) (.cons (.list (alike_mapList final)) .nil))))
  | .assert m test msg => by
    exact .node _ (.cons (test.alike_map f g) (.cons (Expr.alike_mapOption f g msg) .nil))
  | .imports m names => by
    exact .node _ (.cons (.list (Alias.alike_maps f g names)) .nil)
  | .importFrom m module names level => by
    exact .node _ (.cons (.refl _) (.cons (.list (Alias.alike_maps f g names))
      (.cons (.refl _) .nil)))
  | .expr m value => by
    exact .node _ (.cons (value.alike_map f g) .nil)
  | .pass m | .breakLoop m | .continueLoop m => by
    exact .node _ .nil

theorem alike_mapList : ∀ ss : List (Stmt Mark),
    List.Forall₂ Alike (outlines (mapList g (mapList f ss))) (outlines ss)
  | [] => .nil
  | s :: ss => by
    exact .cons (alike_map s) (alike_mapList ss)

theorem alike_mapHandlers : ∀ handlers : List (Handler Mark (Expr Mark) (Stmt Mark)),
    List.Forall₂ Alike (handlerOutlines (mapHandlers g (mapHandlers f handlers)))
      (handlerOutlines handlers)
  | [] => .nil
  | ⟨m, type, name, body⟩ :: rest => by
    exact .cons (.node _ (.cons (Expr.alike_mapOption f g type) (.cons (.refl _)
      (.cons (.list (alike_mapList body)) .nil)))) (alike_mapHandlers rest)

end

end Stmt

theorem Root.alike_map (r : Root Mark) : Alike ((r.map f).map g).outline r.outline := by
  cases r with
  | module m body => exact .node _ (.cons (.list (Stmt.alike_mapList f g body)) .nil)
  | expression m e => exact .node _ (.cons (e.alike_map f g) .nil)

end Annotations

/-! ## Fragments -/

section

variable {α : Type}

/-- The expressions that an expression is made of. -/
def Expr.children : Expr α → List (Expr α)
  | .boolOp _ _ values => values
  | .binOp _ left _ right => [left, right]
  | .unaryOp _ _ operand => [operand]
  | .lambda _ signature body => signature.defaults ++ [body]
  | .dict _ items => items.flatMap fun p => [p.1, p.2]
  | .compare _ left rest => left :: rest.map Prod.snd
  | .call _ func args keywords => func :: args ++ keywords.map KeywordArg.value
  | .constant .. | .name .. => []
  | .attr _ value _ _ | .index _ value => [value]
  | .subscript _ value part _ => [value, part]
  | .list _ elts _ | .tuple _ elts _ => elts
  | .slice _ lower upper step => lower.toList ++ upper.toList ++ step.toList
  | .formatted _ value _ spec => value :: spec.toList

/-- The expressions that a statement is made of. -/
def Stmt.expressions : Stmt α → List (Expr α)
  | .functionDef _ _ signature _ => signature.defaults
  | .classDef _ _ bases _ => bases
  | .ret _ value => value.toList
  | .delete _ targets => targets
  | .assign _ targets value => targets ++ [value]
  | .augAssign _ target _ value => [target, value]
  | .forLoop _ target iter _ => [target, iter]
  | .whileLoop _ test _ | .ifElse _ test _ _ => [test]
  | .raise _ exc cause => exc.toList ++ cause.toList
  | .tryExcept _ _ handlers _ _ => handlers.flatMap fun h => h.type.toList
  | .assert _ test msg => test :: msg.toList
  | .expr _ value => [value]
  | .imports .. | .importFrom .. | .pass _ | .breakLoop _ | .continueLoop _ => []

/-- The statements that a statement is made of. -/
def Stmt.children : Stmt α → List (Stmt α)
  | .functionDef _ _ _ body | .classDef _ _ _ body | .forLoop _ _ _ body | .whileLoop _ _ body =>
    body
  | .ifElse _ _ body orelse => body ++ orelse
  | .tryExcept _ body handlers orelse final =>
    body ++ handlers.flatMap Handler.body ++ orelse ++ final
  | .ret .. | .delete .. | .assign .. | .augAssign .. | .raise .. | .assert ..
  | .expr .. | .imports ..
  | .importFrom .. | .pass _ | .breakLoop _ | .continueLoop _ => []

end

/-- A program, or a statement or an expression in it. -/
inductive Fragment (α : Type) where
  | root (r : Root α)
  | stmt (s : Stmt α)
  | expr (e : Expr α)

namespace Fragment

section

variable {α : Type}

/-- The statements and expressions that a fragment is made of. -/
def children : Fragment α → List (Fragment α)
  | root (.module _ body) => body.map stmt
  | root (.expression _ e) => [expr e]
  | stmt s => s.expressions.map expr ++ s.children.map stmt
  | expr e => e.children.map expr

/-- Changes the annotations of a fragment. -/
def map {β : Type} (f : α → β) : Fragment α → Fragment β
  | root r => root (r.map f)
  | stmt s => stmt (s.map f)
  | expr e => expr (e.map f)

/-- A fragment without its annotations. -/
def erase (x : Fragment α) : Fragment Unit := x.map fun _ => ()

/-- A fragment whose short form leaves nothing out. -/
def Legible : Fragment α → Prop
  | root r => r.Legible
  | stmt s => s.Legible
  | expr e => e.Legible

end

/-- What is shown of a fragment. -/
def outline : Fragment Mark → Outline
  | root r => r.outline
  | stmt s => s.outline
  | expr e => e.outline

/-- The short form of a fragment. -/
def dump (x : Fragment Mark) : String := x.outline.dump

/-- What the parser makes: a program or a single expression, and all that stands in these. -/
inductive IsParsed : Fragment Mark → Prop
  | module {file source : Text} {p : Parsed} (h : (parseModule file source).1 = .ok p) :
    IsParsed (root p.root)
  | expression {file source : Text} {p : Parsed}
    (h : (parseExpression file source).1 = .ok p) : IsParsed (root p.root)
  | child {x y : Fragment Mark} (hx : IsParsed x) (hy : y ∈ x.children) : IsParsed y

end Fragment

/-! ## What stands in a legible fragment is legible -/

section

variable {α : Type}

namespace Expr

theorem AllLegible.of_mem {es : List (Expr α)} (h : AllLegible es) : ∀ e ∈ es, e.Legible := by
  induction es with
  | nil => exact fun e he => absurd he List.not_mem_nil
  | cons e es ih =>
    exact List.forall_mem_cons.mpr ⟨h.1, ih h.2⟩

theorem OptionLegible.of_mem {e : Option (Expr α)} (h : OptionLegible e) :
    ∀ e' ∈ e.toList, e'.Legible := by
  cases e with
  | none => exact fun e he => absurd he List.not_mem_nil
  | some e =>
    exact List.forall_mem_singleton.mpr h

theorem ItemsLegible.of_mem {items : List (Expr α × Expr α)} (h : ItemsLegible items) :
    ∀ e ∈ items.flatMap fun p => [p.1, p.2], e.Legible := by
  induction items with
  | nil => exact fun e he => absurd he List.not_mem_nil
  | cons p items ih =>
    obtain ⟨key, value⟩ := p
    exact List.forall_mem_cons.mpr ⟨h.1, List.forall_mem_cons.mpr ⟨h.2.1, ih h.2.2⟩⟩

theorem RestLegible.of_mem {rest : List (CompareOp × Expr α)} (h : RestLegible rest) :
    ∀ e ∈ rest.map Prod.snd, e.Legible := by
  induction rest with
  | nil => exact fun e he => absurd he List.not_mem_nil
  | cons p rest ih =>
    obtain ⟨op, e⟩ := p
    exact List.forall_mem_cons.mpr ⟨h.1, ih h.2⟩

theorem KeywordsLegible.of_mem {keywords : List (KeywordArg α (Expr α))}
    (h : KeywordsLegible keywords) : ∀ e ∈ keywords.map KeywordArg.value, e.Legible := by
  induction keywords with
  | nil => exact fun e he => absurd he List.not_mem_nil
  | cons k keywords ih =>
    obtain ⟨m, key, value⟩ := k
    exact List.forall_mem_cons.mpr ⟨h.2.1, ih h.2.2⟩

theorem Legible.children {e : Expr α} (h : e.Legible) : ∀ x ∈ e.children, x.Legible := by
  cases e with
  | boolOp m op values =>
    exact h.of_mem
  | binOp m left op right =>
    exact List.forall_mem_cons.mpr ⟨h.1, List.forall_mem_singleton.mpr h.2⟩
  | unaryOp m op operand =>
    exact List.forall_mem_singleton.mpr h
  | lambda m signature body =>
    obtain ⟨params, defaults, vararg, kwarg⟩ := signature
    exact List.forall_mem_append.mpr ⟨h.1.of_mem, List.forall_mem_singleton.mpr h.2⟩
  | dict m items =>
    exact h.of_mem
  | compare m left rest =>
    exact List.forall_mem_cons.mpr ⟨h.1, h.2.of_mem⟩
  | call m func args keywords =>
    exact List.forall_mem_append.mpr ⟨List.forall_mem_cons.mpr ⟨h.1, h.2.1.of_mem⟩, h.2.2.of_mem⟩
  | constant m value | name m id ctx => exact fun x hx => absurd hx List.not_mem_nil
  | attr m value label ctx | index m value =>
    exact List.forall_mem_singleton.mpr h
  | subscript m value part ctx =>
    exact List.forall_mem_cons.mpr ⟨h.1, List.forall_mem_singleton.mpr h.2⟩
  | list m elts ctx | tuple m elts ctx =>
    exact h.of_mem
  | slice m lower upper step =>
    exact List.forall_mem_append.mpr
      ⟨List.forall_mem_append.mpr ⟨h.1.of_mem, h.2.1.of_mem⟩, h.2.2.of_mem⟩
  | formatted m value conversion spec =>
    exact List.forall_mem_cons.mpr ⟨h.1, h.2.of_mem⟩

end Expr

namespace Stmt

theorem AllLegible.of_mem {ss : List (Stmt α)} (h : AllLegible ss) : ∀ s ∈ ss, s.Legible := by
  induction ss with
  | nil => exact fun s hs => absurd hs List.not_mem_nil
  | cons s ss ih =>
    exact List.forall_mem_cons.mpr ⟨h.1, ih h.2⟩

theorem HandlersLegible.expressions {handlers : List (Handler α (Expr α) (Stmt α))}
    (h : HandlersLegible handlers) : ∀ e ∈ handlers.flatMap fun h => h.type.toList, e.Legible := by
  induction handlers with
  | nil => exact fun e he => absurd he List.not_mem_nil
  | cons handler handlers ih =>
    obtain ⟨m, type, name, body⟩ := handler
    exact List.forall_mem_append.mpr ⟨h.1.of_mem, ih h.2.2⟩

theorem HandlersLegible.children {handlers : List (Handler α (Expr α) (Stmt α))}
    (h : HandlersLegible handlers) : ∀ s ∈ handlers.flatMap Handler.body, s.Legible := by
  induction handlers with
  | nil => exact fun s hs => absurd hs List.not_mem_nil
  | cons handler handlers ih =>
    obtain ⟨m, type, name, body⟩ := handler
    exact List.forall_mem_append.mpr ⟨h.2.1.of_mem, ih h.2.2⟩

theorem Legible.expressions {s : Stmt α} (h : s.Legible) : ∀ e ∈ s.expressions, e.Legible := by
  cases s with
  | functionDef m name signature body | classDef m name bases body =>
    exact h.1.of_mem
  | ret m value | delete m targets =>
    exact h.of_mem
  | assign m targets value =>
    exact List.forall_mem_append.mpr ⟨h.1.of_mem, List.forall_mem_singleton.mpr h.2⟩
  | augAssign m target op value =>
    exact List.forall_mem_cons.mpr ⟨h.1, List.forall_mem_singleton.mpr h.2⟩
  | forLoop m target iter body =>
    exact List.forall_mem_cons.mpr ⟨h.1, List.forall_mem_singleton.mpr h.2.1⟩
  | whileLoop m test body | ifElse m test body orelse =>
    exact List.forall_mem_singleton.mpr h.1
  | raise m exc cause =>
    exact List.forall_mem_append.mpr ⟨h.1.of_mem, h.2.of_mem⟩
  | tryExcept m body handlers orelse final =>
    exact h.2.1.expressions
  | assert m test msg =>
    exact List.forall_mem_cons.mpr ⟨h.1, h.2.of_mem⟩
  | expr m value =>
    exact List.forall_mem_singleton.mpr h
  | imports m names | importFrom m module names level | pass m | breakLoop m | continueLoop m =>
    exact fun e he => absurd he List.not_mem_nil

theorem Legible.children {s : Stmt α} (h : s.Legible) : ∀ x ∈ s.children, x.Legible := by
  cases s with
  | functionDef m name signature body | classDef m name bases body | whileLoop m test body =>
    exact h.2.of_mem
  | forLoop m target iter body =>
    exact h.2.2.of_mem
  | ifElse m test body orelse =>
    exact List.forall_mem_append.mpr ⟨h.2.1.of_mem, h.2.2.of_mem⟩
  | tryExcept m body handlers orelse final =>
    obtain ⟨hbody, hhandlers, horelse, hfinal⟩ := h
    have hinner := List.forall_mem_append.mpr ⟨hbody.of_mem, hhandlers.children⟩
    exact List.forall_mem_append.mpr
      ⟨List.forall_mem_append.mpr ⟨hinner, horelse.of_mem⟩, hfinal.of_mem⟩
  | ret m value | delete m targets | assign m targets value | augAssign m target op value
  | raise m exc cause | assert m test msg | expr m value | imports m names
  | importFrom m module names level | pass m | breakLoop m | continueLoop m =>
    exact fun x hx => absurd hx List.not_mem_nil

end Stmt

theorem Fragment.Legible.children {x : Fragment α} (h : x.Legible) :
    ∀ y ∈ x.children, y.Legible := by
  cases x with
  | root r =>
    cases r with
    | module m body => exact List.forall_mem_map.mpr (Stmt.AllLegible.of_mem h)
    | expression m e => exact List.forall_mem_singleton.mpr h
  | stmt s =>
    have hs : s.Legible := h
    exact List.forall_mem_append.mpr
      ⟨List.forall_mem_map.mpr hs.expressions, List.forall_mem_map.mpr hs.children⟩
  | expr e =>
    have he : e.Legible := h
    exact List.forall_mem_map.mpr he.children

end

/-! ## Parsed fragments -/

namespace Fragment

/-- **The short form of what the parser makes leaves nothing out.** -/
theorem IsParsed.legible {x : Fragment Mark} (h : x.IsParsed) : x.Legible := by
  induction h with
  | module h => exact (isModule_of_parseModule h).wellFormed.legible
  | expression h => exact (isExpression_of_parseExpression h).wellFormed.legible
  | child hx hy ih => exact ih.children _ hy

/-- What is shown of a fragment does not depend on annotations. -/
theorem alike_map {β : Type} (f : Mark → β) (g : β → Mark) (x : Fragment Mark) :
    Alike ((x.map f).map g).outline x.outline := by
  cases x with
  | root r => exact r.alike_map f g
  | stmt s => exact s.alike_map f g
  | expr e => exact e.alike_map f g

/-- Fragments that agree up to annotations are shown alike. -/
theorem dump_eq_of_erase {a b : Fragment Mark} (h : a.erase = b.erase) : a.dump = b.dump := by
  -- each is shown like the fragment that has the same annotation everywhere
  let mark : Unit → Mark := fun _ => ⟨0, {}⟩
  calc a.dump
    _ = (a.erase.map mark).dump := (a.alike_map (fun _ => ()) mark).dump_eq.symm
    _ = (b.erase.map mark).dump := by rw [h]
    _ = b.dump := (b.alike_map (fun _ => ()) mark).dump_eq

/-- The kind of the node at the top of a fragment. -/
def tag {α : Type} : Fragment α → NodeTag
  | root r => r.tag
  | stmt s => s.tag
  | expr e => e.tag

theorem exists_outline (x : Fragment Mark) :
    ∃ m fields, x.outline = ofNode x.tag m fields := by
  cases x with
  | root r => cases r <;> exact ⟨_, _, rfl⟩
  | stmt s => exact s.exists_outline
  | expr e => exact e.exists_outline

theorem plain_outline (x : Fragment Mark) : x.outline.sketch.Plain := by
  cases x with
  | root r => exact r.plain_outline
  | stmt s => exact s.plain_outline
  | expr e => exact e.plain_outline

/-- Programs, statements and expressions have nodes of different classes at their top. -/
theorem nodeClass_tag {α : Type} (x : Fragment α) :
    x.tag.nodeClass = match x with
      | root _ => .mods
      | stmt _ => .stmts
      | expr _ => .exprs := by
  cases x with
  | root r => cases r <;> rfl
  | stmt s => cases s <;> rfl
  | expr e => cases e <;> rfl

/-- Legible fragments that are shown alike agree up to annotations. -/
theorem Legible.erase_eq {a b : Fragment Mark} (ha : a.Legible) (hb : b.Legible)
    (h : a.dump = b.dump) : a.erase = b.erase := by
  have hsketch := sketch_eq_of_dump a.plain_outline b.plain_outline h
  have hclass : a.tag.nodeClass = b.tag.nodeClass := by
    obtain ⟨m, fields, hout⟩ := a.exists_outline
    obtain ⟨m', fields', hout'⟩ := b.exists_outline
    rw [hout, hout'] at hsketch
    rw [(ofNode_inj hsketch).1]
  rw [nodeClass_tag, nodeClass_tag] at hclass
  cases a with
  | root r =>
    cases b with
    | root r' => exact congrArg root (Root.map_eq_of_dump () ha hb h)
    | stmt s' => cases hclass
    | expr e' => cases hclass
  | stmt s =>
    cases b with
    | root r' => cases hclass
    | stmt s' => exact congrArg stmt (Stmt.map_eq_of_outline s s' ha hb hsketch)
    | expr e' => cases hclass
  | expr e =>
    cases b with
    | root r' => cases hclass
    | stmt s' => cases hclass
    | expr e' => exact congrArg expr (Expr.map_eq_of_sketch e e' ha hb hsketch)

/-- **The short form identifies what the parser makes.** Two parsed programs, statements or
expressions have the same short form if and only if they are the same up to annotations. -/
theorem dump_eq_iff {a b : Fragment Mark} (ha : a.IsParsed) (hb : b.IsParsed) :
    a.dump = b.dump ↔ a.erase = b.erase := by
  constructor
  · exact ha.legible.erase_eq hb.legible
  · exact dump_eq_of_erase

/-- The same program, laid out in two ways. -/
def layouts : Text × Text := ("f(-x, y=[1, 'a'])\n", "f( - x , y = [ 0x1,\n  \"a\" ] )")

theorem dump_eq_iff_layouts :
    ∃ p q : Parsed, (parseModule "m" layouts.1).1 = .ok p ∧ (parseModule "m" layouts.2).1 = .ok q ∧
      p.root.dump = q.root.dump ∧ p.root.erase = q.root.erase := by
  obtain ⟨p, hp, hany⟩ : ∃ p, (parseModule "m" layouts.1).1 = .ok p ∧
      ((parseModule "m" layouts.2).1.toOption.any fun q => p.root.dump == q.root.dump) = true :=
    exists_of_any (q := fun p : Parsed => (parseModule "m" layouts.2).1.toOption.any
      fun q => p.root.dump == q.root.dump) (by decide +kernel)
  obtain ⟨q, hq, hdump⟩ := exists_of_any hany
  have hdump : p.root.dump = q.root.dump := eq_of_beq hdump
  have herase := (dump_eq_iff (.module hp) (.module hq)).mp hdump
  exact ⟨p, q, hp, hq, hdump, root.inj herase⟩

end Fragment

end Toolchain

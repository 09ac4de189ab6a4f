import Toolchain.Tree.Basic

/-!
# Trees without annotations

Erasing the annotations of an expression or a statement erases those of its parts. What a rule of
the grammar looks at in an expression it has made can be seen without annotations.

## Main results

* `Expr.erase_boolOp`, `Expr.erase_compare` and the other constructors: what is left of an
  expression
* `Expr.withContext?_erase`: what an expression is as a place
* `Stmt.erase_ifElse`, `Stmt.erase_tryExcept` and the other constructors: what is left of a
  statement
-/

namespace Toolchain

/-- A keyword argument without annotations. -/
def KeywordArg.erase {α : Type} (k : KeywordArg α (Expr α)) : KeywordArg Unit (Expr Unit) :=
  ⟨(), k.name, k.value.erase⟩

/-- A parameter without its annotation. -/
def Param.erase {α : Type} (p : Param α) : Param Unit := p.map fun _ => ()

/-- A signature without annotations. -/
def Signature.erase {α : Type} (s : Signature α (Expr α)) : Signature Unit (Expr Unit) :=
  ⟨s.params.map Param.erase, s.defaults.map Expr.erase, s.vararg.map Param.erase,
    s.kwarg.map Param.erase⟩

namespace Expr

variable {α β : Type} (f : α → β) (m : α)

theorem mapList_eq (es : List (Expr α)) : mapList f es = es.map (map f) := by
  induction es with
  | nil => rw [mapList, List.map_nil]
  | cons e es ih => rw [mapList, List.map_cons, ih]

theorem mapOption_eq (e : Option (Expr α)) : mapOption f e = e.map (map f) := by
  cases e with
  | none => rw [mapOption, Option.map_none]
  | some e => rw [mapOption, Option.map_some]

theorem mapItems_eq (items : List (Expr α × Expr α)) :
    mapItems f items = items.map fun p => (p.1.map f, p.2.map f) := by
  induction items with
  | nil => rw [mapItems, List.map_nil]
  | cons p items ih => rw [mapItems, List.map_cons, ih]

theorem mapRest_eq (rest : List (CompareOp × Expr α)) :
    mapRest f rest = rest.map fun p => (p.1, p.2.map f) := by
  induction rest with
  | nil => rw [mapRest, List.map_nil]
  | cons p rest ih => rw [mapRest, List.map_cons, ih]

theorem mapKeywords_eq (keywords : List (KeywordArg α (Expr α))) :
    mapKeywords f keywords = keywords.map fun k => ⟨f k.mark, k.name, k.value.map f⟩ := by
  induction keywords with
  | nil => rw [mapKeywords, List.map_nil]
  | cons k keywords ih => rw [mapKeywords, List.map_cons, ih]

@[simp] theorem erase_boolOp (op : BoolOp) (values : List (Expr α)) :
    (boolOp m op values).erase = .boolOp () op (values.map erase) :=
  congrArg (boolOp () op) (mapList_eq _ values)

@[simp] theorem erase_binOp (left : Expr α) (op : BinaryOp) (right : Expr α) :
    (binOp m left op right).erase = .binOp () left.erase op right.erase := rfl

@[simp] theorem erase_unaryOp (op : UnaryOp) (operand : Expr α) :
    (unaryOp m op operand).erase = .unaryOp () op operand.erase := rfl

@[simp] theorem erase_lambda (s : Signature α (Expr α)) (body : Expr α) :
    (lambda m s body).erase = .lambda () s.erase body.erase :=
  congrArg (fun defaults => lambda () ⟨s.params.map Param.erase, defaults, s.vararg.map Param.erase,
    s.kwarg.map Param.erase⟩ body.erase) (mapList_eq _ s.defaults)

@[simp] theorem erase_dict (items : List (Expr α × Expr α)) :
    (dict m items).erase = .dict () (items.map fun p => (p.1.erase, p.2.erase)) :=
  congrArg (dict ()) (mapItems_eq _ items)

@[simp] theorem erase_compare (left : Expr α) (rest : List (CompareOp × Expr α)) :
    (compare m left rest).erase = .compare () left.erase (rest.map fun p => (p.1, p.2.erase)) :=
  congrArg (compare () left.erase) (mapRest_eq _ rest)

@[simp] theorem erase_call (func : Expr α) (args : List (Expr α))
    (keywords : List (KeywordArg α (Expr α))) :
    (call m func args keywords).erase =
      .call () func.erase (args.map erase) (keywords.map KeywordArg.erase) := by
  show Expr.call () (map _ func) (mapList _ args) (mapKeywords _ keywords) = _
  rw [mapList_eq, mapKeywords_eq]
  rfl

@[simp] theorem erase_constant (value : Literal) :
    (constant m value : Expr α).erase = .constant () value := rfl

@[simp] theorem erase_attr (value : Expr α) (name : String) (ctx : Context) :
    (attr m value name ctx).erase = .attr () value.erase name ctx := rfl

@[simp] theorem erase_subscript (value part : Expr α) (ctx : Context) :
    (subscript m value part ctx).erase = .subscript () value.erase part.erase ctx := rfl

@[simp] theorem erase_name (id : String) (ctx : Context) :
    (name m id ctx : Expr α).erase = .name () id ctx := rfl

@[simp] theorem erase_list (elts : List (Expr α)) (ctx : Context) :
    (list m elts ctx).erase = .list () (elts.map erase) ctx :=
  congrArg (fun elts => list () elts ctx) (mapList_eq _ elts)

@[simp] theorem erase_tuple (elts : List (Expr α)) (ctx : Context) :
    (tuple m elts ctx).erase = .tuple () (elts.map erase) ctx :=
  congrArg (fun elts => tuple () elts ctx) (mapList_eq _ elts)

@[simp] theorem erase_slice (lower upper step : Option (Expr α)) :
    (slice m lower upper step).erase =
      .slice () (lower.map erase) (upper.map erase) (step.map erase) := by
  show Expr.slice () (mapOption _ lower) (mapOption _ upper) (mapOption _ step) = _
  rw [mapOption_eq, mapOption_eq, mapOption_eq]
  rfl

@[simp] theorem erase_index (value : Expr α) : (index m value).erase = .index () value.erase := rfl

@[simp] theorem erase_formatted (value : Expr α) (conversion : Option Conversion)
    (spec : Option (Expr α)) :
    (formatted m value conversion spec).erase =
      .formatted () value.erase conversion (spec.map erase) :=
  congrArg (formatted () value.erase conversion) (mapOption_eq _ spec)

/-! ### Places -/

mutual

/-- What an expression is as a place can be seen without annotations. -/
theorem withContext?_erase (ctx : Context) : ∀ e : Expr α,
    withContext? ctx e.erase = (withContext? ctx e).map erase
  | name .. | attr .. => rfl
  | subscript .. => rfl
  | list m elts c => by
    rw [erase_list, withContext?, withContext?, withContexts?_erase ctx elts, Option.map_map,
      Option.map_map]
    congr 1
    funext elts
    exact (erase_list m elts ctx).symm
  | tuple m elts c => by
    rw [erase_tuple, withContext?, withContext?, withContexts?_erase ctx elts, Option.map_map,
      Option.map_map]
    congr 1
    funext elts
    exact (erase_tuple m elts ctx).symm
  | boolOp m op values => by
    rw [erase_boolOp]
    rfl
  | binOp .. | unaryOp .. => rfl
  | lambda m s body => by
    rw [erase_lambda]
    rfl
  | dict m items => by
    rw [erase_dict]
    rfl
  | compare m left rest => by
    rw [erase_compare]
    rfl
  | call m func args keywords => by
    rw [erase_call]
    rfl
  | constant .. => rfl
  | slice .. => rfl
  | index .. => rfl
  | formatted .. => rfl

theorem withContexts?_erase (ctx : Context) : ∀ es : List (Expr α),
    withContexts? ctx (es.map erase) = (withContexts? ctx es).map (List.map erase)
  | [] => rfl
  | e :: es => by
    rw [List.map_cons, withContexts?, withContexts?, withContext?_erase ctx e]
    cases withContext? ctx e with
    | none => rfl
    | some t =>
      simp only [Option.map_some]
      rw [withContexts?_erase ctx es, Option.map_map, Option.map_map]
      rfl

end

theorem isPlace_erase (e : Expr α) : e.erase.isPlace = e.isPlace := by
  cases e <;> rfl

end Expr

/-! ## Statements -/

/-- A name in an import without its annotation. -/
def Alias.erase {α : Type} (a : Alias α) : Alias Unit := a.map fun _ => ()

/-- A handler without annotations. -/
def Handler.erase {α : Type} (h : Handler α (Expr α) (Stmt α)) :
    Handler Unit (Expr Unit) (Stmt Unit) :=
  ⟨(), h.type.map Expr.erase, h.name, h.body.map Stmt.erase⟩

namespace Stmt

variable {α β : Type} (m : α)

theorem mapList_eq (f : α → β) (ss : List (Stmt α)) : mapList f ss = ss.map (map f) := by
  induction ss with
  | nil => rw [mapList, List.map_nil]
  | cons s ss ih => rw [mapList, List.map_cons, ih]

theorem mapHandlers_eq (hs : List (Handler α (Expr α) (Stmt α))) :
    mapHandlers (fun _ => ()) hs = hs.map Handler.erase := by
  induction hs with
  | nil => rw [mapHandlers, List.map_nil]
  | cons h hs ih =>
    rw [mapHandlers, List.map_cons, ih, Expr.mapOption_eq, mapList_eq]
    rfl

@[simp] theorem erase_functionDef (name : String) (s : Signature α (Expr α))
    (body : List (Stmt α)) :
    (functionDef m name s body).erase = .functionDef () name s.erase (body.map erase) := by
  show Stmt.functionDef () name (s.mapExprs fun _ => ()) (mapList (fun _ => ()) body) = _
  rw [mapList_eq, Signature.mapExprs, Expr.mapList_eq]
  rfl

@[simp] theorem erase_classDef (name : String) (bases : List (Expr α)) (body : List (Stmt α)) :
    (classDef m name bases body).erase =
      .classDef () name (bases.map Expr.erase) (body.map erase) := by
  show Stmt.classDef () name (Expr.mapList (fun _ => ()) bases) (mapList (fun _ => ()) body) = _
  rw [mapList_eq, Expr.mapList_eq]
  rfl

@[simp] theorem erase_ret (value : Option (Expr α)) :
    (ret m value).erase = .ret () (value.map Expr.erase) :=
  congrArg (ret ()) (Expr.mapOption_eq _ value)

@[simp] theorem erase_delete (targets : List (Expr α)) :
    (delete m targets).erase = .delete () (targets.map Expr.erase) :=
  congrArg (delete ()) (Expr.mapList_eq _ targets)

@[simp] theorem erase_assign (targets : List (Expr α)) (value : Expr α) :
    (assign m targets value).erase = .assign () (targets.map Expr.erase) value.erase :=
  congrArg (fun ts => assign () ts value.erase) (Expr.mapList_eq _ targets)

@[simp] theorem erase_augAssign (target : Expr α) (op : BinaryOp) (value : Expr α) :
    (augAssign m target op value).erase = .augAssign () target.erase op value.erase := rfl

@[simp] theorem erase_forLoop (target iter : Expr α) (body : List (Stmt α)) :
    (forLoop m target iter body).erase = .forLoop () target.erase iter.erase (body.map erase) :=
  congrArg (forLoop () target.erase iter.erase) (mapList_eq _ body)

@[simp] theorem erase_whileLoop (test : Expr α) (body : List (Stmt α)) :
    (whileLoop m test body).erase = .whileLoop () test.erase (body.map erase) :=
  congrArg (whileLoop () test.erase) (mapList_eq _ body)

@[simp] theorem erase_ifElse (test : Expr α) (body orelse : List (Stmt α)) :
    (ifElse m test body orelse).erase =
      .ifElse () test.erase (body.map erase) (orelse.map erase) := by
  show Stmt.ifElse () test.erase (mapList (fun _ => ()) body) (mapList (fun _ => ()) orelse) = _
  rw [mapList_eq, mapList_eq]
  rfl

@[simp] theorem erase_raise (exc cause : Option (Expr α)) :
    (raise m exc cause).erase = .raise () (exc.map Expr.erase) (cause.map Expr.erase) := by
  show Stmt.raise () (Expr.mapOption _ exc) (Expr.mapOption _ cause) = _
  rw [Expr.mapOption_eq, Expr.mapOption_eq]
  rfl

@[simp] theorem erase_tryExcept (body : List (Stmt α))
    (handlers : List (Handler α (Expr α) (Stmt α)))
    (orelse final : List (Stmt α)) :
    (tryExcept m body handlers orelse final).erase =
      .tryExcept () (body.map erase) (handlers.map Handler.erase) (orelse.map erase)
        (final.map erase) := by
  show Stmt.tryExcept () (mapList (fun _ => ()) body) (mapHandlers (fun _ => ()) handlers)
    (mapList (fun _ => ()) orelse) (mapList (fun _ => ()) final) = _
  rw [mapHandlers_eq, mapList_eq, mapList_eq, mapList_eq]
  rfl

@[simp] theorem erase_assert (test : Expr α) (msg : Option (Expr α)) :
    (assert m test msg).erase = .assert () test.erase (msg.map Expr.erase) :=
  congrArg (assert () test.erase) (Expr.mapOption_eq _ msg)

@[simp] theorem erase_imports (names : List (Alias α)) :
    (imports m names).erase = .imports () (names.map Alias.erase) := rfl

@[simp] theorem erase_importFrom (module : Option String) (names : List (Alias α)) (level : Nat) :
    (importFrom m module names level).erase =
      .importFrom () module (names.map Alias.erase) level := rfl

@[simp] theorem erase_expr (value : Expr α) : (expr m value).erase = .expr () value.erase := rfl

end Stmt

theorem Root.erase_module {α : Type} (m : α) (body : List (Stmt α)) :
    (Root.module m body).erase = .module () (body.map Stmt.erase) :=
  congrArg (Root.module ()) (Stmt.mapList_eq _ body)

end Toolchain

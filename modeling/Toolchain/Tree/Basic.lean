import Toolchain.Decimal.Binary64
import Toolchain.Operator
import Toolchain.Position

/-!
# Syntax trees

The tree of a program. Every node carries an annotation: a tree fresh from the parser is annotated
with the number and the position of each node, and two trees are the same program if they agree
once the annotations are erased.

## Main definitions

* `Literal`, `Context`, `Conversion`: the leaves
* `Expr`, `Stmt`, `Root`: expressions, statements and whole programs
* `Expr.withContext?`: an expression made a target
* `Expr.map`, `Stmt.map`, `Root.map`: change of annotations
-/

namespace Toolchain

/-- A literal value. -/
inductive Literal where
  | none
  | bool (b : Bool)
  | int (n : Int64)
  | float (x : Binary64)
  | str (s : String)
  deriving DecidableEq

/-- What is done with the place an expression names. -/
inductive Context where
  | load
  | store
  | del
  deriving DecidableEq, Repr

namespace Context

/-- The name of the context in a tree. -/
def name : Context → String
  | load => "Load"
  | store => "Store"
  | del => "Del"

end Context

/-- How the value of a replacement field is turned into a text. -/
inductive Conversion where
  | str
  | repr
  | ascii
  deriving DecidableEq, Repr

namespace Conversion

/-- The letter of the conversion. -/
def letter : Conversion → Char
  | str => 's'
  | repr => 'r'
  | ascii => 'a'

/-- The conversion with a given letter. -/
def ofLetter? : Char → Option Conversion
  | 's' => some str
  | 'r' => some repr
  | 'a' => some ascii
  | _ => none

end Conversion

/-- A parameter of a function. -/
structure Param (α : Type) where
  mark : α
  name : String
  deriving DecidableEq

/-- The parameters of a function. The defaults belong to the last of the plain parameters. -/
structure Signature (α ε : Type) where
  params : List (Param α) := []
  defaults : List ε := []
  /-- The parameter that takes the surplus of the positional arguments. -/
  vararg : Option (Param α) := none
  /-- The parameter that takes the surplus of the keyword arguments. -/
  kwarg : Option (Param α) := none

/-- A keyword argument; without a name, a mapping whose items are keyword arguments. -/
structure KeywordArg (α ε : Type) where
  mark : α
  name : Option String
  value : ε

/-- An expression. -/
inductive Expr (α : Type) where
  | boolOp (mark : α) (op : BoolOp) (values : List (Expr α))
  | binOp (mark : α) (left : Expr α) (op : BinaryOp) (right : Expr α)
  | unaryOp (mark : α) (op : UnaryOp) (operand : Expr α)
  | lambda (mark : α) (signature : Signature α (Expr α)) (body : Expr α)
  | dict (mark : α) (items : List (Expr α × Expr α))
  /-- A chain of comparisons: each operator stands before the operand it compares with. -/
  | compare (mark : α) (left : Expr α) (rest : List (CompareOp × Expr α))
  | call (mark : α) (func : Expr α) (args : List (Expr α))
      (keywords : List (KeywordArg α (Expr α)))
  | constant (mark : α) (value : Literal)
  | attr (mark : α) (value : Expr α) (name : String) (ctx : Context)
  | subscript (mark : α) (value : Expr α) (slice : Expr α) (ctx : Context)
  | name (mark : α) (id : String) (ctx : Context)
  | list (mark : α) (elts : List (Expr α)) (ctx : Context)
  | tuple (mark : α) (elts : List (Expr α)) (ctx : Context)
  | slice (mark : α) (lower upper step : Option (Expr α))
  | index (mark : α) (value : Expr α)
  /-- A replacement field of an f-string. -/
  | formatted (mark : α) (value : Expr α) (conversion : Option Conversion)
      (spec : Option (Expr α))

/-- A name in an import, with the name it is bound to. -/
structure Alias (α : Type) where
  mark : α
  name : String
  asName : Option String
  deriving DecidableEq

/-- A clause that handles exceptions; without a type, all of them. -/
structure Handler (α ε σ : Type) where
  mark : α
  type : Option ε
  name : Option String
  body : List σ

/-- A statement. An `elif` clause is a conditional that is all of its parent's `orelse`. -/
inductive Stmt (α : Type) where
  | functionDef (mark : α) (name : String) (signature : Signature α (Expr α)) (body : List (Stmt α))
  | classDef (mark : α) (name : String) (bases : List (Expr α)) (body : List (Stmt α))
  | ret (mark : α) (value : Option (Expr α))
  | delete (mark : α) (targets : List (Expr α))
  | assign (mark : α) (targets : List (Expr α)) (value : Expr α)
  | augAssign (mark : α) (target : Expr α) (op : BinaryOp) (value : Expr α)
  | forLoop (mark : α) (target iter : Expr α) (body : List (Stmt α))
  | whileLoop (mark : α) (test : Expr α) (body : List (Stmt α))
  | ifElse (mark : α) (test : Expr α) (body orelse : List (Stmt α))
  | raise (mark : α) (exc cause : Option (Expr α))
  | tryExcept (mark : α) (body : List (Stmt α)) (handlers : List (Handler α (Expr α) (Stmt α)))
      (orelse final : List (Stmt α))
  | assert (mark : α) (test : Expr α) (msg : Option (Expr α))
  | imports (mark : α) (names : List (Alias α))
  | importFrom (mark : α) (module : Option String) (names : List (Alias α)) (level : Nat)
  | expr (mark : α) (value : Expr α)
  | pass (mark : α)
  | breakLoop (mark : α)
  | continueLoop (mark : α)

/-- A whole program text: a sequence of statements, or a single expression. -/
inductive Root (α : Type) where
  | module (mark : α) (body : List (Stmt α))
  | expression (mark : α) (body : Expr α)

/-- The number and the position of a node. -/
structure Mark where
  id : Nat
  pos : Position
  deriving DecidableEq, Repr

namespace Expr

variable {α : Type}

/-- The annotation of an expression. -/
def mark : Expr α → α
  | boolOp m .. | binOp m .. | unaryOp m .. | lambda m .. | dict m .. | compare m .. | call m ..
  | constant m .. | attr m .. | subscript m .. | name m .. | list m .. | tuple m ..
  | slice m .. | index m .. | formatted m .. => m

mutual

/-- The expression as a place with the given context. Names, attributes and subscripts are places,
and so are tuples and lists of places; nothing else is. -/
def withContext? (ctx : Context) : Expr α → Option (Expr α)
  | name m id _ => some (name m id ctx)
  | attr m value label _ => some (attr m value label ctx)
  | subscript m value part _ => some (subscript m value part ctx)
  | list m elts _ => (withContexts? ctx elts).map fun elts => list m elts ctx
  | tuple m elts _ => (withContexts? ctx elts).map fun elts => tuple m elts ctx
  | _ => none

/-- The expressions as places, if all are. -/
def withContexts? (ctx : Context) : List (Expr α) → Option (List (Expr α))
  | [] => some []
  | e :: es =>
    match withContext? ctx e with
    | some e => (withContexts? ctx es).map (e :: ·)
    | none => none

end

/-- Whether an expression is a place that holds a single value. -/
def isPlace : Expr α → Bool
  | name .. | attr .. | subscript .. => true
  | _ => false

end Expr

section Annotations

variable {α β : Type} (f : α → β)

/-- Changes the annotation of a parameter. -/
def Param.map (p : Param α) : Param β := ⟨f p.mark, p.name⟩

/-- Changes the annotation of an alias. -/
def Alias.map (a : Alias α) : Alias β := ⟨f a.mark, a.name, a.asName⟩

mutual

/-- Changes the annotations of an expression. -/
def Expr.map : Expr α → Expr β
  | .boolOp m op values => .boolOp (f m) op (Expr.mapList values)
  | .binOp m left op right => .binOp (f m) (Expr.map left) op (Expr.map right)
  | .unaryOp m op operand => .unaryOp (f m) op (Expr.map operand)
  | .lambda m ⟨params, defaults, vararg, kwarg⟩ body =>
    .lambda (f m) ⟨params.map (Param.map f), Expr.mapList defaults, vararg.map (Param.map f),
      kwarg.map (Param.map f)⟩ (Expr.map body)
  | .dict m items => .dict (f m) (Expr.mapItems items)
  | .compare m left rest => .compare (f m) (Expr.map left) (Expr.mapRest rest)
  | .call m func args keywords =>
    .call (f m) (Expr.map func) (Expr.mapList args) (Expr.mapKeywords keywords)
  | .constant m value => .constant (f m) value
  | .attr m value label ctx => .attr (f m) (Expr.map value) label ctx
  | .subscript m value part ctx => .subscript (f m) (Expr.map value) (Expr.map part) ctx
  | .name m id ctx => .name (f m) id ctx
  | .list m elts ctx => .list (f m) (Expr.mapList elts) ctx
  | .tuple m elts ctx => .tuple (f m) (Expr.mapList elts) ctx
  | .slice m lower upper step =>
    .slice (f m) (Expr.mapOption lower) (Expr.mapOption upper) (Expr.mapOption step)
  | .index m value => .index (f m) (Expr.map value)
  | .formatted m value conversion spec =>
    .formatted (f m) (Expr.map value) conversion (Expr.mapOption spec)

/-- Changes the annotations of some expressions. -/
def Expr.mapList : List (Expr α) → List (Expr β)
  | [] => []
  | e :: es => Expr.map e :: Expr.mapList es

/-- Changes the annotations of an expression that may be missing. -/
def Expr.mapOption : Option (Expr α) → Option (Expr β)
  | none => none
  | some e => some (Expr.map e)

/-- Changes the annotations of the items of a dictionary. -/
def Expr.mapItems : List (Expr α × Expr α) → List (Expr β × Expr β)
  | [] => []
  | (key, value) :: rest => (Expr.map key, Expr.map value) :: Expr.mapItems rest

/-- Changes the annotations of the operands of a chain of comparisons. -/
def Expr.mapRest : List (CompareOp × Expr α) → List (CompareOp × Expr β)
  | [] => []
  | (op, e) :: rest => (op, Expr.map e) :: Expr.mapRest rest

/-- Changes the annotations of keyword arguments. -/
def Expr.mapKeywords : List (KeywordArg α (Expr α)) → List (KeywordArg β (Expr β))
  | [] => []
  | ⟨m, key, value⟩ :: rest => ⟨f m, key, Expr.map value⟩ :: Expr.mapKeywords rest

end

/-- Changes the annotations of a signature. -/
def Signature.mapExprs (s : Signature α (Expr α)) : Signature β (Expr β) :=
  ⟨s.params.map (Param.map f), Expr.mapList f s.defaults, s.vararg.map (Param.map f),
    s.kwarg.map (Param.map f)⟩

mutual

/-- Changes the annotations of a statement. -/
def Stmt.map : Stmt α → Stmt β
  | .functionDef m name signature body =>
    .functionDef (f m) name (signature.mapExprs f) (Stmt.mapList body)
  | .classDef m name bases body => .classDef (f m) name (Expr.mapList f bases) (Stmt.mapList body)
  | .ret m value => .ret (f m) (Expr.mapOption f value)
  | .delete m targets => .delete (f m) (Expr.mapList f targets)
  | .assign m targets value => .assign (f m) (Expr.mapList f targets) (value.map f)
  | .augAssign m target op value => .augAssign (f m) (target.map f) op (value.map f)
  | .forLoop m target iter body => .forLoop (f m) (target.map f) (iter.map f) (Stmt.mapList body)
  | .whileLoop m test body => .whileLoop (f m) (test.map f) (Stmt.mapList body)
  | .ifElse m test body orelse =>
    .ifElse (f m) (test.map f) (Stmt.mapList body) (Stmt.mapList orelse)
  | .raise m exc cause => .raise (f m) (Expr.mapOption f exc) (Expr.mapOption f cause)
  | .tryExcept m body handlers orelse final =>
    .tryExcept (f m) (Stmt.mapList body) (Stmt.mapHandlers handlers) (Stmt.mapList orelse)
      (Stmt.mapList final)
  | .assert m test msg => .assert (f m) (test.map f) (Expr.mapOption f msg)
  | .imports m names => .imports (f m) (names.map (Alias.map f))
  | .importFrom m module names level => .importFrom (f m) module (names.map (Alias.map f)) level
  | .expr m value => .expr (f m) (value.map f)
  | .pass m => .pass (f m)
  | .breakLoop m => .breakLoop (f m)
  | .continueLoop m => .continueLoop (f m)

/-- Changes the annotations of some statements. -/
def Stmt.mapList : List (Stmt α) → List (Stmt β)
  | [] => []
  | s :: ss => Stmt.map s :: Stmt.mapList ss

/-- Changes the annotations of exception handlers. -/
def Stmt.mapHandlers : List (Handler α (Expr α) (Stmt α)) → List (Handler β (Expr β) (Stmt β))
  | [] => []
  | ⟨m, type, name, body⟩ :: rest =>
    ⟨f m, Expr.mapOption f type, name, Stmt.mapList body⟩ :: Stmt.mapHandlers rest

end

/-- Changes the annotations of a program. -/
def Root.map : Root α → Root β
  | .module m body => .module (f m) (Stmt.mapList f body)
  | .expression m body => .expression (f m) (body.map f)

end Annotations

/-- An expression without its annotations. -/
def Expr.erase {α : Type} (e : Expr α) : Expr Unit := e.map fun _ => ()

/-- A statement without its annotations. -/
def Stmt.erase {α : Type} (s : Stmt α) : Stmt Unit := s.map fun _ => ()

/-- A program without its annotations. -/
def Root.erase {α : Type} (r : Root α) : Root Unit := r.map fun _ => ()

namespace Stmt

variable {α : Type}

/-- The annotation of a statement. -/
def mark : Stmt α → α
  | functionDef m .. | classDef m .. | .ret m .. | delete m .. | assign m .. | augAssign m ..
  | .forLoop m .. | .whileLoop m .. | .ifElse m .. | raise m .. | .tryExcept m .. | assert m ..
  | .imports m ..
  | importFrom m .. | expr m .. | pass m | .breakLoop m | .continueLoop m => m

end Stmt

namespace Root

variable {α : Type}

/-- The annotation of a program. -/
def mark : Root α → α
  | module m _ | expression m _ => m

end Root

end Toolchain

import Toolchain.Tree.Basic

/-!
# Arenas

An arena registers the nodes of a parse in the order in which they are made: the number of a node
is its place in the arena.

## Main definitions

* `NodeTag`, `NodeClass`: the kinds of node, and the four classes they fall into
* `Arena`, `Arena.register`: the nodes so far, and one more
* `Expr.tag`, `Stmt.tag`, `Root.tag`: the kind of a node of a tree
-/

namespace Toolchain

/-- The four classes of node. -/
inductive NodeClass where
  | mods
  | stmts
  | exprs
  | support
  deriving DecidableEq, Repr

/-- The kinds of node. -/
inductive NodeTag where
  | module | expression
  | functionDef | classDef | ret | delete | assign | augAssign | forLoop | whileLoop
  | ifElse | raise
  | tryExcept
  | assert | imports | importFrom | expr | pass | breakLoop | continueLoop
  | boolOp | binOp | unaryOp | lambda | dict | compare | call | constant | attr | subscript
  | name | list | tuple | slice | index | formattedValue
  | arg | importName | handler | keyword
  deriving DecidableEq, Repr

namespace NodeTag

/-- The name of a kind. -/
def label : NodeTag → String
  | module => "Module" | expression => "Expression"
  | functionDef => "FunctionDef" | classDef => "ClassDef" | .ret => "Return"
  | delete => "Delete" | assign => "Assign" | augAssign => "AugAssign" | .forLoop => "For"
  | .whileLoop => "While" | .ifElse =>
    "If" | raise => "Raise" | .tryExcept => "Try" | assert => "Assert"
  | .imports => "Import" | importFrom => "ImportFrom" | expr => "Expr" | pass => "Pass"
  | .breakLoop => "Break" | .continueLoop => "Continue"
  | boolOp => "BoolOp" | binOp => "BinOp" | unaryOp => "UnaryOp" | lambda => "Lambda"
  | dict => "Dict" | compare => "Compare" | call => "Call" | constant => "Constant"
  | attr => "Attribute" | subscript => "Subscript" | name => "Name" | list => "List"
  | tuple => "Tuple" | slice => "Slice" | index => "Index" | formattedValue => "FormattedValue"
  | arg => "arg" | importName => "alias" | handler => "excepthandler" | keyword => "keyword"

/-- The class of a kind. -/
def nodeClass : NodeTag → NodeClass
  | module | expression => .mods
  | functionDef | classDef | .ret | delete | assign | augAssign | .forLoop | .whileLoop
  | .ifElse | raise
  | .tryExcept | assert | .imports | importFrom | expr | pass | .breakLoop | .continueLoop => .stmts
  | boolOp | binOp | unaryOp | lambda | dict | compare | call | constant | attr | subscript
  | name | list | tuple | slice | index | formattedValue => .exprs
  | arg | importName | handler | keyword => .support

end NodeTag

/-- The kind of an expression. -/
def Expr.tag {α : Type} : Expr α → NodeTag
  | .boolOp .. => .boolOp | .binOp .. => .binOp | .unaryOp .. => .unaryOp | .lambda .. => .lambda
  | .dict .. => .dict | .compare .. => .compare | .call .. => .call | .constant .. => .constant
  | .attr .. => .attr | .subscript .. => .subscript | .name .. => .name
  | .list .. => .list | .tuple .. => .tuple | .slice .. => .slice | .index .. => .index
  | .formatted .. => .formattedValue

/-- The kind of a statement. -/
def Stmt.tag {α : Type} : Stmt α → NodeTag
  | .functionDef .. => .functionDef | .classDef .. => .classDef | .ret .. => .ret
  | .delete .. => .delete | .assign .. =>
    .assign | .augAssign .. => .augAssign | .forLoop .. => .forLoop
  | .whileLoop .. =>
    .whileLoop | .ifElse .. => .ifElse | .raise .. => .raise | .tryExcept .. => .tryExcept
  | .assert .. => .assert | .imports .. => .imports | .importFrom .. => .importFrom
  | .expr .. => .expr | .pass .. =>
    .pass | .breakLoop .. => .breakLoop | .continueLoop .. => .continueLoop

/-- The kind of a program. -/
def Root.tag {α : Type} : Root α → NodeTag
  | .module .. => .module
  | .expression .. => .expression

/-- What an arena knows of a node. -/
structure ArenaEntry where
  tag : NodeTag
  pos : Position
  deriving DecidableEq, Repr

/-- The nodes made so far, in order. -/
structure Arena where
  entries : Array ArenaEntry := #[]
  deriving DecidableEq, Repr

namespace Arena

/-- The number of nodes. -/
def size (a : Arena) : Nat := a.entries.size

/-- Registers a node under the next number. -/
def register (a : Arena) (tag : NodeTag) (pos : Position) : Mark × Arena :=
  (⟨a.size, pos⟩, ⟨a.entries.push ⟨tag, pos⟩⟩)

/-- The node with a given number. -/
def get? (a : Arena) (id : Int) : Option ArenaEntry :=
  if id < 0 then none else a.entries[id.toNat]?

/-- Whether a number is that of a node of a given kind. -/
def holds (a : Arena) (tag : NodeTag) (id : Int) : Bool :=
  (a.get? id).any fun e => e.tag == tag

/-- The number of nodes of a class. -/
def count (a : Arena) (c : NodeClass) : Nat := a.entries.countP fun e => e.tag.nodeClass == c

/-- The number of nodes of all four classes. -/
def total (a : Arena) : Nat :=
  a.count .mods + a.count .stmts + a.count .exprs + a.count .support

/-- The arena without any node: numbers start from zero again. -/
def reset (_ : Arena) : Arena := {}

@[simp] theorem register_id (a : Arena) (tag : NodeTag) (pos : Position) :
    (a.register tag pos).1.id = a.size := rfl

@[simp] theorem size_register (a : Arena) (tag : NodeTag) (pos : Position) :
    (a.register tag pos).2.size = a.size + 1 := by
  simp [register, size]

end Arena

end Toolchain

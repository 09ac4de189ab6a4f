import Toolchain.Decimal.Shortest
import Toolchain.Json.Basic
import Toolchain.Tree.Arena

/-!
# Outlines

An outline is a tree of labelled nodes with named fields: the form in which a program's tree is
shown. There are two written forms. The short one lists the fields of each node in order, without
their names and without the context of what is only read; the JSON one names the fields and adds
the position of each node.

## Main definitions

* `Outline`: labelled trees
* `Root.outline`: the outline of a program
* `Outline.dump`, `Outline.json`: the two written forms
-/

namespace Toolchain

/-- A labelled tree. -/
inductive Outline where
  /-- A node with its label, its position, if it has one, and its fields. -/
  | node (label : String) (pos : Option Position) (fields : List (String × Outline))
  | list (items : List Outline)
  /-- A part that is not there. -/
  | missing
  | string (s : String)
  | number (n : Nat)
  /-- The name of an operator. -/
  | symbol (s : String)
  | context (c : Context)
  | literal (v : Literal)

namespace Outline

/-- A string that may not be there. -/
def ofString? : Option String → Outline
  | some s => string s
  | none => missing

/-- The outline of a node of a tree. -/
def ofNode (tag : NodeTag) (m : Mark) (fields : List (String × Outline)) : Outline :=
  node tag.label (some m.pos) fields

end Outline

open Outline

namespace Param

/-- The outline of a parameter. -/
def outline (p : Param Mark) : Outline := ofNode .arg p.mark [("arg", string p.name)]

/-- The outline of a parameter that may not be there. -/
def outline? : Option (Param Mark) → Outline
  | some p => p.outline
  | none => missing

end Param

/-- The outline of a signature whose defaults have the given outlines. -/
def signatureOutline (params : List (Param Mark)) (defaults : List Outline)
    (vararg kwarg : Option (Param Mark)) : Outline :=
  node "arguments" none
    [("args", list (params.map Param.outline)), ("defaults", list defaults),
     ("vararg", Param.outline? vararg), ("kwarg", Param.outline? kwarg)]

namespace Expr

mutual

/-- The outline of an expression. -/
def outline : Expr Mark → Outline
  | boolOp m op values =>
    ofNode .boolOp m [("op", symbol op.name), ("values", .list (outlines values))]
  | binOp m left op right =>
    ofNode .binOp m [("left", outline left), ("op", symbol op.name), ("right", outline right)]
  | unaryOp m op operand =>
    ofNode .unaryOp m [("op", symbol op.name), ("operand", outline operand)]
  | lambda m ⟨params, defaults, vararg, kwarg⟩ body =>
    ofNode .lambda m [("args", signatureOutline params (outlines defaults) vararg kwarg),
      ("body", outline body)]
  | dict m items =>
    ofNode .dict m [("keys", .list (keyOutlines items)), ("values", .list (valueOutlines items))]
  | compare m left rest =>
    ofNode .compare m [("left", outline left), ("ops", .list (rest.map fun p => symbol p.1.name)),
      ("comparators", .list (operandOutlines rest))]
  | call m func args keywords =>
    ofNode .call m [("func", outline func), ("args", .list (outlines args)),
      ("keywords", .list (keywordOutlines keywords))]
  | constant m value => ofNode .constant m [("value", literal value)]
  | attr m value label ctx =>
    ofNode .attr m [("value", outline value), ("attr", string label), ("ctx", context ctx)]
  | subscript m value part ctx =>
    ofNode .subscript m [("value", outline value), ("slice", outline part), ("ctx", context ctx)]
  | name m id ctx => ofNode .name m [("id", string id), ("ctx", context ctx)]
  | list m elts ctx => ofNode .list m [("elts", .list (outlines elts)), ("ctx", context ctx)]
  | tuple m elts ctx => ofNode .tuple m [("elts", .list (outlines elts)), ("ctx", context ctx)]
  | slice m lower upper step =>
    ofNode .slice m [("lower", outline? lower), ("upper", outline? upper), ("step", outline? step)]
  | index m value => ofNode .index m [("value", outline value)]
  | formatted m value conversion spec =>
    ofNode .formattedValue m [("value", outline value),
      ("conversion", ofString? (conversion.map fun c => c.letter.toString)),
      ("format_spec", outline? spec)]

/-- The outlines of some expressions. -/
def outlines : List (Expr Mark) → List Outline
  | [] => []
  | e :: es => outline e :: outlines es

/-- The outline of an expression that may not be there. -/
def outline? : Option (Expr Mark) → Outline
  | none => missing
  | some e => outline e

/-- The outlines of the keys of a dictionary. -/
def keyOutlines : List (Expr Mark × Expr Mark) → List Outline
  | [] => []
  | (key, _) :: rest => outline key :: keyOutlines rest

/-- The outlines of the values of a dictionary. -/
def valueOutlines : List (Expr Mark × Expr Mark) → List Outline
  | [] => []
  | (_, value) :: rest => outline value :: valueOutlines rest

/-- The outlines of the operands of a chain of comparisons. -/
def operandOutlines : List (CompareOp × Expr Mark) → List Outline
  | [] => []
  | (_, e) :: rest => outline e :: operandOutlines rest

/-- The outlines of keyword arguments. -/
def keywordOutlines : List (KeywordArg Mark (Expr Mark)) → List Outline
  | [] => []
  | ⟨m, key, value⟩ :: rest =>
    ofNode .keyword m [("arg", string (key.getD "")), ("value", outline value)] ::
      keywordOutlines rest

end

end Expr

namespace Alias

/-- The outline of an alias. -/
def outline (a : Alias Mark) : Outline :=
  ofNode .importName a.mark [("name", string a.name), ("asname", ofString? a.asName)]

end Alias

namespace Signature

/-- The outline of a signature. -/
def outline (s : Signature Mark (Expr Mark)) : Outline :=
  signatureOutline s.params (Expr.outlines s.defaults) s.vararg s.kwarg

end Signature

namespace Stmt

mutual

/-- The outline of a statement. -/
def outline : Stmt Mark → Outline
  | functionDef m name signature body =>
    ofNode .functionDef m [("name", string name), ("args", signature.outline),
      ("body", list (outlines body))]
  | classDef m name bases body =>
    ofNode .classDef m [("name", string name), ("bases", list (Expr.outlines bases)),
      ("body", list (outlines body))]
  | .ret m value => ofNode .ret m [("value", Expr.outline? value)]
  | delete m targets => ofNode .delete m [("targets", list (Expr.outlines targets))]
  | assign m targets value =>
    ofNode .assign m [("targets", list (Expr.outlines targets)), ("value", value.outline)]
  | augAssign m target op value =>
    ofNode .augAssign m [("target", target.outline), ("op", symbol op.name),
      ("value", value.outline)]
  | .forLoop m target iter body =>
    ofNode .forLoop m [("target", target.outline), ("iter", iter.outline),
      ("body", list (outlines body)), ("orelse", list [])]
  | .whileLoop m test body =>
    ofNode .whileLoop m
      [("test", test.outline), ("body", list (outlines body)), ("orelse", list [])]
  | .ifElse m test body orelse =>
    ofNode .ifElse m [("test", test.outline), ("body", list (outlines body)),
      ("orelse", list (outlines orelse))]
  | raise m exc cause =>
    ofNode .raise m [("exc", Expr.outline? exc), ("cause", Expr.outline? cause)]
  | .tryExcept m body handlers orelse final =>
    ofNode .tryExcept m
      [("body", list (outlines body)), ("handlers", list (handlerOutlines handlers)),
      ("orelse", list (outlines orelse)), ("finalbody", list (outlines final))]
  | assert m test msg => ofNode .assert m [("test", test.outline), ("msg", Expr.outline? msg)]
  | .imports m names => ofNode .imports m [("names", list (names.map Alias.outline))]
  | importFrom m module names level =>
    ofNode .importFrom m [("module", ofString? module), ("names", list (names.map Alias.outline)),
      ("level", number level)]
  | expr m value => ofNode .expr m [("value", value.outline)]
  | pass m => ofNode .pass m []
  | .breakLoop m => ofNode .breakLoop m []
  | .continueLoop m => ofNode .continueLoop m []

/-- The outlines of some statements. -/
def outlines : List (Stmt Mark) → List Outline
  | [] => []
  | s :: ss => outline s :: outlines ss

/-- The outlines of exception handlers. -/
def handlerOutlines : List (Handler Mark (Expr Mark) (Stmt Mark)) → List Outline
  | [] => []
  | ⟨m, type, name, body⟩ :: rest =>
    ofNode .handler m [("type", Expr.outline? type), ("name", ofString? name),
      ("body", list (outlines body))] :: handlerOutlines rest

end

end Stmt

namespace Root

/-- The outline of a program. -/
def outline : Root Mark → Outline
  | module m body => ofNode .module m [("body", list (Stmt.outlines body))]
  | expression m body => ofNode .expression m [("body", body.outline)]

end Root

namespace Outline

/-- How a character is written between single quotes. -/
def escapedChar : Char → List Char
  | '\\' => ['\\', '\\']
  | '\'' => ['\\', '\'']
  | '\n' => ['\\', 'n']
  | '\t' => ['\\', 't']
  | '\r' => ['\\', 'r']
  | c => [c]

/-- A string in single quotes. -/
def quotedString (s : String) : String :=
  String.ofList ('\'' :: (s.toList.flatMap escapedChar ++ ['\'']))

/-- A float as a literal: the general form, with `.0` where it would read as an integer. -/
def floatLiteral (x : Binary64) : String :=
  let s := x.general
  if s.toList.any fun c => c == '.' || c == 'e' || c == 'E' || c == 'n' then s else s ++ ".0"

/-- A literal value as it is written in a program. -/
def literalText : Literal → String
  | .none => "None"
  | .bool true => "True"
  | .bool false => "False"
  | .int n => toString n.toInt
  | .float x => floatLiteral x
  | .str s => quotedString s

/-- Whether a field is shown in the short form: a place that is only read is not marked. -/
def isShown : Outline → Bool
  | context .load => false
  | _ => true

mutual

/-- The short form of an outline. -/
def dump : Outline → String
  | node label _ [] => label
  | node label _ (f :: fs) => label ++ "(" ++ dumpFields true (f :: fs) ++ ")"
  | list items => "[" ++ dumpItems true items ++ "]"
  | missing => "None"
  | string s => quotedString s
  | number n => Nat.repr n
  | symbol s => s
  | context c => c.name
  | literal v => literalText v

/-- The short form of the fields of a node; `first` says that none has been shown. -/
def dumpFields (first : Bool) : List (String × Outline) → String
  | [] => ""
  | (_, v) :: rest =>
    if v.isShown then (if first then "" else ", ") ++ dump v ++ dumpFields false rest
    else dumpFields first rest

/-- The short form of the items of a list. -/
def dumpItems (first : Bool) : List Outline → String
  | [] => ""
  | v :: rest => (if first then "" else ", ") ++ dump v ++ dumpItems false rest

end

/-- A literal value in JSON. -/
def literalJson : Literal → Json
  | .none => .null
  | .bool b => .bool b
  | .int n => .ofInt n.toInt
  | .float x => .number x.jsonLiteral
  | .str s => .ofString s

mutual

/-- The JSON form of an outline, with the keys of each node in order. -/
def json : Outline → Json
  | node label pos fields =>
    Json.sorted <| ("_type", Json.ofString label) ::
      (match pos with
       | some p => [("line", Json.ofNat p.line), ("column", Json.ofNat p.column)]
       | none => []) ++ jsonFields fields
  | list items => .array (jsonItems items)
  | missing => .null
  | string s => .ofString s
  | number n => .ofNat n
  | symbol s => .ofString s
  | context c => .ofString c.name
  | literal v => literalJson v

/-- The fields of a node in JSON. -/
def jsonFields : List (String × Outline) → List (String × Json)
  | [] => []
  | (key, v) :: rest => (key, json v) :: jsonFields rest

/-- The items of a list in JSON. -/
def jsonItems : List Outline → List Json
  | [] => []
  | v :: rest => json v :: jsonItems rest

end

end Outline

/-- The short form of a program's tree. -/
def Root.dump (r : Root Mark) : String := r.outline.dump

end Toolchain

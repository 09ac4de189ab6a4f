import Mathlib.Tactic.Common
import Toolchain.Token.Lexer
import Toolchain.Tree.Basic

/-!
# Well-formed trees

The type of trees has more trees than the grammar makes. A well-formed tree is one that the grammar
can make: names are identifiers, chains have their operands, slices stand only in subscripts, bodies
are not empty, and a place carries the context of the statement it stands in.

## Main definitions

* `IsIdentifier`, `IsDotted`: names, and names with points between them
* `Literal.WellFormed`: the literals that can be written without a sign
* `Expr.WellFormed`: the expressions that are read
* `Expr.IsTarget`: an expression made a place
* `Stmt.WellFormed`, `Root.WellFormed`: statements and programs
* `Expr.Clear`, `Stmt.Clear`, `Root.Clear`: trees without ambiguities

A program is written with as few parentheses as possible. Two things make that ambiguous: a negation
after `is`, which is read as `is not`, and what stands in the fields of f-strings. A tree is clear
if it has neither.
-/

namespace Toolchain

open Lexer

/-- A name: a letter, then letters and digits, and no reserved word. -/
structure IsIdentifier (s : String) : Prop where
  letters : ∃ c cs, s.toList = c :: cs ∧ isAlpha c = true ∧ ∀ x ∈ cs, isAlphaNumeric x = true
  unreserved : Keyword.ofSpelling? s = none

/-- Names with points between them. -/
inductive IsDotted : String → Prop
  | one {a : String} (ha : IsIdentifier a) : IsDotted a
  | more {a b : String} (ha : IsDotted a) (hb : IsIdentifier b) : IsDotted (a ++ "." ++ b)

/-- A number is not negative, and a float is finite. -/
def Literal.WellFormed : Literal → Prop
  | .int n => 0 ≤ n.toInt
  | .float x => x.bits.toNat < 2047 * twoPow 52
  | _ => True

section

variable {α : Type}

/-- The names of parameters, and as many defaults as there are plain parameters at most. -/
structure Signature.Named {ε : Type} (s : Signature α ε) : Prop where
  params : ∀ p ∈ s.params, IsIdentifier p.name
  vararg : ∀ p ∈ s.vararg, IsIdentifier p.name
  kwarg : ∀ p ∈ s.kwarg, IsIdentifier p.name
  defaults : s.defaults.length ≤ s.params.length

mutual

/-- An expression that is read: all its places are loaded, and a slice or an index stands only in a
subscript. -/
def Expr.WellFormed : Expr α → Prop
  | .boolOp _ _ values => 2 ≤ values.length ∧ Expr.AllWellFormed values
  | .binOp _ left _ right => left.WellFormed ∧ right.WellFormed
  | .unaryOp _ _ operand => operand.WellFormed
  | .lambda _ ⟨params, defaults, vararg, kwarg⟩ body =>
    Signature.Named ⟨params, defaults, vararg, kwarg⟩ ∧ Expr.AllWellFormed defaults ∧
      body.WellFormed
  | .dict _ items => Expr.ItemsWellFormed items
  | .compare _ left rest => left.WellFormed ∧ rest ≠ [] ∧ Expr.RestWellFormed rest
  | .call _ func args keywords =>
    func.WellFormed ∧ Expr.AllWellFormed args ∧ Expr.KeywordsWellFormed keywords
  | .constant _ value => value.WellFormed
  | .attr _ value label ctx => value.WellFormed ∧ IsIdentifier label ∧ ctx = .load
  | .subscript _ value part ctx => value.WellFormed ∧ part.PartWellFormed ∧ ctx = .load
  | .name _ id ctx => IsIdentifier id ∧ ctx = .load
  | .list _ elts ctx => Expr.AllWellFormed elts ∧ ctx = .load
  | .tuple _ elts ctx => Expr.AllWellFormed elts ∧ ctx = .load
  | .slice .. => False
  | .index .. => False
  | .formatted _ value _ spec => value.WellFormed ∧ Expr.OptionWellFormed spec

/-- What stands in a subscript: an index or a slice. -/
def Expr.PartWellFormed : Expr α → Prop
  | .index _ value => value.WellFormed
  | .slice _ lower upper step =>
    Expr.OptionWellFormed lower ∧ Expr.OptionWellFormed upper ∧ Expr.OptionWellFormed step
  | _ => False

/-- Expressions that are read. -/
def Expr.AllWellFormed : List (Expr α) → Prop
  | [] => True
  | e :: es => e.WellFormed ∧ Expr.AllWellFormed es

/-- An expression that is read, if there is one. -/
def Expr.OptionWellFormed : Option (Expr α) → Prop
  | none => True
  | some e => e.WellFormed

/-- The items of a dictionary. -/
def Expr.ItemsWellFormed : List (Expr α × Expr α) → Prop
  | [] => True
  | (key, value) :: rest => key.WellFormed ∧ value.WellFormed ∧ Expr.ItemsWellFormed rest

/-- The operands of comparisons. -/
def Expr.RestWellFormed : List (CompareOp × Expr α) → Prop
  | [] => True
  | (_, e) :: rest => e.WellFormed ∧ Expr.RestWellFormed rest

/-- Keyword arguments. -/
def Expr.KeywordsWellFormed : List (KeywordArg α (Expr α)) → Prop
  | [] => True
  | ⟨_, key, value⟩ :: rest =>
    (∀ id ∈ key, IsIdentifier id) ∧ value.WellFormed ∧ Expr.KeywordsWellFormed rest

end

/-- An expression that was made a place with a context. -/
def Expr.IsTarget (ctx : Context) (target : Expr α) : Prop :=
  ∃ e : Expr α, e.WellFormed ∧ e.withContext? ctx = some target

/-- The parameters of a function. -/
def Signature.WellFormed (s : Signature α (Expr α)) : Prop :=
  s.Named ∧ Expr.AllWellFormed s.defaults

/-- A module to be imported, or a name from one. -/
structure Alias.WellFormed (named : String → Prop) (a : Alias α) : Prop where
  name : named a.name
  asName : ∀ id ∈ a.asName, IsIdentifier id

/-- The names imported from a module: all of them, or some. -/
def Alias.Imported (names : List (Alias α)) : Prop :=
  (∃ m, names = [⟨m, "*", none⟩]) ∨ names ≠ [] ∧ ∀ a ∈ names, a.WellFormed IsIdentifier

mutual

/-- A statement that the grammar can make. -/
def Stmt.WellFormed : Stmt α → Prop
  | .functionDef _ name signature body =>
    IsIdentifier name ∧ signature.WellFormed ∧ body ≠ [] ∧ Stmt.AllWellFormed body
  | .classDef _ name bases body =>
    IsIdentifier name ∧ Expr.AllWellFormed bases ∧ body ≠ [] ∧ Stmt.AllWellFormed body
  | .ret _ value => Expr.OptionWellFormed value
  | .delete _ targets => targets ≠ [] ∧ ∀ t ∈ targets, t.IsTarget .del
  | .assign _ targets value =>
    targets ≠ [] ∧ (∀ t ∈ targets, t.IsTarget .store) ∧ value.WellFormed
  | .augAssign _ target _ value =>
    target.isPlace = true ∧ target.IsTarget .store ∧ value.WellFormed
  | .forLoop _ target iter body =>
    target.IsTarget .store ∧ iter.WellFormed ∧ body ≠ [] ∧ Stmt.AllWellFormed body
  | .whileLoop _ test body => test.WellFormed ∧ body ≠ [] ∧ Stmt.AllWellFormed body
  | .ifElse _ test body orelse =>
    test.WellFormed ∧ body ≠ [] ∧ Stmt.AllWellFormed body ∧ Stmt.AllWellFormed orelse
  | .raise _ exc cause =>
    Expr.OptionWellFormed exc ∧ Expr.OptionWellFormed cause ∧ (exc = none → cause = none)
  | .tryExcept _ body handlers orelse final =>
    body ≠ [] ∧ Stmt.AllWellFormed body ∧ Stmt.HandlersWellFormed handlers ∧
      Stmt.AllWellFormed orelse ∧ Stmt.AllWellFormed final ∧
      (handlers = [] → orelse = [] ∧ final ≠ [])
  | .assert _ test msg => test.WellFormed ∧ Expr.OptionWellFormed msg
  | .imports _ names => names ≠ [] ∧ ∀ a ∈ names, a.WellFormed IsDotted
  | .importFrom _ module names level =>
    (∀ m ∈ module, IsDotted m) ∧ Alias.Imported names ∧ (module = none → 0 < level)
  | .expr _ value => value.WellFormed
  | .pass _ => True
  | .breakLoop _ => True
  | .continueLoop _ => True

/-- Statements that the grammar can make. -/
def Stmt.AllWellFormed : List (Stmt α) → Prop
  | [] => True
  | s :: ss => s.WellFormed ∧ Stmt.AllWellFormed ss

/-- Handlers: one that handles all exceptions has no name and is the last. -/
def Stmt.HandlersWellFormed : List (Handler α (Expr α) (Stmt α)) → Prop
  | [] => True
  | ⟨_, type, name, body⟩ :: rest =>
    Expr.OptionWellFormed type ∧ (∀ id ∈ name, IsIdentifier id) ∧
      (type = none → name = none ∧ rest = []) ∧ body ≠ [] ∧ Stmt.AllWellFormed body ∧
      Stmt.HandlersWellFormed rest

end

/-- A program that the grammar can make. -/
def Root.WellFormed : Root α → Prop
  | .module _ body => Stmt.AllWellFormed body
  | .expression _ body => body.WellFormed

/-! ## Lists of well-formed parts -/

theorem Expr.allWellFormed_iff (es : List (Expr α)) :
    Expr.AllWellFormed es ↔ ∀ e ∈ es, e.WellFormed := by
  induction es with
  | nil => simp [Expr.AllWellFormed]
  | cons e es ih => simp [Expr.AllWellFormed, ih]

theorem Expr.itemsWellFormed_iff (items : List (Expr α × Expr α)) :
    Expr.ItemsWellFormed items ↔ ∀ p ∈ items, p.1.WellFormed ∧ p.2.WellFormed := by
  induction items with
  | nil => simp [Expr.ItemsWellFormed]
  | cons p items ih => simp [Expr.ItemsWellFormed, ih, and_assoc]

theorem Expr.restWellFormed_iff (rest : List (CompareOp × Expr α)) :
    Expr.RestWellFormed rest ↔ ∀ p ∈ rest, p.2.WellFormed := by
  induction rest with
  | nil => simp [Expr.RestWellFormed]
  | cons p rest ih => simp [Expr.RestWellFormed, ih]

theorem Expr.keywordsWellFormed_iff (keywords : List (KeywordArg α (Expr α))) :
    Expr.KeywordsWellFormed keywords ↔
      ∀ k ∈ keywords, (∀ id ∈ k.name, IsIdentifier id) ∧ k.value.WellFormed := by
  induction keywords with
  | nil => simp [Expr.KeywordsWellFormed]
  | cons k keywords ih => simp [Expr.KeywordsWellFormed, ih, and_assoc]

theorem Stmt.allWellFormed_iff (ss : List (Stmt α)) :
    Stmt.AllWellFormed ss ↔ ∀ s ∈ ss, s.WellFormed := by
  induction ss with
  | nil => simp [Stmt.AllWellFormed]
  | cons s ss ih => simp [Stmt.AllWellFormed, ih]

/-- Several handlers are well formed if all but the last handle one type of exception. -/
theorem Stmt.handlersWellFormed_append (hs : List (Handler α (Expr α) (Stmt α)))
    (h : Handler α (Expr α) (Stmt α)) :
    Stmt.HandlersWellFormed (hs ++ [h]) ↔ Stmt.HandlersWellFormed hs ∧
      (∀ k ∈ hs, k.type ≠ none) ∧ Stmt.HandlersWellFormed [h] := by
  induction hs with
  | nil => simp [Stmt.HandlersWellFormed]
  | cons k hs ih =>
    simp only [List.cons_append, Stmt.HandlersWellFormed, ih, List.forall_mem_cons,
      List.append_eq_nil_iff, List.cons_ne_self, and_false, imp_false]
    constructor
    · rintro ⟨h₁, h₂, h₃, h₄, h₅, h₆, h₇, h₈⟩
      exact ⟨⟨h₁, h₂, fun h => absurd h h₃, h₄, h₅, h₆⟩, ⟨h₃, h₇⟩, h₈⟩
    · rintro ⟨⟨h₁, h₂, -, h₄, h₅, h₆⟩, ⟨h₃, h₇⟩, h₈⟩
      exact ⟨h₁, h₂, h₃, h₄, h₅, h₆, h₇, h₈⟩

/-! ## Places -/

theorem Expr.allIsTarget_of_withContexts? {ctx : Context} {es ts : List (Expr α)}
    (h : Expr.AllWellFormed es) (hts : Expr.withContexts? ctx es = some ts) :
    ∀ t ∈ ts, t.IsTarget ctx := by
  induction es generalizing ts with
  | nil =>
    cases hts
    exact List.forall_mem_nil _
  | cons e es ih =>
    rw [Expr.AllWellFormed] at h
    rw [Expr.withContexts?] at hts
    cases he : e.withContext? ctx with
    | none => simp [he] at hts
    | some t =>
      rw [he] at hts
      obtain ⟨ts', hts', rfl⟩ := Option.map_eq_some_iff.mp hts
      rintro t' (_ | ⟨_, ht'⟩)
      · exact ⟨e, h.1, he⟩
      · exact ih h.2 hts' t' ht'

/-- What a place is made of: what is read to find it, or other places. -/
def Expr.Parts (ctx : Context) : Expr α → Prop
  | .name _ id c => IsIdentifier id ∧ c = ctx
  | .attr _ value label c => value.WellFormed ∧ IsIdentifier label ∧ c = ctx
  | .subscript _ value part c => value.WellFormed ∧ part.PartWellFormed ∧ c = ctx
  | .list _ elts c => (∀ t ∈ elts, t.IsTarget ctx) ∧ c = ctx
  | .tuple _ elts c => (∀ t ∈ elts, t.IsTarget ctx) ∧ c = ctx
  | _ => False

theorem Expr.IsTarget.parts {ctx : Context} {t : Expr α} (h : t.IsTarget ctx) : t.Parts ctx := by
  obtain ⟨e, he, ht⟩ := h
  cases e with
  | name m id c =>
    cases ht
    exact ⟨he.1, rfl⟩
  | attr m value label c =>
    cases ht
    exact ⟨he.1, he.2.1, rfl⟩
  | subscript m value part c =>
    cases ht
    exact ⟨he.1, he.2.1, rfl⟩
  | list m elts c =>
    obtain ⟨elts', helts, rfl⟩ := Option.map_eq_some_iff.mp ht
    exact ⟨allIsTarget_of_withContexts? he.1 helts, rfl⟩
  | tuple m elts c =>
    obtain ⟨elts', helts, rfl⟩ := Option.map_eq_some_iff.mp ht
    exact ⟨allIsTarget_of_withContexts? he.1 helts, rfl⟩
  | _ =>
    all_goals cases ht

end

/-! ## Trees that are read as they are written -/

section

variable {α : Type}

/-- Whether an expression is a negation. -/
def Expr.isNegation : Expr α → Bool
  | .unaryOp _ .not _ => true
  | _ => false

mutual

/-- An expression in which `is` is compared with no negation, and in which there are no fields. -/
def Expr.Clear : Expr α → Prop
  | .boolOp _ _ values => Expr.AllClear values
  | .binOp _ left _ right => left.Clear ∧ right.Clear
  | .unaryOp _ _ operand => operand.Clear
  | .lambda _ ⟨_, defaults, _, _⟩ body => Expr.AllClear defaults ∧ body.Clear
  | .dict _ items => Expr.ItemsClear items
  | .compare _ left rest => left.Clear ∧ Expr.RestClear rest
  | .call _ func args keywords => func.Clear ∧ Expr.AllClear args ∧ Expr.KeywordsClear keywords
  | .constant .. => True
  | .attr _ value _ _ => value.Clear
  | .subscript _ value part _ => value.Clear ∧ part.Clear
  | .name .. => True
  | .list _ elts _ => Expr.AllClear elts
  | .tuple _ elts _ => Expr.AllClear elts
  | .slice _ lower upper step =>
    Expr.OptionClear lower ∧ Expr.OptionClear upper ∧ Expr.OptionClear step
  | .index _ value => value.Clear
  | .formatted .. => False

/-- Clear expressions. -/
def Expr.AllClear : List (Expr α) → Prop
  | [] => True
  | e :: es => e.Clear ∧ Expr.AllClear es

/-- A clear expression, if there is one. -/
def Expr.OptionClear : Option (Expr α) → Prop
  | none => True
  | some e => e.Clear

/-- The items of a dictionary. -/
def Expr.ItemsClear : List (Expr α × Expr α) → Prop
  | [] => True
  | (key, value) :: rest => key.Clear ∧ value.Clear ∧ Expr.ItemsClear rest

/-- The operands of comparisons. -/
def Expr.RestClear : List (CompareOp × Expr α) → Prop
  | [] => True
  | (op, e) :: rest => (op = .is → e.isNegation = false) ∧ e.Clear ∧ Expr.RestClear rest

/-- Keyword arguments. -/
def Expr.KeywordsClear : List (KeywordArg α (Expr α)) → Prop
  | [] => True
  | ⟨_, _, value⟩ :: rest => value.Clear ∧ Expr.KeywordsClear rest

end

mutual

/-- A statement all expressions of which are clear. -/
def Stmt.Clear : Stmt α → Prop
  | .functionDef _ _ signature body =>
    Expr.AllClear signature.defaults ∧ Stmt.AllClear body
  | .classDef _ _ bases body => Expr.AllClear bases ∧ Stmt.AllClear body
  | .ret _ value => Expr.OptionClear value
  | .delete _ targets => Expr.AllClear targets
  | .assign _ targets value => Expr.AllClear targets ∧ value.Clear
  | .augAssign _ target _ value => target.Clear ∧ value.Clear
  | .forLoop _ target iter body => target.Clear ∧ iter.Clear ∧ Stmt.AllClear body
  | .whileLoop _ test body => test.Clear ∧ Stmt.AllClear body
  | .ifElse _ test body orelse => test.Clear ∧ Stmt.AllClear body ∧ Stmt.AllClear orelse
  | .raise _ exc cause => Expr.OptionClear exc ∧ Expr.OptionClear cause
  | .tryExcept _ body handlers orelse final =>
    Stmt.AllClear body ∧ Stmt.HandlersClear handlers ∧ Stmt.AllClear orelse ∧ Stmt.AllClear final
  | .assert _ test msg => test.Clear ∧ Expr.OptionClear msg
  | .imports .. => True
  | .importFrom .. => True
  | .expr _ value => value.Clear
  | .pass _ => True
  | .breakLoop _ => True
  | .continueLoop _ => True

/-- Clear statements. -/
def Stmt.AllClear : List (Stmt α) → Prop
  | [] => True
  | s :: ss => s.Clear ∧ Stmt.AllClear ss

/-- Clear handlers. -/
def Stmt.HandlersClear : List (Handler α (Expr α) (Stmt α)) → Prop
  | [] => True
  | ⟨_, type, _, body⟩ :: rest =>
    Expr.OptionClear type ∧ Stmt.AllClear body ∧ Stmt.HandlersClear rest

end

/-- A program all expressions of which are clear. -/
def Root.Clear : Root α → Prop
  | .module _ body => Stmt.AllClear body
  | .expression _ body => body.Clear

/-! ### Whether a tree is clear -/

/-- Two properties that can be decided. -/
abbrev decideBoth {p q : Prop} (hp : Decidable p) (hq : Decidable q) : Decidable (p ∧ q) :=
  @instDecidableAnd p q hp hq

mutual

/-- Whether an expression is clear. -/
def Expr.decideClear : (e : Expr α) → Decidable e.Clear
  | .boolOp _ _ values => Expr.decideAllClear values
  | .binOp _ left _ right => decideBoth left.decideClear right.decideClear
  | .unaryOp _ _ operand => operand.decideClear
  | .lambda _ ⟨_, defaults, _, _⟩ body => decideBoth (Expr.decideAllClear defaults) body.decideClear
  | .dict _ items => Expr.decideItemsClear items
  | .compare _ left rest => decideBoth left.decideClear (Expr.decideRestClear rest)
  | .call _ func args keywords =>
    decideBoth func.decideClear
      (decideBoth (Expr.decideAllClear args) (Expr.decideKeywordsClear keywords))
  | .constant .. => .isTrue trivial
  | .attr _ value _ _ => value.decideClear
  | .subscript _ value part _ => decideBoth value.decideClear part.decideClear
  | .name .. => .isTrue trivial
  | .list _ elts _ => Expr.decideAllClear elts
  | .tuple _ elts _ => Expr.decideAllClear elts
  | .slice _ lower upper step =>
    decideBoth (Expr.decideOptionClear lower)
      (decideBoth (Expr.decideOptionClear upper) (Expr.decideOptionClear step))
  | .index _ value => value.decideClear
  | .formatted .. => .isFalse id

/-- Whether expressions are clear. -/
def Expr.decideAllClear : (es : List (Expr α)) → Decidable (Expr.AllClear es)
  | [] => .isTrue trivial
  | e :: es => decideBoth e.decideClear (Expr.decideAllClear es)

/-- Whether an expression is clear, if there is one. -/
def Expr.decideOptionClear : (e : Option (Expr α)) → Decidable (Expr.OptionClear e)
  | none => .isTrue trivial
  | some e => e.decideClear

/-- Whether the items of a dictionary are clear. -/
def Expr.decideItemsClear : (items : List (Expr α × Expr α)) → Decidable (Expr.ItemsClear items)
  | [] => .isTrue trivial
  | (key, value) :: rest =>
    decideBoth key.decideClear (decideBoth value.decideClear (Expr.decideItemsClear rest))

/-- Whether the operands of comparisons are clear. -/
def Expr.decideRestClear : (rest : List (CompareOp × Expr α)) → Decidable (Expr.RestClear rest)
  | [] => .isTrue trivial
  | (op, e) :: rest =>
    decideBoth (inferInstanceAs (Decidable (op = .is → e.isNegation = false)))
      (decideBoth e.decideClear (Expr.decideRestClear rest))

/-- Whether keyword arguments are clear. -/
def Expr.decideKeywordsClear :
    (keywords : List (KeywordArg α (Expr α))) → Decidable (Expr.KeywordsClear keywords)
  | [] => .isTrue trivial
  | ⟨_, _, value⟩ :: rest => decideBoth value.decideClear (Expr.decideKeywordsClear rest)

end

mutual

/-- Whether a statement is clear. -/
def Stmt.decideClear : (s : Stmt α) → Decidable s.Clear
  | .functionDef _ _ signature body =>
    decideBoth (Expr.decideAllClear signature.defaults) (Stmt.decideAllClear body)
  | .classDef _ _ bases body => decideBoth (Expr.decideAllClear bases) (Stmt.decideAllClear body)
  | .ret _ value => Expr.decideOptionClear value
  | .delete _ targets => Expr.decideAllClear targets
  | .assign _ targets value => decideBoth (Expr.decideAllClear targets) value.decideClear
  | .augAssign _ target _ value => decideBoth target.decideClear value.decideClear
  | .forLoop _ target iter body =>
    decideBoth target.decideClear (decideBoth iter.decideClear (Stmt.decideAllClear body))
  | .whileLoop _ test body => decideBoth test.decideClear (Stmt.decideAllClear body)
  | .ifElse _ test body orelse =>
    decideBoth test.decideClear (decideBoth (Stmt.decideAllClear body) (Stmt.decideAllClear orelse))
  | .raise _ exc cause => decideBoth (Expr.decideOptionClear exc) (Expr.decideOptionClear cause)
  | .tryExcept _ body handlers orelse final =>
    decideBoth (Stmt.decideAllClear body) (decideBoth (Stmt.decideHandlersClear handlers)
      (decideBoth (Stmt.decideAllClear orelse) (Stmt.decideAllClear final)))
  | .assert _ test msg => decideBoth test.decideClear (Expr.decideOptionClear msg)
  | .imports .. => .isTrue trivial
  | .importFrom .. => .isTrue trivial
  | .expr _ value => value.decideClear
  | .pass _ => .isTrue trivial
  | .breakLoop _ => .isTrue trivial
  | .continueLoop _ => .isTrue trivial

/-- Whether statements are clear. -/
def Stmt.decideAllClear : (ss : List (Stmt α)) → Decidable (Stmt.AllClear ss)
  | [] => .isTrue trivial
  | s :: ss => decideBoth s.decideClear (Stmt.decideAllClear ss)

/-- Whether handlers are clear. -/
def Stmt.decideHandlersClear :
    (hs : List (Handler α (Expr α) (Stmt α))) → Decidable (Stmt.HandlersClear hs)
  | [] => .isTrue trivial
  | ⟨_, type, _, body⟩ :: rest =>
    decideBoth (Expr.decideOptionClear type)
      (decideBoth (Stmt.decideAllClear body) (Stmt.decideHandlersClear rest))

end

instance (r : Root α) : Decidable r.Clear :=
  match r with
  | .module _ body => Stmt.decideAllClear body
  | .expression _ body => body.decideClear

end

end Toolchain

import Toolchain.Proofs.Tree.WellFormed

/-!
# Legible trees

The short form of a program's tree shows everything but annotations, provided that the tree is
legible: an empty text is no name of a keyword argument, which would be shown like a missing one,
and floats are finite. The grammar makes no other trees.

## Main definitions

* `Expr.Legible`, `Stmt.Legible`, `Root.Legible`: trees whose short form leaves nothing out

## Main results

* `Root.WellFormed.legible`: a tree that the grammar can make is legible
-/

namespace Toolchain

section

variable {α : Type}

mutual

/-- An expression whose short form leaves nothing out: its literals can be written, and no keyword
argument has an empty name. -/
def Expr.Legible : Expr α → Prop
  | .boolOp _ _ values => Expr.AllLegible values
  | .binOp _ left _ right => left.Legible ∧ right.Legible
  | .unaryOp _ _ operand => operand.Legible
  | .lambda _ ⟨_, defaults, _, _⟩ body => Expr.AllLegible defaults ∧ body.Legible
  | .dict _ items => Expr.ItemsLegible items
  | .compare _ left rest => left.Legible ∧ Expr.RestLegible rest
  | .call _ func args keywords =>
    func.Legible ∧ Expr.AllLegible args ∧ Expr.KeywordsLegible keywords
  | .constant _ value => value.WellFormed
  | .attr _ value _ _ => value.Legible
  | .subscript _ value part _ => value.Legible ∧ part.Legible
  | .name .. => True
  | .list _ elts _ => Expr.AllLegible elts
  | .tuple _ elts _ => Expr.AllLegible elts
  | .slice _ lower upper step =>
    Expr.OptionLegible lower ∧ Expr.OptionLegible upper ∧ Expr.OptionLegible step
  | .index _ value => value.Legible
  | .formatted _ value _ spec => value.Legible ∧ Expr.OptionLegible spec

/-- Legible expressions. -/
def Expr.AllLegible : List (Expr α) → Prop
  | [] => True
  | e :: es => e.Legible ∧ Expr.AllLegible es

/-- A legible expression, if there is one. -/
def Expr.OptionLegible : Option (Expr α) → Prop
  | none => True
  | some e => e.Legible

/-- The items of a dictionary. -/
def Expr.ItemsLegible : List (Expr α × Expr α) → Prop
  | [] => True
  | (key, value) :: rest => key.Legible ∧ value.Legible ∧ Expr.ItemsLegible rest

/-- The operands of comparisons. -/
def Expr.RestLegible : List (CompareOp × Expr α) → Prop
  | [] => True
  | (_, e) :: rest => e.Legible ∧ Expr.RestLegible rest

/-- Keyword arguments. -/
def Expr.KeywordsLegible : List (KeywordArg α (Expr α)) → Prop
  | [] => True
  | ⟨_, key, value⟩ :: rest => key ≠ some "" ∧ value.Legible ∧ Expr.KeywordsLegible rest

end

mutual

/-- A statement whose short form leaves nothing out. -/
def Stmt.Legible : Stmt α → Prop
  | .functionDef _ _ signature body => Expr.AllLegible signature.defaults ∧ Stmt.AllLegible body
  | .classDef _ _ bases body => Expr.AllLegible bases ∧ Stmt.AllLegible body
  | .ret _ value => Expr.OptionLegible value
  | .delete _ targets => Expr.AllLegible targets
  | .assign _ targets value => Expr.AllLegible targets ∧ value.Legible
  | .augAssign _ target _ value => target.Legible ∧ value.Legible
  | .forLoop _ target iter body => target.Legible ∧ iter.Legible ∧ Stmt.AllLegible body
  | .whileLoop _ test body => test.Legible ∧ Stmt.AllLegible body
  | .ifElse _ test body orelse => test.Legible ∧ Stmt.AllLegible body ∧ Stmt.AllLegible orelse
  | .raise _ exc cause => Expr.OptionLegible exc ∧ Expr.OptionLegible cause
  | .tryExcept _ body handlers orelse final =>
    Stmt.AllLegible body ∧ Stmt.HandlersLegible handlers ∧ Stmt.AllLegible orelse ∧
      Stmt.AllLegible final
  | .assert _ test msg => test.Legible ∧ Expr.OptionLegible msg
  | .imports .. => True
  | .importFrom .. => True
  | .expr _ value => value.Legible
  | .pass _ => True
  | .breakLoop _ => True
  | .continueLoop _ => True

/-- Legible statements. -/
def Stmt.AllLegible : List (Stmt α) → Prop
  | [] => True
  | s :: ss => s.Legible ∧ Stmt.AllLegible ss

/-- Legible handlers. -/
def Stmt.HandlersLegible : List (Handler α (Expr α) (Stmt α)) → Prop
  | [] => True
  | ⟨_, type, _, body⟩ :: rest =>
    Expr.OptionLegible type ∧ Stmt.AllLegible body ∧ Stmt.HandlersLegible rest

end

/-- A program whose short form leaves nothing out. -/
def Root.Legible : Root α → Prop
  | .module _ body => Stmt.AllLegible body
  | .expression _ body => body.Legible

/-- An identifier is not empty. -/
theorem IsIdentifier.ne_empty {s : String} (h : IsIdentifier s) : s ≠ "" := by
  rintro rfl
  obtain ⟨c, cs, hcs, -⟩ := h.letters
  cases hcs

namespace Expr

mutual

/-- An expression that the grammar can make is legible. -/
theorem WellFormed.legible : ∀ {e : Expr α}, e.WellFormed → e.Legible
  | .boolOp .., h => by
    rw [WellFormed] at h
    rw [Legible]
    exact AllWellFormed.legible h.2
  | .binOp .., h => by
    rw [WellFormed] at h
    rw [Legible]
    exact ⟨h.1.legible, h.2.legible⟩
  | .unaryOp .., h => by
    rw [WellFormed] at h
    rw [Legible]
    exact h.legible
  | .lambda _ ⟨_, _, _, _⟩ _, h => by
    rw [WellFormed] at h
    rw [Legible]
    exact ⟨AllWellFormed.legible h.2.1, h.2.2.legible⟩
  | .dict .., h => by
    rw [WellFormed] at h
    rw [Legible]
    exact ItemsWellFormed.legible h
  | .compare .., h => by
    rw [WellFormed] at h
    rw [Legible]
    exact ⟨h.1.legible, RestWellFormed.legible h.2.2⟩
  | .call .., h => by
    rw [WellFormed] at h
    rw [Legible]
    exact ⟨h.1.legible, AllWellFormed.legible h.2.1, KeywordsWellFormed.legible h.2.2⟩
  | .constant .., h => by
    rw [WellFormed] at h
    rw [Legible]
    exact h
  | .attr .., h => by
    rw [WellFormed] at h
    rw [Legible]
    exact h.1.legible
  | .subscript .., h => by
    rw [WellFormed] at h
    rw [Legible]
    exact ⟨h.1.legible, PartWellFormed.legible h.2.1⟩
  | .name .., _ => by
    rw [Legible]
    trivial
  | .list .., h => by
    rw [WellFormed] at h
    rw [Legible]
    exact AllWellFormed.legible h.1
  | .tuple .., h => by
    rw [WellFormed] at h
    rw [Legible]
    exact AllWellFormed.legible h.1
  | .slice .., h => by
    rw [WellFormed] at h
    exact h.elim
  | .index .., h => by
    rw [WellFormed] at h
    exact h.elim
  | .formatted .., h => by
    rw [WellFormed] at h
    rw [Legible]
    exact ⟨h.1.legible, OptionWellFormed.legible h.2⟩

theorem PartWellFormed.legible : ∀ {e : Expr α}, e.PartWellFormed → e.Legible
  | .index .., h => by
    rw [PartWellFormed] at h
    rw [Legible]
    exact h.legible
  | .slice .., h => by
    rw [PartWellFormed] at h
    rw [Legible]
    exact ⟨OptionWellFormed.legible h.1, OptionWellFormed.legible h.2.1,
      OptionWellFormed.legible h.2.2⟩
  | .boolOp .., h | .binOp .., h | .unaryOp .., h | .lambda .., h | .dict .., h | .compare .., h
  | .call .., h | .constant .., h | .attr .., h | .subscript .., h | .name .., h | .list .., h
  | .tuple .., h | .formatted .., h => by
    simp only [PartWellFormed] at h

theorem AllWellFormed.legible : ∀ {es : List (Expr α)}, AllWellFormed es → AllLegible es
  | [], _ => by
    trivial
  | e :: es, h => by
    exact ⟨h.1.legible, AllWellFormed.legible h.2⟩

theorem OptionWellFormed.legible : ∀ {e : Option (Expr α)}, OptionWellFormed e → OptionLegible e
  | none, _ => by
    rw [OptionLegible]
    trivial
  | some e, h => by
    rw [OptionWellFormed] at h
    rw [OptionLegible]
    exact h.legible

theorem ItemsWellFormed.legible : ∀ {items : List (Expr α × Expr α)},
    ItemsWellFormed items → ItemsLegible items
  | [], _ => by
    trivial
  | (key, value) :: rest, h => by
    exact ⟨h.1.legible, h.2.1.legible, ItemsWellFormed.legible h.2.2⟩

theorem RestWellFormed.legible : ∀ {rest : List (CompareOp × Expr α)},
    RestWellFormed rest → RestLegible rest
  | [], _ => by
    trivial
  | (op, e) :: rest, h => by
    exact ⟨h.1.legible, RestWellFormed.legible h.2⟩

theorem KeywordsWellFormed.legible : ∀ {keywords : List (KeywordArg α (Expr α))},
    KeywordsWellFormed keywords → KeywordsLegible keywords
  | [], _ => by
    trivial
  | ⟨m, key, value⟩ :: rest, h => by
    refine ⟨?_, h.2.1.legible, KeywordsWellFormed.legible h.2.2⟩
    rintro rfl
    exact (h.1 "" rfl).ne_empty rfl

end

mutual

/-- An expression stays legible when it is made a place. -/
theorem Legible.withContext? {ctx : Context} : ∀ {e t : Expr α}, e.Legible →
    e.withContext? ctx = some t → t.Legible
  | .name .., t, _, ht => by
    cases ht
    trivial
  | .attr .., t, h, ht => by
    cases ht
    exact h
  | .subscript .., t, h, ht => by
    cases ht
    exact h
  | .list _ elts _, t, h, ht => by
    obtain ⟨ts, hts, rfl⟩ := Option.map_eq_some_iff.mp ht
    exact AllLegible.withContexts? h hts
  | .tuple _ elts _, t, h, ht => by
    obtain ⟨ts, hts, rfl⟩ := Option.map_eq_some_iff.mp ht
    exact AllLegible.withContexts? h hts
  | .boolOp .., t, _, ht | .binOp .., t, _, ht | .unaryOp .., t, _, ht | .lambda .., t, _, ht
  | .dict .., t, _, ht | .compare .., t, _, ht | .call .., t, _, ht | .constant .., t, _, ht
  | .slice .., t, _, ht | .index .., t, _, ht | .formatted .., t, _, ht => by
    cases ht

theorem AllLegible.withContexts? {ctx : Context} : ∀ {es ts : List (Expr α)}, AllLegible es →
    Expr.withContexts? ctx es = some ts → AllLegible ts
  | [], ts, _, hts => by
    cases hts
    trivial
  | e :: es, ts, h, hts => by
    rw [AllLegible] at h
    rw [Expr.withContexts?] at hts
    cases he : e.withContext? ctx with
    | none => simp [he] at hts
    | some t =>
      rw [he] at hts
      obtain ⟨ts', hts', rfl⟩ := Option.map_eq_some_iff.mp hts
      exact ⟨h.1.withContext? he, AllLegible.withContexts? h.2 hts'⟩

end

theorem IsTarget.legible {ctx : Context} {t : Expr α} (h : t.IsTarget ctx) : t.Legible := by
  obtain ⟨e, he, ht⟩ := h
  exact he.legible.withContext? ht

theorem allLegible_of_isTarget {ctx : Context} {ts : List (Expr α)}
    (h : ∀ t ∈ ts, t.IsTarget ctx) : AllLegible ts := by
  induction ts with
  | nil =>
    trivial
  | cons t ts ih =>
    exact ⟨(h t List.mem_cons_self).legible, ih fun t' ht => h t' (List.mem_cons_of_mem _ ht)⟩

end Expr

namespace Stmt

mutual

/-- A statement that the grammar can make is legible. -/
theorem WellFormed.legible : ∀ {s : Stmt α}, s.WellFormed → s.Legible
  | .functionDef .., h => by
    rw [WellFormed] at h
    rw [Legible]
    exact ⟨h.2.1.2.legible, AllWellFormed.legible h.2.2.2⟩
  | .classDef .., h => by
    rw [WellFormed] at h
    rw [Legible]
    exact ⟨h.2.1.legible, AllWellFormed.legible h.2.2.2⟩
  | .ret .., h => by
    rw [WellFormed] at h
    rw [Legible]
    exact h.legible
  | .delete .., h => by
    rw [WellFormed] at h
    rw [Legible]
    exact Expr.allLegible_of_isTarget h.2
  | .assign .., h => by
    rw [WellFormed] at h
    rw [Legible]
    exact ⟨Expr.allLegible_of_isTarget h.2.1, h.2.2.legible⟩
  | .augAssign .., h => by
    rw [WellFormed] at h
    rw [Legible]
    exact ⟨h.2.1.legible, h.2.2.legible⟩
  | .forLoop .., h => by
    rw [WellFormed] at h
    rw [Legible]
    exact ⟨h.1.legible, h.2.1.legible, AllWellFormed.legible h.2.2.2⟩
  | .whileLoop .., h => by
    rw [WellFormed] at h
    rw [Legible]
    exact ⟨h.1.legible, AllWellFormed.legible h.2.2⟩
  | .ifElse .., h => by
    rw [WellFormed] at h
    rw [Legible]
    exact ⟨h.1.legible, AllWellFormed.legible h.2.2.1, AllWellFormed.legible h.2.2.2⟩
  | .raise .., h => by
    rw [WellFormed] at h
    rw [Legible]
    exact ⟨h.1.legible, h.2.1.legible⟩
  | .tryExcept .., h => by
    rw [WellFormed] at h
    rw [Legible]
    exact ⟨AllWellFormed.legible h.2.1, HandlersWellFormed.legible h.2.2.1,
      AllWellFormed.legible h.2.2.2.1, AllWellFormed.legible h.2.2.2.2.1⟩
  | .assert .., h => by
    rw [WellFormed] at h
    rw [Legible]
    exact ⟨h.1.legible, h.2.legible⟩
  | .imports .., _ | .importFrom .., _ | .pass _, _ | .breakLoop _, _ | .continueLoop _, _ => by
    rw [Legible]
    trivial
  | .expr .., h => by
    rw [WellFormed] at h
    rw [Legible]
    exact h.legible

theorem AllWellFormed.legible : ∀ {ss : List (Stmt α)}, AllWellFormed ss → AllLegible ss
  | [], _ => by
    trivial
  | s :: ss, h => by
    exact ⟨h.1.legible, AllWellFormed.legible h.2⟩

theorem HandlersWellFormed.legible : ∀ {handlers : List (Handler α (Expr α) (Stmt α))},
    HandlersWellFormed handlers → HandlersLegible handlers
  | [], _ => by
    trivial
  | ⟨m, type, name, body⟩ :: rest, h => by
    exact ⟨h.1.legible, AllWellFormed.legible h.2.2.2.2.1,
      HandlersWellFormed.legible h.2.2.2.2.2⟩

end

end Stmt

/-- A program that the grammar can make is legible. -/
theorem Root.WellFormed.legible {r : Root α} (h : r.WellFormed) : r.Legible := by
  cases r with
  | module m body => exact Stmt.AllWellFormed.legible h
  | expression m body => exact Expr.WellFormed.legible h

end

end Toolchain

import Mathlib.Tactic.Common
import Toolchain.Project.Modules

/-!
# The imports of a program

An import may stand anywhere in a program: in a function or a class, in a loop, in a branch, in any
part of a `try`. The imports of a program are found by going through all its statements.

## Main definitions

* `Stmt.inner`, `Stmt.OccursIn`: the statements inside a statement
* `Root.HasImport`: a program has an import, anywhere in it

## Main results

* `Stmt.imported_eq`: the imports of a statement are its own and those inside of it
* `Root.mem_imports_iff`: no import of a program is forgotten, and none is made up
-/

namespace Toolchain

namespace Stmt

variable {α : Type}

/-- The statements directly inside a statement. -/
def inner : Stmt α → List (Stmt α)
  | functionDef _ _ _ body | classDef _ _ _ body | forLoop _ _ _ body | whileLoop _ _ body => body
  | ifElse _ _ body orelse => body ++ orelse
  | tryExcept _ body handlers orelse final =>
    body ++ handlers.flatMap Handler.body ++ orelse ++ final
  | _ => []

/-- A statement is one of some statements, or is somewhere inside of one of them. -/
inductive OccursIn : Stmt α → List (Stmt α) → Prop
  | here {s : Stmt α} {ss : List (Stmt α)} (h : s ∈ ss) : OccursIn s ss
  | inside {s t : Stmt α} {ss : List (Stmt α)} (ht : t ∈ ss) (h : OccursIn s t.inner) :
    OccursIn s ss

theorem OccursIn.mono {s : Stmt α} {ss ts : List (Stmt α)} (h : s.OccursIn ss) (hsub : ss ⊆ ts) :
    s.OccursIn ts := by
  cases h with
  | here h => exact .here (hsub h)
  | inside ht h => exact .inside (hsub ht) h

/-- The imports that a statement is: one for each module that it names. -/
def ownImports : Stmt Mark → List ImportStatement
  | .imports m names => names.map fun a => { module := Text.ofString a.name, line := m.pos.line }
  | .importFrom m module names level =>
    [{ module := Text.ofString (module.getD ""), names := names.map fun a => Text.ofString a.name
       level, fromModule := true, line := m.pos.line }]
  | _ => []

variable {i : ImportStatement}

theorem importedIn_append (ss ts : List (Stmt Mark)) :
    importedIn (ss ++ ts) = importedIn ss ++ importedIn ts := by
  induction ss with
  | nil => rfl
  | cons s ss ih => rw [List.cons_append, importedIn, importedIn, ih, List.append_assoc]

theorem importedByHandlers_eq (hs : List (Handler Mark (Expr Mark) (Stmt Mark))) :
    importedByHandlers hs = importedIn (hs.flatMap Handler.body) := by
  induction hs with
  | nil => rfl
  | cons h hs ih => rw [importedByHandlers, ih, List.flatMap_cons, importedIn_append]

/-- The imports of a statement are those that it is, and those of the statements in it. -/
theorem imported_eq (s : Stmt Mark) : s.imported = s.ownImports ++ importedIn s.inner := by
  cases s with
  | tryExcept m body handlers orelse final =>
    rw [imported, inner, importedByHandlers_eq]
    simp only [importedIn_append, ownImports, List.nil_append]
  | ifElse m test body orelse =>
    rw [imported, inner, importedIn_append]
    rfl
  | _ => simp [imported, inner, ownImports, importedIn]

theorem mem_importedIn {s : Stmt Mark} {ss : List (Stmt Mark)} (h : s ∈ ss) (hi : i ∈ s.imported) :
    i ∈ importedIn ss := by
  induction ss with
  | nil => cases h
  | cons t ss ih =>
    rw [importedIn, List.mem_append]
    rcases List.mem_cons.mp h with rfl | h
    · exact .inl hi
    · exact .inr (ih h)

theorem OccursIn.mem_importedIn {s : Stmt Mark} {ss : List (Stmt Mark)} (h : s.OccursIn ss)
    (hi : i ∈ s.ownImports) : i ∈ importedIn ss := by
  induction h with
  | here h =>
    apply Stmt.mem_importedIn h
    rw [imported_eq]
    exact List.mem_append_left _ hi
  | inside ht _ ih =>
    apply Stmt.mem_importedIn ht
    rw [imported_eq]
    exact List.mem_append_right _ ih

mutual

/-- An import of a statement is the statement itself, or is inside of it. -/
theorem exists_of_mem_imported : ∀ s : Stmt Mark, i ∈ s.imported →
    i ∈ s.ownImports ∨ ∃ t : Stmt Mark, t.OccursIn s.inner ∧ i ∈ t.ownImports
  | .functionDef _ _ _ body, h => .inr (exists_of_mem_importedIn body h)
  | .classDef _ _ _ body, h => .inr (exists_of_mem_importedIn body h)
  | .forLoop _ _ _ body, h => .inr (exists_of_mem_importedIn body h)
  | .whileLoop _ _ body, h => .inr (exists_of_mem_importedIn body h)
  | .ifElse _ _ body orelse, h => by
    right
    rw [imported, List.mem_append] at h
    rcases h with h | h
    · obtain ⟨t, ht, hi⟩ := exists_of_mem_importedIn body h
      exact ⟨t, ht.mono (List.subset_append_left _ _), hi⟩
    · obtain ⟨t, ht, hi⟩ := exists_of_mem_importedIn orelse h
      exact ⟨t, ht.mono (List.subset_append_right _ _), hi⟩
  | .tryExcept _ body handlers orelse final, h => by
    right
    simp only [imported, List.mem_append] at h
    rw [inner]
    rcases h with ((h | h) | h) | h
    · obtain ⟨t, ht, hi⟩ := exists_of_mem_importedIn body h
      exact ⟨t, ht.mono (by simp), hi⟩
    · obtain ⟨t, ht, hi⟩ := exists_of_mem_importedByHandlers handlers h
      exact ⟨t, ht.mono (by simp), hi⟩
    · obtain ⟨t, ht, hi⟩ := exists_of_mem_importedIn orelse h
      exact ⟨t, ht.mono fun s hs => by simp [hs], hi⟩
    · obtain ⟨t, ht, hi⟩ := exists_of_mem_importedIn final h
      exact ⟨t, ht.mono fun s hs => by simp [hs], hi⟩
  | .imports .., h => .inl h
  | .importFrom .., h => .inl h
  | .ret .., h | .delete .., h | .assign .., h | .augAssign .., h | .raise .., h | .assert .., h
  | .expr .., h | .pass _, h | .breakLoop _, h | .continueLoop _, h => nomatch h

theorem exists_of_mem_importedIn : ∀ ss : List (Stmt Mark), i ∈ importedIn ss →
    ∃ t : Stmt Mark, t.OccursIn ss ∧ i ∈ t.ownImports
  | [], h => nomatch h
  | s :: ss, h => by
    rw [importedIn, List.mem_append] at h
    rcases h with h | h
    · rcases exists_of_mem_imported s h with hi | ⟨t, ht, hi⟩
      · exact ⟨s, .here List.mem_cons_self, hi⟩
      · exact ⟨t, .inside List.mem_cons_self ht, hi⟩
    · obtain ⟨t, ht, hi⟩ := exists_of_mem_importedIn ss h
      exact ⟨t, ht.mono (List.subset_cons_self s ss), hi⟩

theorem exists_of_mem_importedByHandlers :
    ∀ hs : List (Handler Mark (Expr Mark) (Stmt Mark)), i ∈ importedByHandlers hs →
      ∃ t : Stmt Mark, t.OccursIn (hs.flatMap Handler.body) ∧ i ∈ t.ownImports
  | [], h => nomatch h
  | ⟨_, _, _, body⟩ :: hs, h => by
    rw [importedByHandlers, List.mem_append] at h
    rcases h with h | h
    · obtain ⟨t, ht, hi⟩ := exists_of_mem_importedIn body h
      exact ⟨t, ht.mono (List.subset_append_left _ _), hi⟩
    · obtain ⟨t, ht, hi⟩ := exists_of_mem_importedByHandlers hs h
      exact ⟨t, ht.mono (List.subset_append_right _ _), hi⟩

end

end Stmt

/-- A program has an import, anywhere in it. -/
def Root.HasImport : Root Mark → ImportStatement → Prop
  | .module _ body, i => ∃ s : Stmt Mark, s.OccursIn body ∧ i ∈ s.ownImports
  | .expression .., _ => False

/-- No import of a program is forgotten. -/
theorem Root.mem_imports_iff {root : Root Mark} {i : ImportStatement} :
    i ∈ root.imports ↔ root.HasImport i := by
  cases root with
  | module m body =>
    constructor
    · exact Stmt.exists_of_mem_importedIn body
    · rintro ⟨s, hs, hi⟩
      exact hs.mem_importedIn hi
  | expression m e => exact ⟨nofun, nofun⟩

end Toolchain

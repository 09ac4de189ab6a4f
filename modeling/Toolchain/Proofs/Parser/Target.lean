import Mathlib.Tactic.Common
import Toolchain.Parser.Statement

/-!
# The part of a target that is blamed

An expression is a target if all its parts are places, tuples and lists, where the parts are reached
through the elements of tuples and lists only. If it is no target, its first other part in reading
order is to blame. The diagnostic is about the first element that is no single place, and looks for
the culprit in it alone. So it names the culprit exactly if no tuple or list of single places stands
in front of it; otherwise it names the first of those, although there is nothing wrong with it.

## Main definitions

* `Expr.parts`: the parts of an expression in reading order
* `Expr.isUnassignable`: an expression that no target may have as a part
* `Expr.holdsPlaces`: a tuple or a list of single places

## Main results

* `Expr.withContext?_eq_none_iff`: what is no target has a part that no target may have
* `Parse.find?_parts`: the part that the diagnostic is about
* `Parse.invalidPart_exact`: **the culprit is named unless a tuple or list of places stands in front
  of it**
-/

namespace Toolchain

/-! ## Parts -/

namespace Expr

variable {α : Type}

mutual

/-- The parts of an expression that are reached through the elements of tuples and lists, in reading
order and each in front of its own. -/
def parts : Expr α → List (Expr α)
  | tuple m elts ctx => tuple m elts ctx :: partsOf elts
  | list m elts ctx => list m elts ctx :: partsOf elts
  | e => [e]

/-- The parts of some expressions. -/
def partsOf : List (Expr α) → List (Expr α)
  | [] => []
  | e :: es => parts e ++ partsOf es

end

/-- An expression that no target may have as a part: neither a single place nor a tuple nor a list.
-/
def isUnassignable : Expr α → Bool
  | name .. | attr .. | subscript .. | tuple .. | list .. => false
  | _ => true

/-- A tuple or a list of single places. -/
def holdsPlaces : Expr α → Bool
  | tuple _ elts _ | list _ elts _ => elts.all isPlace
  | _ => false

mutual

/-- What is no target has a part that no target may have. -/
theorem withContext?_eq_none_iff (ctx : Context) : ∀ e : Expr α,
    e.withContext? ctx = none ↔ ∃ p ∈ e.parts, p.isUnassignable = true
  | tuple m elts c | list m elts c => by
    rw [withContext?, Option.map_eq_none_iff, withContexts?_eq_none_iff ctx elts, parts]
    simp [isUnassignable]
  | boolOp .. | binOp .. | unaryOp .. | lambda .. | dict .. | compare .. | call .. | constant ..
  | attr .. | subscript .. | name .. | slice .. | index .. | formatted .. => by
    simp [parts, withContext?, isUnassignable]

theorem withContexts?_eq_none_iff (ctx : Context) : ∀ es : List (Expr α),
    withContexts? ctx es = none ↔ ∃ p ∈ partsOf es, p.isUnassignable = true
  | [] => by simp [withContexts?, partsOf]
  | e :: es => by
    have hhead := withContext?_eq_none_iff ctx e
    have htail := withContexts?_eq_none_iff ctx es
    rw [withContexts?, partsOf]
    cases he : e.withContext? ctx with
    | none =>
      obtain ⟨p, hp, hwrong⟩ := hhead.mp he
      exact ⟨fun _ => ⟨p, List.mem_append_left _ hp, hwrong⟩, fun _ => rfl⟩
    | some e' =>
      have hgood : ¬ ∃ p ∈ e.parts, p.isUnassignable = true := fun h => by
        rw [hhead.mpr h] at he
        cases he
      show Option.map _ _ = none ↔ _
      rw [Option.map_eq_none_iff, htail]
      simp only [List.mem_append, or_and_right, exists_or]
      exact ⟨.inr, fun h => h.resolve_left hgood⟩

end

/-- A tuple or a list of single places is a target. -/
theorem withContext?_ne_none_of_holdsPlaces {e : Expr α} (h : e.holdsPlaces = true)
    (ctx : Context) :
    e.withContext? ctx ≠ none := by
  have hplaces {es : List (Expr α)} (hes : es.all isPlace = true) :
      ∀ p ∈ partsOf es, p.isUnassignable = false := by
    induction es with
    | nil => exact List.forall_mem_nil _
    | cons e es ih =>
      rw [List.all_cons, Bool.and_eq_true] at hes
      intro p hp
      rcases List.mem_append.mp hp with hp | hp
      · cases e with
        | name | attr | subscript =>
          rw [parts, List.mem_singleton] at hp
          · rw [hp]
            rfl
          all_goals simp
        | _ => exact absurd hes.1 (by simp [isPlace])
      · exact ih hes.2 p hp
  rw [Ne, withContext?_eq_none_iff]
  rintro ⟨p, hp, hwrong⟩
  cases e with
  | tuple m elts c | list m elts c =>
    rcases List.mem_cons.mp hp with rfl | hp
    · cases hwrong
    · rw [hplaces h p hp] at hwrong
      cases hwrong
  | _ => cases h

end Expr

namespace Parse

open Expr

mutual

/-- The part that a diagnostic is about is the first one that no target may have or that is a tuple
or a list of single places. -/
theorem find?_parts : ∀ e : MarkedExpr,
    e.parts.find? (fun p => p.isUnassignable || p.holdsPlaces) =
      if e.isPlace then none else some (invalidPart e)
  | .tuple m elts c | .list m elts c => by
    have hfirst := find?_partsOf elts
    have hnone := firstInvalid_eq_none_iff elts
    rw [Expr.parts, invalidPart]
    by_cases hplaces : elts.all isPlace = true
    · -- all elements are places, so that the tuple itself stands for them
      rw [hnone.mpr hplaces,
        List.find?_cons_of_pos (by simp [isUnassignable, holdsPlaces, hplaces])]
      rfl
    · obtain ⟨d, hd⟩ := Option.ne_none_iff_exists'.mp fun h => hplaces (hnone.mp h)
      rw [List.find?_cons_of_neg (by simp [isUnassignable, holdsPlaces, hplaces]), hfirst, hd]
      rfl
  | .boolOp .. | .binOp .. | .unaryOp .. | .lambda .. | .dict .. | .compare .. | .call ..
  | .constant .. | .attr .. | .subscript .. | .name .. | .slice .. | .index .. | .formatted .. => by
    simp [Expr.parts, isUnassignable, holdsPlaces, isPlace, invalidPart]

theorem find?_partsOf : ∀ es : List MarkedExpr,
    (partsOf es).find? (fun p => p.isUnassignable || p.holdsPlaces) = firstInvalid es
  | [] => by rw [partsOf, firstInvalid]; rfl
  | e :: es => by
    rw [partsOf, firstInvalid, List.find?_append, find?_parts e, find?_partsOf es]
    cases e.isPlace <;> rfl

theorem firstInvalid_eq_none_iff : ∀ es : List MarkedExpr,
    firstInvalid es = none ↔ es.all isPlace = true
  | [] => by simp [firstInvalid]
  | e :: es => by
    rw [firstInvalid, List.all_cons]
    cases he : e.isPlace with
    | true => simpa using firstInvalid_eq_none_iff es
    | false => simp

end

/-- Where every part may be one of a target, only tuples and lists of single places stop the search.
-/
theorem find?_stop {ps : List MarkedExpr} (h : ∀ p ∈ ps, p.isUnassignable = false) :
    ps.find? (fun p => p.isUnassignable || p.holdsPlaces) = ps.find? holdsPlaces := by
  induction ps with
  | nil => rfl
  | cons p ps ih =>
    rw [List.forall_mem_cons] at h
    rw [List.find?_cons, List.find?_cons, h.1, Bool.false_or, ih h.2]

/-- **What an invalid target is blamed for.** An expression that is no target has a first part in
reading order, reached through tuples and lists only, that no target may have. The diagnostic is
about this part exactly if no tuple or list of single places stands in front of it; if one does, it
is about the first of those, which is a target. -/
theorem invalidPart_exact {e : MarkedExpr} {ctx : Context} (h : e.withContext? ctx = none) :
    ∃ before culprit after, e.parts = before ++ culprit :: after ∧
      culprit.isUnassignable = true ∧ (∀ p ∈ before, p.isUnassignable = false) ∧
      (invalidPart e = culprit ↔ ∀ p ∈ before, p.holdsPlaces = false) ∧
      (invalidPart e ≠ culprit → before.find? holdsPlaces = some (invalidPart e) ∧
        (invalidPart e).withContext? ctx ≠ none) := by
  obtain ⟨p, hp, hwrong⟩ := (withContext?_eq_none_iff ctx e).mp h
  obtain ⟨culprit, hculprit⟩ := Option.isSome_iff_exists.mp (List.find?_isSome.mpr ⟨p, hp, hwrong⟩)
  obtain ⟨hculprit, before, after, hparts, hbefore⟩ := List.find?_eq_some_iff_append.mp hculprit
  have hright : ∀ p ∈ before, p.isUnassignable = false := fun p hp => by simpa using hbefore p hp
  have hplace : e.isPlace = false := by
    cases e with
    | name | attr | subscript => simp [withContext?] at h
    | _ => rfl
  have hfind := find?_parts e
  rw [if_neg (Bool.eq_false_iff.mp hplace), hparts, List.find?_append,
    List.find?_cons_of_pos (by rw [hculprit]; rfl)] at hfind
  rw [find?_stop hright] at hfind
  refine ⟨before, culprit, after, hparts, hculprit, hright, ?_⟩
  cases hfirst : before.find? holdsPlaces with
  | none =>
    rw [hfirst] at hfind
    obtain rfl : culprit = invalidPart e := Option.some.inj hfind
    refine ⟨⟨fun _ p hp => ?_, fun _ => rfl⟩, fun hne => absurd rfl hne⟩
    simpa using List.find?_eq_none.mp hfirst p hp
  | some d =>
    rw [hfirst] at hfind
    obtain rfl : d = invalidPart e := Option.some.inj hfind
    have hholds : (invalidPart e).holdsPlaces = true := List.find?_some hfirst
    have hmem : invalidPart e ∈ before := List.mem_of_find?_eq_some hfirst
    refine ⟨⟨fun heq => ?_, fun hnone => ?_⟩, fun _ => ⟨rfl, ?_⟩⟩
    · rw [← heq, hright _ hmem] at hculprit
      cases hculprit
    · rw [hnone _ hmem] at hholds
      cases hholds
    · exact withContext?_ne_none_of_holdsPlaces hholds ctx

/-- In front of the literal stands a pair of names. -/
theorem invalidPart_exact_pairThenLiteral :
    let m : Mark := ⟨0, {}⟩
    let pair : MarkedExpr := .tuple m [.name m "a" .load, .name m "b" .load] .load
    let e : MarkedExpr := .tuple m [pair, .constant m (.int 1)] .load
    e.withContext? .store = none ∧
      ∃ before culprit after, e.parts = before ++ culprit :: after ∧
        culprit.isUnassignable = true ∧ (∀ p ∈ before, p.isUnassignable = false) ∧
        (invalidPart e = culprit ↔ ∀ p ∈ before, p.holdsPlaces = false) ∧
        (invalidPart e ≠ culprit → before.find? holdsPlaces = some (invalidPart e) ∧
          (invalidPart e).withContext? .store ≠ none) := by
  intro m pair e
  have h : e.withContext? .store = none := by
    simp [e, pair, withContext?, withContexts?]
  exact ⟨h, invalidPart_exact h⟩

/-- **The culprit is not always named.** What is blamed for the target of a pair of names and a
literal is the pair, and not the literal, which is the only part that no target may have. -/
theorem not_invalidPart_culprit :
    ¬ ∀ (e : MarkedExpr) (ctx : Context), e.withContext? ctx = none →
      e.parts.find? isUnassignable = some (invalidPart e) := by
  intro h
  let m : Mark := ⟨0, {}⟩
  let pair : MarkedExpr := .tuple m [.name m "a" .load, .name m "b" .load] .load
  have hpair := h (.tuple m [pair, .constant m (.int 1)] .load) .store (by
    simp [pair, withContext?, withContexts?])
  simp [pair, Expr.parts, partsOf, isUnassignable, invalidPart, firstInvalid, isPlace] at hpair

end Parse

end Toolchain

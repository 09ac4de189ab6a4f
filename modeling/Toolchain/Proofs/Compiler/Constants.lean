import Mathlib.Data.List.Forall2
import Toolchain.Proofs.Compiler.Resolution

/-!
# The constants of compiled code

A constant is put at the end of a pool unless one that is the same is there. The index that is given
out for it stands for it from then on, whatever is put into the pool later.

Code objects are the same if they are one object, whatever they hold. So a pool is seen here as one
of references, in which a code object is a number; which code object has the number does not matter
for where it is put. The compiler hands each code object to a pool once, and then its pool is the
pool of references with the code objects in their places.

In a compiled program the pool of every code object is minimal and in the order of first use. Every
code object that was begun stands in one place of one pool, but for the outermost, which stands in
none: the compiler counts as many code objects as there are.

## Main definitions

* `place`, `placeAll`: putting entries into a pool
* `Reference`: a constant whose code object is referred to

## Main results

* `forall₂_placeAll`: **an index that was given out keeps standing for its entry**
* `CodeBuilder.addConstant_resolve`: a code object in the making puts constants where their
  references are put
* `CodeUnit.Makes.minimalPool`: the pool of the code object that a unit makes
* `logs_compileTree`: the number of code objects that the log of the compiler shows
* `pools_compiled`: **the pools of a compiled program are minimal**
-/

namespace Toolchain

section Place

variable {κ : Type} (same : κ → κ → Bool)

/-- The index of an entry in a pool, at whose end it is put unless one that is the same is there. -/
def place (pool : Array κ) (k : κ) : Nat × Array κ :=
  match pool.findIdx? fun old => same old k with
  | some i => (i, pool)
  | none => (pool.size, pool.push k)

/-- The indices of entries that are put into a pool one after another, and the pool at the end. -/
def placeAll (pool : Array κ) : List κ → List Nat × Array κ
  | [] => ([], pool)
  | k :: ks =>
    let placed := place same pool k
    let rest := placeAll placed.2 ks
    (placed.1 :: rest.1, rest.2)

/-- An index stands for an entry: the entry of the pool that it denotes is the same. -/
def StandsFor (pool : Array κ) (i : Nat) (k : κ) : Prop :=
  ∃ old, pool[i]? = some old ∧ same old k = true

variable {same} {pool : Array κ} {k : κ}

theorem standsFor_place (pool : Array κ) (hk : same k k = true) :
    StandsFor same (place same pool k).2 (place same pool k).1 k := by
  unfold place
  split
  · rename_i i hi
    obtain ⟨hlt, hsame, -⟩ := Array.findIdx?_eq_some_iff_getElem.mp hi
    exact ⟨pool[i], Array.getElem?_eq_getElem hlt, hsame⟩
  · exact ⟨k, by simp, hk⟩

/-- What stands in the pool stays where it is. -/
theorem getElem?_place {i : Nat} {old : κ} (h : pool[i]? = some old) :
    (place same pool k).2[i]? = some old := by
  unfold place
  split
  · exact h
  · obtain ⟨hlt, -⟩ := Array.getElem?_eq_some_iff.mp h
    rw [Array.getElem?_push, if_neg (Nat.ne_of_lt hlt), h]

theorem getElem?_placeAll {i : Nat} {old : κ} (ks : List κ) (h : pool[i]? = some old) :
    (placeAll same pool ks).2[i]? = some old := by
  induction ks generalizing pool with
  | nil => exact h
  | cons k ks ih => exact ih (getElem?_place h)

/-- **An index that was given out keeps standing for its entry.** -/
theorem forall₂_placeAll {ks : List κ} (hks : ∀ k ∈ ks, same k k = true) :
    List.Forall₂ (StandsFor same (placeAll same pool ks).2) (placeAll same pool ks).1 ks := by
  induction ks generalizing pool with
  | nil => exact .nil
  | cons k ks ih =>
    rw [List.forall_mem_cons] at hks
    refine .cons ?_ (ih hks.2)
    -- the entry was found or put there, and stays
    obtain ⟨old, hold, hsame⟩ := standsFor_place pool hks.1
    exact ⟨old, getElem?_placeAll ks hold, hsame⟩

end Place

/-! ## References -/

/-- A constant as it is handed to a pool: a value, or a code object, of which only counts which one
it is. -/
inductive Reference where
  | value (k : Constant)
  | object (number : Nat)

namespace Reference

/-- Whether two references are one. -/
def same : Reference → Reference → Bool
  | value a, value b => a.same b
  | object m, object n => m == n
  | _, _ => false

/-- Whether the constant is of a known kind. A code object is no value. -/
def isKnown : Reference → Bool
  | value (.unknown _) | value (.code _) => false
  | _ => true

/-- The constant, with the code object in its place. -/
def resolve (objects : Nat → Code) : Reference → Constant
  | value k => k
  | object n => .code (objects n)

variable {r old : Reference} {objects : Nat → Code}

theorem same_self (h : r.isKnown = true) : r.same r = true := by
  cases r with
  | value k => cases k <;> simp_all [same, isKnown, Constant.same]
  | object n => simp [same]

/-- Values are found in a pool by what they are. -/
theorem same_resolve_value {k : Constant} (hk : (value k).isKnown = true) :
    (old.resolve objects).same k = old.same (value k) := by
  cases old with
  | value a => rfl
  | object n => cases k <;> simp_all [resolve, same, isKnown, Constant.same]

/-- A code object is never found. -/
theorem same_resolve_object (n : Nat) : (old.resolve objects).same (.code (objects n)) = false := by
  cases old with
  | value a => cases a <;> rfl
  | object m => rfl

end Reference

/-- **A code object in the making puts constants where their references are put**, if each code
object is handed to it once. -/
theorem CodeBuilder.addConstant_resolve {objects : Nat → Code} {b : CodeBuilder}
    {pool : Array Reference} (hb : b.constants = pool.map (Reference.resolve objects))
    {r : Reference}
    (hr : r.isKnown = true) (hnew : ∀ n, r = .object n → .object n ∉ pool) :
    b.addConstant (r.resolve objects) = ((place Reference.same pool r).1,
      { b with constants := (place Reference.same pool r).2.map (Reference.resolve objects) }) := by
  have hfind : b.constants.findIdx? (fun old => old.same (r.resolve objects)) =
      pool.findIdx? fun old => old.same r := by
    rw [hb, Array.findIdx?_map]
    cases r with
    | value k => simp only [Function.comp_def, Reference.resolve.eq_1,
      Reference.same_resolve_value hr]
    | object n =>
      have hnone : pool.findIdx? (fun old => old.same (.object n)) = none := by
        refine Array.findIdx?_eq_none_iff.mpr fun old hold => ?_
        cases old with
        | value a => rfl
        | object m =>
          have hne : m ≠ n := fun heq => hnew n rfl (heq ▸ hold)
          simpa [Reference.same] using hne
      rw [hnone]
      exact Array.findIdx?_eq_none_iff.mpr fun old _ => Reference.same_resolve_object n
  unfold CodeBuilder.addConstant place
  rw [hfind]
  cases pool.findIdx? fun old => old.same r with
  | some i => rw [← hb]
  | none => simp only [Array.map_push, hb, Array.size_map]

/-! ## The pools of a program -/

open Compile

variable {u : CodeUnit} {file : Text} {c o : Code} {r : Root Mark}

/-- The pool of the code object that a unit makes is minimal. -/
theorem CodeUnit.Makes.minimalPool (h : u.Makes file c) : c.view.MinimalPool := by
  obtain ⟨s, s', hs, rfl, hrun, hc⟩ := h.exists_run
  obtain ⟨⟨n, hstretch⟩, -⟩ := gives_write u s hs () s' hrun
  have haccounted := hstretch.accounted [] (CompileState.accounted_of_empty hs)
  have hpooled := hstretch.pooled (CompileState.pooled_of_empty hs)
  exact (haccounted.fulfils hc.words_eq).minimalPool hc.constants_eq hpooled

/-! ## The number of code objects -/

theorem fills_write (u : CodeUnit) : Fills u.write := by
  intro s hs
  refine (gives_write u s hs).mono ?_
  rintro _ t ⟨⟨n, hstretch⟩, -⟩
  exact hstretch.fills hs

/-- As many code objects are begun for a program as there are. -/
theorem gives_root_counted (r : Root Mark) (s : CompileState) :
    (root r).Gives s fun c s' => s'.codes = s.codes + c.nested.length := by
  cases r with
  | module m statements =>
    refine (gives_modify (P := fun _ t => t.codes = s.codes) rfl).bind fun _ t ht => ?_
    refine (gives_compile_counted (fills_write (.module m statements)) t).mono fun c s' hs' => ?_
    rw [hs'.2.2, ht]
  | expression m e =>
    refine (gives_modify (P := fun _ t => t.codes = s.codes) rfl).bind fun _ t ht => ?_
    refine (gives_compile_counted (fills_write (.expression m e)) t).mono fun c s' hs' => ?_
    rw [hs'.2.2, ht]

/-- The log shows how many code objects there are. -/
theorem logs_compileTree (h : (compileTree file r).1 = .ok c) :
    (compileTree file r).2 = [compiledEntry file c.nested.length c] := by
  unfold compileTree at h ⊢
  split at h
  · rename_i code s hrun
    cases h
    have hcodes : s.codes = 0 + c.nested.length := gives_root_counted r _ _ _ hrun
    rw [hcodes, Nat.zero_add]
  · cases h

theorem logs_compileParsed {parsed : Logged Parsed} (h : (compileParsed file parsed).1 = .ok c) :
    (compileParsed file parsed).2.getLast? = some (compiledEntry file c.nested.length c) := by
  obtain ⟨outcome, logs⟩ := parsed
  cases outcome with
  | error d => cases h
  | ok p =>
    change (logs ++ (compileTree file p.root).2).getLast? = _
    rw [logs_compileTree h, List.getLast?_append, List.getLast?_singleton, Option.some_or]

/-! ## Compiled programs -/

/-- **The pools of a compiled program are minimal**, and so are those of a compiled expression: in
every code object no two constants are the same, each is taken by an instruction, and the first that
take them are in the order of the pool. No code object is in two places, since there are as many as
the compiler has begun. An index that was given out for a constant of a known kind keeps standing
for it, whatever is put into the pool later; and as long as each code object is put into it once, a
code object in the making puts constants where this says. -/
theorem pools_compiled (file source : Text) :
    (∀ c, (compileModule file source).1 = .ok c →
      (∀ o ∈ c.nested, o.view.MinimalPool) ∧
        (compileModule file source).2.getLast? = some (compiledEntry file c.nested.length c)) ∧
    (∀ c, (compileExpression source).1 = .ok c →
      (∀ o ∈ c.nested, o.view.MinimalPool) ∧ (compileExpression source).2.getLast? =
        some (compiledEntry expressionFile c.nested.length c)) ∧
    (∀ (pool : Array Reference) ks, (∀ k ∈ ks, k.isKnown = true) →
      List.Forall₂ (StandsFor Reference.same (placeAll Reference.same pool ks).2)
        (placeAll Reference.same pool ks).1 ks) ∧
    ∀ (objects : Nat → Code) (b : CodeBuilder) (pool : Array Reference) (k : Reference),
      b.constants = pool.map (Reference.resolve objects) → k.isKnown = true →
      (∀ n, k = .object n → .object n ∉ pool) →
      b.addConstant (k.resolve objects) = ((place Reference.same pool k).1,
        { b with
          constants := (place Reference.same pool k).2.map (Reference.resolve objects) }) := by
  refine ⟨fun c hc => ⟨fun o ho => ?_, logs_compileParsed hc⟩,
    fun c hc => ⟨fun o ho => ?_, logs_compileParsed hc⟩, fun pool ks hks => ?_, ?_⟩
  · obtain ⟨p, -, hpaired⟩ := paired_of_compileModule hc
    obtain ⟨u, -, hmakes⟩ := hpaired.ofCode o ho
    exact hmakes.minimalPool
  · obtain ⟨p, -, hpaired⟩ := paired_of_compileExpression hc
    obtain ⟨u, -, hmakes⟩ := hpaired.ofCode o ho
    exact hmakes.minimalPool
  · exact forall₂_placeAll fun k hk => Reference.same_self (hks k hk)
  · exact fun objects b pool k hb hk hnew => b.addConstant_resolve hb hk hnew

/-- A program of two code objects that uses some of its constants twice. -/
def repeatedConstants : Text := "def f(x=1):\n    return x + 2 + 2\ny = f(1) + 1\nz = f\n"

/-- The integer one, a code object, and both again. -/
def repeatedReferences : List Reference :=
  [.value (.int 1), .object 0, .value (.int 1), .object 0]

theorem pools_compiled_repeatedConstants :
    (∃ c, (compileModule "m" repeatedConstants).1 = .ok c ∧ c.nested.length = 2 ∧
      ∀ o ∈ c.nested, o.view.MinimalPool) ∧
    (∃ c, (compileExpression "f(1) + 1").1 = .ok c ∧ ∀ o ∈ c.nested, o.view.MinimalPool) ∧
    List.Forall₂ (StandsFor Reference.same #[.value (.int 1), .object 0]) [0, 1, 0, 1]
      repeatedReferences ∧
    ∀ c : Code, (CodeBuilder.addConstant { constants := #[.int 1] } (.code c)).1 = 1 := by
  obtain ⟨hmodule, -, hplaced, hbuilder⟩ := pools_compiled "m" repeatedConstants
  obtain ⟨c, hc, hlength⟩ : ∃ c, (compileModule "m" repeatedConstants).1 = .ok c ∧
      (c.nested.length == 2) = true :=
    exists_of_any (q := fun c : Code => c.nested.length == 2) (by decide +kernel)
  obtain ⟨e, he, -⟩ : ∃ e, (compileExpression "f(1) + 1").1 = .ok e ∧ true = true :=
    exists_of_any (q := fun _ => true) (by decide +kernel)
  have hindices : placeAll Reference.same #[] repeatedReferences =
      ([0, 1, 0, 1], #[.value (.int 1), .object 0]) := by
    simp [repeatedReferences, placeAll, place, Reference.same, Constant.same, List.findIdx?_cons]
  refine ⟨⟨c, hc, by simpa using hlength, (hmodule c hc).1⟩, ?_, ?_, fun o => ?_⟩
  · obtain ⟨-, hexpression, -, -⟩ := pools_compiled "m" "f(1) + 1"
    exact ⟨e, he, (hexpression e he).1⟩
  · have hstand := hplaced #[] repeatedReferences (by decide)
    rwa [hindices] at hstand
  · have hadded := hbuilder (fun _ => o) { constants := #[.int 1] } #[.value (.int 1)] (.object 0)
      (by simp [Reference.resolve]) rfl (by simp)
    rw [Reference.resolve] at hadded
    rw [hadded]
    simp [place, Reference.same, List.findIdx?_cons]

end Toolchain

import Mathlib.Logic.Relation
import Toolchain.Proofs.Compiler.Emission

/-!
# The stack machine

What the instructions of expressions do to a stack of values. What a value is, and what the
operations do with values, is left open: each operation may read and change a state, so that the
order of the operations shows in the state.

An instruction is handed the values it takes from the stack and nothing else. A run stays above a
stack if every step of it finds what it takes above that stack; such a run neither reads nor changes
what lies below.

## Main definitions

* `StackMachine`: the operations on values
* `StackMachine.effect?`, `StackMachine.step?`: what an instruction does, and a step of the machine
* `StackMachine.StepAbove`, `StackMachine.RunsAbove`: steps inside a stretch of code that stay above
  a stack

## Main results

* `StackMachine.step?_append`: a step on a stack is a step above any other stack
* `StackMachine.RunsAbove.lower`: a run above a stack is a run above the lower part of it
* `StackMachine.runsAbove_single`: the run of one instruction
-/

namespace Toolchain

/-- The operations of a stack machine on values of some kind, each of which may change a state. -/
structure StackMachine (V σ : Type) where
  constant : Constant → V
  /-- The constants of the language. -/
  special : Option Bool → V
  name : Text → σ → V × σ
  attr : V → Text → σ → V × σ
  item : V → V → σ → V × σ
  binary : BinaryOp → V → V → σ → V × σ
  unary : UnaryOp → V → σ → V × σ
  compare : CompareOp → V → V → σ → V × σ
  truth : V → σ → Bool × σ
  /-- A value made of parts; those of a dictionary are each key with its value behind it. -/
  build : BuildKind → List V → σ → V × σ
  /-- A call with positional arguments, and with keyword arguments behind their names. -/
  call : V → List V → List (V × V) → σ → V × σ
  format : Option Conversion → V → Option V → σ → V × σ
  /-- A function made of a code object and the defaults of its last parameters. -/
  function : V → List V → σ → V × σ

/-- The name with an index among the constants. -/
def CodeView.nameAt? (v : CodeView) (n : Nat) : Option Text :=
  match v.constants[n]? with
  | some (.name x) => some x
  | _ => none

namespace StackMachine

/-- Where a machine is: the position of the next instruction, the stack, its top first, and the
state. -/
structure Config (V σ : Type) where
  pos : Nat
  stack : List V
  state : σ

variable {V σ : Type}

/-! ## Steps -/

/-- Values two by two. -/
def pairs : List V → List (V × V)
  | a :: b :: rest => (a, b) :: pairs rest
  | _ => []

/-- The unary operators by their codes. -/
def unaryOps : List UnaryOp := [.invert, .not, .plus, .minus]

/-- The comparisons by their codes. -/
def compareOps : List CompareOp := [.eq, .notEq, .lt, .ltE, .gt, .gtE, .is, .isNot, .isIn, .notIn]

/-- The conversions by their codes. -/
def conversions : List (Option Conversion) := [none, some .str, some .repr, some .ascii]

/-- The constants of the language by their codes. -/
def specials : List (Option Bool) := [none, some true, some false]

/-- The values two by two are read back. -/
theorem pairs_flatMap (ps : List (V × V)) : pairs (ps.flatMap fun p => [p.1, p.2]) = ps := by
  induction ps with
  | nil => rfl
  | cons p ps ih =>
    change (p.1, p.2) :: pairs (ps.flatMap fun p => [p.1, p.2]) = p :: ps
    rw [ih]

/-- Where a machine is after an instruction that gives a value. -/
def give (p : Nat) (r : V × σ) : Config V σ := ⟨p + 1, [r.1], r.2⟩

/-- What an instruction of an expression at a position does with the values it takes from the stack:
the stack it leaves stands in their place. -/
def effect? (m : StackMachine V σ) (v : CodeView) (i : Instr) (p : Nat) (taken : List V) (st : σ) :
    Option (Config V σ) :=
  let n := i.operand
  match i.op, taken with
  | .loadConst, [] => (v.constants[n]?).map fun k => ⟨p + 1, [m.constant k], st⟩
  | .loadSpecial, [] => (specials[n]?).map fun x => ⟨p + 1, [m.special x], st⟩
  | .loadName, [] => (v.nameAt? n).map fun x => give p (m.name x st)
  | .loadAttr, [a] => (v.nameAt? n).map fun x => give p (m.attr a x st)
  | .subscr, [part, a] => if n = 0 then some (give p (m.item a part st)) else none
  | .binary, [b, a] => (BinaryOp.all[n]?).map fun op => give p (m.binary op a b st)
  | .unary, [a] => (unaryOps[n]?).map fun op => give p (m.unary op a st)
  | .compare, [b, a] => (compareOps[n]?).map fun op => give p (m.compare op a b st)
  | .build, xs =>
    (BuildKind.ofNumber? (splitBuild n).1).map fun kind => give p (m.build kind xs st)
  | .call, xs =>
    let (positional, keywords) := splitCall n
    match xs.drop (positional + 2 * keywords) with
    | [f] => some (give p (m.call f (xs.take positional)
        (pairs ((xs.drop positional).take (2 * keywords))) st))
    | _ => none
  | .pop, [_] => some ⟨p + 1, [], st⟩
  | .jump, [] => some ⟨n, [], st⟩
  | .jumpIfFalse, [a] =>
    let (b, st) := m.truth a st
    some ⟨if b then p + 1 else n, [], st⟩
  | .jumpIfTrue, [a] =>
    let (b, st) := m.truth a st
    some ⟨if b then n else p + 1, [], st⟩
  | .dup, xs => some ⟨p + 1, xs ++ xs, st⟩
  | .rot, x :: xs => some ⟨p + 1, xs ++ [x], st⟩
  | .makeFunction, code :: defaults => some (give p (m.function code defaults st))
  | .format, [a] => (conversions[n]?).map fun c => give p (m.format c a none st)
  | .format, [spec, a] =>
    (conversions[n - formatSpecBit]?).map fun c => give p (m.format c a (some spec) st)
  | _, _ => none

/-- A step of the machine on a code object, if the stack is deep enough. -/
def step? (m : StackMachine V σ) (v : CodeView) (c : Config V σ) : Option (Config V σ) :=
  (v.instr? c.pos).bind fun i =>
    if i.stackNeed ≤ c.stack.length then
      (m.effect? v i c.pos (c.stack.take i.stackNeed) c.state).map fun c' =>
        { c' with stack := c'.stack ++ c.stack.drop i.stackNeed }
    else none

/-- A step on a stack is a step above any other stack. -/
theorem step?_append {m : StackMachine V σ} {v : CodeView} {p q : Nat} {T T' : List V} {st st' : σ}
    (h : m.step? v ⟨p, T, st⟩ = some ⟨q, T', st'⟩) (S : List V) :
    m.step? v ⟨p, T ++ S, st⟩ = some ⟨q, T' ++ S, st'⟩ := by
  obtain ⟨i, hi, h⟩ := Option.bind_eq_some_iff.mp h
  split at h
  case isFalse => cases h
  case isTrue hneed =>
    obtain ⟨c, hc, heq⟩ := Option.map_eq_some_iff.mp h
    obtain ⟨rfl, rfl, rfl⟩ := Config.mk.inj heq
    have hlength : i.stackNeed ≤ (T ++ S).length := by
      rw [List.length_append]
      exact Nat.le_add_right_of_le hneed
    have htake : (T ++ S).take i.stackNeed = T.take i.stackNeed :=
      List.take_append_of_le_length hneed
    have hdrop : (T ++ S).drop i.stackNeed = T.drop i.stackNeed ++ S :=
      List.drop_append_of_le_length hneed
    simp only [step?, hi, Option.bind_some, if_pos hlength, htake, hdrop, hc, Option.map_some,
      List.append_assoc]

/-! ## Runs above a stack -/

variable (m : StackMachine V σ) (v : CodeView)

/-- A step from inside a stretch of code that stays above a stack: it is the step that the machine
makes on what lies above alone. -/
structure StepAbove (S : List V) (lo hi : Nat) (c c' : Config V σ) : Prop where
  inside : lo ≤ c.pos ∧ c.pos < hi
  step : m.step? v c = some c'
  above : ∃ T T', c.stack = T ++ S ∧ c'.stack = T' ++ S ∧
    m.step? v ⟨c.pos, T, c.state⟩ = some ⟨c'.pos, T', c'.state⟩

/-- A run from inside a stretch of code that stays above a stack. -/
def RunsAbove (S : List V) (lo hi : Nat) : Config V σ → Config V σ → Prop :=
  Relation.ReflTransGen (m.StepAbove v S lo hi)

variable {m v} {S : List V} {lo hi lo' hi' : Nat} {c c' c'' : Config V σ}

/-- A run above a stack, inside a stretch, is a run above the lower part of the stack, inside a
larger stretch. -/
theorem RunsAbove.lower {T : List V} (h : m.RunsAbove v (T ++ S) lo hi c c') (hlo : lo' ≤ lo)
    (hhi : hi ≤ hi') : m.RunsAbove v S lo' hi' c c' := by
  refine Relation.ReflTransGen.mono (fun a b hab => ?_) _ _ h
  obtain ⟨A, B, hA, hB, hstep⟩ := hab.above
  refine ⟨⟨Nat.le_trans hlo hab.inside.1, Nat.lt_of_lt_of_le hab.inside.2 hhi⟩, hab.step,
    A ++ T, B ++ T, ?_, ?_, ?_⟩
  · rw [hA, List.append_assoc]
  · rw [hB, List.append_assoc]
  · exact step?_append hstep T

theorem RunsAbove.widen (h : m.RunsAbove v S lo hi c c') (hlo : lo' ≤ lo) (hhi : hi ≤ hi') :
    m.RunsAbove v S lo' hi' c c' :=
  RunsAbove.lower (T := []) h hlo hhi

theorem RunsAbove.trans (h : m.RunsAbove v S lo hi c c') (h' : m.RunsAbove v S lo hi c' c'') :
    m.RunsAbove v S lo hi c c'' :=
  Relation.ReflTransGen.trans h h'

/-- The run of one instruction, which takes some values off the stack. -/
theorem runsAbove_single {i : Instr} {p : Nat} {r : Config V σ} (hi : v.instr? p = some i)
    (taken : List V) (st : σ) (hneed : i.stackNeed = taken.length)
    (hr : m.effect? v i p taken st = some r) (S : List V) :
    m.RunsAbove v S p (p + 1) ⟨p, taken ++ S, st⟩ ⟨r.pos, r.stack ++ S, r.state⟩ := by
  have hstep : m.step? v ⟨p, taken, st⟩ = some ⟨r.pos, r.stack, r.state⟩ := by
    have hle : i.stackNeed ≤ taken.length := Nat.le_of_eq hneed
    simp only [step?, hi, Option.bind_some, if_pos hle]
    rw [hneed, List.take_length, List.drop_length, hr, Option.map_some, List.append_nil]
  refine .single ⟨⟨Nat.le_refl p, Nat.lt_succ_self p⟩, step?_append hstep S, taken,
    r.stack, rfl, rfl,
    hstep⟩

end StackMachine

end Toolchain

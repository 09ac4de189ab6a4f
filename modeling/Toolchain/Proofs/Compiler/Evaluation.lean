import Toolchain.Proofs.Compiler.ExpressionLayout
import Toolchain.Proofs.Compiler.Machine
import Toolchain.Proofs.Compiler.SourceLines
import Toolchain.Proofs.Parser.Program

/-!
# Evaluation of expressions

The value of an expression can be said without any code: operands from left to right, connectives
and chains of comparisons up to where they are decided, and the parts of compound values last to
first. The code of the expression computes the same value with the same effects in the same order,
whatever the operations on values are, and whatever lies on the stack below.

A lambda is a function made of its code object, so the evaluation is one of expressions that carry
code objects.

## Main definitions

* `CodedExpr`, `Expr.Carries`: an expression whose lambdas carry their code objects
* `StackMachine.eval`: the value of an expression and the state after it
* `CodeView.Computes`: code that computes the value of an expression

## Main results

* `CodeView.ExprAt.computes`: the code of an expression computes its value
* `Compile.runsAbove_eval`: the instructions that an expression is compiled to compute its value
-/

namespace Toolchain

/-! ## Changes of annotations that are undone -/

section MapMap

variable {α β : Type} {f : α → β} {g : β → α}

theorem Param.map_map (h : ∀ a, g (f a) = a) (p : Param α) : (p.map f).map g = p := by
  cases p
  simp only [Param.map, h]

theorem params_map_map (h : ∀ a, g (f a) = a) (ps : List (Param α)) :
    (ps.map (Param.map f)).map (Param.map g) = ps := by
  simp only [List.map_map, Function.comp_def, Param.map_map h, List.map_id']

theorem param?_map_map (h : ∀ a, g (f a) = a) (p : Option (Param α)) :
    (p.map (Param.map f)).map (Param.map g) = p := by
  cases p <;> simp only [Option.map_none, Option.map_some, Param.map_map h]

mutual

/-- A change of the annotations of an expression that another change undoes. -/
theorem Expr.map_map (h : ∀ a, g (f a) = a) : ∀ e : Expr α, (e.map f).map g = e
  | .boolOp m op values => by simp only [Expr.map, h, Expr.mapList_mapList h values]
  | .binOp m left op right => by simp only [Expr.map, h, Expr.map_map h left, Expr.map_map h right]
  | .unaryOp m op operand => by simp only [Expr.map, h, Expr.map_map h operand]
  | .lambda m ⟨params, defaults, vararg, kwarg⟩ body => by
    simp only [Expr.map, h, params_map_map h, param?_map_map h, Expr.mapList_mapList h defaults,
      Expr.map_map h body]
  | .dict m items => by simp only [Expr.map, h, Expr.mapItems_mapItems h items]
  | .compare m left
    rest => by simp only [Expr.map, h, Expr.map_map h left, Expr.mapRest_mapRest h rest]
  | .call m func args keywords => by
    simp only [Expr.map, h, Expr.map_map h func, Expr.mapList_mapList h args,
      Expr.mapKeywords_mapKeywords h keywords]
  | .constant m value => by simp only [Expr.map, h]
  | .attr m value label ctx => by simp only [Expr.map, h, Expr.map_map h value]
  | .subscript m value part
    ctx => by simp only [Expr.map, h, Expr.map_map h value, Expr.map_map h part]
  | .name m id ctx => by simp only [Expr.map, h]
  | .list m elts ctx => by simp only [Expr.map, h, Expr.mapList_mapList h elts]
  | .tuple m elts ctx => by simp only [Expr.map, h, Expr.mapList_mapList h elts]
  | .slice m lower upper step => by
    simp only [Expr.map, h, Expr.mapOption_mapOption h lower, Expr.mapOption_mapOption h upper,
      Expr.mapOption_mapOption h step]
  | .index m value => by simp only [Expr.map, h, Expr.map_map h value]
  | .formatted m value conversion spec => by
    simp only [Expr.map, h, Expr.map_map h value, Expr.mapOption_mapOption h spec]

theorem Expr.mapList_mapList (h : ∀ a, g (f a) = a) :
    ∀ es : List (Expr α), Expr.mapList g (Expr.mapList f es) = es
  | [] => rfl
  | e :: es => by simp only [Expr.mapList, Expr.map_map h e, Expr.mapList_mapList h es]

theorem Expr.mapOption_mapOption (h : ∀ a, g (f a) = a) : ∀ e : Option (Expr α),
    Expr.mapOption g (Expr.mapOption f e) = e
  | none => rfl
  | some e => by simp only [Expr.mapOption, Expr.map_map h e]

theorem Expr.mapItems_mapItems (h : ∀ a, g (f a) = a) : ∀ items : List (Expr α × Expr α),
    Expr.mapItems g (Expr.mapItems f items) = items
  | [] => rfl
  | (key, value) :: rest => by
    simp only [Expr.mapItems, Expr.map_map h key, Expr.map_map h value,
      Expr.mapItems_mapItems h rest]

theorem Expr.mapRest_mapRest (h : ∀ a, g (f a) = a) : ∀ rest : List (CompareOp × Expr α),
    Expr.mapRest g (Expr.mapRest f rest) = rest
  | [] => rfl
  | (op, e) :: rest => by simp only [Expr.mapRest, Expr.map_map h e, Expr.mapRest_mapRest h rest]

theorem Expr.mapKeywords_mapKeywords (h : ∀ a, g (f a) = a) :
    ∀ keywords : List (KeywordArg α (Expr α)),
    Expr.mapKeywords g (Expr.mapKeywords f keywords) = keywords
  | [] => rfl
  | ⟨m, key, value⟩ :: rest => by
    simp only [Expr.mapKeywords, h, Expr.map_map h value, Expr.mapKeywords_mapKeywords h rest]

end

end MapMap

/-! ## Expressions with code objects -/

/-- An expression whose nodes carry code objects. Only those of the lambdas matter. -/
abbrev CodedExpr := Expr (Mark × Code)

/-- What stands for the code object of a node that is no lambda. -/
def Code.blank : Code := { name := [], filename := [], kind := .lambda, firstLine := 0 }

section Carries

variable (file : Text)

mutual

/-- The lambdas of an expression, but not those inside of these, carry code objects that they
make. -/
def Expr.Carries : CodedExpr → Prop
  | .boolOp _ _ values => Expr.AllCarry values
  | .binOp _ left _ right => left.Carries ∧ right.Carries
  | .unaryOp _ _ operand => operand.Carries
  | .lambda k signature body =>
    CodeUnit.Makes (.lambda k.1 (signature.mapExprs Prod.fst) (body.map Prod.fst)) file k.2 ∧
      match signature with
      | ⟨_, defaults, _, _⟩ => Expr.AllCarry defaults
  | .dict _ items => Expr.ItemsCarry items
  | .compare _ left rest => left.Carries ∧ Expr.RestCarry rest
  | .call _ func args keywords =>
    func.Carries ∧ Expr.KeywordsCarry keywords ∧ Expr.AllCarry args
  | .attr _ value _ _ => value.Carries
  | .subscript _ value part _ => value.Carries ∧ part.Carries
  | .list _ elts _ => Expr.AllCarry elts
  | .tuple _ elts _ => Expr.AllCarry elts
  | .slice _ lower upper step =>
    Expr.OptionCarries lower ∧ Expr.OptionCarries upper ∧ Expr.OptionCarries step
  | .index _ value => value.Carries
  | .formatted _ value _ spec => value.Carries ∧ Expr.OptionCarries spec
  | .constant .. => True
  | .name .. => True

/-- Expressions whose lambdas carry their code objects. -/
def Expr.AllCarry : List CodedExpr → Prop
  | [] => True
  | e :: es => e.Carries ∧ Expr.AllCarry es

/-- An expression whose lambdas carry their code objects, if there is one. -/
def Expr.OptionCarries : Option CodedExpr → Prop
  | none => True
  | some e => e.Carries

/-- The items of a dictionary whose lambdas carry their code objects. -/
def Expr.ItemsCarry : List (CodedExpr × CodedExpr) → Prop
  | [] => True
  | (key, value) :: rest => key.Carries ∧ value.Carries ∧ Expr.ItemsCarry rest

/-- The operands of comparisons whose lambdas carry their code objects. -/
def Expr.RestCarry : List (CompareOp × CodedExpr) → Prop
  | [] => True
  | (_, e) :: rest => e.Carries ∧ Expr.RestCarry rest

/-- Keyword arguments whose lambdas carry their code objects. -/
def Expr.KeywordsCarry : List (KeywordArg (Mark × Code) CodedExpr) → Prop
  | [] => True
  | ⟨_, _, value⟩ :: rest => value.Carries ∧ Expr.KeywordsCarry rest

end

end Carries

/-! ## The value of an expression -/

namespace StackMachine

variable {V σ : Type} (m : StackMachine V σ)

/-- The value of a literal. -/
def literal : Literal → V
  | .none => m.special none
  | .bool b => m.special (some b)
  | .int n => m.constant (.int n)
  | .float x => m.constant (.float x)
  | .str s => m.constant (.string s)

/-- Whether a connective is decided by an operand with a truth. -/
def decides : BoolOp → Bool → Bool
  | .and, b => !b
  | .or, b => b

mutual

/-- The value of an expression, and the state after it. -/
def eval : CodedExpr → σ → V × σ
  | .boolOp _ op values, st => connected op values st
  | .binOp _ left op right, st =>
    let (a, st) := eval left st
    let (b, st) := eval right st
    m.binary op a b st
  | .unaryOp _ op operand, st =>
    let (a, st) := eval operand st
    m.unary op a st
  | .lambda k ⟨_, defaults, _, _⟩ _, st =>
    let (xs, st) := reversed defaults st
    m.function (m.constant (.code k.2)) xs st
  | .dict _ pairs, st =>
    let (xs, st) := items pairs st
    m.build .dict xs st
  | .compare _ left rest, st =>
    let (a, st) := eval left st
    chain a rest st
  | .call _ func args kws, st =>
    let (f, st) := eval func st
    let (ks, st) := keywords kws st
    let (xs, st) := reversed args st
    m.call f xs ks st
  | .constant _ value, st => (m.literal value, st)
  | .attr _ value label _, st =>
    let (a, st) := eval value st
    m.attr a label st
  | .subscript _ value part _, st =>
    let (a, st) := eval value st
    let (b, st) := eval part st
    m.item a b st
  | .name _ id _, st => m.name id st
  | .list _ elts _, st =>
    let (xs, st) := reversed elts st
    m.build .list xs st
  | .tuple _ elts _, st =>
    let (xs, st) := reversed elts st
    m.build .tuple xs st
  | .slice _ lower upper step, st =>
    let (c, st) := optional step st
    let (b, st) := optional upper st
    let (a, st) := optional lower st
    m.build .slice [a, b, c] st
  | .index _ value, st => eval value st
  | .formatted _ value conversion none, st =>
    let (a, st) := eval value st
    m.format conversion a none st
  | .formatted _ value conversion (some spec), st =>
    let (a, st) := eval value st
    let (b, st) := eval spec st
    m.format conversion a (some b) st

/-- The value of an expression that may be missing. -/
def optional : Option CodedExpr → σ → V × σ
  | none, st => (m.special none, st)
  | some e, st => eval e st

/-- The values of expressions, the last one first. -/
def reversed : List CodedExpr → σ → List V × σ
  | [], st => ([], st)
  | e :: es, st =>
    let (xs, st) := reversed es st
    let (x, st) := eval e st
    (x :: xs, st)

/-- The items of a dictionary, the last one first, and of each the value before the key. -/
def items : List (CodedExpr × CodedExpr) → σ → List V × σ
  | [], st => ([], st)
  | (key, value) :: rest, st =>
    let (xs, st) := items rest st
    let (x, st) := eval value st
    let (k, st) := eval key st
    (k :: x :: xs, st)

/-- The values of keyword arguments with their names, the last one first. -/
def keywords : List (KeywordArg (Mark × Code) CodedExpr) → σ → List (V × V) × σ
  | [], st => ([], st)
  | ⟨_, key, value⟩ :: rest, st =>
    let (ks, st) := keywords rest st
    let (x, st) := eval value st
    ((m.constant (.string (key.getD Compile.mappingName)), x) :: ks, st)

/-- The value of a connective: that of the first operand that decides it, or of the last one.
Nothing is evaluated after it. -/
def connected (op : BoolOp) : List CodedExpr → σ → V × σ
  | [], st => (m.special none, st)
  | [e], st => eval e st
  | e :: e' :: es, st =>
    let (a, st) := eval e st
    let (b, st) := m.truth a st
    if decides op b then (a, st) else connected op (e' :: es) st

/-- The value of a chain of comparisons after the operand with a value: that of the first comparison
that is false, or of the last one. Each operand is evaluated once, and nothing after a false
comparison. -/
def chain (a : V) : List (CompareOp × CodedExpr) → σ → V × σ
  | [], st => (a, st)
  | [(op, e)], st =>
    let (b, st) := eval e st
    m.compare op a b st
  | (op, e) :: next :: rest, st =>
    let (b, st) := eval e st
    let (r, st) := m.compare op a b st
    let (holds, st) := m.truth r st
    if holds then chain b (next :: rest) st else (r, st)

end

end StackMachine

/-! ## Code that pushes values -/

namespace CodeView

/-- The code of a stretch pushes values, the last one first, whatever the machine is and whatever
lies on its stack. -/
def Pushes (v : CodeView) (p n : Nat) (f : ∀ V σ : Type, StackMachine V σ → σ → List V × σ) :
    Prop :=
  ∀ (V σ : Type) (m : StackMachine V σ) (S : List V) (st : σ),
    m.RunsAbove v S p (p + n) ⟨p, S, st⟩ ⟨p + n, (f V σ m st).1 ++ S, (f V σ m st).2⟩

variable {v : CodeView} {p q n k : Nat} {f g : ∀ V σ : Type, StackMachine V σ → σ → List V × σ}

theorem pushes_nil (v : CodeView) (p : Nat) : v.Pushes p 0 fun _ _ _ st => ([], st) :=
  fun _ _ _ _ _ => .refl

/-- One stretch behind another. -/
theorem Pushes.seq (hf : v.Pushes p n f) (hg : v.Pushes q k g) (hq : q = p + n) :
    v.Pushes p (n + k) fun V σ m st =>
      let r := g V σ m (f V σ m st).2
      (r.1 ++ (f V σ m st).1, r.2) := by
  intro V σ m S st
  subst hq
  have hlast := (hg V σ m ((f V σ m st).1 ++ S) (f V σ m st).2).lower
    (Nat.le_add_right p n) (Nat.le_of_eq (Nat.add_assoc p n k))
  have hall := ((hf V σ m S st).widen (Nat.le_refl p)
    (Nat.add_le_add_left (Nat.le_add_right n k) p)).trans hlast
  simpa only [List.append_assoc, Nat.add_assoc] using hall

/-- An instruction that takes all values that were pushed. -/
theorem Pushes.instr {i : Instr} (hf : v.Pushes p n f) (hi : v.instr? (p + n) = some i)
    (heffect : ∀ (V σ : Type) (m : StackMachine V σ) (st : σ),
      i.stackNeed = (f V σ m st).1.length ∧
        m.effect? v i (p + n) (f V σ m st).1 (f V σ m st).2 =
          some ⟨p + n + 1, (g V σ m st).1, (g V σ m st).2⟩) :
    v.Pushes p (n + 1) g := by
  intro V σ m S st
  obtain ⟨hneed, hr⟩ := heffect V σ m st
  have hlast := (StackMachine.runsAbove_single hi _ _ hneed hr S).widen (Nat.le_add_right p n)
    (Nat.le_of_eq (Nat.add_assoc p n 1))
  exact ((hf V σ m S st).widen (Nat.le_refl p) (Nat.le_succ _)).trans hlast

theorem Pushes.congr (hf : v.Pushes p n f) (hn : n = k)
    (hg : ∀ (V σ : Type) (m : StackMachine V σ) (st : σ), f V σ m st = g V σ m st) :
      v.Pushes p k g := by
  intro V σ m S st
  rw [← hg, ← hn]
  exact hf V σ m S st

/-- The code of an expression at a position computes the value of the expression with code
objects. -/
def Computes (v : CodeView) (e : MarkedExpr) (p : Nat) (a : CodedExpr) : Prop :=
  v.Pushes p e.codeSize fun _ _ m st => ([(m.eval a st).1], (m.eval a st).2)

end CodeView

/-! ## Counts that fit into an operand -/

mutual

/-- No display and no call in an expression has more parts than an operand can say. -/
def Expr.CountsFit : MarkedExpr → Prop
  | .boolOp _ _ values => Expr.AllCountsFit values
  | .binOp _ left _ right => left.CountsFit ∧ right.CountsFit
  | .unaryOp _ _ operand => operand.CountsFit
  | .lambda _ ⟨_, defaults, _, _⟩ _ => Expr.AllCountsFit defaults
  | .dict _ items => items.length ≤ maxBuildCount ∧ Expr.ItemsCountsFit items
  | .compare _ left rest => left.CountsFit ∧ Expr.RestCountsFit rest
  | .call _ func args keywords =>
    args.length ≤ maxPositional ∧ func.CountsFit ∧ Expr.KeywordsCountsFit keywords ∧
      Expr.AllCountsFit args
  | .constant .. => True
  | .attr _ value _ _ => value.CountsFit
  | .subscript _ value part _ => value.CountsFit ∧ part.CountsFit
  | .name .. => True
  | .list _ elts _ => elts.length ≤ maxBuildCount ∧ Expr.AllCountsFit elts
  | .tuple _ elts _ => elts.length ≤ maxBuildCount ∧ Expr.AllCountsFit elts
  | .slice _ lower upper step =>
    Expr.OptionCountsFit step ∧ Expr.OptionCountsFit upper ∧ Expr.OptionCountsFit lower
  | .index _ value => value.CountsFit
  | .formatted _ value _ spec => value.CountsFit ∧ Expr.OptionCountsFit spec

/-- Expressions with counts that fit. -/
def Expr.AllCountsFit : List MarkedExpr → Prop
  | [] => True
  | e :: es => e.CountsFit ∧ Expr.AllCountsFit es

/-- An expression with counts that fit, if there is one. -/
def Expr.OptionCountsFit : Option MarkedExpr → Prop
  | none => True
  | some e => e.CountsFit

/-- The items of a dictionary with counts that fit. -/
def Expr.ItemsCountsFit : List (MarkedExpr × MarkedExpr) → Prop
  | [] => True
  | (key, value) :: rest => key.CountsFit ∧ value.CountsFit ∧ Expr.ItemsCountsFit rest

/-- The operands of comparisons with counts that fit. -/
def Expr.RestCountsFit : List (CompareOp × MarkedExpr) → Prop
  | [] => True
  | (_, e) :: rest => e.CountsFit ∧ Expr.RestCountsFit rest

/-- Keyword arguments with counts that fit. -/
def Expr.KeywordsCountsFit : List (KeywordArg Mark MarkedExpr) → Prop
  | [] => True
  | ⟨_, _, value⟩ :: rest => value.CountsFit ∧ Expr.KeywordsCountsFit rest

end

namespace Compile

variable {α β : Type} {P : Prop}

/-- What every success of a step implies. -/
def Ensures (m : Compile α) (P : Prop) : Prop := ∀ s, m.Gives s fun _ _ => P

theorem ensures_true (m : Compile α) : m.Ensures True := fun _ _ _ _ => trivial

theorem Ensures.mono {Q : Prop} {m : Compile α} (h : m.Ensures P) (hQ : P → Q) : m.Ensures Q :=
  fun s a s' hrun => hQ (h s a s' hrun)

/-- Both parts of a sequence imply what they imply. -/
theorem Ensures.bind {Q : Prop} {m : Compile α} {f : α → Compile β} (h : m.Ensures P)
    (hf : ∀ a, (f a).Ensures Q) : (m >>= f).Ensures (P ∧ Q) :=
  fun s => (h s).bind fun a t hP => (hf a t).mono fun _ _ hQ => ⟨hP, hQ⟩

theorem Ensures.after {m : Compile α} {f : α → Compile β} (hf : ∀ a, (f a).Ensures P) :
    (m >>= f).Ensures P :=
  ((ensures_true m).bind hf).mono And.right

theorem Ensures.before {m : Compile α} {f : α → Compile β} (h : m.Ensures P) :
    (m >>= f).Ensures P :=
  (h.bind fun a => ensures_true (f a)).mono And.left

theorem ensures_lined {c : Bool} {line : Nat} {f : Unit → Compile Unit} (h : (f ()).Ensures P) :
    Ensures (if c = true then (do let r ← setLine line; f r) else f ()) P := by
  split
  · exact .after fun _ => h
  · exact h

theorem ensures_checkCount (count : Nat) : (checkCount count).Ensures (count ≤ maxBuildCount) :=
  fun s => (gives_checkCount count s).mono fun _ _ h => h.1

mutual

/-- An expression that compiles has counts that fit. -/
theorem ensures_code : ∀ e : MarkedExpr, e.WellFormed → (code false e).Ensures e.CountsFit
  | .boolOp m op values, h => by
    rw [code.eq_def]
    exact ensures_lined (.before (ensures_connected values h.2))
  | .binOp m left op right, h => by
    rw [code]
    exact ensures_lined ((ensures_code left h.1).bind fun _ => .before (ensures_code right h.2))
  | .unaryOp m op operand, h => by
    rw [code]
    exact ensures_lined (.before (ensures_code operand h))
  | .lambda m ⟨params, defaults, vararg, kwarg⟩ body, h => by
    rw [code]
    exact ensures_lined (.before (ensures_reversed defaults h.2.1))
  | .dict m pairs, h => by
    rw [code]
    exact ensures_lined ((ensures_checkCount _).bind fun _ => .before (ensures_items pairs h))
  | .compare m left rest, h => by
    rw [code]
    exact ensures_lined ((ensures_code left h.1).bind fun _ =>
      .before (ensures_comparisons rest h.2.2))
  | .call m func args kws, h => by
    rw [code]
    have hrest : Ensures (do
        code false func
        keywords kws
        reversed false args
        emit .call (callOperand args.length kws.length)) _ :=
      (ensures_code func h.1).bind fun _ => (ensures_keywords kws h.2.2).bind fun _ =>
        .before (ensures_reversed args h.2.1)
    refine ensures_lined ?_
    split
    · exact .after fun _ s => gives_fail.bind fun _ _ (hf : False) => hf.elim
    · next hfew =>
      simp only [Bool.or_eq_true, decide_eq_true_eq, not_or, Nat.not_lt] at hfew
      exact hrest.mono fun hall => ⟨hfew.1, hall⟩
  | .constant m value, _ => fun s => (ensures_true _ s)
  | .attr m value label ctx, h => by
    rw [code]
    exact ensures_lined (.before (ensures_code value h.1))
  | .subscript m value part ctx, h => by
    rw [code]
    exact ensures_lined ((ensures_code value h.1).bind fun _ => .before (ensures_part part h.2.1))
  | .name m id ctx, _ => fun s => (ensures_true _ s)
  | .list m elts ctx, h => by
    rw [code]
    exact ensures_lined ((ensures_checkCount _).bind fun _ => .before (ensures_reversed elts h.1))
  | .tuple m elts ctx, h => by
    rw [code]
    exact ensures_lined ((ensures_checkCount _).bind fun _ => .before (ensures_reversed elts h.1))
  | .slice .., h | .index .., h => h.elim
  | .formatted m value conversion none, h => by
    rw [code]
    exact ensures_lined (.before ((ensures_code value h.1).mono fun hv => ⟨hv, trivial⟩))
  | .formatted m value conversion (some spec), h => by
    rw [code]
    exact ensures_lined ((ensures_code value h.1).bind fun _ => .before (ensures_code spec h.2))

theorem ensures_part : ∀ e : MarkedExpr, e.PartWellFormed → (code true e).Ensures e.CountsFit
  | .index m value, h => by
    rw [code]
    exact ensures_lined (ensures_code value h)
  | .slice m lower upper step, h => by
    rw [code]
    exact ensures_lined ((ensures_optional step h.2.2).bind fun _ =>
      (ensures_optional upper h.2.1).bind fun _ => .before (ensures_optional lower h.1))
  | .boolOp .., h | .binOp .., h | .unaryOp .., h | .lambda .., h | .dict .., h | .compare .., h
  | .call .., h | .constant .., h | .attr .., h | .subscript .., h | .name .., h | .list .., h
  | .tuple .., h | .formatted .., h => h.elim

theorem ensures_optional : ∀ e : Option MarkedExpr, Expr.OptionWellFormed e →
    (optional e).Ensures (Expr.OptionCountsFit e)
  | none, _ => fun s => (ensures_true _ s)
  | some e, h => by
    exact ensures_code e h

theorem ensures_reversed : ∀ es : List MarkedExpr, Expr.AllWellFormed es →
    (reversed false es).Ensures (Expr.AllCountsFit es)
  | [], _ => fun s => (ensures_true _ s)
  | e :: es, h => by
    exact ((ensures_reversed es h.2).bind fun _ => ensures_code e h.1).mono And.symm

theorem ensures_items : ∀ pairs : List (MarkedExpr × MarkedExpr), Expr.ItemsWellFormed pairs →
    (items pairs).Ensures (Expr.ItemsCountsFit pairs)
  | [], _ => fun s => (ensures_true _ s)
  | (key, value) :: rest, h => by
    refine ((ensures_items rest h.2.2).bind fun _ => (ensures_code value h.2.1).bind fun _ =>
      ensures_code key h.1).mono ?_
    rintro ⟨hrest, hvalue, hkey⟩
    exact ⟨hkey, hvalue, hrest⟩

theorem ensures_keywords : ∀ kws : List (KeywordArg Mark MarkedExpr),
    Expr.KeywordsWellFormed kws → (keywords kws).Ensures (Expr.KeywordsCountsFit kws)
  | [], _ => fun s => (ensures_true _ s)
  | ⟨m, key, value⟩ :: rest, h => by
    exact ((ensures_keywords rest h.2.2).bind fun _ => .before (ensures_code value h.2.1)).mono
      And.symm

theorem ensures_connected : ∀ es : List MarkedExpr, Expr.AllWellFormed es →
    (connected es).Ensures (Expr.AllCountsFit es)
  | [], _ => fun s => (ensures_true _ s)
  | [e], h => by
    exact .before ((ensures_code e h.1).mono fun he => ⟨he, trivial⟩)
  | e :: e' :: es, h => by
    rw [connected_cons_cons]
    exact (ensures_code e h.1).bind fun _ => .after fun _ => .after fun _ => .after fun _ =>
      .before (ensures_connected (e' :: es) h.2)

theorem ensures_comparisons : ∀ rest : List (CompareOp × MarkedExpr), Expr.RestWellFormed rest →
    (comparisons rest).Ensures (Expr.RestCountsFit rest)
  | [], _ => fun s => (ensures_true _ s)
  | [(op, e)], h => by
    exact .before ((ensures_code e h.1).mono fun he => ⟨he, trivial⟩)
  | (op, e) :: next :: rest, h => by
    rw [comparisons_cons_cons]
    exact (ensures_code e h.1).bind fun _ => .after fun _ => .after fun _ => .after fun _ =>
      .after fun _ => .after fun _ => .after fun _ =>
        .before (ensures_comparisons (next :: rest) h.2)

end

end Compile

/-! ## The code of an expression computes its value -/

namespace CodeView

open StackMachine (give)

variable {file : Text} {v : CodeView} {p n : Nat}

theorem nameAt?_of_constant {i : Nat} {x : Text} (h : v.constants[i]? = some (.name x)) :
    v.nameAt? i = some x := by
  rw [nameAt?, h]

/-- An instruction that takes nothing and leaves the state. -/
theorem pushes_value {i : Instr} {f : ∀ V σ : Type, StackMachine V σ → V} (hi : v.instr? p = some i)
    (heffect : ∀ (V σ : Type) (m : StackMachine V σ) (st : σ), i.stackNeed = 0 ∧
      m.effect? v i p [] st = some ⟨p + 1, [f V σ m], st⟩) :
    v.Pushes p 1 fun V σ m st => ([f V σ m], st) :=
  (pushes_nil v p).instr hi heffect

theorem LiteralAt.pushes (value : Literal) (h : v.LiteralAt value p) :
    v.Pushes p 1 fun _ _ m st => ([m.literal value], st) := by
  have hload (k : Constant) (hk : v.Loads p .loadConst k) :
      v.Pushes p 1 fun _ _ m st => ([m.constant k], st) := by
    obtain ⟨i, hi, hk⟩ := hk
    exact pushes_value hi fun V σ m st => ⟨rfl, by simp [StackMachine.effect?, hk]⟩
  cases value with
  | none => exact pushes_value h fun V σ m st => ⟨rfl, rfl⟩
  | bool b =>
    cases b with
    | true => exact pushes_value h fun V σ m st => ⟨rfl, rfl⟩
    | false => exact pushes_value h fun V σ m st => ⟨rfl, rfl⟩
  | int n => exact hload _ h
  | float x => exact hload _ h
  | str s => exact hload _ h

theorem length_reversed {V σ : Type} (m : StackMachine V σ) (es : List CodedExpr) (st : σ) :
    (m.reversed es st).1.length = es.length := by
  induction es with
  | nil => rw [StackMachine.reversed]
           rfl
  | cons e es ih =>
    rw [StackMachine.reversed, List.length_cons, List.length_cons, ih]

theorem length_items {V σ : Type} (m : StackMachine V σ) (pairs : List (CodedExpr × CodedExpr))
    (st : σ) :
    (m.items pairs st).1.length = pairs.length * 2 := by
  induction pairs with
  | nil => rw [StackMachine.items]
           rfl
  | cons pair pairs ih =>
    obtain ⟨key, value⟩ := pair
    rw [StackMachine.items, List.length_cons, List.length_cons, ih, List.length_cons]
    omega

theorem length_keywords {V σ : Type} (m : StackMachine V σ)
    (kws : List (KeywordArg (Mark × Code) CodedExpr)) (st : σ) :
    (m.keywords kws st).1.length = kws.length := by
  induction kws with
  | nil => rw [StackMachine.keywords]
           rfl
  | cons k kws ih =>
    obtain ⟨_, key, value⟩ := k
    rw [StackMachine.keywords, List.length_cons, List.length_cons, ih]

/-- Values are built into one. -/
theorem Pushes.build {f : ∀ V σ : Type, StackMachine V σ → σ → List V × σ} (kind : BuildKind)
    (count : Nat) (hf : v.Pushes p n f) (hcount : count ≤ maxBuildCount)
    (hi : v.instr? (p + n) = some ⟨.build, buildOperand kind.number count⟩)
    (hlength : ∀ (V σ : Type) (m : StackMachine V σ) (st : σ), (f V σ m st).1.length =
      if kind = .dict then count * 2 else count) :
    v.Pushes p (n + 1) fun V σ m st =>
      let r := m.build kind (f V σ m st).1 (f V σ m st).2
      ([r.1], r.2) := by
  refine hf.instr hi fun V σ m st => ⟨?_, ?_⟩
  · rw [hlength, Instr.stackNeed, splitBuild_buildOperand kind.number hcount]
    cases kind <;> rfl
  · have hkind : BuildKind.ofNumber? (splitBuild (buildOperand kind.number count)).1 =
        some kind := by
      rw [splitBuild_buildOperand kind.number hcount]
      cases kind <;> rfl
    change (BuildKind.ofNumber? (splitBuild (buildOperand kind.number count)).1).map
      (fun kind => give (p + n) (m.build kind (f V σ m st).1 (f V σ m st).2)) = _
    rw [hkind]
    rfl

/-- A function is called with arguments, and with keyword arguments behind their names. -/
theorem Pushes.call {f : ∀ V σ : Type, StackMachine V σ → σ → V × List (V × V) × List V × σ}
    {positional keywords : Nat}
    (hf : v.Pushes p n fun V σ m st =>
      let r := f V σ m st
      (r.2.2.1 ++ (r.2.1.flatMap fun k => [k.1, k.2]) ++ [r.1], r.2.2.2))
    (hpositional : positional ≤ maxPositional)
    (hi : v.instr? (p + n) = some ⟨.call, callOperand positional keywords⟩)
    (hlength : ∀ (V σ : Type) (m : StackMachine V σ) (st : σ),
      (f V σ m st).2.2.1.length = positional ∧ (f V σ m st).2.1.length = keywords) :
    v.Pushes p (n + 1) fun V σ m st =>
      let r := f V σ m st
      let s := m.call r.1 r.2.2.1 r.2.1 r.2.2.2
      ([s.1], s.2) := by
  have hsplit := splitCall_callOperand hpositional keywords
  refine hf.instr hi fun V σ m st => ?_
  obtain ⟨hargs, hkws⟩ := hlength V σ m st
  generalize f V σ m st = r at hargs hkws ⊢
  obtain ⟨func, kws, args, st'⟩ := r
  have hpairs : (kws.flatMap fun k => [k.1, k.2]).length = 2 * keywords := by
    rw [List.length_flatMap, ← hkws]
    simp [Nat.mul_comm]
  refine ⟨?_, ?_⟩
  · simp only [Instr.stackNeed, hsplit, List.length_append, hpairs, List.length_singleton]
    rw [← hargs]
  · have hdrop : (args ++ (kws.flatMap fun k => [k.1, k.2]) ++ [func]).drop
        (positional + 2 * keywords) = [func] := by
      rw [List.drop_append_of_le_length, List.drop_eq_nil_of_le, List.nil_append]
      · simp [hpairs, ← hargs]
      · simp [hpairs, ← hargs]
    have htake : (args ++ (kws.flatMap fun k => [k.1, k.2]) ++ [func]).take positional = args := by
      rw [List.append_assoc]
      exact List.take_left' hargs
    have hmiddle : ((args ++ (kws.flatMap fun k => [k.1, k.2]) ++ [func]).drop positional).take
        (2 * keywords) = kws.flatMap fun k => [k.1, k.2] := by
      rw [List.append_assoc, List.drop_left' hargs]
      exact List.take_left' hpairs
    simp only [StackMachine.effect?, hsplit, hdrop, htake, hmiddle,
      StackMachine.pairs_flatMap, give]

/-! ### Connectives and chains of comparisons -/

/-- The jump behind an operand of a connective goes to the end if the operand decides it. -/
theorem effect?_connectiveJump {V σ : Type} (m : StackMachine V σ) (op : BoolOp)
    (done : Nat) (a : V)
    (st : σ) :
    m.effect? v ⟨connectiveJump op, done⟩ p [a] st =
      some ⟨if StackMachine.decides op (m.truth a st).1 then done else p + 1, [],
        (m.truth a st).2⟩ := by
  cases op with
  | and =>
    simp only [connectiveJump, StackMachine.effect?, StackMachine.decides]
    cases (m.truth a st).1 <;> rfl
  | or =>
    simp only [connectiveJump, StackMachine.effect?, StackMachine.decides]
    cases (m.truth a st).1 <;> rfl

theorem stackNeed_connectiveJump (op : BoolOp) (done : Nat) :
    Instr.stackNeed ⟨connectiveJump op, done⟩ = 1 := by
  cases op <;> rfl

/-- An operand of a connective that is not the last one: the rest is left out if it decides. -/
theorem Pushes.connect {op : BoolOp} {a rest : ∀ V σ : Type, StackMachine V σ → σ → V × σ} {k : Nat}
    (ha : v.Pushes p n fun V σ m st => ([(a V σ m st).1], (a V σ m st).2))
    (hrest : v.Pushes (p + n + 3) k fun V σ m st => ([(rest V σ m st).1], (rest V σ m st).2))
    (hdup : v.instr? (p + n) = some ⟨.dup, 1⟩)
    (hjump : v.instr? (p + n + 1) = some ⟨connectiveJump op, p + n + 3 + k⟩)
    (hpop : v.instr? (p + n + 2) = some ⟨.pop, 0⟩) :
    v.Pushes p (n + 3 + k) fun V σ m st =>
      let r := a V σ m st
      let t := m.truth r.1 r.2
      let s := if StackMachine.decides op t.1 then (r.1, t.2) else rest V σ m t.2
      ([s.1], s.2) := by
  intro V σ m S st
  have hend : p + (n + 3 + k) = p + n + 3 + k := by omega
  have hfirst := (ha V σ m S st).widen (Nat.le_refl p) (show _ ≤ p + (n + 3 + k) by omega)
  dsimp only at hfirst ⊢
  generalize a V σ m st = r at hfirst ⊢
  obtain ⟨x, st₁⟩ := r
  have htest : m.RunsAbove v S p (p + (n + 3 + k)) ⟨p + n, [x] ++ S, st₁⟩
      ⟨if StackMachine.decides op (m.truth x st₁).1 then p + n + 3 + k else p + n + 2, [x] ++ S,
        (m.truth x st₁).2⟩ := by
    have hcopy := StackMachine.runsAbove_single (m := m) hdup [x] st₁ rfl rfl S
    have hdecide := StackMachine.runsAbove_single (m := m) hjump [x] st₁
      (stackNeed_connectiveJump op _) (effect?_connectiveJump m op _ x st₁) ([x] ++ S)
    exact (hcopy.widen (by omega) (by omega)).trans (hdecide.lower (by omega) (by omega))
  rw [hend] at hfirst htest ⊢
  refine (hfirst.trans htest).trans ?_
  by_cases hd : StackMachine.decides op (m.truth x st₁).1 = true
  · rw [if_pos hd, if_pos hd]
    exact .refl
  · rw [if_neg hd, if_neg hd]
    have hdrop := StackMachine.runsAbove_single (m := m) hpop [x] (m.truth x st₁).2
      rfl rfl S
    exact (hdrop.widen (by omega) (by omega)).trans
      ((hrest V σ m S _).widen (by omega) (Nat.le_refl _))

/-- The code of a chain of comparisons after its first operand, on whose value it stands. It leaves
the value of the chain, or comes with it to where the operand below is dropped. -/
def Chains (v : CodeView) (drop : Nat) (rest : List (CompareOp × MarkedExpr)) (p : Nat)
    (coded : List (CompareOp × CodedExpr)) : Prop :=
  ∀ (V σ : Type) (m : StackMachine V σ) (S : List V) (a : V) (st : σ),
    let n := Expr.comparisonsSize rest
    let r := m.chain a coded st
    m.RunsAbove v S p (p + n) ⟨p, a :: S, st⟩ ⟨p + n, r.1 :: S, r.2⟩ ∨
      2 ≤ rest.length ∧ ∃ b, m.RunsAbove v S p (p + n) ⟨p, a :: S, st⟩ ⟨drop, r.1 :: b :: S, r.2⟩

theorem effect?_compare {V σ : Type} (m : StackMachine V σ) (op : CompareOp) (a b : V) (st : σ) :
    m.effect? v ⟨.compare, op.code⟩ p [b, a] st = some (give p (m.compare op a b st)) := by
  cases op <;> rfl

theorem stackNeed_compare (n : Nat) : Instr.stackNeed ⟨.compare, n⟩ = 2 := rfl

theorem chain_cons_cons {V σ : Type} (m : StackMachine V σ) (a : V) (op : CompareOp) (e : CodedExpr)
    (next : CompareOp × CodedExpr) (rest : List (CompareOp × CodedExpr)) (st : σ) :
    m.chain a ((op, e) :: next :: rest) st =
      let b := m.eval e st
      let r := m.compare op a b.1 b.2
      let t := m.truth r.1 r.2
      if t.1 then m.chain b.1 (next :: rest) t.2 else (r.1, t.2) := by
  rw [StackMachine.chain]

/-- The last comparison of a chain. -/
theorem Computes.chains_last {op : CompareOp} {e : MarkedExpr} {c : CodedExpr}
    (he : v.Computes e p c) (hi : v.instr? (p + e.codeSize) = some ⟨.compare, op.code⟩)
    (drop : Nat) : v.Chains drop [(op, e)] p [(op, c)] := by
  intro V σ m S a st
  left
  have hoperand := (he V σ m ([a] ++ S) st).lower (T := [a]) (Nat.le_refl p) (Nat.le_succ _)
  have hcompare := StackMachine.runsAbove_single (m := m) hi [(m.eval c st).1, a] (m.eval c st).2
    (stackNeed_compare _) (effect?_compare m op a (m.eval c st).1 (m.eval c st).2) S
  exact hoperand.trans (hcompare.widen (Nat.le_add_right _ _) (Nat.le_refl _))

/-- A comparison of a chain before the last one: if it is false the rest is left out. -/
theorem Computes.chains_next {op : CompareOp} {e : MarkedExpr} {next : CompareOp × MarkedExpr}
    {rest : List (CompareOp × MarkedExpr)} {c : CodedExpr} {coded : CompareOp × CodedExpr}
    {codedRest : List (CompareOp × CodedExpr)} {drop : Nat} (he : v.Computes e p c)
    (hrest : v.Chains drop (next :: rest) (p + e.codeSize + 6) (coded :: codedRest))
    (hdup : v.instr? (p + e.codeSize) = some ⟨.dup, 1⟩)
    (hrot : v.instr? (p + e.codeSize + 1) = some ⟨.rot, 3⟩)
    (hcompare : v.instr? (p + e.codeSize + 2) = some ⟨.compare, op.code⟩)
    (hcopy : v.instr? (p + e.codeSize + 3) = some ⟨.dup, 1⟩)
    (hjump : v.instr? (p + e.codeSize + 4) = some ⟨.jumpIfFalse, drop⟩)
    (hpop : v.instr? (p + e.codeSize + 5) = some ⟨.pop, 0⟩) :
    v.Chains drop ((op, e) :: next :: rest) p ((op, c) :: coded :: codedRest) := by
  intro V σ m S a st
  rw [Expr.comparisonsSize, chain_cons_cons]
  generalize hn : e.codeSize = n at *
  generalize hk : Expr.comparisonsSize (next :: rest) = k
  have hoperand := (he V σ m ([a] ++ S) st).lower (T := [a]) (Nat.le_refl p)
    (show _ ≤ p + (n + 6 + k) by omega)
  rw [hn] at hoperand
  dsimp only at hoperand ⊢
  generalize m.eval c st = r at hoperand ⊢
  obtain ⟨b, st₁⟩ := r
  have hcompared : m.RunsAbove v S p (p + (n + 6 + k)) ⟨p + n, [b] ++ ([a] ++ S), st₁⟩
      ⟨p + n + 3, [(m.compare op a b st₁).1] ++ ([b] ++ S), (m.compare op a b st₁).2⟩ := by
    have h₁ := StackMachine.runsAbove_single (m := m) hdup [b] st₁ rfl rfl ([a] ++ S)
    have h₂ := StackMachine.runsAbove_single (m := m) hrot [b, b, a] st₁ rfl rfl S
    have h₃ := StackMachine.runsAbove_single (m := m) hcompare [b, a] st₁ (stackNeed_compare _)
      (effect?_compare m op a b st₁) ([b] ++ S)
    exact ((h₁.lower (by omega) (by omega)).trans (h₂.widen (by omega) (by omega))).trans
      (h₃.lower (by omega) (by omega))
  generalize m.compare op a b st₁ = r at hcompared ⊢
  obtain ⟨r, st₂⟩ := r
  have htested : m.RunsAbove v S p (p + (n + 6 + k)) ⟨p + n + 3, [r] ++ ([b] ++ S), st₂⟩
      ⟨if (m.truth r st₂).1 then p + n + 5 else drop, [r] ++ ([b] ++ S), (m.truth r st₂).2⟩ := by
    have h₁ := StackMachine.runsAbove_single (m := m) hcopy [r] st₂ rfl rfl ([b] ++ S)
    have h₂ := StackMachine.runsAbove_single (m := m) hjump [r] st₂ rfl rfl
      ([r] ++ ([b] ++ S))
    exact (h₁.lower (by omega) (by omega)).trans
      (StackMachine.RunsAbove.lower (T := [r] ++ [b]) h₂ (by omega) (by omega))
  have hfirst := (hoperand.trans hcompared).trans htested
  by_cases hc : (m.truth r st₂).1 = true
  · rw [if_pos hc] at hfirst ⊢
    have hdrop := StackMachine.runsAbove_single (m := m) hpop [r] (m.truth r st₂).2
      rfl rfl ([b] ++ S)
    have hstart := hfirst.trans (hdrop.lower (by omega) (by omega))
    rcases hrest V σ m S b (m.truth r st₂).2 with h | ⟨hlength, x, h⟩
    · rw [hk] at h
      left
      have hend : p + (n + 6 + k) = p + n + 6 + k := by omega
      rw [hend] at hstart ⊢
      exact hstart.trans (h.widen (by omega) (Nat.le_refl _))
    · rw [hk] at h
      exact .inr ⟨by simp, x, hstart.trans (h.widen (by omega) (by omega))⟩
  · rw [if_neg hc] at hfirst ⊢
    exact .inr ⟨by simp, b, hfirst⟩

/-- The operand below the value of a chain that fails is dropped; a chain that holds jumps over
this. -/
theorem Computes.compare {mark : Mark} {left : MarkedExpr} {rest : List (CompareOp × MarkedExpr)}
    {k : Mark × Code} {c : CodedExpr} {coded : List (CompareOp × CodedExpr)}
    (hleft : v.Computes left p c)
    (hrest : v.Chains (p + left.codeSize + Expr.comparisonsSize rest + 1) rest (p + left.codeSize)
      coded)
    (hends : 2 ≤ rest.length →
      v.instr? (p + left.codeSize + Expr.comparisonsSize rest) =
          some ⟨.jump, p + left.codeSize + Expr.comparisonsSize rest + 3⟩ ∧
        v.instr? (p + left.codeSize + Expr.comparisonsSize rest + 1) = some ⟨.rot, 2⟩ ∧
        v.instr? (p + left.codeSize + Expr.comparisonsSize rest + 2) = some ⟨.pop, 0⟩) :
    v.Computes (.compare mark left rest) p (.compare k c coded) := by
  intro V σ m S st
  dsimp only
  rw [Expr.codeSize, StackMachine.eval]
  generalize hn : left.codeSize = n at *
  generalize hk : Expr.comparisonsSize rest = k at *
  generalize hd : (if 2 ≤ rest.length then 3 else 0) = d
  have hoperand := (hleft V σ m S st).widen (Nat.le_refl p) (show _ ≤ p + (n + k + d) by omega)
  rw [hn] at hoperand
  dsimp only at hoperand ⊢
  generalize m.eval c st = r at hoperand ⊢
  obtain ⟨a, st₁⟩ := r
  have hchain := hrest V σ m S a st₁
  rw [hk] at hchain
  generalize m.chain a coded st₁ = r at hchain ⊢
  obtain ⟨x, st₂⟩ := r
  have hend (hlength : 2 ≤ rest.length) : p + (n + k + d) = p + n + k + 3 := by
    rw [if_pos hlength] at hd
    omega
  rcases hchain with h | ⟨hlength, y, h⟩
  · have hall := hoperand.trans (h.widen (by omega) (by omega))
    by_cases hlength : 2 ≤ rest.length
    · -- the value of the whole chain jumps over what drops an operand
      have hjump := StackMachine.runsAbove_single (m := m) (hends hlength).1 [] st₂
        rfl rfl ([x] ++ S)
      rw [hend hlength] at hall ⊢
      exact hall.trans (hjump.lower (by omega) (by omega))
    · have hd' : p + (n + k + d) = p + n + k := by
        rw [if_neg hlength] at hd
        omega
      rw [hd'] at hall ⊢
      exact hall
  · obtain ⟨-, hrot, hpop⟩ := hends hlength
    have hall := hoperand.trans (h.widen (by omega) (by omega))
    have h₁ := StackMachine.runsAbove_single (m := m) hrot [x, y] st₂ rfl rfl S
    have h₂ := StackMachine.runsAbove_single (m := m) hpop [y] st₂ rfl rfl
      ([x] ++ S)
    rw [hend hlength] at hall ⊢
    exact (hall.trans (h₁.widen (by omega) (by omega))).trans (h₂.lower (by omega) (by omega))

mutual

/-- **The code of an expression computes its value**: that of the expression with the code objects
that its lambdas have made. -/
theorem ExprAt.computes : ∀ (e : MarkedExpr) (p : Nat), v.ExprAt file e p → e.WellFormed →
    e.CountsFit → ∃ a : CodedExpr, a.map Prod.fst = e ∧ a.Carries file ∧ v.Computes e p a
  | .boolOp m op values, p, h, hw, hf => by
    have hne : values ≠ [] := by
      rintro rfl
      exact absurd hw.1 (by decide)
    obtain ⟨as, has, hcarry, hc⟩ := ConnectedAt.computes op values p h hne hw.2 hf
    refine ⟨.boolOp (m, .blank) op as, by rw [Expr.map, has], hcarry, ?_⟩
    refine hc.congr rfl fun V σ m st => ?_
    rw [StackMachine.eval]
  | .binOp m left op right, p, h, hw, hf => by
    obtain ⟨hleft, hright, hi⟩ := h
    obtain ⟨a, ha, hcarry, hc⟩ := ExprAt.computes left p hleft hw.1 hf.1
    obtain ⟨b, hb, hcarry', hc'⟩ := ExprAt.computes right _ hright hw.2 hf.2
    refine ⟨.binOp (m, .blank) a op b, by rw [Expr.map, ha, hb], ⟨hcarry, hcarry'⟩, ?_⟩
    refine (hc.seq hc' rfl).instr (by rwa [← Nat.add_assoc]) fun V σ m st => ⟨rfl, ?_⟩
    cases op <;> rfl
  | .unaryOp m op operand, p, h, hw, hf => by
    obtain ⟨hoperand, hi⟩ := h
    obtain ⟨a, ha, hcarry, hc⟩ := ExprAt.computes operand p hoperand hw hf
    refine ⟨.unaryOp (m, .blank) op a, by rw [Expr.map, ha], hcarry, ?_⟩
    refine hc.instr hi fun V σ m st => ⟨rfl, ?_⟩
    cases op <;> rfl
  | .lambda m ⟨params, defaults, vararg, kwarg⟩ body, p, h, hw, hf => by
    obtain ⟨hdefaults, ⟨c, hmakes, i, hload, hc⟩, hmake⟩ := h
    obtain ⟨as, has, hcarry, hd⟩ := ReversedAt.computes defaults p hdefaults hw.2.1 hf
    have hlength : as.length = defaults.length := by rw [← has, Compile.length_mapList]
    -- what the lambda has inside carries nothing that matters
    let blank (m : Mark) : Mark × Code := (m, .blank)
    have hblank (m : Mark) : (blank m).1 = m := rfl
    have hbody : (body.map blank).map Prod.fst = body := Expr.map_map hblank body
    let signature : Signature (Mark × Code) CodedExpr :=
      ⟨params.map (Param.map blank), as, vararg.map (Param.map blank), kwarg.map (Param.map blank)⟩
    have hsignature : signature.mapExprs Prod.fst = ⟨params, defaults, vararg, kwarg⟩ := by
      simp only [signature, Signature.mapExprs, has, params_map_map hblank, param?_map_map hblank]
    refine ⟨.lambda (m, c) signature (body.map blank), ?_, ⟨?_, hcarry⟩, ?_⟩
    · rw [← hsignature]
      exact congrArg (Expr.lambda m (signature.mapExprs Prod.fst)) hbody
    · rwa [hsignature, hbody]
    have hpushed := hd.seq (pushes_value hload fun V σ m st => ⟨rfl, by
      simp only [StackMachine.effect?, hc, Option.map_some]
      exact rfl⟩) rfl
    refine hpushed.instr hmake fun V σ m st => ⟨?_, ?_⟩
    · simp [Instr.stackNeed, length_reversed, hlength]
    · rfl
  | .dict m pairs, p, h, hw, hf => by
    obtain ⟨hpairs, hi⟩ := h
    obtain ⟨as, has, hcarry, hc⟩ := ItemsAt.computes pairs p hpairs hw hf.2
    have hlength : as.length = pairs.length := by rw [← has, Compile.length_mapItems]
    refine ⟨.dict (m, .blank) as, by rw [Expr.map, has], hcarry, ?_⟩
    refine (hc.build .dict _ hf.1 hi fun V σ m st => ?_).congr rfl fun V σ m st => ?_
    · rw [length_items, hlength]
      rfl
    · rw [StackMachine.eval]
  | .compare m left rest, p, h, hw, hf => by
    obtain ⟨hleft, hrest, hends⟩ := h
    obtain ⟨a, ha, hcarry, hc⟩ := ExprAt.computes left p hleft hw.1 hf.1
    obtain ⟨as, has, hcarry', hc'⟩ := ComparisonsAt.computes _ rest _ hrest hw.2.1 hw.2.2 hf.2
    exact ⟨.compare (m, .blank) a as, by rw [Expr.map, ha, has], ⟨hcarry, hcarry'⟩,
      hc.compare hc' hends⟩
  | .call m func args kws, p, h, hw, hf => by
    obtain ⟨hfunc, hkws, hargs, hi⟩ := h
    obtain ⟨a, ha, hcarry, hc⟩ := ExprAt.computes func p hfunc hw.1 hf.2.1
    obtain ⟨ks, hks, hcarryKws, hk⟩ := KeywordsAt.computes kws _ hkws hw.2.2 hf.2.2.1
    obtain ⟨xs, hxs, hcarryArgs, hx⟩ := ReversedAt.computes args _ hargs hw.2.1 hf.2.2.2
    have hcount : xs.length = args.length ∧ ks.length = kws.length := by
      rw [← hxs, ← hks, Compile.length_mapList, Compile.length_mapKeywords]
      exact ⟨rfl, rfl⟩
    refine ⟨.call (m, .blank) a xs ks, by rw [Expr.map, ha, hxs, hks],
      ⟨hcarry, hcarryKws, hcarryArgs⟩, ?_⟩
    have hpushed := (hc.seq hk rfl).seq hx (Nat.add_assoc _ _ _)
    have hcalled := Pushes.call (f := fun V σ m st =>
      let a := m.eval a st
      let k := m.keywords ks a.2
      let x := m.reversed xs k.2
      (a.1, k.1, x.1, x.2)) (hpushed.congr rfl fun V σ m st => by simp) hf.1
      (by simpa only [Nat.add_assoc] using hi) fun V σ m st =>
        ⟨(length_reversed m xs _).trans hcount.1, (length_keywords m ks _).trans hcount.2⟩
    refine hcalled.congr rfl fun V σ m st => ?_
    rw [StackMachine.eval]
  | .constant m value, p, h, _, _ => by
    refine ⟨.constant (m, .blank) value, rfl, trivial, ?_⟩
    refine (LiteralAt.pushes value h).congr rfl fun V σ m st => ?_
    rw [StackMachine.eval]
  | .attr m value label ctx, p, h, hw, hf => by
    obtain ⟨hvalue, i, hi, hk⟩ := h
    obtain ⟨a, ha, hcarry, hc⟩ := ExprAt.computes value p hvalue hw.1 hf
    refine ⟨.attr (m, .blank) a label ctx, by rw [Expr.map, ha], hcarry, ?_⟩
    refine hc.instr hi fun V σ m st => ⟨rfl, ?_⟩
    simp only [StackMachine.effect?, nameAt?_of_constant hk, Option.map_some]
    rfl
  | .subscript m value part ctx, p, h, hw, hf => by
    obtain ⟨hvalue, hpart, hi⟩ := h
    obtain ⟨a, ha, hcarry, hc⟩ := ExprAt.computes value p hvalue hw.1 hf.1
    obtain ⟨b, hb, hcarry', hc'⟩ := ExprAt.computes_part part _ hpart hw.2.1 hf.2
    refine ⟨.subscript (m, .blank) a b ctx, by rw [Expr.map, ha, hb], ⟨hcarry, hcarry'⟩, ?_⟩
    refine (hc.seq hc' rfl).instr (by rwa [← Nat.add_assoc]) fun V σ m st => ⟨rfl, ?_⟩
    rfl
  | .name m id ctx, p, h, _, _ => by
    obtain ⟨i, hi, hk⟩ := h
    refine ⟨.name (m, .blank) id ctx, rfl, trivial, ?_⟩
    refine (pushes_nil v p).instr hi fun V σ m st => ⟨rfl, ?_⟩
    simp only [StackMachine.effect?, nameAt?_of_constant hk, Option.map_some]
    rfl
  | .list m elts ctx, p, h, hw, hf => by
    obtain ⟨helts, hi⟩ := h
    obtain ⟨as, has, hcarry, hc⟩ := ReversedAt.computes elts p helts hw.1 hf.2
    have hlength : as.length = elts.length := by rw [← has, Compile.length_mapList]
    refine ⟨.list (m, .blank) as ctx, by rw [Expr.map, has], hcarry, ?_⟩
    refine (hc.build .list _ hf.1 hi fun V σ m st => ?_).congr rfl fun V σ m st => ?_
    · exact (length_reversed m as st).trans hlength
    · rw [StackMachine.eval]
  | .tuple m elts ctx, p, h, hw, hf => by
    obtain ⟨helts, hi⟩ := h
    obtain ⟨as, has, hcarry, hc⟩ := ReversedAt.computes elts p helts hw.1 hf.2
    have hlength : as.length = elts.length := by rw [← has, Compile.length_mapList]
    refine ⟨.tuple (m, .blank) as ctx, by rw [Expr.map, has], hcarry, ?_⟩
    refine (hc.build .tuple _ hf.1 hi fun V σ m st => ?_).congr rfl fun V σ m st => ?_
    · exact (length_reversed m as st).trans hlength
    · rw [StackMachine.eval]
  | .slice .., _, _, hw, _ | .index .., _, _, hw, _ => hw.elim
  | .formatted m value conversion none, p, h, hw, hf => by
    obtain ⟨hvalue, hi⟩ := h
    obtain ⟨a, ha, hcarry, hc⟩ := ExprAt.computes value p hvalue hw.1 hf.1
    refine ⟨.formatted (m, .blank) a conversion none, by rw [Expr.map, ha, Expr.mapOption],
      ⟨hcarry, trivial⟩, ?_⟩
    refine hc.instr hi fun V σ m st => ?_
    rcases conversion with _ | _ | _ | _ <;> exact ⟨rfl, rfl⟩
  | .formatted m value conversion (some spec), p, h, hw, hf => by
    obtain ⟨hvalue, hspec, hi⟩ := h
    obtain ⟨a, ha, hcarry, hc⟩ := ExprAt.computes value p hvalue hw.1 hf.1
    obtain ⟨b, hb, hcarry', hc'⟩ := ExprAt.computes spec _ hspec hw.2 hf.2
    refine ⟨.formatted (m, .blank) a conversion (some b), by rw [Expr.map, ha, Expr.mapOption, hb],
      ⟨hcarry, hcarry'⟩, ?_⟩
    refine (hc.seq hc' rfl).instr (by rwa [← Nat.add_assoc]) fun V σ m st => ?_
    rcases conversion with _ | _ | _ | _ <;> exact ⟨rfl, rfl⟩

/-- The code of a part of a subscript computes its value. -/
theorem ExprAt.computes_part : ∀ (e : MarkedExpr) (p : Nat), v.ExprAt file e p →
    e.PartWellFormed → e.CountsFit →
    ∃ a : CodedExpr, a.map Prod.fst = e ∧ a.Carries file ∧ v.Computes e p a
  | .index m value, p, h, hw, hf => by
    obtain ⟨a, ha, hcarry, hc⟩ := ExprAt.computes value p h hw hf
    refine ⟨.index (m, .blank) a, by rw [Expr.map, ha], hcarry, ?_⟩
    refine hc.congr rfl fun V σ m st => ?_
    rw [StackMachine.eval]
  | .slice m lower upper step, p, h, hw, hf => by
    obtain ⟨hstep, hupper, hlower, hi⟩ := h
    obtain ⟨c, hc, hcarry₃, hs⟩ := OptionAt.computes step p hstep hw.2.2 hf.1
    obtain ⟨b, hb, hcarry₂, hup⟩ := OptionAt.computes upper _ hupper hw.2.1 hf.2.1
    obtain ⟨a, ha, hcarry₁, hlo⟩ := OptionAt.computes lower _ hlower hw.1 hf.2.2
    refine ⟨.slice (m, .blank) a b c, by rw [Expr.map, ha, hb, hc],
      ⟨hcarry₁, hcarry₂, hcarry₃⟩, ?_⟩
    have hpushed := (hs.seq hup rfl).seq hlo (Nat.add_assoc _ _ _)
    refine (hpushed.build .slice 3 (by decide) (by simpa only [Nat.add_assoc] using hi)
      fun V σ m st => rfl).congr rfl fun V σ m st => ?_
    rfl
  | .boolOp .., _, _, hw, _ | .binOp .., _, _, hw, _ | .unaryOp .., _, _, hw, _
  | .lambda .., _, _, hw, _ | .dict .., _, _, hw, _ | .compare .., _, _, hw, _
  | .call .., _, _, hw, _ | .constant .., _, _, hw, _ | .attr .., _, _, hw, _
  | .subscript .., _, _, hw, _ | .name .., _, _, hw, _ | .list .., _, _, hw, _
  | .tuple .., _, _, hw, _ | .formatted .., _, _, hw, _ => hw.elim

theorem OptionAt.computes : ∀ (e : Option MarkedExpr) (p : Nat), v.OptionAt file e p →
    Expr.OptionWellFormed e → Expr.OptionCountsFit e →
    ∃ a : Option CodedExpr, Expr.mapOption Prod.fst a = e ∧ Expr.OptionCarries file a ∧
      v.Pushes p (Expr.optionSize e) fun _ _ m st => ([(m.optional a st).1], (m.optional a st).2)
  | none, p, h, _, _ => by
    refine ⟨none, rfl, trivial, ?_⟩
    refine (LiteralAt.pushes .none h).congr rfl fun V σ m st => ?_
    rfl
  | some e, p, h, hw, hf => by
    obtain ⟨a, ha, hcarry, hc⟩ := ExprAt.computes e p h hw hf
    refine ⟨some a, by rw [Expr.mapOption, ha], hcarry, ?_⟩
    refine hc.congr rfl fun V σ m st => ?_
    rw [StackMachine.optional]

theorem ReversedAt.computes : ∀ (es : List MarkedExpr) (p : Nat), v.ReversedAt file es p →
    Expr.AllWellFormed es → Expr.AllCountsFit es →
    ∃ as : List CodedExpr, Expr.mapList Prod.fst as = es ∧ Expr.AllCarry file as ∧
      v.Pushes p (Expr.sumSize es) fun _ _ m st => m.reversed as st
  | [], p, _, _, _ => by
    refine ⟨[], rfl, trivial, ?_⟩
    refine (pushes_nil v p).congr rfl fun V σ m st => ?_
    rw [StackMachine.reversed]
  | e :: es, p, h, hw, hf => by
    obtain ⟨hes, he⟩ := h
    obtain ⟨as, has, hcarry, hc⟩ := ReversedAt.computes es p hes hw.2 hf.2
    obtain ⟨a, ha, hcarry', hc'⟩ := ExprAt.computes e _ he hw.1 hf.1
    refine ⟨a :: as, by rw [Expr.mapList, ha, has], ⟨hcarry', hcarry⟩, ?_⟩
    refine (hc.seq hc' rfl).congr rfl fun V σ m st => ?_
    rfl

theorem ItemsAt.computes : ∀ (pairs : List (MarkedExpr × MarkedExpr)) (p : Nat),
    v.ItemsAt file pairs p → Expr.ItemsWellFormed pairs → Expr.ItemsCountsFit pairs →
    ∃ as : List (CodedExpr × CodedExpr), Expr.mapItems Prod.fst as = pairs ∧
      Expr.ItemsCarry file as ∧ v.Pushes p (Expr.itemsSize pairs) fun _ _ m st => m.items as st
  | [], p, _, _, _ => by
    refine ⟨[], rfl, trivial, ?_⟩
    refine (pushes_nil v p).congr rfl fun V σ m st => ?_
    rw [StackMachine.items]
  | (key, value) :: rest, p, h, hw, hf => by
    obtain ⟨hrest, hvalue, hkey⟩ := h
    obtain ⟨as, has, hcarry, hr⟩ := ItemsAt.computes rest p hrest hw.2.2 hf.2.2
    obtain ⟨a, ha, hcarryValue, hv⟩ := ExprAt.computes value _ hvalue hw.2.1 hf.2.1
    obtain ⟨b, hb, hcarryKey, hk⟩ := ExprAt.computes key _ hkey hw.1 hf.1
    refine ⟨(b, a) :: as, by rw [Expr.mapItems, ha, hb, has], ⟨hcarryKey, hcarryValue, hcarry⟩, ?_⟩
    refine ((hr.seq hv rfl).seq hk (Nat.add_assoc _ _ _)).congr rfl fun V σ m st => ?_
    rfl

theorem KeywordsAt.computes : ∀ (kws : List (KeywordArg Mark MarkedExpr)) (p : Nat),
    v.KeywordsAt file kws p → Expr.KeywordsWellFormed kws → Expr.KeywordsCountsFit kws →
    ∃ as : List (KeywordArg (Mark × Code) CodedExpr), Expr.mapKeywords Prod.fst as = kws ∧
      Expr.KeywordsCarry file as ∧ v.Pushes p (Expr.keywordsSize kws) fun _ _ m st =>
        let r := m.keywords as st
        (r.1.flatMap fun k => [k.1, k.2], r.2)
  | [], p, _, _, _ => by
    refine ⟨[], rfl, trivial, ?_⟩
    refine (pushes_nil v p).congr rfl fun V σ m st => ?_
    rfl
  | ⟨m, key, value⟩ :: rest, p, h, hw, hf => by
    obtain ⟨hrest, hvalue, hname⟩ := h
    obtain ⟨as, has, hcarry, hc⟩ := KeywordsAt.computes rest p hrest hw.2.2 hf.2
    obtain ⟨a, ha, hcarry', hc'⟩ := ExprAt.computes value _ hvalue hw.2.1 hf.1
    refine ⟨⟨(m, .blank), key, a⟩ :: as, by rw [Expr.mapKeywords, ha, has], ⟨hcarry', hcarry⟩, ?_⟩
    have hstring := LiteralAt.pushes (.str (key.getD Compile.mappingName)) hname
    refine ((hc.seq hc' rfl).seq hstring (Nat.add_assoc _ _ _)).congr rfl fun V σ m st => ?_
    rfl

theorem ConnectedAt.computes (op : BoolOp) : ∀ (es : List MarkedExpr) (p : Nat),
    v.ConnectedAt file (connectiveJump op) (p + Expr.connectedSize es) es p → es ≠ [] →
    Expr.AllWellFormed es → Expr.AllCountsFit es →
    ∃ as : List CodedExpr, Expr.mapList Prod.fst as = es ∧ Expr.AllCarry file as ∧
      v.Pushes p (Expr.connectedSize es) fun _ _ m st =>
        ([(m.connected op as st).1], (m.connected op as st).2)
  | [], _, _, hne, _, _ => absurd rfl hne
  | [e], p, h, _, hw, hf => by
    obtain ⟨a, ha, hcarry, hc⟩ := ExprAt.computes e p h hw.1 hf.1
    refine ⟨[a], by rw [Expr.mapList, ha, Expr.mapList], ⟨hcarry, trivial⟩, ?_⟩
    refine hc.congr rfl fun V σ m st => ?_
    rw [StackMachine.connected]
  | e :: e' :: es, p, h, _, hw, hf => by
    obtain ⟨he, hdup, hjump, hpop, hrest⟩ := h
    have hdone : p + Expr.connectedSize (e :: e' :: es) =
        p + e.codeSize + 3 + Expr.connectedSize (e' :: es) := by
      rw [Expr.connectedSize]
      omega
    rw [hdone] at hjump hrest
    obtain ⟨a, ha, hcarry, hc⟩ := ExprAt.computes e p he hw.1 hf.1
    obtain ⟨as, has, hcarry', hc'⟩ :=
      ConnectedAt.computes op (e' :: es) _ hrest (by simp) hw.2 hf.2
    refine ⟨a :: as, by rw [Expr.mapList, ha, has], ⟨hcarry, hcarry'⟩, ?_⟩
    cases as with
    | nil => cases has
    | cons b bs =>
      refine (Pushes.connect hc hc' hdup hjump hpop).congr ?_ fun V σ m st => ?_
      · rw [Expr.connectedSize]
      · rw [StackMachine.connected]

theorem ComparisonsAt.computes (drop : Nat) : ∀ (rest : List (CompareOp × MarkedExpr)) (p : Nat),
    v.ComparisonsAt file drop rest p → rest ≠ [] → Expr.RestWellFormed rest →
    Expr.RestCountsFit rest →
    ∃ as : List (CompareOp × CodedExpr), Expr.mapRest Prod.fst as = rest ∧ Expr.RestCarry file as ∧
      v.Chains drop rest p as
  | [], _, _, hne, _, _ => absurd rfl hne
  | [(op, e)], p, h, _, hw, hf => by
    obtain ⟨a, ha, hcarry, hc⟩ := ExprAt.computes e p h.1 hw.1 hf.1
    exact ⟨[(op, a)], by rw [Expr.mapRest, ha, Expr.mapRest], ⟨hcarry, trivial⟩,
      hc.chains_last h.2 drop⟩
  | (op, e) :: next :: rest, p, h, _, hw, hf => by
    obtain ⟨he, hdup, hrot, hcompare, hcopy, hjump, hpop, hrest⟩ := h
    obtain ⟨a, ha, hcarry, hc⟩ := ExprAt.computes e p he hw.1 hf.1
    obtain ⟨as, has, hcarry', hc'⟩ :=
      ComparisonsAt.computes drop (next :: rest) _ hrest (by simp) hw.2 hf.2
    refine ⟨(op, a) :: as, by rw [Expr.mapRest, ha, has], ⟨hcarry, hcarry'⟩, ?_⟩
    cases as with
    | nil => cases has
    | cons b bs => exact hc.chains_next hc' hdup hrot hcompare hcopy hjump hpop

end

end CodeView

/-! ## Compiled expressions -/

/-- **Compiling an expression preserves its meaning.** Wherever the compilation of an expression
that the grammar can make succeeds, and whatever the finished code object is in which the
instructions stand that it appended: on every stack and in every state a machine runs from the first
of these instructions to just behind the last one, without leaving them on the way, and never looks
below what it has pushed itself. It leaves the value of the expression on the stack, in the state
after the evaluation; the lambdas of the expression are made of the code objects that they were
compiled to. -/
theorem Compile.runsAbove_eval {e : MarkedExpr} {s s' : CompileState} {v : CodeView}
    (hwf : e.WellFormed) (hrun : (Compile.expr e).run s = .ok ((), s')) (hv : v.Completes s') :
    ∃ a : CodedExpr, a.map Prod.fst = e ∧ a.Carries s.file ∧
      ∀ (V σ : Type) (m : StackMachine V σ) (S : List V) (st : σ),
        m.RunsAbove v S s.pos s'.pos ⟨s.pos, S, st⟩
          ⟨s'.pos, (m.eval a st).1 :: S, (m.eval a st).2⟩ := by
  have hdrawn := lays_expr e s () s' hrun
  have hcounts : e.CountsFit := ensures_code e hwf s () s' hrun
  have hend : s'.pos = s.pos + e.codeSize := hdrawn.stretch.pos
  obtain ⟨a, ha, hcarry, hcomputes⟩ :=
    CodeView.ExprAt.computes e s.pos (hdrawn.layout v hv) hwf hcounts
  refine ⟨a, ha, hcarry, ?_⟩
  intro V σ m S st
  rw [hend]
  exact hcomputes V σ m S st

/-- A lambda with a connective, called with a chain of comparisons. -/
def chainArgument : Text := "(lambda x: x and x.y)(1 < z < 2)"

/-- How much code an expression alone compiles to. -/
def Root.codeLength? : Root Mark → Option Nat
  | .module .. => none
  | .expression _ e =>
    ((Compile.expr e).run { file := "m", line := 1 }).toOption.map fun r => r.2.pos

theorem Compile.runsAbove_eval_chainArgument :
    ∃ (p : Parsed) (mark : Mark) (e : MarkedExpr) (s' : CompileState) (v : CodeView),
      (parseExpression "m" chainArgument).1 = .ok p ∧ p.root = .expression mark e ∧ e.WellFormed ∧
      (Compile.expr e).run { file := "m", line := 1 } = .ok ((), s') ∧ v.Completes s' ∧
      s'.pos = 16 ∧ ∃ a : CodedExpr, a.map Prod.fst = e ∧ a.Carries "m" ∧
        ∀ (V σ : Type) (m : StackMachine V σ) (S : List V) (st : σ),
          m.RunsAbove v S 0 16 ⟨0, S, st⟩ ⟨16, (m.eval a st).1 :: S, (m.eval a st).2⟩ := by
  obtain ⟨p, hp, hlength⟩ : ∃ p, (parseExpression "m" chainArgument).1 = .ok p ∧
      decide (p.root.codeLength? = some 16) = true :=
    exists_of_any (q := fun p : Parsed => p.root.codeLength? = some 16) (by decide +kernel)
  obtain ⟨mark, e, hroot, hwf⟩ := isExpression_of_parseExpression hp
  rw [hroot] at hlength
  obtain ⟨r, hr, hpos⟩ := Option.map_eq_some_iff.mp (of_decide_eq_true hlength)
  cases hrun : (Compile.expr e).run { file := "m", line := 1 } with
  | error d =>
    rw [hrun] at hr
    cases hr
  | ok r' =>
    rw [hrun] at hr
    cases hr
    obtain ⟨⟨⟩, s'⟩ := r
    -- the code object may end where the expression ends
    let v : CodeView := ⟨s'.words, s'.constants⟩
    have hv : v.Completes s' := ⟨fun _ _ h _ => h, fun _ _ h => h⟩
    refine ⟨p, mark, e, s', v, hp, hroot, hwf, hrun, hv, hpos, ?_⟩
    have h := Compile.runsAbove_eval hwf hrun hv
    rw [hpos] at h
    exact h

end Toolchain

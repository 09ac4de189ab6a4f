import Toolchain.Proofs.Parser.Phrases
import Toolchain.Proofs.Parser.Program

/-!
# Written expressions are read back

An expression is written with parentheses only where the reader needs them. Where it needs them
follows from what the reader does with a place: it goes on with the left side of an operator as long
as operators follow, it takes one operand on the right, and it takes a head in front of an
attribute, a call or a subscript. So an expression without parentheses is read back in the narrowest
place in which it has none, and from there in all wider ones; in parentheses it is a head.

What is left out are the fields of f-strings, and a negation on the right of `is`, which the reader
takes for the other half of `is not`.

## Main definitions

* `Format.levels`: how deep the reader has to nest for the text of an expression
* `Format.ReadBack`: an expression is read back wherever it is written

## Main results

* `Format.readBack`: **a clear expression is read back**, if it is nested at most as deep as the
  reader can nest, and otherwise it is found to be nested too deeply
-/

namespace Toolchain

namespace Format

open Parse

variable {α : Type}

/-! ## The depth of a text -/

/-- The depth of an expression in its place. Parentheses take two levels: one for the operand that
they make, and one for the expression in them. -/
def around (parens? : Bool) (n : Nat) : Nat := if parens? then n + 2 else n

/-- The depth of an index; the elements of a tuple stand there without parentheses. -/
def indexLevels (value : Expr α) (n : Nat) : Nat :=
  match value with
  | .tuple _ (_ :: _) _ => n
  | _ => around (needsParens .element value) n

mutual

/-- How deep the reader has to nest for the text of an expression without f-strings. -/
def levels : Expr α → Nat
  | .boolOp _ op values =>
    match values with
    | [] => 0
    | v :: vs => max (around (needsParensBool op v) (levels v)) (listedLevels .operand vs)
  | .binOp _ left _ right =>
    max (around (needsParens .left left) (levels left))
      (around (needsParens .operand right) (levels right))
  | .unaryOp _ _ operand => around (needsParens .operand operand) (levels operand) + 1
  | .lambda _ ⟨_, defaults, _, _⟩ body =>
    max (listedLevels .element defaults) (around (needsParens .element body) (levels body)) + 2
  | .dict _ items => itemLevels items + 2
  | .compare _ left rest => max (around (needsParensCompare left) (levels left)) (restLevels rest)
  | .call _ func args keywords =>
    max (around (needsParens .suffix func) (levels func))
      (max (listedLevels .element args) (keywordLevels keywords) + 2)
  | .constant .. => 2
  | .attr _ value _ _ => around (needsParens .suffix value) (levels value)
  | .subscript _ value part _ =>
    max (around (needsParens .suffix value) (levels value)) (levels part + 2)
  | .name .. => 2
  | .list _ elts _ => listedLevels .element elts + 2
  | .tuple _ elts _ => listedLevels .element elts
  | .slice _ lower upper step =>
    max (optionLevels lower) (max (optionLevels upper) (optionLevels step))
  | .index _ value => indexLevels value (levels value)
  | .formatted .. => 2

/-- The depth of the bound of a slice. -/
def optionLevels : Option (Expr α) → Nat
  | none => 0
  | some e => around (needsParens .colon e) (levels e)

/-- The depth of expressions in a place. -/
def listedLevels (place : Place) : List (Expr α) → Nat
  | [] => 0
  | e :: es => max (around (needsParens place e) (levels e)) (listedLevels place es)

/-- The depth of the operands of comparisons. -/
def restLevels : List (CompareOp × Expr α) → Nat
  | [] => 0
  | (_, e) :: rest => max (around (needsParens .operand e) (levels e)) (restLevels rest)

/-- The depth of the items of a dictionary. -/
def itemLevels : List (Expr α × Expr α) → Nat
  | [] => 0
  | (key, value) :: rest =>
    max (around (needsParens .colon key) (levels key))
      (max (around (needsParens .element value) (levels value)) (itemLevels rest))

/-- The depth of keyword arguments. -/
def keywordLevels : List (KeywordArg α (Expr α)) → Nat
  | [] => 0
  | ⟨_, _, value⟩ :: rest =>
    max (around (needsParens .element value) (levels value)) (keywordLevels rest)

end

-- The equations are derived once, and not by each of the proofs that rewrite with them.
attribute [local grind =] levels faces Expr.Clear Expr.WellFormed

/-- An expression in a place, with what it is read from and how deep. -/
def placed (spaced : Bool) (place : Place) (e : Expr α) : Item :=
  ⟨around (needsParens place e) (levels e), grouped (needsParens place e) (faces spaced e), e.erase⟩

section Lists

variable (spaced : Bool) (place : Place)

theorem listedFaces_eq (es : List (Expr α)) :
    listedFaces spaced place es = (es.map (placed spaced place)).map Item.faces := by
  induction es with
  | nil => rw [listedFaces, List.map_nil, List.map_nil]
  | cons e es ih =>
    rw [listedFaces, ih]
    rfl

theorem listedLevels_eq (es : List (Expr α)) :
    listedLevels place es = depthOf (es.map (placed spaced place)) := by
  induction es with
  | nil => rw [listedLevels, List.map_nil, depthOf, List.foldr_nil]
  | cons e es ih =>
    rw [listedLevels, ih]
    rfl

theorem map_value_placed (es : List (Expr α)) :
    (es.map (placed spaced place)).map Item.value = es.map Expr.erase := by
  rw [List.map_map]
  rfl

end Lists

/-! ## What is read back -/

/-- Whether an expression is made of operands by operators between them. -/
def isFolded : Expr α → Bool
  | .binOp .. | .boolOp .. | .compare .. => true
  | _ => false

/-- An expression is read back wherever it is written: without parentheses where it needs none, and
in parentheses. -/
structure ReadBack (spaced : Bool) (e : Expr α) : Prop where
  head : needsParens .suffix e = false → AsHead (levels e) (faces spaced e) e.erase
  operand : needsParens .operand e = false → AsOperand (levels e) (faces spaced e) e.erase
  chain : needsParens .left e = false → AsChain (isFolded e) (levels e) (faces spaced e) e.erase
  expression : needsParens .element e = false → AsExpression (levels e) (faces spaced e) e.erase
  enclosed : AsEnclosed (levels e) (faces spaced e) e.erase

namespace ReadBack

variable {spaced : Bool} {e : Expr α}

theorem of_operand (h : AsOperand (levels e) (faces spaced e) e.erase)
    (hfolded : isFolded e = false)
    (hhead : needsParens .suffix e = false → AsHead (levels e) (faces spaced e) e.erase) :
    ReadBack spaced e where
  head := hhead
  operand _ := h
  chain _ := by
    rw [hfolded]
    exact h.chain
  expression _ := h.chain.expression
  enclosed := h.chain.expression.enclosed

theorem of_head (h : AsHead (levels e) (faces spaced e) e.erase) (hfolded : isFolded e = false) :
    ReadBack spaced e :=
  of_operand h.operand hfolded fun _ => h

theorem of_chain (h : AsChain true (levels e) (faces spaced e) e.erase)
    (hfolded : isFolded e = true)
    (hoperand : needsParens .operand e = true) (hsuffix : needsParens .suffix e = true) :
    ReadBack spaced e where
  head hparens := by
    rw [hsuffix] at hparens
    cases hparens
  operand hparens := by
    rw [hoperand] at hparens
    cases hparens
  chain _ := by
    rw [hfolded]
    exact h
  expression _ := h.expression
  enclosed := h.expression.enclosed

/-- An expression as a head. -/
theorem suffixed (h : ReadBack spaced e) :
    AsHead (placed spaced .suffix e).levels (placed spaced .suffix e).faces e.erase := by
  unfold placed around grouped
  cases hparens : needsParens .suffix e with
  | true => exact h.enclosed.head
  | false => exact h.head hparens

/-- An expression on the right of an operator. -/
theorem onRight (h : ReadBack spaced e) :
    AsOperand (placed spaced .operand e).levels (placed spaced .operand e).faces e.erase := by
  unfold placed around grouped
  cases hparens : needsParens .operand e with
  | true => exact h.enclosed.head.operand
  | false => exact h.operand hparens

/-- An expression on the left of an operator, with or without parentheses. -/
theorem onLeft (h : ReadBack spaced e) (parens? : Bool)
    (hparens : parens? = false → needsParens .left e = false) :
    AsChain (!parens? && isFolded e) (around parens? (levels e))
      (grouped parens? (faces spaced e)) e.erase := by
  cases parens? with
  | true => exact h.enclosed.head.operand.chain
  | false => exact h.chain (hparens rfl)

/-- An expression where a comma may follow. -/
theorem sound (h : ReadBack spaced e) (place : Place) (hplace : place ≠ .top ∧ place ≠ .field) :
    (placed spaced place e).Sound := by
  show AsExpression (around _ _) (grouped _ _) _
  cases hparens : needsParens place e with
  | true => exact h.enclosed.head.operand.chain.expression
  | false => exact h.expression (needsParens_element hplace hparens)

end ReadBack

/-! ## Operators -/

section Operators

variable {spaced : Bool}

/-- The left operand of a connective is not gone on with: one of the same connective has
parentheses. -/
theorem join_connective (op : BoolOp) (v : Expr α) (right : Expr Unit) :
    (Infix.connective op).join v.erase (!needsParensBool op v && isFolded v) right =
      .boolOp () op [v.erase, right] := by
  cases v with
  | boolOp m inner values =>
    rw [Expr.erase_boolOp]
    by_cases hinner : inner = op
    · simp [Infix.join, needsParensBool, hinner]
    · simp [Infix.join, needsParensBool, isFolded, hinner]
  | _ => simp [Infix.join]

/-- The left side of a comparison is not gone on with: another comparison has parentheses. -/
theorem join_comparison (op : CompareOp) (v : Expr α) (right : Expr Unit) :
    (Infix.comparison op).join v.erase (!needsParensCompare v && isFolded v) right =
      .compare () v.erase [(op, right)] := by
  cases v with
  | compare => simp [Infix.join, needsParensCompare]
  | _ => simp [Infix.join]

theorem faces_connective (op : BoolOp) : (Infix.connective op).faces = [connectiveFace op] := rfl

/-- Operands on the right of a connective join those on its left. -/
theorem asChain_operands (op : BoolOp) {vs : List (Expr α)}
    (hvs : ∀ e ∈ vs, ReadBack spaced e) {n : Nat}
    {fs : List Face} {values : List (Expr Unit)} (h : AsChain true n fs (.boolOp () op values)) :
    AsChain true (max n (listedLevels .operand vs))
      (fs ++ operandFaces spaced (connectiveFace op) vs)
      (.boolOp () op (values ++ vs.map Expr.erase)) := by
  induction vs generalizing n fs values with
  | nil =>
    rw [listedLevels, operandFaces, List.map_nil, List.append_nil, List.append_nil, Nat.max_zero]
    exact h
  | cons e es ih =>
    obtain ⟨he, hes⟩ := List.forall_mem_cons.mp hvs
    have hpushed := h.push (.connective op) he.onRight nofun
    have hjoined : (Infix.connective op).join (.boolOp () op values) true e.erase =
        .boolOp () op (values ++ [e.erase]) := by simp [Infix.join]
    rw [hjoined] at hpushed
    have hchain := ih hes hpushed
    rw [listedLevels, operandFaces, ← Nat.max_assoc]
    simpa [faces_connective, placed] using hchain

theorem readBack_boolOp (m : α) (op : BoolOp) {v w : Expr α} {vs : List (Expr α)}
    (hv : ReadBack spaced v)
    (hw : ReadBack spaced w) (hvs : ∀ e ∈ vs, ReadBack spaced e) :
    ReadBack spaced (.boolOp m op (v :: w :: vs)) := by
  have hleft := hv.onLeft (needsParensBool op v) fun hparens => by
    cases v with
    | boolOp => rfl
    | _ => exact hparens
  have hpair := hleft.push (.connective op) hw.onRight nofun
  rw [join_connective] at hpair
  have hchain := asChain_operands op hvs hpair
  refine .of_chain ?_ rfl rfl rfl
  rw [levels, listedLevels, faces, operandFaces, Expr.erase_boolOp, ← Nat.max_assoc]
  simpa [faces_connective, placed] using hchain

/-- What stands on the right of an operator begins with `not` only if it is a negation. -/
theorem front_onRight {e : Expr α} (h : ReadBack spaced e) (hnegation : e.isNegation = false) :
    (front (placed spaced .operand e).faces).1 ≠ .keyword .not := by
  unfold placed grouped
  cases hparens : needsParens .operand e with
  | true => nofun
  | false =>
    show (front (faces spaced e)).1 ≠ .keyword .not
    cases hsuffix : needsParens .suffix e with
    | false =>
      intro hnot
      have hplain := (h.head hsuffix).plain.1
      rw [hnot] at hplain
      cases hplain
    | true =>
      -- only a unary operator and a number need parentheses there, but none here
      cases e with
      | unaryOp m op operand =>
        cases op with
        | not => cases hnegation
        | _ => nofun
      | constant m v =>
        cases v with
        | bool b => cases b <;> nofun
        | _ => nofun
      | binOp m left op right =>
        have heq : needsParens .operand (.binOp m left op right) =
          needsParens .suffix (.binOp m left op right) := by simp [needsParens]
        rw [heq, hsuffix] at hparens
        cases hparens
      | tuple m elts ctx => simp [needsParens] at hparens
      | boolOp | lambda | compare => cases hparens
      | _ => cases hsuffix

/-- Operands of comparisons join the comparisons on their left. -/
theorem asChain_rest {rest : List (CompareOp × Expr α)} (hrest : ∀ p ∈ rest, ReadBack spaced p.2)
    (hclear : Expr.RestClear rest) {n : Nat} {fs : List Face} {left : Expr Unit}
    {before : List (CompareOp × Expr Unit)} (h : AsChain true n fs (.compare () left before)) :
    AsChain true (max n (restLevels rest)) (fs ++ restFaces spaced rest)
      (.compare () left (before ++ rest.map fun p => (p.1, p.2.erase))) := by
  induction rest generalizing n fs before with
  | nil =>
    rw [restLevels, restFaces, List.map_nil, List.append_nil, List.append_nil, Nat.max_zero]
    exact h
  | cons p rest ih =>
    obtain ⟨op, e⟩ := p
    obtain ⟨he, hrest⟩ := List.forall_mem_cons.mp hrest
    have hpushed := h.push (.comparison op) he.onRight fun his =>
      front_onRight he (hclear.1 (by simpa using his))
    have hjoined : (Infix.comparison op).join (.compare () left before) true e.erase =
        .compare () left (before ++ [(op, e.erase)]) := rfl
    rw [hjoined] at hpushed
    have hchain := ih hrest hclear.2.2 hpushed
    rw [restLevels, restFaces, ← Nat.max_assoc]
    simpa [Infix.faces, placed] using hchain

theorem readBack_compare (m : α) {left : Expr α} {rest : List (CompareOp × Expr α)}
    (hleft : ReadBack spaced left) (hrest : ∀ p ∈ rest, ReadBack spaced p.2) (hsome : rest ≠ [])
    (hclear : Expr.RestClear rest) : ReadBack spaced (.compare m left rest) := by
  obtain ⟨⟨op, e⟩, rest, rfl⟩ := List.exists_cons_of_ne_nil hsome
  obtain ⟨he, hrest⟩ := List.forall_mem_cons.mp hrest
  have hchain := hleft.onLeft (needsParensCompare left) fun hparens => by
    cases left with
    | compare => cases hparens
    | _ => exact hparens
  have hpair := hchain.push (.comparison op) he.onRight fun his =>
    front_onRight he (hclear.1 (by simpa using his))
  rw [join_comparison] at hpair
  have hall := asChain_rest hrest hclear.2.2 hpair
  refine .of_chain ?_ rfl rfl rfl
  rw [levels, restLevels, faces, restFaces, Expr.erase_compare, ← Nat.max_assoc]
  simpa [Infix.faces, placed] using hall

theorem readBack_binOp (m : α) {left right : Expr α} (op : BinaryOp) (hleft : ReadBack spaced left)
    (hright : ReadBack spaced right) (hfields : isFString (.binOp m left op right) = false) :
    ReadBack spaced (.binOp m left op right) := by
  have hchain := (hleft.onLeft (needsParens .left left) id).push (.binary op) hright.onRight
    nofun
  refine .of_chain ?_ rfl (by simp [needsParens, hfields]) (by simp [needsParens, hfields])
  rw [levels, faces, if_neg (by rw [hfields]; nofun), Expr.erase_binOp]
  simpa [Infix.faces, placed, Infix.join] using hchain

end Operators

/-! ## Heads and lists -/

section Heads

variable {spaced : Bool}

theorem readBack_unaryOp (m : α) (op : UnaryOp) {operand : Expr α} (h : ReadBack spaced operand) :
    ReadBack spaced (.unaryOp m op operand) := by
  refine .of_operand ?_ rfl nofun
  rw [levels, faces, Expr.erase_unaryOp]
  exact h.onRight.unary op

theorem readBack_name (m : α) (id : String) : ReadBack spaced (.name m id .load) := by
  refine .of_head ?_ rfl
  rw [levels, faces, Expr.erase_name]
  exact asHead_name id

theorem readBack_constant (m : α) {v : Literal} (h : v.WellFormed) :
    ReadBack spaced (.constant m v) := by
  refine .of_head ?_ rfl
  rw [levels, faces, Expr.erase_constant]
  exact asHead_constant h

theorem readBack_attr (m : α) (id : String) {value : Expr α} (h : ReadBack spaced value) :
    ReadBack spaced (.attr m value id .load) := by
  refine .of_head ?_ rfl
  rw [levels, faces, Expr.erase_attr]
  exact h.suffixed.attr id

theorem sound_placed {place : Place} {es : List (Expr α)} (hplace : place ≠ .top ∧ place ≠ .field)
    (hes : ∀ e ∈ es, ReadBack spaced e) : ∀ i ∈ es.map (placed spaced place), i.Sound := by
  intro i hi
  obtain ⟨e, he, rfl⟩ := List.mem_map.mp hi
  exact (hes e he).sound place hplace

theorem readBack_list (m : α) {elts : List (Expr α)} (h : ∀ e ∈ elts, ReadBack spaced e) :
    ReadBack spaced (.list m elts .load) := by
  refine .of_head ?_ rfl
  rw [levels, faces, Expr.erase_list, listedFaces_eq, listedLevels_eq spaced,
    ← map_value_placed spaced .element]
  exact asHead_list (sound_placed (by decide) h)

theorem readBack_tuple (m : α) {elts : List (Expr α)} (h : ∀ e ∈ elts, ReadBack spaced e) :
    ReadBack spaced (.tuple m elts .load) where
  head hparens := by simp [needsParens] at hparens
  operand hparens := by simp [needsParens] at hparens
  chain hparens := by simp [needsParens] at hparens
  expression hparens := by simp [needsParens] at hparens
  enclosed := by
    rw [levels, faces, Expr.erase_tuple, listedFaces_eq, listedLevels_eq spaced,
      ← map_value_placed spaced .element]
    exact asEnclosed_tuple (sound_placed (by decide) h)

/-- The items of a dictionary with what they are read from. -/
def placedEntry (spaced : Bool) (p : Expr α × Expr α) : Entry :=
  ⟨placed spaced .colon p.1, placed spaced .element p.2⟩

theorem itemFaces_eq (items : List (Expr α × Expr α)) :
    itemFaces spaced items = (items.map (placedEntry spaced)).map Entry.faces := by
  induction items with
  | nil => rw [itemFaces, List.map_nil, List.map_nil]
  | cons p items ih =>
    rw [itemFaces, ih]
    rfl

theorem itemLevels_eq (spaced : Bool) (items : List (Expr α × Expr α)) :
    itemLevels items =
      depthOf ((items.map (placedEntry spaced)).flatMap fun p => [p.key, p.value]) := by
  induction items with
  | nil => rw [itemLevels, List.map_nil, List.flatMap_nil, depthOf, List.foldr_nil]
  | cons p items ih =>
    rw [itemLevels, ih]
    rfl

theorem readBack_dict (m : α) {items : List (Expr α × Expr α)}
    (h : ∀ p ∈ items, ReadBack spaced p.1 ∧ ReadBack spaced p.2) :
      ReadBack spaced (.dict m items) := by
  have hvalues : (items.map fun p => (p.1.erase, p.2.erase)) =
      (items.map (placedEntry spaced)).map Entry.pair := by
    rw [List.map_map]
    rfl
  refine .of_head ?_ rfl
  rw [levels, faces, Expr.erase_dict, itemFaces_eq, itemLevels_eq spaced, hvalues]
  apply asHead_dict
  intro p hp
  obtain ⟨⟨key, value⟩, hitem, rfl⟩ := List.mem_map.mp hp
  obtain ⟨hkey, hvalue⟩ := h _ hitem
  exact ⟨hkey.sound _ (by decide), hvalue.sound _ (by decide)⟩

/-- A keyword argument with what it is read from. -/
def placedKeyword (spaced : Bool) (k : KeywordArg α (Expr α)) : KeywordItem :=
  ⟨k.name, placed spaced .element k.value⟩

theorem keywordFaces_eq (keywords : List (KeywordArg α (Expr α))) :
    keywordFaces spaced keywords = (keywords.map (placedKeyword spaced)).map KeywordItem.faces := by
  induction keywords with
  | nil => rw [keywordFaces, List.map_nil, List.map_nil]
  | cons k keywords ih =>
    obtain ⟨m, name, value⟩ := k
    cases name with
    | none =>
      rw [keywordFaces, ih]
      rfl
    | some name =>
      rw [keywordFaces, ih]
      rfl

theorem keywordLevels_eq (spaced : Bool) (keywords : List (KeywordArg α (Expr α))) :
    keywordLevels keywords =
      depthOf ((keywords.map (placedKeyword spaced)).map KeywordItem.item) := by
  induction keywords with
  | nil => rw [keywordLevels, List.map_nil, List.map_nil, depthOf, List.foldr_nil]
  | cons k keywords ih =>
    rw [keywordLevels, ih]
    rfl

theorem depthOf_append (is js : List Item) :
    depthOf (is ++ js) = max (depthOf is) (depthOf js) := by
  induction is with
  | nil => exact (Nat.zero_max _).symm
  | cons i is ih =>
    show max i.levels (depthOf (is ++ js)) = max (max i.levels (depthOf is)) (depthOf js)
    rw [ih, Nat.max_assoc]

theorem readBack_call (m : α) {func : Expr α} {args : List (Expr α)}
    {keywords : List (KeywordArg α (Expr α))} (hfunc : ReadBack spaced func)
    (hargs : ∀ e ∈ args, ReadBack spaced e) (hkeywords : ∀ k ∈ keywords, ReadBack spaced k.value) :
    ReadBack spaced (.call m func args keywords) := by
  have hvalues : keywords.map KeywordArg.erase =
      (keywords.map (placedKeyword spaced)).map KeywordItem.arg := by
    rw [List.map_map]
    rfl
  refine .of_head ?_ rfl
  rw [levels, faces, Expr.erase_call, listedFaces_eq, listedLevels_eq spaced, keywordFaces_eq,
    keywordLevels_eq spaced, ← depthOf_append, hvalues, ← map_value_placed spaced .element]
  refine hfunc.suffixed.call (sound_placed (by decide) hargs) fun k hk => ?_
  obtain ⟨k, hmem, rfl⟩ := List.mem_map.mp hk
  exact (hkeywords k hmem).sound _ (by decide)

end Heads

/-! ## Parts of subscripts -/

section Parts

variable {spaced : Bool}

theorem readBack_subscript (m : α) {value part : Expr α} (h : ReadBack spaced value)
    (hpart : AsPart (levels part) (faces spaced part) part.erase) :
    ReadBack spaced (.subscript m value part .load) := by
  refine .of_head ?_ rfl
  rw [levels, faces, Expr.erase_subscript]
  exact h.suffixed.subscript hpart

theorem optionFaces_eq (o : Option (Expr α)) :
    optionFaces spaced o = (o.map (placed spaced .colon)).map Item.faces := by
  cases o with
  | none => rw [optionFaces, Option.map_none, Option.map_none]
  | some e =>
    rfl

theorem optionLevels_eq (spaced : Bool) (o : Option (Expr α)) :
    optionLevels o = depthOf (o.map (placed spaced .colon)).toList := by
  cases o with
  | none =>
    rfl
  | some e =>
    exact (Nat.max_zero _).symm

theorem sound_option {o : Option (Expr α)} (h : ∀ e ∈ o, ReadBack spaced e) :
    ∀ i ∈ o.map (placed spaced .colon), i.Sound := by
  intro i hi
  obtain ⟨e, he, rfl⟩ := Option.map_eq_some_iff.mp hi
  exact (h e he).sound _ (by decide)

theorem asPart_written_slice (m : α) {lower upper step : Option (Expr α)}
    (hlower : ∀ e ∈ lower, ReadBack spaced e)
    (hupper : ∀ e ∈ upper, ReadBack spaced e) (hstep : ∀ e ∈ step, ReadBack spaced e) :
    AsPart (levels (.slice m lower upper step)) (faces spaced (.slice m lower upper step))
      (Expr.slice m lower upper step).erase := by
  have hvalue (o : Option (Expr α)) :
      o.map Expr.erase = (o.map (placed spaced .colon)).map Item.value := by
    rw [Option.map_map]
    rfl
  rw [levels, faces, Expr.erase_slice, optionFaces_eq, optionFaces_eq, optionFaces_eq,
    optionLevels_eq spaced, optionLevels_eq spaced, optionLevels_eq spaced,
    ← depthOf_append, ← depthOf_append, ← List.append_assoc, hvalue lower,
      hvalue upper, hvalue step]
  exact asPart_slice (sound_option hlower) (sound_option hupper) (sound_option hstep)

theorem tag_erase {e : Expr α} (h : e.WellFormed) : e.erase.tag ≠ .slice := by
  cases e with
  | slice =>
    exact h.elim
  | _ => nofun

/-- An index. What stands there as a tuple has its elements without parentheses. -/
theorem asPart_written_index (m : α) {value : Expr α} (hwf : value.WellFormed)
    (h : ReadBack spaced value)
    (helts : ∀ m elts ctx, value = .tuple m elts ctx →
      ∀ e ∈ elts, e.WellFormed ∧ ReadBack spaced e) :
    AsPart (levels (.index m value)) (faces spaced (.index m value))
      (Expr.index m value).erase := by
  have hplain (hindex : ∀ n fs, indexLevels value n = around (needsParens .element value) n ∧
      indexFaces value fs = grouped (needsParens .element value) fs) :
      AsPart (levels (.index m value)) (faces spaced (.index m value))
        (Expr.index m value).erase := by
    rw [levels, faces, (hindex _ []).1, (hindex 0 _).2]
    exact asPart_index (h.sound .element (by decide)) (tag_erase hwf)
  cases value with
  | tuple m' elts ctx =>
    cases elts with
    | nil => exact hplain fun _ _ => ⟨rfl, rfl⟩
    | cons e es =>
      have hctx : ctx = .load := by
        exact hwf.2
      have hall := helts m' (e :: es) ctx rfl
      rw [levels, faces, Expr.erase_index, Expr.erase_tuple]
      show AsPart (levels (.tuple m' (e :: es) ctx)) (faces spaced (.tuple m' (e :: es) ctx)) _
      rw [levels, faces, listedFaces_eq, listedLevels_eq spaced,
        ← map_value_placed spaced .element, hctx]
      refine asPart_tuple (sound_placed (by decide) fun e he => (hall e he).2) ?_ (by simp)
      intro i hi
      obtain ⟨e, he, rfl⟩ := List.mem_map.mp hi
      exact tag_erase (hall e he).1
  | _ => exact hplain fun _ _ => ⟨rfl, rfl⟩

end Parts

/-! ## Parameters -/

section Parameters

variable {spaced : Bool}

/-- The parameters of a function with what they are read from. -/
def parameterItems (spaced : Bool) (s : Signature α (Expr α)) : List ParameterItem :=
  let plain := s.params.length - s.defaults.length
  (s.params.take plain).map (fun p => .plain p.name) ++
    (s.params.drop plain).zipWith
      (fun p d => .default p.name (placed spaced .element d)) s.defaults ++
    s.vararg.toList.map (fun p => .vararg p.name) ++ s.kwarg.toList.map fun p => .kwarg p.name

theorem faces_parameterItems (s : Signature α (Expr α)) :
    (parameterItems spaced s).map ParameterItem.faces =
      parameterFaces s.params (listedFaces spaced .element s.defaults) s.vararg s.kwarg := by
  unfold parameterItems parameterFaces
  have hlength : (listedFaces spaced .element s.defaults).length = s.defaults.length := by
    rw [listedFaces_eq, List.length_map, List.length_map]
  rw [hlength, listedFaces_eq]
  simp [List.map_zipWith, List.zipWith_map_left, List.zipWith_map_right,
    ParameterItem.faces, placed,
    Function.comp_def, ← List.map_take, ← List.map_drop]

theorem allFollow_append (s : Signature Unit (Expr Unit)) (ps qs : List ParameterItem) :
    ParameterItem.AllFollow s (ps ++ qs) ↔
      ParameterItem.AllFollow s ps ∧
        ParameterItem.AllFollow (ps.foldl ParameterItem.push s) qs := by
  induction ps generalizing s with
  | nil => simp [ParameterItem.AllFollow]
  | cons p ps ih =>
    rw [List.cons_append, ParameterItem.AllFollow, ParameterItem.AllFollow, ih, and_assoc,
      List.foldl_cons]

/-- Plain parameters, of which none has a default. -/
theorem push_plain (s : Signature Unit (Expr Unit)) (ps : List (Param α))
    (hdefaults : s.defaults = [])
    (hstars : s.vararg = none ∧ s.kwarg = none) :
    ParameterItem.AllFollow s (ps.map fun p => .plain p.name) ∧
      (ps.map fun p => ParameterItem.plain p.name).foldl ParameterItem.push s =
        { s with params := s.params ++ ps.map Param.erase } := by
  induction ps generalizing s with
  | nil => simp [ParameterItem.AllFollow]
  | cons p ps ih =>
    obtain ⟨hfollow, heq⟩ := ih (ParameterItem.push s (.plain p.name)) hdefaults hstars
    refine ⟨⟨⟨hdefaults, hstars⟩, hfollow⟩, ?_⟩
    rw [List.map_cons, List.foldl_cons, heq]
    simp [ParameterItem.push, Param.erase, Param.map]

/-- Parameters with defaults. -/
theorem push_default (spaced : Bool) (s : Signature Unit (Expr Unit)) (ps : List (Param α))
    (ds : List (Expr α))
    (hlength : ps.length = ds.length) (hstars : s.vararg = none ∧ s.kwarg = none) :
    ParameterItem.AllFollow s
      (ps.zipWith (fun p d => .default p.name (placed spaced .element d)) ds) ∧
      (ps.zipWith (fun p d => ParameterItem.default p.name (placed spaced .element d)) ds).foldl
          ParameterItem.push s =
        { s with params := s.params ++ ps.map Param.erase,
                 defaults := s.defaults ++ ds.map Expr.erase } := by
  induction ps generalizing s ds with
  | nil =>
    obtain rfl : ds = [] := List.length_eq_zero_iff.mp hlength.symm
    simp [ParameterItem.AllFollow]
  | cons p ps ih =>
    cases ds with
    | nil => cases hlength
    | cons d ds =>
      obtain ⟨hfollow, heq⟩ :=
        ih (ParameterItem.push s (.default p.name (placed spaced .element d))) ds
        (Nat.succ.inj hlength) hstars
      refine ⟨⟨hstars, hfollow⟩, ?_⟩
      rw [List.zipWith_cons_cons, List.foldl_cons, heq]
      simp [ParameterItem.push, Param.erase, Param.map, placed]

/-- The parameters of a function in their order are its signature. -/
theorem push_parameterItems (spaced : Bool) {s : Signature α (Expr α)}
    (hlength : s.defaults.length ≤ s.params.length) :
    ParameterItem.AllFollow {} (parameterItems spaced s) ∧
      (parameterItems spaced s).foldl ParameterItem.push {} = s.erase := by
  have hdrop : (s.params.drop (s.params.length - s.defaults.length)).length =
      s.defaults.length := by
    rw [List.length_drop]
    omega
  obtain ⟨hplain, hplain'⟩ :=
    push_plain {} (s.params.take (s.params.length - s.defaults.length)) rfl ⟨rfl, rfl⟩
  unfold parameterItems
  obtain ⟨hdefault, hdefault'⟩ := push_default spaced
    { params := (s.params.take (s.params.length - s.defaults.length)).map Param.erase }
    (s.params.drop (s.params.length - s.defaults.length)) s.defaults hdrop ⟨rfl, rfl⟩
  simp only [List.nil_append] at hplain' hdefault'
  rw [← List.map_append, List.take_append_drop] at hdefault'
  simp only [allFollow_append, List.foldl_append, hplain', hdefault']
  obtain ⟨params, defaults, vararg, kwarg⟩ := s
  refine ⟨⟨⟨⟨hplain, hdefault⟩, ?_⟩, ?_⟩, ?_⟩
  · cases vararg with
    | none => trivial
    | some p => exact ⟨⟨rfl, rfl⟩, trivial⟩
  · cases kwarg with
    | none => trivial
    | some p => cases vararg <;> exact ⟨rfl, trivial⟩
  · cases vararg <;> cases kwarg <;> rfl

theorem value?_parameterItems {s : Signature α (Expr α)}
    (hlength : s.defaults.length ≤ s.params.length) :
    (parameterItems spaced s).filterMap ParameterItem.value? =
      s.defaults.map (placed spaced .element) := by
  have hdefault (ps : List (Param α)) (ds : List (Expr α)) (h : ps.length = ds.length) :
      (ps.zipWith (fun p d => ParameterItem.default p.name (placed spaced .element d)) ds).filterMap
        ParameterItem.value? = ds.map (placed spaced .element) := by
    induction ps generalizing ds with
    | nil =>
      obtain rfl : ds = [] := List.length_eq_zero_iff.mp h.symm
      rfl
    | cons p ps ih =>
      cases ds with
      | nil => cases h
      | cons d ds => exact congrArg (placed spaced .element d :: ·) (ih ds (Nat.succ.inj h))
  have hnone {f : Param α → ParameterItem} (hf : ∀ p, (f p).value? = none) (ps : List (Param α)) :
      (ps.map f).filterMap ParameterItem.value? = [] := by
    rw [List.filterMap_map]
    exact List.filterMap_eq_nil_iff.mpr fun p _ => hf p
  unfold parameterItems
  simp only [List.filterMap_append]
  rw [hdefault _ _ (by rw [List.length_drop]; omega), hnone fun _ => rfl, hnone fun _ => rfl,
    hnone fun _ => rfl, List.nil_append, List.append_nil, List.append_nil]

theorem sound_parameterItems {s : Signature α (Expr α)}
    (hlength : s.defaults.length ≤ s.params.length)
    (h : ∀ e ∈ s.defaults, ReadBack spaced e) :
    ∀ p ∈ parameterItems spaced s, ∀ i ∈ p.value?, i.Sound := by
  intro p hp i hi
  have hmem : i ∈ (parameterItems spaced s).filterMap ParameterItem.value? :=
    List.mem_filterMap.mpr ⟨p, hp, hi⟩
  rw [value?_parameterItems hlength] at hmem
  exact sound_placed (by decide) h i hmem

theorem readBack_lambda (m : α) {s : Signature α (Expr α)} {body : Expr α}
    (hlength : s.defaults.length ≤ s.params.length)
    (hdefaults : ∀ e ∈ s.defaults, ReadBack spaced e)
    (hbody : ReadBack spaced body) : ReadBack spaced (.lambda m s body) := by
  obtain ⟨hfollow, hpush⟩ := push_parameterItems spaced hlength
  have hlambda := asExpression_lambda (sound_parameterItems hlength hdefaults) hfollow
    (hbody.sound .element (by decide))
  rw [hpush, value?_parameterItems hlength, ← listedLevels_eq, faces_parameterItems] at hlambda
  have hexpression : AsExpression (levels (.lambda m s body)) (faces spaced (.lambda m s body))
      (Expr.lambda m s body).erase := by
    obtain ⟨params, defaults, vararg, kwarg⟩ := s
    rw [levels, faces, Expr.erase_lambda]
    exact hlambda
  exact {
    head := nofun
    operand := nofun
    chain := nofun
    expression := fun _ => hexpression
    enclosed := hexpression.enclosed }

end Parameters

/-! ## All expressions -/

/-- A sum of parts without a field is no f-string. -/
theorem field_not_mem_parts? {e : Expr α} (h : e.Clear) {ps : List FStringPart}
    (hps : parts? e = some ps) :
    .field ∉ ps := by
  have hpart {e : Expr α} (h : e.Clear) {p : FStringPart} (hp : part? e = some p) : p ≠ .field := by
    unfold part? at hp
    split at hp
    · exact h.elim
    · split at hp
      · cases hp
      · cases hp
        nofun
    · cases hp
  fun_induction parts? e generalizing ps with
  | case1 m left right p hp ih =>
    obtain ⟨ps', hleft, rfl⟩ := Option.map_eq_some_iff.mp hps
    intro hmem
    rcases List.mem_cons.mp hmem with hmem | hmem
    · exact hpart h.2 hp hmem.symm
    · exact ih h.1 hleft hmem
  | case2 => cases hps
  | case3 e hsum =>
    obtain ⟨p, hp, rfl⟩ := Option.map_eq_some_iff.mp hps
    intro hmem
    exact hpart h hp (List.mem_singleton.mp hmem).symm

theorem isFString_eq_false {e : Expr α} (h : e.Clear) : isFString e = false := by
  unfold isFString
  split
  · next ps hps =>
    have hfield := field_not_mem_parts? h hps
    simp [hfield]
  · rfl

section

open Expr

variable (spaced : Bool)

mutual

/-- **A clear expression is read back.** -/
theorem readBack : ∀ {e : Expr α}, e.WellFormed → e.Clear → ReadBack spaced e
  | .boolOp m op values, h, hclear => by
    rw [WellFormed] at h
    rw [Clear] at hclear
    have hall := readBack_all h.2 hclear
    match values, h, hall with
    | [], h, _ => simp at h
    | [_], h, _ => simp at h
    | v :: w :: vs, _, hall =>
      obtain ⟨hv, hall⟩ := List.forall_mem_cons.mp hall
      obtain ⟨hw, hvs⟩ := List.forall_mem_cons.mp hall
      exact readBack_boolOp m op hv hw hvs
  | .binOp m left op right, h, hclear => by
    have hfields := isFString_eq_false hclear
    exact readBack_binOp m op (readBack h.1 hclear.1) (readBack h.2 hclear.2) hfields
  | .unaryOp m op operand, h, hclear => by
    exact readBack_unaryOp m op (readBack h hclear)
  | .lambda m ⟨params, defaults, vararg, kwarg⟩ body, h, hclear => by
    exact readBack_lambda m h.1.defaults (readBack_all h.2.1 hclear.1) (readBack h.2.2 hclear.2)
  | .dict m items, h, hclear => by
    exact readBack_dict m (readBack_items h hclear)
  | .compare m left rest, h, hclear => by
    exact readBack_compare m (readBack h.1 hclear.1) (readBack_rest h.2.2 hclear.2) h.2.1 hclear.2
  | .call m func args keywords, h, hclear => by
    exact readBack_call m (readBack h.1 hclear.1) (readBack_all h.2.1 hclear.2.1)
      (readBack_keywords h.2.2 hclear.2.2)
  | .constant m value, h, _ => by
    exact readBack_constant m h
  | .attr m value label ctx, h, hclear => by
    obtain ⟨hvalue, -, rfl⟩ := h
    exact readBack_attr m label (readBack hvalue hclear)
  | .subscript m value part ctx, h, hclear => by
    obtain ⟨hvalue, hpart, rfl⟩ := h
    exact readBack_subscript m (readBack hvalue hclear.1) (readBack_part hpart hclear.2)
  | .name m id ctx, h, _ => by
    obtain ⟨-, rfl⟩ := h
    exact readBack_name m id
  | .list m elts ctx, h, hclear => by
    obtain ⟨helts, rfl⟩ := h
    exact readBack_list m (readBack_all helts hclear)
  | .tuple m elts ctx, h, hclear => by
    obtain ⟨helts, rfl⟩ := h
    exact readBack_tuple m (readBack_all helts hclear)
  | .slice .., h, _ => by
    exact h.elim
  | .index .., h, _ => by
    exact h.elim
  | .formatted .., _, hclear => by
    exact hclear.elim

/-- A slice or an index is read back. -/
theorem readBack_part : ∀ {e : Expr α}, e.PartWellFormed → e.Clear →
    AsPart (levels e) (faces spaced e) e.erase
  | .slice m lower upper step, h, hclear => by
    exact asPart_written_slice m (readBack_option h.1 hclear.1) (readBack_option h.2.1 hclear.2.1)
      (readBack_option h.2.2 hclear.2.2)
  | .index m value, h, hclear => by
    have hvalue := readBack h hclear
    match value, h, hclear, hvalue with
    | .tuple m' elts ctx, h, hclear, hvalue =>
      have helts := h
      have hall := readBack_all helts.1 hclear
      refine asPart_written_index m h hvalue ?_
      rintro _ _ _ ⟨⟩ e he
      exact ⟨(allWellFormed_iff elts).mp helts.1 e he, hall e he⟩
    | .boolOp .., h, _, hvalue | .binOp .., h, _, hvalue | .unaryOp .., h, _, hvalue
    | .lambda .., h, _, hvalue | .dict .., h, _, hvalue | .compare .., h, _, hvalue
    | .call .., h, _, hvalue
    | .constant .., h, _, hvalue | .attr .., h, _, hvalue | .subscript .., h, _, hvalue
    | .name .., h, _, hvalue | .list .., h, _, hvalue | .formatted .., h, _, hvalue
    | .slice .., h, _, hvalue | .index .., h, _, hvalue =>
      exact asPart_written_index m h hvalue nofun
  | .boolOp .., h, _ | .binOp .., h, _ | .unaryOp .., h, _ | .lambda .., h, _ | .dict .., h, _
  | .compare .., h, _ | .call .., h, _ | .constant .., h, _ | .attr .., h, _ | .subscript .., h, _
  | .name .., h, _ | .list .., h, _ | .tuple .., h, _ | .formatted .., h, _ => by
    all_goals exact h.elim

theorem readBack_option : ∀ {o : Option (Expr α)}, OptionWellFormed o → OptionClear o →
    ∀ e ∈ o, ReadBack spaced e
  | none, _, _ => nofun
  | some e, h, hclear => by
    rintro _ ⟨⟩
    exact readBack h hclear

theorem readBack_all : ∀ {es : List (Expr α)}, AllWellFormed es → AllClear es →
    ∀ e ∈ es, ReadBack spaced e
  | [], _, _ => nofun
  | e :: es, h, hclear => by
    exact List.forall_mem_cons.mpr ⟨readBack h.1 hclear.1, readBack_all h.2 hclear.2⟩

theorem readBack_items : ∀ {items : List (Expr α × Expr α)}, ItemsWellFormed items →
    ItemsClear items → ∀ p ∈ items, ReadBack spaced p.1 ∧ ReadBack spaced p.2
  | [], _, _ => nofun
  | (key, value) :: rest, h, hclear => by
    exact List.forall_mem_cons.mpr ⟨⟨readBack h.1 hclear.1, readBack h.2.1 hclear.2.1⟩,
      readBack_items h.2.2 hclear.2.2⟩

theorem readBack_rest : ∀ {rest : List (CompareOp × Expr α)}, RestWellFormed rest →
    RestClear rest → ∀ p ∈ rest, ReadBack spaced p.2
  | [], _, _ => nofun
  | (op, e) :: rest, h, hclear => by
    exact List.forall_mem_cons.mpr ⟨readBack h.1 hclear.2.1, readBack_rest h.2 hclear.2.2⟩

theorem readBack_keywords :
    ∀ {keywords : List (KeywordArg α (Expr α))}, KeywordsWellFormed keywords →
    KeywordsClear keywords → ∀ k ∈ keywords, ReadBack spaced k.value
  | [], _, _ => nofun
  | ⟨m, key, value⟩ :: rest, h, hclear => by
    exact List.forall_mem_cons.mpr ⟨readBack h.2.1 hclear.1, readBack_keywords h.2.2 hclear.2⟩

end

end

end Format

end Toolchain

import Toolchain.Format.Expression
import Toolchain.Proofs.Format.Literal

/-!
# The tokens of a written expression

Which tokens the text of an expression has follows the rules by which the text is written, with
tokens instead of characters. That the text spells these tokens is then one case for each sort of
expression. In every case the only question is whether a part ends with a character that the next
part does not go on with. A part in an operand's place begins like an operand, and ends in front of
whatever ends a literal or a word: a point may follow a name but not a number, which is why a number
in front of an attribute has parentheses.

## Main definitions

* `Format.faces`: the tokens of the text of an expression
* `Format.ending`: the characters that may follow an expression
* `Format.Written`: an expression spells its tokens, and how it begins

## Main results

* `Format.written`: **the text of an expression spells its tokens**
* `Format.Written.inPlace`, `Format.Written.suffix`: the same with the parentheses that a place asks
  for
-/

namespace Toolchain

namespace Format

open Lexer

variable {α : Type}

/-! ## Faces -/

/-- Faces between brackets. -/
def enclosed (b : Bracket) (fs : List Face) : List Face :=
  TokenKind.face (.opening b) :: fs ++ [TokenKind.face (.closing b)]

/-- Faces in parentheses, if they need any. -/
def grouped (parens : Bool) (fs : List Face) : List Face :=
  if parens then enclosed .paren fs else fs

/-- Whether the left operand of a connective needs parentheses. -/
def needsParensBool (op : BoolOp) (e : Expr α) : Bool :=
  match e with
  | .boolOp _ inner _ => inner = op
  | _ => needsParens .left e

/-- Whether the left operand of a comparison needs parentheses. -/
def needsParensCompare (e : Expr α) : Bool :=
  match e with
  | .compare .. => true
  | _ => needsParens .left e

/-- Faces with commas between them. -/
def commaFaces (parts : List (List Face)) : List Face :=
  List.intercalate [TokenKind.face .comma] parts

theorem commaFaces_singleton (fs : List Face) : commaFaces [fs] = fs := List.intercalate_singleton

theorem commaFaces_cons_cons (fs gs : List Face) (rest : List (List Face)) :
    commaFaces (fs :: gs :: rest) = fs ++ [TokenKind.face .comma] ++ commaFaces (gs :: rest) :=
  List.intercalate_cons_cons

/-- The faces of the elements of a tuple without parentheses. -/
def elementFaces : List (List Face) → List Face
  | [fs] => fs ++ [TokenKind.face .comma]
  | parts => commaFaces parts

/-- The face of a connective. -/
def connectiveFace : BoolOp → Face
  | .and => TokenKind.face (.keyword .and)
  | .or => TokenKind.face (.keyword .or)

/-- The faces of a comparison. -/
def comparisonFaces : CompareOp → List Face
  | .is => [TokenKind.face (.keyword .is)]
  | .isNot => [TokenKind.face (.keyword .is), TokenKind.face (.keyword .not)]
  | .isIn => [TokenKind.face (.keyword .in)]
  | .notIn => [TokenKind.face (.keyword .not), TokenKind.face (.keyword .in)]
  | op => [TokenKind.face (.compare op)]

/-- The face of an operator before its operand. -/
def unaryFace : UnaryOp → Face
  | .invert => TokenKind.face .bitNot
  | .not => TokenKind.face (.keyword .not)
  | .plus => TokenKind.face (.binary .add)
  | .minus => TokenKind.face (.binary .sub)

/-- The face of a name. -/
def nameFace (id : String) : Face := (.identifier, id)

/-- The faces of parameters. -/
def parameterFaces (params : List (Param α)) (defaults : List (List Face))
    (vararg kwarg : Option (Param α)) : List (List Face) :=
  let plain := params.length - defaults.length
  let names := params.map fun p => nameFace p.name
  (names.take plain).map (fun n => [n]) ++
    (names.drop plain).zipWith (fun n d => n :: TokenKind.face .assign :: d) defaults ++
    (vararg.toList.map fun p => [TokenKind.face (.binary .mult), nameFace p.name]) ++
    (kwarg.toList.map fun p => [TokenKind.face (.binary .pow), nameFace p.name])

/-- The faces of a slice. -/
def sliceFaces (lower upper : Option (List Face)) (step : Option (List Face)) : List Face :=
  lower.getD [] ++ TokenKind.face .colon :: upper.getD [] ++ (match step with
    | some s => TokenKind.face .colon :: s
    | none => [])

/-- The faces of an index. -/
def indexFaces (value : Expr α) (fs : List Face) : List Face :=
  match value with
  | .tuple _ (_ :: _) _ => fs
  | _ => grouped (needsParens .element value) fs

mutual

/-- The faces of an expression without parentheses around it. -/
def faces (spaced : Bool) : Expr α → List Face
  | .boolOp _ op values =>
    match values with
    | [] => []
    | v :: vs => grouped (needsParensBool op v) (faces spaced v) ++
        operandFaces spaced (connectiveFace op) vs
  | .binOp m left op right =>
    if isFString (.binOp m left op right) then
      [(.fstring, String.ofList (content spaced true left ++ content spaced false right))]
    else
      grouped (needsParens .left left) (faces spaced left) ++ TokenKind.face (.binary op) ::
        grouped (needsParens .operand right) (faces spaced right)
  | .unaryOp _ op operand =>
    unaryFace op :: grouped (needsParens .operand operand) (faces spaced operand)
  | .lambda _ ⟨params, defaults, vararg, kwarg⟩ body =>
    TokenKind.face (.keyword .lambda) ::
      commaFaces (parameterFaces params (listedFaces spaced .element defaults) vararg kwarg) ++
      TokenKind.face .colon :: grouped (needsParens .element body) (faces spaced body)
  | .dict _ items => enclosed .brace (commaFaces (itemFaces spaced items))
  | .compare _ left rest =>
    grouped (needsParensCompare left) (faces spaced left) ++ restFaces spaced rest
  | .call _ func args keywords =>
    grouped (needsParens .suffix func) (faces spaced func) ++
      enclosed .paren (commaFaces
        (listedFaces spaced .element args ++ keywordFaces spaced keywords))
  | .constant _ value => [literalFace value]
  | .attr _ value name _ =>
    grouped (needsParens .suffix value) (faces spaced value) ++ [TokenKind.face .dot, nameFace name]
  | .subscript _ value slice _ =>
    grouped (needsParens .suffix value) (faces spaced value) ++
      enclosed .square (faces spaced slice)
  | .name _ id _ => [nameFace id]
  | .list _ elts _ => enclosed .square (commaFaces (listedFaces spaced .element elts))
  | .tuple _ elts _ => elementFaces (listedFaces spaced .element elts)
  | .slice _ lower upper step =>
    sliceFaces (optionFaces spaced lower) (optionFaces spaced upper) (optionFaces spaced step)
  | .index _ value => indexFaces value (faces spaced value)
  | .formatted m value conversion spec =>
    [(.fstring, String.ofList (content spaced true (.formatted m value conversion spec)))]

/-- The faces of the bound of a slice. -/
def optionFaces (spaced : Bool) : Option (Expr α) → Option (List Face)
  | none => none
  | some e => some (grouped (needsParens .colon e) (faces spaced e))

/-- The faces of expressions in a place. -/
def listedFaces (spaced : Bool) (place : Place) : List (Expr α) → List (List Face)
  | [] => []
  | e :: es => grouped (needsParens place e) (faces spaced e) :: listedFaces spaced place es

/-- The faces of operands, each after its operator. -/
def operandFaces (spaced : Bool) (op : Face) : List (Expr α) → List Face
  | [] => []
  | e :: es =>
    op :: grouped (needsParens .operand e) (faces spaced e) ++ operandFaces spaced op es

/-- The faces of the operands of comparisons, each after its operator. -/
def restFaces (spaced : Bool) : List (CompareOp × Expr α) → List Face
  | [] => []
  | (op, e) :: rest =>
    comparisonFaces op ++ grouped (needsParens .operand e) (faces spaced e) ++ restFaces spaced rest

/-- The faces of the items of a dictionary. -/
def itemFaces (spaced : Bool) : List (Expr α × Expr α) → List (List Face)
  | [] => []
  | (key, value) :: rest =>
    (grouped (needsParens .colon key) (faces spaced key) ++ TokenKind.face .colon ::
      grouped (needsParens .element value) (faces spaced value)) :: itemFaces spaced rest

/-- The faces of keyword arguments. -/
def keywordFaces (spaced : Bool) : List (KeywordArg α (Expr α)) → List (List Face)
  | [] => []
  | ⟨_, name, value⟩ :: rest =>
    ((match name with
      | some name => [nameFace name, TokenKind.face .assign]
      | none => [TokenKind.face (.binary .pow)]) ++
      grouped (needsParens .element value) (faces spaced value)) :: keywordFaces spaced rest

end

example : (faces true
    (.attr () (.binOp () (.name () "a" .load) .add (.name () "b" .load)) "c" .load)).map
    Prod.snd = ["(", "a", "+", "b", ")", ".", "c"] := by
  decide +kernel

/-! ## Spelling in context -/

/-- A character with which the text of an operand begins. -/
def startsOperand (c : Char) : Bool :=
  isAlphaNumeric c || ['\'', '"', '(', '[', '\x7b', '-', '+', '~'].contains c

/-- A text that begins as an operand does. -/
def Starts (cs : List Char) : Prop := ∃ c rest, cs = c :: rest ∧ startsOperand c = true

/-- The characters that may follow the text of an expression. After one that may stand in front of
an attribute this may be a point. -/
def ending (e : Expr α) : Char → Bool := if needsParens .suffix e then afterLiteral else afterWord

/-- An expression is written as its faces tell. -/
structure Written (spaced : Bool) (e : Expr α) : Prop where
  spells : Spells (ending e) (bare spaced e) (faces spaced e)
  starts : needsParens .element e = false → Starts (bare spaced e)

variable {stop : Char → Bool} {cs ds : List Char} {fs gs : List Face} {spaced : Bool}

theorem afterWord_of_afterLiteral (c : Char) (h : afterLiteral c = true) : afterWord c = true :=
  (Bool.and_eq_true_iff.mp h).1

theorem afterSymbol_of_startsOperand {c : Char} (h : startsOperand c = true) :
    afterSymbol c = true := by
  rw [afterSymbol, Bool.not_eq_true', Bool.eq_false_iff]
  intro hmem
  have hcases : c = '=' ∨ c = '*' ∨ c = '/' ∨ c = '<' ∨ c = '>' := by simpa using hmem
  rcases hcases with rfl | rfl | rfl | rfl | rfl <;> exact absurd h (by decide)

theorem Starts.append (h : Starts cs) (ds : List Char) : Starts (cs ++ ds) := by
  obtain ⟨c, rest, rfl, hc⟩ := h
  exact ⟨c, rest ++ ds, rfl, hc⟩

theorem Starts.follows (h : Starts cs) (rest : List Char) : Follows afterSymbol (cs ++ rest) := by
  obtain ⟨c, cs, rfl, hc⟩ := h
  exact .cons (afterSymbol_of_startsOperand hc) _

/-- Nothing is longer than a bracket, a comma or a colon. -/
theorem spells_mark {k : TokenKind} (hk : k = .comma ∨ k = .colon) :
    Spells (fun _ => true) k.spelling.toList [k.face] := by
  rcases hk with rfl | rfl
  · exact spells_face (by decide) (by decide) fun _ => rfl
  · exact spells_face (by decide) (by decide) fun _ => rfl

theorem spells_comma : Spells (fun _ => true) [','] [TokenKind.face .comma] :=
  spells_mark (.inl rfl)

theorem spells_colon : Spells (fun _ => true) [':'] [TokenKind.face .colon] :=
  spells_mark (.inr rfl)

theorem spells_brackets (b : Bracket) (h : Spells afterLiteral cs fs) :
    Spells (fun _ => true)
      ((TokenKind.opening b).spelling.toList ++ cs ++ (TokenKind.closing b).spelling.toList)
      (enclosed b fs) :=
  spells_enclosed b h (by cases b <;> (rintro _ ⟨⟩; decide))

theorem spells_parens (h : Spells afterLiteral cs fs) :
    Spells (fun _ => true) (parens cs) (enclosed .paren fs) := spells_brackets .paren h

theorem spells_grouped (h : Spells afterLiteral cs fs) (parens? : Bool) :
    Spells afterLiteral (if parens? then parens cs else cs) (grouped parens? fs) := by
  cases parens? with
  | true => exact (spells_parens h).mono fun _ _ => rfl
  | false => exact h

/-- A tuple is the only expression that has parentheses as an operand and needs them as an
element. -/
theorem needsParens_element {p : Place} (hplace : p ≠ .top ∧ p ≠ .field) {e : Expr α}
    (h : needsParens p e = false) : needsParens .element e = false := by
  cases e with
  | tuple m elts ctx => simp [needsParens, hplace] at h
  | constant m value => cases value <;> simp [needsParens]
  | _ => simp [needsParens]

namespace Written

variable {e : Expr α}

theorem spells_bare (h : Written spaced e) :
    Spells afterLiteral (bare spaced e) (faces spaced e) := by
  refine h.spells.mono fun c hc => ?_
  unfold ending
  split
  · exact hc
  · exact afterWord_of_afterLiteral c hc

theorem inPlace (h : Written spaced e) (place : Place) :
    Spells afterLiteral (inPlace place e (bare spaced e))
      (grouped (needsParens place e) (faces spaced e)) :=
  spells_grouped h.spells_bare _

theorem starts_inPlace (h : Written spaced e) {p : Place}
    (hplace : p ≠ .top ∧ p ≠ .field) : Starts (Format.inPlace p e (bare spaced e)) := by
  unfold Format.inPlace
  split
  · exact ⟨'(', _, rfl, by decide⟩
  · next hparens => exact h.starts (needsParens_element hplace (Bool.eq_false_iff.mpr hparens))

/-- What stands in front of an attribute may be followed by a point. -/
theorem suffix (h : Written spaced e) :
    Spells afterWord (Format.inPlace .suffix e (bare spaced e))
      (grouped (needsParens .suffix e) (faces spaced e)) := by
  have hspells := h.spells
  unfold ending at hspells
  unfold Format.inPlace grouped
  split
  · exact (spells_parens h.spells_bare).mono fun _ _ => rfl
  · next hparens =>
    rw [if_neg hparens] at hspells
    exact hspells

end Written

/-- What stands in a subscript has brackets around it already. -/
theorem needsParens_part {e : Expr α} (h : e.PartWellFormed) (place : Place) :
    needsParens place e = false := by
  cases e with
  | slice | index => rfl
  -- the other forms are no part of a subscript
  | _ => exact h.elim

theorem leftOfBool_eq (op : BoolOp) (e : Expr α) (s : List Char) :
    leftOfBool op e s = if needsParensBool op e then parens s else s := by
  cases e with
  | boolOp m inner values => simp [leftOfBool, needsParensBool, inPlace, needsParens]
  | _ => rfl

theorem leftOfCompare_eq (e : Expr α) (s : List Char) :
    leftOfCompare e s = if needsParensCompare e then parens s else s := by
  cases e <;> rfl

theorem starts_grouped {parens? : Bool} (h : parens? = false → Starts cs) :
    Starts (if parens? then parens cs else cs) := by
  cases parens? with
  | true => exact ⟨'(', _, rfl, by decide⟩
  | false => exact h rfl

/-! ## Operators -/

/-- An operator between blanks. -/
theorem spells_spaced {stop' : Char → Bool} {op : String} {hs : List Face}
    (hl : Spells afterLiteral cs fs) (hop : Spells stop' op.toList hs) (hblank : stop' ' ' = true)
    (hr : Spells stop ds gs) : Spells stop (cs ++ operator true op ++ ds) (fs ++ hs ++ gs) := by
  have hright := (hop.followed hr.blank hblank).blank
  rw [List.append_assoc, List.append_assoc]
  have heq : operator true op ++ ds = ' ' :: (op.toList ++ ' ' :: ds) := by simp [operator]
  rw [heq]
  exact hl.followed hright (by decide)

/-- A symbol between its operands. -/
theorem spells_infix {k : TokenKind} (hl : Spells afterLiteral cs fs)
    (hk : Spells afterSymbol k.spelling.toList [k.face])
    (hhead : ∃ c rest, k.spelling.toList = c :: rest ∧ afterLiteral c = true)
    (hr : Spells stop ds gs) (hds : Starts ds) :
    Spells stop (cs ++ operator spaced k.spelling ++ ds) (fs ++ k.face :: gs) := by
  cases spaced with
  | true =>
    have hspells := spells_spaced hl hk (by decide) hr
    rwa [List.append_assoc fs, List.singleton_append] at hspells
  | false =>
    obtain ⟨c, rest, hspelling, hc⟩ := hhead
    have hright := hk.append hr fun rest _ => hds.follows rest
    rw [hspelling, List.cons_append] at hright
    have hspells := hl.followed hright hc
    rwa [← List.cons_append, ← hspelling, ← List.append_assoc] at hspells

theorem spells_binOp (op : BinaryOp) (hl : Spells afterLiteral cs fs) (hr : Spells stop ds gs)
    (hds : Starts ds) :
    Spells stop (cs ++ operator spaced op.symbol ++ ds)
      (fs ++ TokenKind.face (.binary op) :: gs) := by
  refine spells_infix (k := .binary op) hl (spells_binary op) ?_ hr hds
  cases op <;> exact ⟨_, _, rfl, by decide⟩

theorem spells_connective (op : BoolOp) (hl : Spells afterLiteral cs fs) (hr : Spells stop ds gs) :
    Spells stop (cs ++ operator true op.symbol ++ ds) (fs ++ connectiveFace op :: gs) := by
  have hspells : Spells stop (cs ++ operator true op.symbol ++ ds)
      (fs ++ [connectiveFace op] ++ gs) := by
    cases op with
    | and => exact spells_spaced hl (spells_keyword .and) (by decide) hr
    | or => exact spells_spaced hl (spells_keyword .or) (by decide) hr
  rwa [List.append_assoc fs, List.singleton_append] at hspells

theorem spells_comparison (op : CompareOp) (hl : Spells afterLiteral cs fs) (hr : Spells stop ds gs)
    (hds : Starts ds) :
    Spells stop (cs ++ comparison spaced op ++ ds) (fs ++ comparisonFaces op ++ gs) := by
  have hsymbol {op : CompareOp}
    (hmem : ((TokenKind.compare op).spelling.toList, .compare op) ∈ Lexeme.symbols)
    (hhead : ∃ c rest, (TokenKind.compare op).spelling.toList = c :: rest ∧
        afterLiteral c = true) :
      Spells stop (cs ++ operator spaced op.symbol ++ ds)
        (fs ++ [TokenKind.face (.compare op)] ++ gs) := by
    rw [List.append_assoc fs, List.singleton_append]
    exact spells_infix (k := .compare op) hl (spells_face hmem (isFound_of_mem _ hmem) fun _ => rfl)
      hhead hr hds
  cases op with
  | is => exact spells_spaced hl (spells_keyword .is) (by decide) hr
  | isNot => exact spells_spaced hl (spells_pair .is .not) (by decide) hr
  | isIn => exact spells_spaced hl (spells_keyword .in) (by decide) hr
  | notIn => exact spells_spaced hl (spells_pair .not .in) (by decide) hr
  | _ => exact hsymbol (by decide) ⟨_, _, rfl, by decide⟩

/-! ## Lists -/

theorem spells_separated (h : Spells afterLiteral cs fs) (h' : Spells stop ds gs) :
    Spells stop (cs ++ [',', ' '] ++ ds) (fs ++ [TokenKind.face .comma] ++ gs) := by
  have hright := spells_comma.followed h'.blank rfl
  have hspells := h.followed hright (by decide)
  simpa using hspells

/-- Texts with commas between them. -/
theorem spells_commas {parts : List (List Char)} {fss : List (List Face)}
    (h : List.Forall₂ (Spells afterLiteral) parts fss) :
    Spells afterLiteral (commas parts) (commaFaces fss) := by
  unfold commas commaFaces
  induction h with
  | nil => exact spells_nil
  | @cons cs fs parts fss hcs hparts ih =>
    cases hparts with
    | nil => simpa [List.intercalate] using hcs
    | cons hds hrest =>
      rw [List.intercalate_cons_cons, List.intercalate_cons_cons]
      exact spells_separated hcs ih

/-- The elements of a tuple without parentheses. -/
theorem spells_elements {parts : List (List Char)} {fss : List (List Face)}
    (h : List.Forall₂ (Spells afterLiteral) parts fss) :
    Spells afterLiteral (elements parts) (elementFaces fss) := by
  cases h with
  | nil => exact spells_nil
  | cons hcs hparts =>
    cases hparts with
    | nil => exact (hcs.followed spells_comma (by decide)).mono fun _ _ => rfl
    | cons hds hrest => exact spells_commas (.cons hcs (.cons hds hrest))

theorem starts_identifier {id : String} (h : IsIdentifier id) : Starts id.toList := by
  obtain ⟨c, cs, hid, hc, -⟩ := h.letters
  refine ⟨c, cs, hid, ?_⟩
  simp [startsOperand, isAlphaNumeric, hc]

/-- A mark in front of a name or of an operand. -/
theorem spells_marked {k : TokenKind} (hmem : (k.spelling.toList, k) ∈ Lexeme.symbols)
    (hdepth : ∀ depth, depthAfter depth k = depth) (h : Spells stop ds gs) (hds : Starts ds) :
    Spells stop (k.spelling.toList ++ ds) (k.face :: gs) :=
  (spells_face hmem (isFound_of_mem _ hmem) hdepth).append h fun rest _ => hds.follows rest

/-- A point and a name. -/
theorem spells_attr {id : String} (h : IsIdentifier id) :
    Spells afterWord ('.' :: id.toList) [TokenKind.face .dot, nameFace id] := by
  refine spells_dot.append (spells_identifier h) fun rest _ => ?_
  obtain ⟨c, cs, hid, hc, -⟩ := h.letters
  show Follows _ (id.toList ++ rest)
  rw [hid]
  refine .cons ?_ _
  rw [Bool.not_eq_true', Bool.eq_false_iff]
  intro hdigit
  rw [isAlpha_of_isDigit hdigit] at hc
  cases hc

theorem forall₂_map {β γ : Type} {R : β → γ → Prop} {f : α → β} {g : α → γ} {as : List α}
    (h : ∀ a ∈ as, R (f a) (g a)) : List.Forall₂ R (as.map f) (as.map g) := by
  rw [List.forall₂_map_left_iff, List.forall₂_map_right_iff, List.forall₂_same]
  exact h

/-- Parameters with defaults. -/
theorem spells_defaults {params : List (Param α)} (hparams : ∀ p ∈ params, IsIdentifier p.name)
    {defaults : List (List Char)} {fss : List (List Face)}
    (hdefaults : List.Forall₂ (fun ds gs => Spells afterLiteral ds gs ∧ Starts ds) defaults fss) :
    List.Forall₂ (Spells afterLiteral)
      ((params.map fun p => p.name.toList).zipWith (fun n d => n ++ '=' :: d) defaults)
      ((params.map fun p => nameFace p.name).zipWith (fun n d => n :: TokenKind.face .assign :: d)
        fss) := by
  induction hdefaults generalizing params with
  | nil => simp
  | @cons d gs defaults fss hd _ ih =>
    cases params with
    | nil => simp
    | cons p params =>
      rw [List.forall_mem_cons] at hparams
      refine .cons ?_ (ih hparams.2)
      have hvalue := spells_marked (k := .assign) (by decide) (fun _ => rfl) hd.1 hd.2
      exact (spells_identifier hparams.1).followed hvalue (by decide)

/-- The parameters of a function. -/
theorem spells_parameters {s : Signature α (Expr α)} (hs : s.Named) {defaults : List (List Char)}
    {fss : List (List Face)}
    (hdefaults : List.Forall₂ (fun ds gs => Spells afterLiteral ds gs ∧ Starts ds) defaults fss) :
    Spells afterLiteral (parameters s.params defaults s.vararg s.kwarg)
      (commaFaces (parameterFaces s.params fss s.vararg s.kwarg)) := by
  have hname {p : Param α} (hp : IsIdentifier p.name) :
      Spells afterLiteral p.name.toList [nameFace p.name] :=
    (spells_identifier hp).mono afterWord_of_afterLiteral
  refine spells_commas (List.rel_append (List.rel_append (List.rel_append ?_ ?_) ?_) ?_)
  · rw [← hdefaults.length_eq, ← List.map_take, ← List.map_take, List.map_map]
    exact forall₂_map fun p hp => hname (hs.params p (List.mem_of_mem_take hp))
  · rw [← hdefaults.length_eq, ← List.map_drop, ← List.map_drop]
    exact spells_defaults (fun p hp => hs.params p (List.mem_of_mem_drop hp)) hdefaults
  · refine forall₂_map fun p hp => ?_
    have hp := hs.vararg p (by simpa using hp)
    exact spells_marked (k := .binary .mult) (by decide) (fun _ => rfl) (hname hp)
      (starts_identifier hp)
  · refine forall₂_map fun p hp => ?_
    have hp := hs.kwarg p (by simpa using hp)
    exact spells_marked (k := .binary .pow) (by decide) (fun _ => rfl) (hname hp)
      (starts_identifier hp)

/-! ## The text of an expression -/

section

variable (spaced) (m : α)

theorem bare_boolOp (op : BoolOp) (v : Expr α) (vs : List (Expr α)) :
    bare spaced (.boolOp m op (v :: vs)) =
      leftOfBool op v (bare spaced v) ++ operands spaced (operator true op.symbol) vs := rfl

theorem bare_binOp (left : Expr α) (op : BinaryOp) (right : Expr α) :
    bare spaced (.binOp m left op right) =
      if isFString (.binOp m left op right) then
        fstring (content spaced true left ++ content spaced false right)
      else
        inPlace .left left (bare spaced left) ++ operator spaced op.symbol ++
          inPlace .operand right (bare spaced right) := rfl

theorem bare_unaryOp (op : UnaryOp) (operand : Expr α) :
    bare spaced (.unaryOp m op operand) =
      unary op ++ inPlace .operand operand (bare spaced operand) := rfl

theorem bare_lambda (s : Signature α (Expr α)) (body : Expr α) :
    bare spaced (.lambda m s body) =
      "lambda".toList ++ (if (signature spaced s).isEmpty then [] else ' ' :: signature spaced s) ++
        [':', ' '] ++ inPlace .element body (bare spaced body) := rfl

theorem bare_dict (items : List (Expr α × Expr α)) :
    bare spaced (.dict m items) = '\x7b' :: commas (dictItems spaced items) ++ ['\x7d'] := rfl

theorem bare_compare (left : Expr α) (rest : List (CompareOp × Expr α)) :
    bare spaced (.compare m left rest) =
      leftOfCompare left (bare spaced left) ++ comparisons spaced rest := rfl

theorem bare_call (func : Expr α) (args : List (Expr α)) (keywords : List (KeywordArg α (Expr α))) :
    bare spaced (.call m func args keywords) =
      inPlace .suffix func (bare spaced func) ++
        parens (commas (listed spaced .element args ++ keywordArgs spaced keywords)) := rfl

theorem bare_constant (value : Literal) : bare spaced (.constant m value) = literal value := rfl

theorem bare_attr (value : Expr α) (name : String) (ctx : Context) :
    bare spaced (.attr m value name ctx) =
      inPlace .suffix value (bare spaced value) ++ '.' :: name.toList := rfl

theorem bare_subscript (value slice : Expr α) (ctx : Context) :
    bare spaced (.subscript m value slice ctx) =
      inPlace .suffix value (bare spaced value) ++
        '[' :: inPlace .element slice (bare spaced slice) ++ [']'] := rfl

theorem bare_name (id : String) (ctx : Context) : bare spaced (.name m id ctx) = id.toList := rfl

theorem bare_list (elts : List (Expr α)) (ctx : Context) :
    bare spaced (.list m elts ctx) = '[' :: commas (listed spaced .element elts) ++ [']'] := rfl

theorem bare_tuple (elts : List (Expr α)) (ctx : Context) :
    bare spaced (.tuple m elts ctx) = elements (listed spaced .element elts) := rfl

theorem bare_slice (lower upper step : Option (Expr α)) :
    bare spaced (.slice m lower upper step) =
      sliceText ((optional spaced lower).getD []) ((optional spaced upper).getD [])
        (optional spaced step) := rfl

theorem bare_index (value : Expr α) :
    bare spaced (.index m value) = indexText value (bare spaced value) := rfl

theorem bare_formatted (value : Expr α) (conversion : Option Conversion) (spec : Option (Expr α)) :
    bare spaced (.formatted m value conversion spec) =
      fstring (content spaced true (.formatted m value conversion spec)) := rfl

theorem keywordArgs_none (value : Expr α) (rest : List (KeywordArg α (Expr α))) :
    keywordArgs spaced (⟨m, none, value⟩ :: rest) =
      ('*' :: '*' :: inPlace .element value (bare spaced value)) :: keywordArgs spaced rest := rfl

theorem keywordArgs_some (key : String) (value : Expr α) (rest : List (KeywordArg α (Expr α))) :
    keywordArgs spaced (⟨m, some key, value⟩ :: rest) =
      (key.toList ++ '=' :: inPlace .element value (bare spaced value)) ::
        keywordArgs spaced rest := rfl

end

/-! ## Expressions -/

namespace Written

variable {e : Expr α}

/-- An expression that no point may follow. -/
theorem of_literal (h : Spells afterLiteral (bare spaced e) (faces spaced e))
    (hsuffix : needsParens .suffix e = true)
    (hs : needsParens .element e = false → Starts (bare spaced e)) :
    Written spaced e where
  spells := by rwa [ending, if_pos hsuffix]
  starts := hs

/-- An expression that a point may follow. -/
theorem of_word (h : Spells afterWord (bare spaced e) (faces spaced e))
    (hs : Starts (bare spaced e)) : Written spaced e where
  spells := h.mono fun c hc => by
    unfold ending at hc
    split at hc
    · exact afterWord_of_afterLiteral c hc
    · exact hc
  starts _ := hs

/-- An expression that ends with a bracket. -/
theorem of_bracket (h : Spells (fun _ => true) (bare spaced e) (faces spaced e))
    (hs : Starts (bare spaced e)) : Written spaced e :=
  of_word (h.mono fun _ _ => rfl) hs

theorem starts_bool (h : Written spaced e) (op : BoolOp) :
    Starts (if needsParensBool op e then parens (bare spaced e) else bare spaced e) := by
  refine starts_grouped fun hparens => h.starts ?_
  cases e with
  | boolOp => rfl
  | _ => exact needsParens_element (p := .left) (by decide) hparens

theorem starts_compare (h : Written spaced e) :
    Starts (if needsParensCompare e then parens (bare spaced e) else bare spaced e) := by
  refine starts_grouped fun hparens => h.starts ?_
  cases e with
  | compare => rfl
  | _ => exact needsParens_element (p := .left) (by decide) hparens

end Written

theorem starts_literal {v : Literal} (h : v.WellFormed) : Starts (literal v) := by
  have hdigit {c : Char} {cs ds : List Char} (hcs : cs = c :: ds)
      (hall : ∀ x ∈ cs, x.isDigit = true) : Starts cs := by
    refine ⟨c, ds, hcs, ?_⟩
    have hc := hall c (hcs ▸ List.mem_cons_self)
    rw [← isDigit_eq] at hc
    simp [startsOperand, isAlphaNumeric, hc]
  cases v with
  | none => exact ⟨_, _, rfl, by decide⟩
  | bool b => cases b <;> exact ⟨_, _, rfl, by decide⟩
  | int n =>
    have hn : ¬n.toInt < 0 := Int.not_lt.mpr h
    rw [literal, integer, if_neg hn]
    obtain ⟨c, cs, hcs⟩ := List.exists_cons_of_ne_nil
      (Nat.toDigits_ne_nil (n := n.toInt.natAbs) (b := 10))
    exact hdigit hcs fun x hx => Nat.isDigit_of_mem_toDigits (by decide) (by decide) hx
  | float x =>
    obtain ⟨whole, fraction, hfloat, hwhole, -, hdigits, -⟩ := float_spec h
    obtain ⟨c, cs, hcs⟩ := List.exists_cons_of_ne_nil hwhole
    rw [literal, hfloat]
    exact (hdigit hcs fun x hx => hdigits x (List.mem_append_left _ hx)).append _
  | str s => exact ⟨_, _, rfl, by decide⟩

section

open Expr

variable (spaced)

mutual

/-- An expression that the grammar can make is written as its faces tell. -/
theorem written : ∀ {e : Expr α}, e.WellFormed → Written spaced e
  | .boolOp _ op [], h => by
    rw [WellFormed] at h
    exact absurd h.1 (by simp)
  | .boolOp _ op (v :: vs), h => by
    rw [WellFormed] at h
    have hv := written h.2.1
    have hleft := spells_grouped hv.spells_bare (needsParensBool op v)
    refine .of_literal ?_ rfl fun _ => ?_
    · rw [bare_boolOp, faces, leftOfBool_eq]
      exact spells_operands op h.2.2 hleft
    · rw [bare_boolOp, leftOfBool_eq]
      exact (hv.starts_bool op).append _
  | .binOp m left op right, h => by
    rw [WellFormed] at h
    have hleft := written h.1
    have hright := written h.2
    -- a sum that is an f-string is written as one, and needs no parentheses
    by_cases hf : isFString (.binOp m left op right) = true
    · refine .of_word ?_ ?_
      · rw [bare_binOp, faces, if_pos hf, if_pos hf]
        exact spells_fstring _
      · rw [bare_binOp, if_pos hf]
        exact ⟨'f', _, rfl, by decide⟩
    · refine .of_literal ?_ (by simp [needsParens, hf]) fun _ => ?_
      · rw [bare_binOp, faces, if_neg hf, if_neg hf]
        exact spells_binOp op (hleft.inPlace .left) (hright.inPlace .operand)
          (hright.starts_inPlace (by decide))
      · rw [bare_binOp, if_neg hf, List.append_assoc]
        exact (hleft.starts_inPlace (by decide)).append _
  | .unaryOp _ op operand, h => by
    rw [WellFormed] at h
    have hoperand := written h
    refine .of_literal ?_ rfl fun _ => ?_
    · rw [bare_unaryOp, faces]
      have hspells := hoperand.inPlace .operand
      have hstarts := hoperand.starts_inPlace (p := .operand) (by decide)
      cases op with
      | invert => exact spells_marked (k := .bitNot) (by decide) (fun _ => rfl) hspells hstarts
      | not => exact (spells_keyword .not).followed hspells.blank (by decide)
      | plus => exact spells_marked (k := .binary .add) (by decide) (fun _ => rfl) hspells hstarts
      | minus => exact spells_marked (k := .binary .sub) (by decide) (fun _ => rfl) hspells hstarts
    · rw [bare_unaryOp]
      cases op <;> exact ⟨_, _, rfl, by decide⟩
  | .lambda _ ⟨params, defaults, vararg, kwarg⟩ body, h => by
    rw [WellFormed] at h
    obtain ⟨hnamed, hdefaults, hbody⟩ := h
    have hparams := spells_parameters hnamed (spells_listed .element (by decide) hdefaults)
    have hbody := written hbody
    refine .of_literal ?_ rfl fun _ => ?_
    · rw [bare_lambda, faces, signature]
      have hword : Spells afterWord "lambda".toList [TokenKind.face (.keyword .lambda)] :=
        spells_keyword .lambda
      have hcolon : Spells afterLiteral (':' :: ' ' :: inPlace .element body (bare spaced body))
          (TokenKind.face .colon :: grouped (needsParens .element body) (faces spaced body)) :=
        spells_colon.followed (hbody.inPlace .element).blank rfl
      by_cases hempty :
        (parameters params (listed spaced .element defaults) vararg kwarg).isEmpty = true
      · rw [List.isEmpty_iff] at hempty
        rw [hempty] at hparams ⊢
        rw [hparams.eq_nil]
        exact hword.followed hcolon (by decide)
      · rw [if_neg hempty]
        have hright := (hparams.followed hcolon (by decide)).blank
        have hspells := hword.followed hright (by decide)
        simpa only [List.append_assoc, List.cons_append, List.nil_append] using hspells
    · rw [bare_lambda]
      exact ⟨'l', _, rfl, by decide⟩
  | .dict _ items, h => by
    rw [WellFormed] at h
    refine .of_bracket ?_ ?_
    · rw [bare_dict, faces]
      exact spells_brackets .brace (spells_commas (spells_items h))
    · rw [bare_dict]
      exact ⟨_, _, rfl, by decide⟩
  | .compare _ left rest, h => by
    rw [WellFormed] at h
    have hl := written h.1
    have hleft := spells_grouped hl.spells_bare (needsParensCompare left)
    refine .of_literal ?_ rfl fun _ => ?_
    · rw [bare_compare, faces, leftOfCompare_eq]
      exact spells_rest h.2.2 hleft
    · rw [bare_compare, leftOfCompare_eq]
      exact hl.starts_compare.append _
  | .call _ func args keywords, h => by
    rw [WellFormed] at h
    have hfunc := written h.1
    have hargs := (spells_listed .element (by decide) h.2.1).imp fun _ _ h => h.1
    refine .of_bracket ?_ ?_
    · rw [bare_call, faces]
      exact hfunc.suffix.followed
        (spells_parens (spells_commas (List.rel_append hargs (spells_keywords h.2.2)))) (by decide)
    · rw [bare_call]
      exact (hfunc.starts_inPlace (by decide)).append _
  | .constant _ value, h => by
    rw [WellFormed] at h
    have hstarts := starts_literal h
    cases value with
    | none =>
      exact .of_word (by rw [bare_constant, faces]; exact spells_keyword .none)
        (by rwa [bare_constant])
    | bool b => cases b with
      | true =>
        exact .of_word (by rw [bare_constant, faces]; exact spells_keyword .true)
          (by rwa [bare_constant])
      | false =>
        exact .of_word (by rw [bare_constant, faces]; exact spells_keyword .false)
          (by rwa [bare_constant])
    | int n =>
      exact .of_literal (by rw [bare_constant, faces]; exact spells_literal h) rfl
        fun _ => by rwa [bare_constant]
    | float x =>
      exact .of_literal (by rw [bare_constant, faces]; exact spells_literal h) rfl
        fun _ => by rwa [bare_constant]
    | str s =>
      exact .of_word (by rw [bare_constant, faces]; exact spells_string s)
        (by rwa [bare_constant])
  | .attr _ value label _, h => by
    rw [WellFormed] at h
    have hvalue := written h.1
    refine .of_word ?_ ?_
    · rw [bare_attr, faces]
      exact hvalue.suffix.followed (spells_attr h.2.1) (by decide)
    · rw [bare_attr]
      exact (hvalue.starts_inPlace (by decide)).append _
  | .subscript _ value part _, h => by
    rw [WellFormed] at h
    have hvalue := written h.1
    have hplain : inPlace .element part (bare spaced part) = bare spaced part := by
      rw [inPlace, needsParens_part h.2.1, if_neg Bool.false_ne_true]
    refine .of_bracket ?_ ?_
    · rw [bare_subscript, faces, hplain]
      have hpart := spells_brackets .square (spells_part h.2.1)
      rw [List.append_assoc]
      exact hvalue.suffix.followed hpart (by decide)
    · rw [bare_subscript, List.append_assoc]
      exact (hvalue.starts_inPlace (by decide)).append _
  | .name _ id _, h => by
    rw [WellFormed] at h
    refine .of_word ?_ ?_
    · rw [bare_name, faces]
      exact spells_identifier h.1
    · rw [bare_name]
      exact starts_identifier h.1
  | .list _ elts _, h => by
    rw [WellFormed] at h
    have helts := (spells_listed .element (by decide) h.1).imp fun _ _ h => h.1
    refine .of_bracket ?_ ?_
    · rw [bare_list, faces]
      exact spells_brackets .square (spells_commas helts)
    · rw [bare_list]
      exact ⟨_, _, rfl, by decide⟩
  | .tuple _ elts _, h => by
    rw [WellFormed] at h
    have helts := (spells_listed .element (by decide) h.1).imp fun _ _ h => h.1
    refine .of_literal ?_ (by simp [needsParens]) fun hparens => ?_
    · rw [bare_tuple, faces]
      exact spells_elements helts
    · simp [needsParens] at hparens
  | .slice .., h => by
    rw [WellFormed] at h
    exact h.elim
  | .index .., h => by
    rw [WellFormed] at h
    exact h.elim
  | .formatted .., _ => by
    refine .of_word ?_ ?_
    · rw [bare_formatted, faces]
      exact spells_fstring _
    · rw [bare_formatted]
      exact ⟨'f', _, rfl, by decide⟩

/-- A slice or an index is written as its faces tell. -/
theorem spells_part : ∀ {e : Expr α}, e.PartWellFormed →
    Spells afterLiteral (bare spaced e) (faces spaced e)
  | .slice _ lower upper step, h => by
    rw [bare_slice, faces]
    have hlower := spells_option h.1
    have hupper := spells_option h.2.1
    have hboth := hlower.followed (spells_colon.append hupper fun _ _ _ _ => rfl) (by decide)
    unfold sliceText sliceFaces
    cases step with
    | none => simpa [optional, optionFaces] using hboth
    | some e =>
      have hstep := spells_option (e := some e) h.2.2
      have hspells := hboth.followed (spells_colon.append hstep fun _ _ _ _ => rfl) (by decide)
      simpa [optional, optionFaces] using hspells
  | .index _ value, h => by
    have hvalue := written h
    rw [bare_index, faces]
    cases value with
    | tuple m elts ctx => cases elts with
      | nil => exact hvalue.inPlace .element
      | cons e es => exact hvalue.spells_bare
    | _ => exact hvalue.inPlace .element
  | .boolOp .., h | .binOp .., h | .unaryOp .., h | .lambda .., h | .dict .., h | .compare .., h
  | .call .., h | .constant .., h | .attr .., h | .subscript .., h | .name .., h | .list .., h
  | .tuple .., h | .formatted .., h => by
    all_goals exact h.elim

/-- The bounds of slices. -/
theorem spells_option : ∀ {e : Option (Expr α)}, OptionWellFormed e →
    Spells afterLiteral ((optional spaced e).getD []) ((optionFaces spaced e).getD [])
  | none, _ => spells_nil
  | some e, h => by
    exact (written h).inPlace .colon

/-- Expressions in a place. -/
theorem spells_listed (place : Place) (hplace : place ≠ .top ∧ place ≠ .field) :
    ∀ {es : List (Expr α)}, AllWellFormed es →
      List.Forall₂ (fun ds gs => Spells afterLiteral ds gs ∧ Starts ds) (listed spaced place es)
        (listedFaces spaced place es)
  | [], _ => by
    exact .nil
  | e :: es, h => by
    have he := written h.1
    exact .cons ⟨he.inPlace place, he.starts_inPlace hplace⟩ (spells_listed place hplace h.2)

/-- Operands on the right of a connective. -/
theorem spells_operands (op : BoolOp) : ∀ {es : List (Expr α)}, AllWellFormed es →
    ∀ {cs fs}, Spells afterLiteral cs fs →
      Spells afterLiteral (cs ++ operands spaced (operator true op.symbol) es)
        (fs ++ operandFaces spaced (connectiveFace op) es)
  | [], _, cs, fs, hcs => by
    rw [operands, operandFaces, List.append_nil, List.append_nil]
    exact hcs
  | e :: es, h, cs, fs, hcs => by
    rw [AllWellFormed] at h
    rw [operands, operandFaces]
    have hleft := spells_connective op hcs ((written h.1).inPlace .operand)
    have hspells := spells_operands op h.2 hleft
    simpa [Format.inPlace] using hspells

/-- Operands of comparisons. -/
theorem spells_rest : ∀ {rest : List (CompareOp × Expr α)}, RestWellFormed rest →
    ∀ {cs fs}, Spells afterLiteral cs fs →
      Spells afterLiteral (cs ++ comparisons spaced rest) (fs ++ restFaces spaced rest)
  | [], _, cs, fs, hcs => by
    rw [comparisons, restFaces, List.append_nil, List.append_nil]
    exact hcs
  | (op, e) :: rest, h, cs, fs, hcs => by
    rw [RestWellFormed] at h
    rw [comparisons, restFaces]
    have he := written h.1
    have hleft : Spells afterLiteral
        (cs ++ comparison spaced op ++ Format.inPlace .operand e (bare spaced e)) _ :=
      spells_comparison op hcs (he.inPlace .operand)
      (he.starts_inPlace (by decide))
    have hspells := spells_rest h.2 hleft
    simpa using hspells

/-- The items of a dictionary. -/
theorem spells_items : ∀ {items : List (Expr α × Expr α)}, ItemsWellFormed items →
    List.Forall₂ (Spells afterLiteral) (dictItems spaced items) (itemFaces spaced items)
  | [], _ => by
    exact .nil
  | (key, value) :: rest, h => by
    have hvalue := spells_colon.followed ((written h.2.1).inPlace .element).blank rfl
    exact .cons (((written h.1).inPlace .colon).followed hvalue (by decide)) (spells_items h.2.2)

/-- Keyword arguments. -/
theorem spells_keywords : ∀ {keywords : List (KeywordArg α (Expr α))}, KeywordsWellFormed keywords →
    List.Forall₂ (Spells afterLiteral) (keywordArgs spaced keywords) (keywordFaces spaced keywords)
  | [], _ => by
    exact .nil
  | ⟨_, key, value⟩ :: rest, h => by
    have hvalue := written h.2.1
    have hspells := hvalue.inPlace .element
    have hstarts := hvalue.starts_inPlace (p := .element) (by decide)
    cases key with
    | none =>
      rw [keywordArgs_none, keywordFaces]
      refine .cons ?_ (spells_keywords h.2.2)
      exact spells_marked (k := .binary .pow) (by decide) (fun _ => rfl) hspells hstarts
    | some key =>
      rw [keywordArgs_some, keywordFaces]
      refine .cons ?_ (spells_keywords h.2.2)
      have hassign := spells_marked (k := .assign) (by decide) (fun _ => rfl) hspells hstarts
      exact (spells_identifier (h.1 key rfl)).followed hassign (by decide)

end

end

end Format

end Toolchain

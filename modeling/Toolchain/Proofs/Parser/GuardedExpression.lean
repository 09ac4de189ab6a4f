import Toolchain.Parser.Expression
import Toolchain.Proofs.Guarded
import Toolchain.Proofs.Parser.Yields

/-!
# Reading expressions after a fault

The grammar of expressions is read by a parser that goes on after a fault. It sees the end of the
input from then on, so that no rule takes another token, and most rules stop at the next place where
they look whether there is a fault. The rules that do not look find that there is no token they can
go on with, which is a fault as well; it is not noted, for there is one already. The expression of a
field of an f-string is read by a parser of its own, which has a flag of its own and writes nothing;
what it finds is one fault of the field.

## Main definitions

* `GuardedParse`: a step of a parser that goes on after a fault
* `GuardedParse.peek`, `GuardedParse.consume`, `GuardedParse.unexpected`: reading tokens
* `GuardedParse.fieldExpr`: the expression of a field, read by a parser of its own
* `GuardedParse.expression`, `GuardedParse.operand`: the two mutually recursive rules

## Main results

* `GuardedParse.follows_peek`, `GuardedParse.follows_consume`, `GuardedParse.raises_unexpected`:
  reading tokens follows the parser that ends in a fault, and yields what it yields
* `GuardedParse.follows_iterate`: so does a rule that repeats a step, by an invariant
* `GuardedParse.verdict_fieldExpr`: what the parser of a field writes
-/

namespace Toolchain

/-- A step of a parser that goes on after a fault. -/
abbrev GuardedParse (α : Type) := Guarded ParseState α

namespace Parse

/-- The expression of a field of an f-string, which may end in a newline. -/
def fieldList (expr : Parse MarkedExpr) : Parse MarkedExpr := do
  let e ← exprList expr
  if ← accept .newLine then
    let _ ← accept .indentation
    return e
  else return e

/-- The expression of a field of an f-string with its end. -/
def endedField (expr : Parse MarkedExpr) : Parse MarkedExpr := do
  let e ← exprList expr
  if ← accept .newLine then
    let _ ← accept .indentation
  let _ ← expect .finish
  return e

/-- The subscript of a value by several parts, which make a tuple. -/
def severalParts (value : MarkedExpr) (items : List MarkedExpr) (commas : List Token) :
    Parse MarkedExpr := do
  match items.findIdx? isSlice with
  | some i => unexpected (commas.getD (i - 1) ⟨.comma, ",", {}⟩)
  | none =>
    let pos := (items.head?.map fun e => e.mark.pos).getD value.mark.pos
    let tuple := .tuple (← register .tuple pos) items .load
    let part := .index (← register .index pos) tuple
    return .subscript (← register .subscript value.mark.pos) value part .load

theorem endedField_eq (expr : Parse MarkedExpr) :
    endedField expr = (do
      let e ← fieldList expr
      let _ ← expect .finish
      return e) := by
  rw [endedField, fieldList, bind_assoc]
  refine bind_congr fun e => ?_
  rw [bind_assoc]
  refine bind_congr fun newLine => ?_
  cases newLine with
  | true => simp
  | false => simp

section FieldExpr

variable {token : Token} {text field : List Char} {e : MarkedExpr} {u u' inner : ParseState}

theorem run_fieldExpr_ok
    (h : StateT.run (endedField expr) (start (Text.ofChars text) u.arena) = .ok (e, inner)) :
    StateT.run (fieldExpr expr token text field) u = .ok (e, { u with arena := inner.arena }) := by
  have hget : StateT.run (get : Parse ParseState) u = .ok (u, u) := rfl
  rw [fieldExpr, Outcome.run_bind_ok hget]
  extract_lets body
  have hbody : StateT.run body (start (Text.ofChars text) u.arena) = .ok (e, inner) := h
  rw [hbody]
  rfl

theorem run_fieldExpr_error {fault : Fault}
    (h : StateT.run (endedField expr) (start (Text.ofChars text) u.arena) = .error fault) :
    StateT.run (fieldExpr expr token text field) u = StateT.run (badField token field) u := by
  have hget : StateT.run (get : Parse ParseState) u = .ok (u, u) := rfl
  rw [fieldExpr, Outcome.run_bind_ok hget]
  extract_lets body
  have hbody : StateT.run body (start (Text.ofChars text) u.arena) = .error fault := h
  rw [hbody]

/-- The expression of a field is read in a text of its own, and only its nodes are kept. -/
theorem exists_of_run_fieldExpr
    (h : StateT.run (fieldExpr expr token text field) u = .ok (e, u')) :
    ∃ inner, StateT.run (endedField expr) (start (Text.ofChars text) u.arena) = .ok (e, inner) ∧
      u' = { u with arena := inner.arena } := by
  cases hbody : StateT.run (endedField expr) (start (Text.ofChars text) u.arena) with
  | error fault =>
    rw [run_fieldExpr_error hbody] at h
    cases h
  | ok result =>
    obtain ⟨e', inner⟩ := result
    rw [run_fieldExpr_ok hbody] at h
    obtain ⟨rfl, rfl⟩ := Prod.mk.inj (Except.ok.inj h)
    exact ⟨inner, rfl, rfl⟩

end FieldExpr

end Parse

/-- Puts a message in front of the advice that goes with the fault that was found. -/
def Guard.advise {σ : Type} (s : Guard σ) (m : Message) : Guard σ :=
  { s with
    err := s.err.map fun f => { f with hints := m :: f.hints }
    agrees := by rw [Option.isSome_map, s.agrees] }

/-- The advice goes with the fault that was noted before it. -/
theorem Guard.verdict_advised {σ : Type} (f : Fault) (causes : List Message) (s : Guard σ) :
    (causes.foldl advise (s.note f)).verdict =
      (some { f with hints := causes.reverse ++ f.hints }, s.log.write f.logEntry) := by
  induction causes generalizing f with
  | nil => rfl
  | cons m causes ih =>
    have hadvise : (s.note f).advise m = s.note { f with hints := m :: f.hints } := rfl
    rw [List.foldl_cons, hadvise, ih, List.reverse_cons, List.append_assoc]
    rfl

/-- The parser keeps its tokens proper, and its faults tell where they are. -/
instance : Contract ParseState where
  Keeps := ParseState.Proper
  Tells := Fault.Placed

namespace Guarded

variable {α β : Type} {v : α → β} {g : GuardedParse β} {p : Parse α} {Q R : α → Prop}

/-- What is followed yields what it has to by contract. -/
theorem Follows.yields (h : Follows v Q g p) : p.Yields Q := by
  intro s hs
  have hrepeats := h { state := s } hs rfl
  cases hrun : StateT.run p s with
  | error f =>
    rw [hrun] at hrepeats
    exact hrepeats.1
  | ok r =>
    rw [hrun] at hrepeats
    exact ⟨hrepeats.1, hrepeats.2.1⟩

/-- More may be known of what a rule yields. -/
theorem Follows.gives (h : Follows v R g p) (hp : p.Yields Q) : Follows v Q g p := by
  intro s hs hcalm
  have hrepeats := h s hs hcalm
  have hmeets := hp s.state hs
  cases hrun : StateT.run p s.state with
  | error f =>
    rw [hrun] at hrepeats
    exact hrepeats
  | ok r =>
    rw [hrun] at hrepeats hmeets
    exact ⟨hmeets.1, hmeets.2, hrepeats.2.2⟩

end Guarded

namespace GuardedParse

open Guarded Parse

/-- What stands for an expression that was not made. -/
instance : Inhabited MarkedExpr := ⟨.constant ⟨0, {}⟩ .none⟩

/-! ## Reading tokens -/

/-- The next token, which is the end of the input after a fault. -/
def peek : GuardedParse Token := do
  let s ← state
  return if ← panicking then ⟨.finish, "", {}⟩ else s.tokens.headD ⟨.finish, "", {}⟩

/-- The kind of the next token. -/
def peekKind : GuardedParse TokenKind := do
  return (← peek).kind

/-- Takes the next token. The end of the input is never used up. -/
def advance : GuardedParse Token := do
  let token ← peek
  if token.kind = .finish then return token
  else
    alter fun s => ((), { s with tokens := s.tokens.drop 1 })
    return token

/-- Whether the next token is of a kind. -/
def check (kind : TokenKind) : GuardedParse Bool := do
  return (← peek).kind = kind

/-- Takes the next token if it is of a kind. -/
def accept (kind : TokenKind) : GuardedParse Bool := do
  if ← check kind then
    let _ ← advance
    return true
  else return false

/-- Finds that a token stands where it may not. An invalid token comes with what is wrong with
it. -/
def unexpected (token : Token) : GuardedParse Unit :=
  unlessPanicking () fun s =>
    let shown := if token.kind = .finish then token.kind.name else token.value
    let message : Message := .entry .unexpectedToken [token.pos.line, token.pos.column, shown]
    if token.kind = .invalid then
      let causes := (s.state.errors.filter fun e => e.pos == token.pos).map LexError.message
      ((), causes.foldl Guard.advise ((fail (.atToken .invalidToken token message)).exec s).2)
    else (fail (.atToken .unexpectedToken token message)).exec s

/-- Takes the next token, which has to be of a kind. -/
def consume (kind : TokenKind) : GuardedParse (Option Token) := do
  if ← check kind then some <$> advance
  else
    unexpected (← peek)
    return none

/-- Makes a node. -/
def register (tag : NodeTag) (pos : Position) : GuardedParse Mark :=
  alter fun s => ((s.arena.register tag pos).1, { s with arena := (s.arena.register tag pos).2 })

/-- Repeats a step at most `n` times. -/
def iterateWithin {σ β : Type} (b : β) (step : σ → GuardedParse (Next σ β)) :
    Nat → σ → GuardedParse β
  | 0, _ => do
    unexpected (← peek)
    return b
  | n + 1, s => do
    match ← step s with
    | .again s => iterateWithin b step n s
    | .done b => return b

/-- Repeats a step until it is done. -/
def iterate {σ β : Type} (b : β) (step : σ → GuardedParse (Next σ β)) (s : σ) :
    GuardedParse β := do
  iterateWithin b step ((← state).tokens.length + 1) s

/-! ## The grammar -/

/-- Finds that an expression is nested too deeply. -/
def tooDeep : GuardedParse MarkedExpr := do
  fail (.placed .unexpectedToken (← peek) .nestingTooDeep)
  return default

/-- Expressions with commas between them; a comma makes a tuple. -/
def exprList (expr : GuardedParse MarkedExpr) : GuardedParse MarkedExpr := do
  let first ← peek
  let head ← expr
  ifCalm default do
    if ← check .comma then
      let elts ← iterate [] (fun (elts : List MarkedExpr) => do
        if ← accept .comma then
          if startsExpr (← peekKind) then
            let e ← expr
            ifCalm (.done []) (return .again (e :: elts))
          else return .done elts
        else return .done elts) [head]
      ifCalm default do
        return .tuple (← register .tuple first.pos) elts.reverse .load
    else return head

/-- Takes an operator, if there is one. -/
def operator? : GuardedParse (Option Infix) := do
  match ← peekKind with
  | .binary op =>
    let _ ← advance
    return some (.binary op)
  | .keyword .and =>
    let _ ← advance
    return some (.connective .and)
  | .keyword .or =>
    let _ ← advance
    return some (.connective .or)
  | .compare op =>
    let _ ← advance
    return some (.comparison op)
  | .keyword .in =>
    let _ ← advance
    return some (.comparison .isIn)
  | .keyword .is =>
    let _ ← advance
    if ← accept (.keyword .not) then return some (.comparison .isNot)
    else return some (.comparison .is)
  | .keyword .not =>
    let _ ← advance
    ifSome (consume (.keyword .in)) (return none) fun _ => return some (.comparison .notIn)
  | _ => return none

/-- Folds an operator and its right operand into what stands to its left. -/
def fold (pos : Position) (left : MarkedExpr) (folded : Bool) (right : MarkedExpr) :
    Infix → GuardedParse MarkedExpr
  | .binary op => return .binOp (← register .binOp pos) left op right
  | .connective op => do
    match left, folded with
    | .boolOp m o values, true =>
      if o = op then return .boolOp m o (values ++ [right])
      else return .boolOp (← register .boolOp pos) op [left, right]
    | _, _ => return .boolOp (← register .boolOp pos) op [left, right]
  | .comparison op => do
    match left, folded with
    | .compare m l rest, true => return .compare m l (rest ++ [(op, right)])
    | _, _ => return .compare (← register .compare pos) left [(op, right)]

/-- Folds operators and operands from left to right. -/
def operators (operand : GuardedParse MarkedExpr) (pos : Position) (left : MarkedExpr) :
    GuardedParse MarkedExpr := do
  let e ← iterate default (fun (left, folded) => ifCalm (.done default) do
    match ← operator? with
    | some op =>
      let right ← operand
      return .again (← fold pos left folded right op, true)
    | none => return .done left) (left, false)
  ifCalm default (return e)

/-- A parameter by its name. -/
def parameter : GuardedParse (Option (Param Mark)) :=
  ifSome (consume .identifier) (return none) fun name => do
    return some ⟨← register .arg name.pos, name.value⟩

/-- Asks for another parameter after a comma. -/
def afterParameter (s : Signature Mark MarkedExpr) :
    GuardedParse (Next (Signature Mark MarkedExpr) (Signature Mark MarkedExpr)) := do
  if ← accept .comma then return .again s else return .done s

/-- The next parameter of a function, which starts at a token. -/
def nextParameter (expr : GuardedParse MarkedExpr) (token : Token)
    (s : Signature Mark MarkedExpr) :
    GuardedParse (Next (Signature Mark MarkedExpr) (Signature Mark MarkedExpr)) :=
  match token.kind, s.vararg, s.kwarg with
  | .binary .mult, none, none => do
    let _ ← advance
    ifSome parameter (return .done s) fun p => afterParameter { s with vararg := some p }
  | .binary .pow, _, none => do
    let _ ← advance
    ifSome parameter (return .done s) fun p => afterParameter { s with kwarg := some p }
  | .identifier, none, none =>
    ifSome parameter (return .done s) fun p => do
      let s := { s with params := s.params ++ [p] }
      if ← accept .assign then
        let default ← expr
        afterParameter { s with defaults := s.defaults ++ [default] }
      else if s.defaults.isEmpty then afterParameter s
      else
        fail (.placed .argumentOrder token .defaultOrder)
        return .done s
  | _, _, _ => do
    unexpected token
    return .done s

/-- The parameters of a function, up to a token that is not taken. -/
def parameters (expr : GuardedParse MarkedExpr) (stop : TokenKind) :
    GuardedParse (Signature Mark MarkedExpr) :=
  iterate {} (fun (s : Signature Mark MarkedExpr) => ifCalm (.done s) do
    if ← check stop then return .done s
    else nextParameter expr (← peek) s) {}

/-- An anonymous function. -/
def lambda (expr : GuardedParse MarkedExpr) : GuardedParse MarkedExpr := do
  let word ← advance
  let signature ← parameters expr .colon
  ifSome (consume .colon) (return default) fun _ => do
    let body ← expr
    ifCalm default do
      return .lambda (← register .lambda word.pos) signature body

/-- Finds that a literal has no value. -/
def badLiteral (token : Token) : GuardedParse MarkedExpr := do
  fail (.atToken .invalidLiteral token
    (.entry .invalidLiteral [token.pos.line, token.pos.column, token.value]))
  return default

/-- Finds that a field of an f-string is ill-formed. -/
def badField (token : Token) (field : List Char) : GuardedParse Unit :=
  fail (.atToken .invalidLiteral token
    (.entry .badFString [token.pos.line, token.pos.column, .text (Text.ofChars field)]))

/-- The expression of a field, which may end in a newline. -/
def fieldList (expr : GuardedParse MarkedExpr) : GuardedParse MarkedExpr := do
  let e ← exprList expr
  if ← accept .newLine then
    let _ ← accept .indentation
    return e
  else return e

/-- The expression of a field, as it is read by a parser of its own, and whether there is something
wrong with it. -/
def wholeField (expr : GuardedParse MarkedExpr) : GuardedParse (MarkedExpr × Bool) := do
  let e ← fieldList expr
  let panicking ← panicking
  let ended ← check .finish
  return (e, panicking || !ended)

/-- Reads the expression of a field. The parser that reads it makes its nodes in the same arena, but
it has a flag of its own, and it writes to no log. -/
def fieldExpr (expr : GuardedParse MarkedExpr) (token : Token) (text field : List Char) :
    GuardedParse (Option MarkedExpr) := do
  let s ← state
  let own : Guard ParseState := { state := start (Text.ofChars text) s.arena, log := .nop }
  let ((e, wrong), own) := (wholeField expr).exec own
  put { s with arena := own.state.arena }
  if wrong then
    badField token field
    return none
  else return some e

/-- The literal part collected so far, in reverse, as a constant. -/
def literalPart (token : Token) (literal : List Char) : GuardedParse (List MarkedExpr) := do
  if literal.isEmpty then return []
  else return [.constant (← register .constant token.pos) (.str (String.ofList literal.reverse))]

/-- Joins the parts of an f-string by addition; without any part it is the empty string. -/
def joinParts (token : Token) : List MarkedExpr → GuardedParse MarkedExpr
  | [] => return .constant (← register .constant token.pos) (.str "")
  | part :: parts => parts.foldlM (fun left right => do
      return .binOp (← register .binOp token.pos) left .add right) part

/-- The parts of the inside of an f-string, of at most `n` characters. -/
def parts (expr : GuardedParse MarkedExpr) (token : Token) :
    Nat → List Char → List Char → GuardedParse (Option (List MarkedExpr))
  | 0, literal, _ => some <$> literalPart token literal
  | n + 1, literal, cs =>
    match FString.next? cs with
    | none => some <$> literalPart token literal
    | some .stray => do
      badField token cs
      return none
    | some (.literal c rest) => parts expr token n (c :: literal) rest
    | some (.field inside rest) => do
      let before ← literalPart token literal
      match FString.Field.ofChars? inside with
      | none => do
        badField token inside
        return none
      | some field =>
        ifSome (fieldExpr expr token field.expr inside) (return none) fun value => do
          let finish (spec : Option MarkedExpr) : GuardedParse (Option (List MarkedExpr)) := do
            let mark ← register .formattedValue token.pos
            ifSome (parts expr token n [] rest) (return none) fun after =>
              return some (before ++ .formatted mark value field.conversion spec :: after)
          match field.spec with
          | none => finish none
          | some spec => ifSome (parts expr token n [] spec) (return none) fun specParts => do
            finish (some (← joinParts token specParts))

/-- An f-string. -/
def fstring (expr : GuardedParse MarkedExpr) (token : Token) : GuardedParse MarkedExpr :=
  ifSome (parts expr token (token.value.toList.length + 1) [] token.value.toList) (return default)
    (joinParts token)

/-- Expressions with commas between them up to a closing bracket, which is not taken; a comma may
stand before it. -/
def elements (expr : GuardedParse MarkedExpr) (close : Bracket) : GuardedParse (List MarkedExpr) :=
  iterate [] (fun (elts : List MarkedExpr) => do
    if ← check (.closing close) then return .done elts
    else
      let e ← expr
      ifCalm (.done []) do
        if ← accept .comma then return .again (elts ++ [e]) else return .done (elts ++ [e])) []

/-- An expression in parentheses, or a tuple. -/
def paren (expr : GuardedParse MarkedExpr) : GuardedParse MarkedExpr := do
  let bracket ← advance
  if ← accept (.closing .paren) then
    return .tuple (← register .tuple bracket.pos) [] .load
  else
    let first ← expr
    ifCalm default do
      if ← accept .comma then
        let rest ← elements expr .paren
        ifSome (consume (.closing .paren)) (return default) fun _ => do
          return .tuple (← register .tuple bracket.pos) (first :: rest) .load
      else ifSome (consume (.closing .paren)) (return default) fun _ => return first

/-- A list. -/
def listDisplay (expr : GuardedParse MarkedExpr) : GuardedParse MarkedExpr := do
  let bracket ← advance
  let elts ← elements expr .square
  ifSome (consume (.closing .square)) (return default) fun _ => do
    return .list (← register .list bracket.pos) elts .load

/-- A dictionary. -/
def dictDisplay (expr : GuardedParse MarkedExpr) : GuardedParse MarkedExpr := do
  let bracket ← advance
  let items ← iterate [] (fun (items : List (MarkedExpr × MarkedExpr)) => do
    if ← check (.closing .brace) then return .done items
    else
      let key ← expr
      ifSome (consume .colon) (return .done []) fun _ => do
        let value ← expr
        ifCalm (.done []) do
          let items := items ++ [(key, value)]
          if ← accept .comma then return .again items else return .done items) []
  ifSome (consume (.closing .brace)) (return default) fun _ => do
    return .dict (← register .dict bracket.pos) items

/-- A constant at a token. -/
def constantAt (token : Token) (value : Literal) : GuardedParse MarkedExpr := do
  return .constant (← register .constant token.pos) value

/-- String literals that stand side by side, joined. -/
def adjacentStrings (first : String) : GuardedParse String :=
  iterate "" (fun (s : String) => do
    if ← check .string then
      let token ← advance
      return .again (s ++ token.value)
    else return .done s) first

/-- A name, a literal, or something in brackets. -/
def atom (expr : GuardedParse MarkedExpr) : GuardedParse MarkedExpr := do
  let token ← peek
  match token.kind with
  | .identifier =>
    let _ ← advance
    return .name (← register .name token.pos) token.value .load
  | .integer =>
    let _ ← advance
    match integer? token.value with
    | some n => constantAt token (.int n)
    | none => badLiteral token
  | .float =>
    let _ ← advance
    match Binary64.ofDecimal? token.value.toList with
    | some x => constantAt token (.float x)
    | none => badLiteral token
  | .string =>
    let _ ← advance
    let s ← adjacentStrings token.value
    constantAt token (.str s)
  | .fstring =>
    let _ ← advance
    fstring expr token
  | .keyword .true =>
    let _ ← advance
    constantAt token (.bool true)
  | .keyword .false =>
    let _ ← advance
    constantAt token (.bool false)
  | .keyword .none =>
    let _ ← advance
    constantAt token .none
  | .opening .paren => paren expr
  | .opening .square => listDisplay expr
  | .opening .brace => dictDisplay expr
  | _ =>
    unexpected token
    return default

/-- An expression, if the next token can start one. -/
def expr? (expr : GuardedParse MarkedExpr) : GuardedParse (Option MarkedExpr) := do
  if startsExpr (← peekKind) then return some (← expr) else return none

/-- What follows the first expression of a slice. -/
def sliceRest (expr : GuardedParse MarkedExpr) (token : Token) (lower : Option MarkedExpr) :
    GuardedParse MarkedExpr :=
  ifSome (consume .colon) (return default) fun _ => do
    let upper ← expr? expr
    let step ← if ← accept .colon then expr? expr else pure none
    return .slice (← register .slice token.pos) lower upper step

/-- One part of a subscript: an expression, or a slice. -/
def sliceItem (expr : GuardedParse MarkedExpr) : GuardedParse MarkedExpr := do
  let token ← peek
  if ← check .colon then sliceRest expr token none
  else
    let lower ← expr
    ifCalm default do
      if ← check .colon then sliceRest expr token (some lower) else return lower

/-- The subscript of a value by several parts. They make a tuple, in which no slice may stand. -/
def severalParts (value : MarkedExpr) (items : List MarkedExpr) (commas : List Token) :
    GuardedParse MarkedExpr := do
  match items.findIdx? isSlice with
  | some i =>
    unexpected (commas.getD (i - 1) ⟨.comma, ",", {}⟩)
    return default
  | none =>
    let pos := (items.head?.map fun e => e.mark.pos).getD value.mark.pos
    let tuple := .tuple (← register .tuple pos) items .load
    let part := .index (← register .index pos) tuple
    return .subscript (← register .subscript value.mark.pos) value part .load

/-- The subscript of a value by the parts that were read. -/
def subscriptOf (value : MarkedExpr) (items : List MarkedExpr) (commas : List Token) :
    GuardedParse MarkedExpr :=
  match items, commas with
  | [item], [] => do
    if isSlice item then
      return .subscript (← register .subscript value.mark.pos) value item .load
    else
      let part := .index (← register .index item.mark.pos) item
      return .subscript (← register .subscript value.mark.pos) value part .load
  | items, commas => severalParts value items commas

/-- A subscript of a value. -/
def subscript (expr : GuardedParse MarkedExpr) (value : MarkedExpr) : GuardedParse MarkedExpr := do
  let _ ← advance
  let (items, commas) ← iterate ([], [])
    (fun ((items, commas) : List MarkedExpr × List Token) => do
      let item ← sliceItem expr
      ifCalm (.done ([], [])) do
        let items := items ++ [item]
        if ← check .comma then
          let commas := commas ++ [← advance]
          if ← check (.closing .square) then return .done (items, commas)
          else return .again (items, commas)
        else return .done (items, commas)) ([], [])
  ifCalm default <| ifSome (consume (.closing .square)) (return default) fun _ =>
    subscriptOf value items commas

/-- One argument of a call: a mapping after `**`, a keyword argument, or a positional one, which may
not follow the other two. -/
def argument (expr : GuardedParse MarkedExpr) (a : Arguments) :
    GuardedParse (Option Arguments) := do
  let token ← peek
  if ← accept (.binary .pow) then
    let value ← expr
    let mark ← register .keyword token.pos
    return some { a with keywords := a.keywords ++ [⟨mark, none, value⟩] }
  else
    let arg ← expr
    ifCalm none do
      if ← check .assign then
        match arg with
        | .name _ id _ =>
          let _ ← advance
          let value ← expr
          let mark ← register .keyword token.pos
          return some { a with keywords := a.keywords ++ [⟨mark, some id, value⟩] }
        | _ =>
          unexpected (← peek)
          return none
      else if a.keywords.isEmpty then return some { a with args := a.args ++ [arg] }
      else
        fail (.placed .argumentOrder token .positionalAfterKw)
        return none

/-- A call of a function. -/
def call (expr : GuardedParse MarkedExpr) (func : MarkedExpr) : GuardedParse MarkedExpr := do
  let _ ← advance
  let a ← iterate {} (fun (a : Arguments) => do
    if ← check (.closing .paren) then return .done a
    else ifCalm (.done a) <| ifSome (argument expr a) (return .done {}) fun a => do
      if ← accept .comma then return .again a else return .done a) {}
  ifSome (consume (.closing .paren)) (return default) fun _ => do
    return .call (← register .call func.mark.pos) func a.args a.keywords

/-- Attributes, subscripts and calls after an operand. -/
def suffixes (expr : GuardedParse MarkedExpr) (operand : MarkedExpr) : GuardedParse MarkedExpr :=
  iterate default (fun (e : MarkedExpr) => do
    match ← peekKind with
    | .dot =>
      let _ ← advance
      ifSome (consume .identifier) (return .done default) fun name => do
        return .again (.attr (← register .attr e.mark.pos) e name.value .load)
    | .opening .square =>
      let e ← subscript expr e
      ifCalm (.done default) (return .again e)
    | .opening .paren =>
      let e ← call expr e
      ifCalm (.done default) (return .again e)
    | _ => return .done e) operand

mutual

/-- An expression, nested at most as deep as given. -/
def expression : Nat → GuardedParse MarkedExpr
  | 0 => tooDeep
  | depth + 1 => do
    let first ← peek
    let left ← operand depth
    operators (operand depth) first.pos left

/-- An operand: a unary operator with its operand, an anonymous function, or an atom with its
suffixes. -/
def operand : Nat → GuardedParse MarkedExpr
  | 0 => tooDeep
  | depth + 1 => do
    let token ← peek
    match unary? token.kind with
    | some op =>
      let _ ← advance
      let e ← operand depth
      ifCalm default do
        return .unaryOp (← register .unaryOp token.pos) op e
    | none =>
      if token.kind = .keyword .lambda then lambda (expression depth)
      else
        let e ← atom (expression depth)
        ifCalm default (suffixes (expression depth) e)

end

/-! ## Reading tokens follows -/

theorem follows_peek : Follows id Token.Proper peek Parse.peek := by
  refine follows_of_run (fun t => (t.next, t)) (fun _ => rfl) (fun s hs => ?_)
    fun t ht => yields_peek t ht
  have hexec : peek.exec s = (if s.panicking then ⟨.finish, "", {}⟩ else s.state.next, s) := rfl
  rw [hexec, if_neg (Bool.eq_false_iff.mp hs)]
  rfl

/-- Nothing follows from what a token is like. -/
theorem follows_next : Matches id peek Parse.peek :=
  follows_peek.imp fun _ _ => trivial

theorem follows_peekKind : Matches id peekKind Parse.peekKind :=
  follows_next.bind fun _ _ => follows_pure trivial

theorem follows_advance : Follows id Token.Proper advance Parse.advance := by
  refine follows_peek.bind fun token htoken => .ite (follows_pure htoken) ?_
  refine (follows_alter (Q := fun _ => True) _ fun t ht => ⟨fun x hx => ?_, trivial⟩).bind
    fun _ _ => follows_pure htoken
  exact ht x (List.mem_of_mem_drop hx)

theorem follows_taken : Matches id advance Parse.advance :=
  follows_advance.imp fun _ _ => trivial

theorem follows_check (kind : TokenKind) :
    Matches id (check kind) (Parse.check kind) :=
  follows_next.bind fun _ _ => follows_pure trivial

theorem follows_accept (kind : TokenKind) :
    Matches id (accept kind) (Parse.accept kind) :=
  (follows_check kind).bind fun _ _ =>
    .ite (follows_taken.bind fun _ _ => follows_pure trivial) (follows_pure trivial)

theorem raises_unexpected {α : Type} (token : Token) :
    Raises (unexpected token) (Parse.unexpected token : Parse α) := by
  intro s ht hs
  have hplaced := yields_unexpected (Q := fun _ : α => True) token s.state ht
  have hexec : (unexpected token).exec s = _ := exec_unlessPanicking hs
  rw [hexec]
  unfold Parse.unexpected at hplaced ⊢
  by_cases hkind : token.kind = .invalid
  · simp only [if_pos hkind] at hplaced ⊢
    refine ⟨_, rfl, hplaced, ?_⟩
    -- The messages are put in front of the advice one by one, so they stand in the other order.
    rw [List.map_reverse, exec_fail _ hs]
    exact Guard.verdict_advised _ _ s
  · simp only [if_neg hkind] at hplaced ⊢
    refine ⟨_, rfl, hplaced, ?_⟩
    rw [exec_fail _ hs]
    rfl

theorem follows_unexpected {α β : Type} {v : α → β} {Q : α → Prop} (token : Token) (b : β) :
    Follows v Q (unexpected token >>= fun _ => pure b) (Parse.unexpected token) :=
  (raises_unexpected token).andThen _

/-- The token that was asked for is of the kind asked for. -/
theorem follows_consume (kind : TokenKind) :
    Follows some (fun t => t.kind = kind ∧ t.Proper) (consume kind) (expect kind) := by
  refine Follows.gives (R := fun _ => True) ?_ (yields_expect kind)
  exact (follows_check kind).bind fun _ _ =>
    .ite (follows_taken.map some) (follows_next.bind fun _ _ => follows_unexpected _ _)

theorem follows_expected (kind : TokenKind) :
    Matches some (consume kind) (expect kind) :=
  (follows_consume kind).imp fun _ _ => trivial

/-- The identifier that was asked for is one. -/
theorem follows_identifier :
    Follows some (fun t => IsIdentifier t.value) (consume .identifier) (expect .identifier) :=
  (follows_consume _).imp fun _ h => h.2 h.1

section Making

variable {α β : Type} {v : α → β} {Q : α → Prop} (tag : NodeTag) (pos : Position)

theorem follows_register :
    Matches id (register tag pos) (Parse.register tag pos) :=
  follows_alter _ fun _ ht => ⟨ht, trivial⟩

/-- A rule that makes a node. -/
theorem follows_made {f : Mark → α} (h : ∀ m, Q (f m)) :
    Follows v Q (do return v (f (← register tag pos))) (do return f (← Parse.register tag pos)) :=
  (follows_register tag pos).bind fun m _ => follows_pure (h m)

end Making

section Loops

variable {σ α β : Type} {step : σ → GuardedParse (Next σ β)} {step' : σ → Parse (Next σ α)}
  {I : σ → Prop} {v : α → β} {Q : α → Prop}

/-- What a step of a loop asks for, as its value is seen. -/
def viewNext (v : α → β) : Next σ α → Next σ β
  | .again s => .again s
  | .done a => .done (v a)

theorem follows_again {s : σ} (hs : I s) : Follows (viewNext v) (Next.Holds I Q)
    (pure (.again s) : GuardedParse (Next σ β)) (pure (.again s)) :=
  follows_pure (v := viewNext v) (Q := Next.Holds I Q) (a := .again s) hs

theorem follows_done {a : α} (ha : Q a) : Follows (viewNext v) (Next.Holds I Q)
    (pure (.done (v a)) : GuardedParse (Next σ β)) (pure (.done a)) :=
  follows_pure (v := viewNext v) (Q := Next.Holds I Q) (a := .done a) ha

theorem follows_iterateWithin
    (h : ∀ s, I s → Follows (viewNext v) (Next.Holds I Q) (step s) (step' s)) (b : β) (n : Nat)
    {s : σ} (hs : I s) :
      Follows v Q (iterateWithin b step n s) (Parse.iterateWithin step' n s) := by
  induction n generalizing s with
  -- both loops run out of the same bound, and find the same token where it ends
  | zero => exact follows_next.bind fun token _ => follows_unexpected token b
  | succ n ih =>
    refine (h s hs).bind_view fun next hnext => ?_
    cases next with
    | again s => exact ih hnext
    | done a => exact follows_pure hnext

/-- A rule that repeats a step keeps what each step keeps. -/
theorem follows_iterate
    (h : ∀ s, I s → Follows (viewNext v) (Next.Holds I Q) (step s) (step' s)) (b : β)
    {s : σ} (hs : I s) : Follows v Q (iterate b step s) (Parse.iterate step' s) :=
  follows_state.bind fun t _ => follows_iterateWithin h b (t.tokens.length + 1) hs

end Loops

/-- The parser of a field writes nothing to the log, whatever it does: what is written is that the
field is ill-formed, if it gives no expression. -/
theorem verdict_fieldExpr (expr : GuardedParse MarkedExpr) (token : Token)
    (text field : List Char) (s : Guard ParseState) :
    ((fieldExpr expr token text field).exec s).2.verdict =
      if ((fieldExpr expr token text field).exec s).1.isSome then s.verdict
      else ((badField token field).exec s).2.verdict := by
  let own : Guard ParseState := { state := start (Text.ofChars text) s.state.arena, log := .nop }
  let t : ParseState := { s.state with arena := ((wholeField expr).exec own).2.state.arena }
  have hexec : (fieldExpr expr token text field).exec s =
      (if ((wholeField expr).exec own).1.2 then (badField token field >>= fun _ => pure none)
        else pure (some ((wholeField expr).exec own).1.1) : GuardedParse (Option MarkedExpr)).exec
        { s with state := t } := rfl
  -- of the run inside, only the arena and whether something was wrong are used
  rw [hexec]
  cases ((wholeField expr).exec own).1.2 with
  | false => rfl
  | true =>
    have hverdict (s : Guard ParseState) := verdict_fail (.atToken .invalidLiteral token
      (.entry .badFString [token.pos.line, token.pos.column, .text (Text.ofChars field)])) s
    exact (hverdict { s with state := t }).trans (hverdict s).symm

end GuardedParse

end Toolchain

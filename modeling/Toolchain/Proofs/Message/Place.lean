import Mathlib.Tactic.Common
import Toolchain.Parser.Basic

/-!
# Messages that tell a place

An entry of the catalogue tells a place if its template writes it in every language: the directives
of the line and the column stand side by side, in the words of the language. A message tells where
something is if its values are the line and the column there, at these directives.

## Main definitions

* `Language.place`, `Language.line`: how a place is written, and how a line is
* `MessageId.writes`: the template of an entry writes something after a number of values
* `Message.Tells`: a message tells some values in given words

## Main results

* `Message.text_of_tells`: **what a message tells stands in its text**, in every language
-/

namespace Toolchain

namespace Template

/-! ## Filling a template part by part -/

/-- Whether a part of a template takes a value. -/
def Piece.isDirective : Piece → Bool
  | .directive .. => true
  | .plain _ => false

/-- Some parts take as many values as given, one after the other. -/
def Takes (n : Nat) (ps : List Piece) : Prop :=
  ps.countP Piece.isDirective = n ∧ ∀ p ∈ ps, p.isIndexed = false

instance (n : Nat) (ps : List Piece) : Decidable (Takes n ps) :=
  inferInstanceAs (Decidable (_ ∧ _))

/-- The parts of a template are read off from the characters that write it. -/
theorem ofString_ofList (cs : List Char) : ofString (String.ofList cs) = ⟨parse cs⟩ := by
  rw [ofString, String.toList_ofList]

variable {ps : List Piece} {n : Nat}

/-- A part is filled without regard to those that follow. -/
theorem exists_fillFrom_cons (values : List Value) (next : Nat) (p : Piece) :
    ∃ t next', ∀ ps, fillFrom values next (p :: ps) =
      (t :: (fillFrom values next' ps).1, (fillFrom values next' ps).2) := by
  cases p with
  | plain c => exact ⟨Text.ofChars [c], next, fun ps => rfl⟩
  | directive index verb =>
    cases index with
    | none =>
      cases hv : values[next]? with
      | some v =>
        refine ⟨directed verb v, next + 1, fun ps => ?_⟩
        simp only [fillFrom, hv]
      | none =>
        refine ⟨bad verb "MISSING", next, fun ps => ?_⟩
        simp only [fillFrom, hv]
    | some number =>
      cases hv : if number = 0 then none else values[number - 1]? with
      | some v =>
        refine ⟨directed verb v, number, fun ps => ?_⟩
        simp only [fillFrom, hv]
      | none =>
        refine ⟨bad verb "BADINDEX", next, fun ps => ?_⟩
        simp only [fillFrom, hv]

theorem fillFrom_append (values : List Value) (next : Nat) (ps qs : List Piece) :
    fillFrom values next (ps ++ qs) =
      ((fillFrom values next ps).1 ++ (fillFrom values (fillFrom values next ps).2 qs).1,
        (fillFrom values (fillFrom values next ps).2 qs).2) := by
  induction ps generalizing next with
  | nil => rfl
  | cons p ps ih =>
    obtain ⟨t, next', h⟩ := exists_fillFrom_cons values next p
    rw [List.cons_append, h, h, ih]
    rfl

/-- Parts that name no value take the next ones, whatever stands before and after these. -/
theorem fillFrom_of_takes (before values after : List Value) (k : Nat) (hps : Takes n ps)
    (hvalues : k + n ≤ values.length) :
    (fillFrom values k ps).2 = k + n ∧
      fillFrom (before ++ values ++ after) (before.length + k) ps =
        ((fillFrom values k ps).1, before.length + (k + n)) := by
  induction ps generalizing k n with
  | nil =>
    obtain rfl : 0 = n := hps.1
    exact ⟨rfl, rfl⟩
  | cons p ps ih =>
    obtain ⟨hcount, hplain⟩ := hps
    rw [List.forall_mem_cons] at hplain
    cases p with
    | plain c =>
      obtain ⟨hlast, heq⟩ := ih k ⟨hcount, hplain.2⟩ hvalues
      refine ⟨hlast, ?_⟩
      simp only [fillFrom, heq]
    | directive index verb =>
      obtain rfl : index = none := by
        cases index with
        | none => rfl
        | some number => cases hplain.1
      obtain rfl : ps.countP Piece.isDirective + 1 = n := by
        rwa [List.countP_cons_of_pos rfl] at hcount
      obtain ⟨hlast, heq⟩ := ih (k + 1) ⟨rfl, hplain.2⟩ (by omega)
      have hk : k < values.length := by omega
      have hvalue : (before ++ values ++ after)[before.length + k]? = some values[k] := by
        rw [List.append_assoc, List.getElem?_append_right (Nat.le_add_right _ _),
          Nat.add_sub_cancel_left, List.getElem?_append_left hk, List.getElem?_eq_getElem hk]
      have hsucc : before.length + k + 1 = before.length + (k + 1) := Nat.add_assoc _ _ _
      constructor
      · simp only [fillFrom, List.getElem?_eq_getElem hk, hlast]
        omega
      · simp only [fillFrom, hvalue, List.getElem?_eq_getElem hk, hsucc, heq]
        congr 2
        omega

theorem fill_of_ne_nil (t : Template) {values : List Value} (hvalues : values ≠ []) :
    t.fill values = (fillFrom values 0 t.pieces).1.flatten ++
      t.surplus values (fillFrom values 0 t.pieces).2 := by
  have hsome : values.isEmpty = false := by simpa using hvalues
  unfold fill
  rw [hsome]
  rfl

/-- A template that takes all values is filled with nothing left over. -/
theorem fill_of_takes {t : Template} {values : List Value} (ht : Takes values.length t.pieces)
    (hvalues : values ≠ []) : t.fill values = (fillFrom values 0 t.pieces).1.flatten := by
  have hlast := (fillFrom_of_takes [] values [] 0 ht (by omega)).1
  rw [fill_of_ne_nil t hvalues, hlast, Nat.zero_add, surplus, List.drop_length]
  simp

end Template

open Template

/-! ## Telling a place -/

/-- How a line and a column are written. -/
def Language.place : Language → Template
  | .english => .ofString "on line %d, column %d"
  | .chinese => .ofString "第 %d 行第 %d 列"

/-- How a line is written. -/
def Language.line : Language → Template
  | .english => .ofString "on line %d"
  | .chinese => .ofString "第 %d 行"

/-- Whether some parts of a template begin with others, after parts that take `n` values. -/
def Template.writes (part : List Piece) : Nat → List Piece → Bool
  | _, [] => false
  | n, p :: ps =>
    (n == 0 && part.isPrefixOf (p :: ps)) ||
      match p, n with
      | .plain _, n => writes part n ps
      | .directive none _, n + 1 => writes part n ps
      | .directive _ _, _ => false

theorem Template.exists_of_writes {part ps : List Piece} {n : Nat} (h : writes part n ps = true) :
    ∃ first last, ps = first ++ (part ++ last) ∧ Takes n first := by
  induction ps generalizing n with
  | nil => cases h
  | cons p ps ih =>
    unfold writes at h
    rw [Bool.or_eq_true, Bool.and_eq_true] at h
    rcases h with ⟨hn, hprefix⟩ | h
    · obtain rfl : n = 0 := by simpa using hn
      obtain ⟨last, hlast⟩ := List.isPrefixOf_iff_prefix.mp hprefix
      exact ⟨[], last, hlast.symm, rfl, by simp⟩
    · cases p with
      | plain c =>
        obtain ⟨first, last, rfl, hcount, hplain⟩ := ih h
        exact ⟨.plain c :: first, last, rfl, hcount, List.forall_mem_cons.mpr ⟨rfl, hplain⟩⟩
      | directive index verb =>
        cases index with
        | some number => cases n <;> cases h
        | none =>
          cases n with
          | zero => cases h
          | succ n =>
            obtain ⟨first, last, rfl, hcount, hplain⟩ := ih h
            refine ⟨.directive none verb :: first, last, rfl, ?_, ?_⟩
            · rw [List.countP_cons_of_pos rfl, hcount]
            · exact List.forall_mem_cons.mpr ⟨rfl, hplain⟩

/-- Whether the template of an entry writes something after `n` values, in each language. -/
def MessageId.writes (id : MessageId) (part : Language → Template) (n : Nat) : Bool :=
  [Language.english, .chinese].all fun language =>
    Template.writes (part language).pieces n (id.template language).pieces

/-- A message tells some values in given words. -/
def Message.Tells (part : Language → Template) (values : List Value) (m : Message) : Prop :=
  ∃ id before after, m = .entry id (before ++ values ++ after) ∧
    id.writes part before.length = true

/-- **What a message tells stands in its text.** -/
theorem Message.text_of_tells {part : Language → Template} {values : List Value} {m : Message}
    (h : m.Tells part values) (language : Language) (hvalues : values ≠ [])
    (hpart : Takes values.length (part language).pieces) :
    ∃ before after, m.text language = before ++ (part language).fill values ++ after := by
  obtain ⟨id, before, after, rfl, hwrites⟩ := h
  have hlanguage : language ∈ [Language.english, .chinese] := by cases language <;> simp
  obtain ⟨first, last, hpieces, hbefore⟩ :=
    exists_of_writes (List.all_eq_true.mp hwrites language hlanguage)
  have hfirst := fillFrom_of_takes [] before (values ++ after) 0 hbefore (by omega)
  have hsecond := fillFrom_of_takes before values after 0 hpart (by omega)
  have hsome : before ++ values ++ after ≠ [] := by simp [hvalues]
  simp only [List.nil_append, ← List.append_assoc, List.length_nil, Nat.zero_add] at hfirst
  simp only [Nat.zero_add, Nat.add_zero] at hsecond
  refine ⟨(fillFrom before 0 first).1.flatten,
    (fillFrom (before ++ values ++ after) (before.length + values.length) last).1.flatten ++
      (id.template language).surplus (before ++ values ++ after)
        (fillFrom (before ++ values ++ after) (before.length + values.length) last).2, ?_⟩
  show (id.template language).fill (before ++ values ++ after) = _
  rw [fill_of_ne_nil _ hsome, fill_of_takes hpart hvalues, hpieces]
  simp only [fillFrom_append, hfirst.2, hsecond.2, List.flatten_append]
  simp only [List.append_assoc]

theorem takes_place (language : Language) : Takes 2 language.place.pieces := by
  cases language <;> decide +kernel

theorem takes_line (language : Language) : Takes 1 language.line.pieces := by
  cases language <;> decide +kernel

example : Language.english.place.fill [.int 3, .int 7] = "on line 3, column 7" := by decide +kernel

/-- The entries with which the parser tells a place, each with the number of values before it. -/
def MessageId.placing : List (MessageId × Nat) :=
  [(.unexpectedToken, 0), (.unexpectedIndent, 0), (.unindentMismatch, 0), (.missingBody, 0),
    (.elifWithoutIf, 0), (.elseWithoutIf, 0), (.exceptWithoutTry, 0), (.finallyWithoutTry, 0),
    (.tryWithoutHandler, 0), (.clauseOrder, 1), (.invalidTarget, 1), (.cannotDelete, 1),
    (.invalidLiteral, 0), (.badFString, 0), (.defaultOrder, 0), (.positionalAfterKw, 0),
    (.nestingTooDeep, 0)]

/-- The entries with which the compiler tells a line, each with the number of values before it. -/
def MessageId.lining : List (MessageId × Nat) :=
  [(.breakOutsideLoop, 0), (.continueOutsideLoop, 0), (.operandOverflow, 3), (.tooManyArguments, 0),
    (.unpackArity, 2)]

theorem MessageId.writes_of_placing : ∀ p ∈ placing, p.1.writes Language.place p.2 = true := by
  simp only [placing, List.forall_mem_cons]
  refine ⟨?_, ?_, ?_, ?_, ?_, ?_, ?_, ?_, ?_, ?_, ?_, ?_, ?_, ?_, ?_, ?_, ?_, List.forall_mem_nil _⟩
  all_goals
    simp only [writes, MessageId.template, english, chinese, Language.place]
    -- the characters of the templates are read off before anything is computed
    repeat rw [ofString_ofList]
    decide +kernel

theorem MessageId.writes_of_lining : ∀ p ∈ lining, p.1.writes Language.line p.2 = true := by
  simp only [lining, List.forall_mem_cons]
  refine ⟨?_, ?_, ?_, ?_, ?_, List.forall_mem_nil _⟩
  all_goals
    simp only [writes, MessageId.template, english, chinese, Language.line]
    repeat rw [ofString_ofList]
    decide +kernel

/-! ## The place of a fault -/

/-- Whether a code is for what the compiler finds. -/
def ErrorCode.isOfCompiler : ErrorCode → Bool
  | loopControl | operandRange | unpackCount | unsupportedNode => true
  | _ => false

namespace Fault

/-- A fault that the parser finds, with a message that tells its line and its column. -/
structure Placed (f : Fault) : Prop where
  code : f.code.isOfCompiler = false
  tells : f.message.Tells Language.place [.int f.pos.line, .int f.pos.column]

/-- A fault that the compiler finds, with a message that tells its line. -/
structure Lined (f : Fault) : Prop where
  code : f.code.isOfCompiler = true
  tells : f.message.Tells Language.line [.int f.pos.line]

/-- A fault at a token with a message that tells where the token is. -/
theorem placed_atToken {code : ErrorCode} (hcode : code.isOfCompiler = false) (token : Token)
    {id : MessageId} (before after : List Value) (hid : (id, before.length) ∈ MessageId.placing) :
    (atToken code token (.entry id (before ++ [.int token.pos.line, .int token.pos.column] ++
      after))).Placed :=
  ⟨hcode, id, before, after, rfl, MessageId.writes_of_placing _ hid⟩

theorem placed_placed {code : ErrorCode} (hcode : code.isOfCompiler = false) (token : Token)
    {id : MessageId} (hid : (id, 0) ∈ MessageId.placing) : (placed code token id).Placed :=
  placed_atToken hcode token [] [] hid

/-- A message may name something before it tells the place. -/
theorem placed_named {code : ErrorCode} (hcode : code.isOfCompiler = false) (token : Token)
    (name : Value) {id : MessageId} (hid : (id, 1) ∈ MessageId.placing) :
    (atToken code token (.entry id [name, token.pos.line, token.pos.column])).Placed :=
  placed_atToken hcode token [name] [] hid

/-- A fault with a message that ends with its line. -/
theorem lined_of_lining {code : ErrorCode} (hcode : code.isOfCompiler = true) {id : MessageId}
    (before : List Value) (hid : (id, before.length) ∈ MessageId.lining)
    (pos : Position) (width : Nat)
    (hints : List Message) :
    (Fault.mk code pos width (.entry id (before ++ [.int pos.line])) hints).Lined :=
  ⟨hcode, id, before, [], by rw [List.append_nil], MessageId.writes_of_lining _ hid⟩

end Fault

end Toolchain

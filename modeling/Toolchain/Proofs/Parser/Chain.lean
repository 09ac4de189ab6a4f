import Toolchain.Proofs.Parser.Folding
import Toolchain.Proofs.Token.Segment

/-!
# Chains of operands

The text of an operand is read in the same way wherever it stands: its tokens do not depend on what
stands before or behind it on the line, and in front of what does not go on with it an operand ends
where it ended alone. So a text of operands with operators between them is the fold of the operands.

## Main definitions

* `IsOperand`: a text that is an operand with a value
* `TextLink`: an operator with the text and the value of its right operand
* `chainText`: the text of an operand and of those that follow it

## Main results

* `IsOperand.segment`: the tokens of an operand on a line
* `IsOperand.readsOperand`: an operand in front of whatever does not go on with it
* `faces_chainText`: the tokens of a chain
* `parseExpression_chainText`: **a chain is parsed as the fold of its operands to the left**
-/

namespace Toolchain

open Parse Lexer

/-! ## Texts of operands -/

/-- A text that is an operand with a value, and nothing else. No lambda stands in it outside of
brackets, and it begins with the operand and does not end with a comment. -/
structure IsOperand (t : Text) (e : Expr Unit) : Prop where
  reads : ∃ r s, StateT.run (operand (maxDepth - 1)) (Parse.start t {}) = .ok (r, s) ∧
    s.next.kind = .finish ∧ r.erase = e
  lambdas : LambdasEnclosed (Parse.start t {}).faces
  begins : ∀ c ∈ t.chars.head?, isSpace c = false ∧ c ≠ '#'
  ends : ∀ x, (pieces t).getLast? = some (.token x) → x.kind ≠ .comment

/-- What the grammar sees of the tokens of a text, comments included. -/
def Text.tokenFaces (t : Text) : List Face := (pieces t).filterMap Piece.face?

/-- What the grammar sees of the tokens of a text. -/
def Text.codeFaces (t : Text) : List Face := t.tokenFaces.filter fun x => x.1 != .comment

namespace IsOperand

variable {t : Text} {e : Expr Unit}

/-- The tokens of an operand are tokens inside a statement, and comments. -/
theorem inner (h : IsOperand t e) :
    ∀ x ∈ (tokenize t).1, x.kind = .comment ∨ x.kind = .finish ∨ x.kind.isInner = true := by
  obtain ⟨r, s, hrun, hfinish, -⟩ := h.reads
  obtain ⟨before, fin, htokens, hfin, hbefore⟩ := exists_finish_of_start t {}
  obtain ⟨⟨ahead, hs⟩, taken, htaken, hinner⟩ :=
    (extends_operand _).grows.of_run htokens (by rw [hfin]; rfl) hrun
  -- nothing stands between the operand and the end
  obtain rfl : ahead = [] := by
    rw [hs, ← List.append_assoc] at htaken
    have hsplit : before = taken ++ ahead := List.append_cancel_right (htokens.symm.trans htaken)
    cases ahead with
    | nil => rfl
    | cons x ahead =>
      rw [ParseState.next, hs, List.cons_append, List.headD_cons] at hfinish
      exact absurd hfinish (hbefore x (by simp [hsplit]))
  intro x hx
  by_cases hcomment : x.kind = .comment
  · exact .inl hcomment
  · have hmem : x ∈ (Parse.start t {}).tokens := List.mem_filter.mpr ⟨hx, by simpa using hcomment⟩
    rw [htaken, hs, List.nil_append] at hmem
    rcases List.mem_append.mp hmem with hmem | hmem
    · exact .inr (.inr (hinner x hmem))
    · rw [List.mem_singleton.mp hmem]
      exact .inr (.inl hfin)

theorem closed (h : IsOperand t e) : .ending true ∉ pieces t := by
  intro hmem
  obtain ⟨x, hx, hkind⟩ := exists_newLine_of_render hmem {}
  have hx : x ∈ (tokenize t).1 := by
    rw [tokenize_eq_tokensOf, tokensOf]
    exact List.mem_append_right _ hx
  rcases h.inner x hx with h | h | h <;> rw [hkind] at h <;> cases h

theorem valid (h : IsOperand t e) (x : Lexeme) (hx : .token x ∈ pieces t) : x.kind ≠ .invalid := by
  intro hinvalid
  obtain ⟨y, hy, hkind⟩ := exists_mem_render hx {}
  have hy : y ∈ (tokenize t).1 := by
    rw [tokenize_eq_tokensOf, tokensOf]
    exact List.mem_append_right _ hy
  rw [hinvalid] at hkind
  rcases h.inner y hy with h | h | h <;> rw [hkind] at h <;> cases h

/-- An operand has a first character. -/
theorem exists_cons (h : IsOperand t e) :
    ∃ c cs, t.chars = c :: cs ∧ isSpace c = false ∧ c ≠ '#' := by
  cases hchars : t.chars with
  | nil =>
    obtain ⟨r, s, hrun, -⟩ := h.reads
    have htokens : (Parse.start t {}).tokens = [⟨.finish, "", {}⟩] := by
      show (tokenize t).1.filter _ = _
      rw [tokenize_eq_tokensOf, pieces, hchars]
      rfl
    have hfinish : (Parse.start t {}).next.kind = .finish := by
      rw [ParseState.next, htokens]
      rfl
    exact absurd hrun (stuck_operand_of_finish _ _ hfinish _ rfl _)
  | cons c cs =>
    have hbegins := h.begins c (by rw [hchars]; rfl)
    exact ⟨c, cs, rfl, hbegins⟩

/-- The tokens of an operand have the same faces wherever it stands in a line. -/
theorem segment (h : IsOperand t e) {ds : List Char} {gs : List Face} (hspace : Follows isSpace ds)
    (hds : Segment ds gs) : Segment (t.chars ++ ds) (t.tokenFaces ++ gs) := by
  intro depth bare
  obtain ⟨c, cs, hchars, hc, hcomment⟩ := h.exists_cons
  have hcuts : Cuts 0 true true t.chars (pieces t) := cuts_cut 0 0 true true t.chars
  have hanew : Cuts 0 false bare t.chars (pieces t) := by
    rw [hchars] at hcuts ⊢
    exact hcuts.anew hc hcomment false bare
  exact hanew.segment rfl h.valid h.closed h.ends hspace hds (Nat.zero_le depth)

end IsOperand

/-- The faces of a text that begins with a token and in which no line ends. -/
theorem faces_start {t : Text} {c : Char} {cs : List Char} (hchars : t.chars = c :: cs)
    (hspace : isSpace c = false) (hcomment : c ≠ '#') (hclosed : .ending true ∉ pieces t)
    (arena : Arena) : (Parse.start t arena).faces = t.codeFaces ++ [endFace] := by
  have hcuts : Cuts 0 true true t.chars (pieces t) := cuts_cut 0 0 true true t.chars
  rw [hchars] at hcuts
  have hfaces := faces_tokensOf hcuts hspace hcomment hclosed
  show ((tokenize t).1.filter fun x => x.kind != .comment).map Token.face = _
  have hfilter : ((tokenize t).1.filter fun x => x.kind != .comment).map Token.face =
      ((tokenize t).1.map Token.face).filter fun x => x.1 != .comment := by
    rw [List.filter_map]
    rfl
  rw [hfilter, tokenize_eq_tokensOf, hfaces, List.filter_append]
  rfl

namespace IsOperand

variable {t : Text} {e : Expr Unit}

theorem faces_start (h : IsOperand t e) : (Parse.start t {}).faces = t.codeFaces ++ [endFace] := by
  obtain ⟨c, cs, hchars, hc, hcomment⟩ := h.exists_cons
  exact Toolchain.faces_start hchars hc hcomment h.closed {}

theorem codeFaces_ne_nil (h : IsOperand t e) : t.codeFaces ≠ [] := by
  intro hnil
  obtain ⟨r, s, hrun, -⟩ := h.reads
  have hfinish : (Parse.start t {}).next.kind = .finish := by
    have hface := face_next (Parse.start t {})
    rw [h.faces_start, hnil] at hface
    exact congrArg Prod.fst hface
  exact stuck_operand_of_finish _ _ hfinish _ rfl _ hrun

/-- The tokens of an operand are read as the operand in front of whatever does not go on with it. -/
theorem readsOperand (h : IsOperand t e) (bad : Fault → Prop) :
    ReadsOperand bad (operand (maxDepth - 1)) t.codeFaces e := by
  intro rest hrest hcloses s hs
  obtain ⟨r, s₀, hrun, hfinish, hr⟩ := h.reads
  have hplain := run_plainOperand h.lambdas hrun
  have hside : ParseState.Beside rest (Parse.start t {}) s := by
    refine ⟨⟨t.codeFaces, h.faces_start, hs, ?_⟩, hrest⟩
    obtain ⟨ahead, heq, hahead⟩ := endsInput_start t {}
    rw [h.faces_start] at heq
    rw [List.append_cancel_right heq]
    exact hahead
  obtain ⟨r', s', hrun', hside', herase⟩ :=
    (alongside_plainOperand _ _).agrees hside rfl hplain fun _ => hcloses
  refine ⟨fun _ => ⟨r', s', hrun', ?_, ?_⟩, fun h => absurd trivial h⟩
  · exact (hside'.of_finish hfinish).2.2
  · rw [← herase, hr]

/-- What tells that a text without a lambda is an operand. -/
theorem of_run {q : Expr Unit → Bool} (hq : ∀ x, q x = true → x = e)
    (hrun : ((StateT.run (operand (maxDepth - 1)) (Parse.start t {})).toOption.any fun r =>
      r.2.next.kind == .finish && q r.1.erase) = true)
    (hlambda : ((Parse.start t {}).faces.all fun x => x.1 != .keyword .lambda) = true)
    (hbegins : (t.chars.head?.all fun c => !isSpace c && c != '#') = true)
    (hends : (t.tokenFaces.getLast?.all fun x => x.1 != .comment) = true) : IsOperand t e where
  reads := by
    obtain ⟨⟨r, s⟩, hrs, h⟩ := exists_of_any hrun
    simp only [Bool.and_eq_true, beq_iff_eq] at h
    exact ⟨r, s, hrs, h.1, hq _ h.2⟩
  lambdas := by
    intro before x after hfaces hx
    rw [hfaces] at hlambda
    simp [hx] at hlambda
  begins := by
    intro c hc
    rw [Option.mem_def.mp hc] at hbegins
    simpa using hbegins
  ends := by
    intro x hx
    obtain ⟨ps, hps⟩ := List.getLast?_eq_some_iff.mp hx
    have hlast : t.tokenFaces = ps.filterMap Piece.face? ++ [x.face] := by
      rw [Text.tokenFaces, hps, List.filterMap_append]
      rfl
    rw [hlast] at hends
    simpa [Lexeme.face] using hends

end IsOperand

/-! ## Chains -/

/-- How an operator is written. -/
def Parse.Infix.symbol : Infix → String
  | .binary op => op.symbol
  | .connective op => op.symbol
  | .comparison op => op.symbol

/-- An operator is read as what it is where a blank follows. -/
theorem Parse.Infix.spells (op : Infix) :
    ∃ stop : Char → Bool, stop ' ' = true ∧ Spells stop op.symbol.toList op.faces := by
  have hsymbol {op : CompareOp}
      (hmem : ((TokenKind.compare op).spelling.toList, .compare op) ∈ Lexeme.symbols) :
      ∃ stop : Char → Bool, stop ' ' = true ∧
        Spells stop op.symbol.toList [TokenKind.face (.compare op)] :=
    ⟨afterSymbol, by decide, spells_face hmem (isFound_of_mem _ hmem) fun _ => rfl⟩
  cases op with
  | binary op => exact ⟨afterSymbol, by decide, spells_binary op⟩
  | connective op =>
    refine ⟨afterWord, by decide, ?_⟩
    cases op with
    | and => exact spells_keyword .and
    | or => exact spells_keyword .or
  | comparison op =>
    cases op with
    | is => exact ⟨afterWord, by decide, spells_keyword .is⟩
    | isNot => exact ⟨afterWord, by decide, spells_pair .is .not⟩
    | isIn => exact ⟨afterWord, by decide, spells_keyword .in⟩
    | notIn => exact ⟨afterWord, by decide, spells_pair .not .in⟩
    | _ => exact hsymbol (by decide)

theorem Parse.Infix.filter_faces (op : Infix) :
    (op.faces.filter fun x => x.1 != .comment) = op.faces := by
  cases op with
  | binary op => rfl
  | connective op => cases op <;> rfl
  | comparison op => cases op <;> rfl

/-- An operator, the text of its right operand and the value of the operand. -/
structure TextLink where
  op : Infix
  text : Text
  value : Expr Unit

namespace TextLink

/-- The right operand is one. Behind `is` it does not begin with `not`. -/
structure Sound (l : TextLink) : Prop where
  operand : IsOperand l.text l.value
  is : l.op = .comparison .is → (Parse.start l.text {}).next.kind ≠ .keyword .not

/-- An operator and its right operand, with blanks around the operator. -/
def written (l : TextLink) : Text := " " ++ (l.op.symbol : Text) ++ " " ++ l.text

/-- The link as the grammar sees it. -/
def link (l : TextLink) : Link := ⟨l.op, l.text.codeFaces, l.value⟩

/-- An operator and the value of its right operand. -/
def pair (l : TextLink) : Infix × Expr Unit := (l.op, l.value)

theorem Sound.link {l : TextLink} (h : l.Sound) (bad : Fault → Prop) :
    l.link.Sound bad (Parse.operand (maxDepth - 1)) where
  reads := h.operand.readsOperand bad
  some := h.operand.codeFaces_ne_nil
  is := by
    intro his
    have hface := face_next (Parse.start l.text {})
    rw [h.operand.faces_start, front_append h.operand.codeFaces_ne_nil] at hface
    rw [TextLink.link, ← hface]
    exact h.is his

end TextLink

/-- The text of an operand and of those that follow it, each after its operator. -/
def chainText (t : Text) (links : List TextLink) : Text := t ++ links.flatMap TextLink.written

/-- The characters of a link. -/
def TextLink.chars (l : TextLink) : List Char := ' ' :: (l.op.symbol.toList ++ ' ' :: l.text.chars)

theorem TextLink.chars_append_written (t : Text) (l : TextLink) (u : Text) :
    (t ++ (l.written ++ u)).chars =
      t.chars ++ ' ' :: (l.op.symbol.toList ++ ' ' :: (l.text ++ u).chars) := by
  have hblank : Text.ofString " " = [32] := by
    rw [Text.ofString_eq_ofChars]
    exact Text.ofChars_of_ascii (List.forall_mem_singleton.mpr (by decide))
  have hwritten : l.written ++ u =
      Text.ofString (" " ++ l.op.symbol ++ " ") ++ (l.text ++ u) := by
    simp only [written, Text.ofString_append, List.append_assoc]
  have hfirst : l.written ++ u = 32 :: (Text.ofString (l.op.symbol ++ " ") ++ (l.text ++ u)) := by
    rw [hwritten, String.append_assoc, Text.ofString_append, hblank]
    rfl
  rw [hfirst, Text.chars_append_ascii t (by decide), ← hfirst, hwritten, Text.ofString_eq_ofChars,
    Text.chars_ofChars_append]
  simp

theorem chars_chainText (t : Text) (links : List TextLink) :
    (chainText t links).chars = t.chars ++ links.flatMap TextLink.chars := by
  induction links generalizing t with
  | nil => simp [chainText]
  | cons l links ih =>
    have hrest : (l.text ++ links.flatMap TextLink.written).chars =
        l.text.chars ++ links.flatMap TextLink.chars := ih l.text
    rw [chainText, List.flatMap_cons, TextLink.chars_append_written, hrest]
    simp [TextLink.chars]

/-- The tokens of links have the same faces wherever they stand in a line. -/
theorem segment_links {links : List TextLink} (h : ∀ l ∈ links, l.Sound) :
    Follows isSpace (links.flatMap TextLink.chars) ∧
      Segment (links.flatMap TextLink.chars)
        (links.flatMap fun l => l.op.faces ++ l.text.tokenFaces) := by
  induction links with
  | nil => exact ⟨nofun, segment_nil⟩
  | cons l links ih =>
    obtain ⟨hl, hlinks⟩ := List.forall_mem_cons.mp h
    obtain ⟨hspace, hsegment⟩ := ih hlinks
    obtain ⟨stop, hstop, hspells⟩ := l.op.spells
    refine ⟨.cons rfl _, ?_⟩
    have hright := hspells.segment (hl.operand.segment hspace hsegment).blank (.cons hstop _)
    simpa [TextLink.chars] using hright

/-- What the grammar sees of a chain. -/
theorem faces_chainText {t : Text} {e : Expr Unit} {links : List TextLink} (ht : IsOperand t e)
    (hlinks : ∀ l ∈ links, l.Sound) :
    (Parse.start (chainText t links) {}).faces =
      t.codeFaces ++ (links.map TextLink.link).flatMap Link.allFaces ++ [endFace] := by
  obtain ⟨c, cs, hchars, hc, hcomment⟩ := ht.exists_cons
  obtain ⟨hspace, hsegment⟩ := segment_links hlinks
  obtain ⟨ps, hcuts, hfaces, hclosed⟩ := ht.segment hspace hsegment 0 true
  rw [hchars, List.cons_append] at hcuts
  have hchain : (chainText t links).chars = c :: (cs ++ links.flatMap TextLink.chars) := by
    rw [chars_chainText, hchars, List.cons_append]
  have hpieces : pieces (chainText t links) = ps := by
    rw [pieces, hchain]
    exact (hcuts.anew hc hcomment true true).eq_cut
  rw [Toolchain.faces_start hchain hc hcomment (hpieces ▸ hclosed), Text.codeFaces, Text.tokenFaces,
    hpieces, hfaces, List.filter_append, List.filter_flatMap, List.flatMap_map]
  simp only [List.filter_append, Infix.filter_faces]
  rfl

/-- **Operators fold to the left**: a chain of operands is parsed, and makes what the operators make
of the operands one after the other. -/
theorem parseExpression_chainText {t : Text} {e : Expr Unit} {links : List TextLink}
    (ht : IsOperand t e)
    (hlinks : ∀ l ∈ links, l.Sound) (file : Text) :
    ∃ p, parseExpression file (chainText t links) = (.ok p, []) ∧
      p.root.erase = .expression () (leftFold e (links.map TextLink.pair)) := by
  have hsound : ∀ l ∈ links.map TextLink.link,
      l.Sound (fun _ => True) (Parse.operand (maxDepth - 1)) := by
    simp only [List.mem_map, forall_exists_index, and_imp, forall_apply_eq_imp_iff₂]
    exact fun l hl => (hlinks l hl).link _
  obtain ⟨m, r, s, hrun, hr⟩ :=
    run_singleExpression (faces_chainText ht hlinks) (ht.readsOperand _) hsound
  refine ⟨⟨.expression m r, s.arena⟩, ?_, ?_⟩
  · unfold parseExpression Parse.run
    rw [hrun]
  · rw [List.map_map] at hr
    exact congrArg (Root.expression ()) hr

/-- Operands with operators between them: a chain of comparisons and a connective, in brackets, are
not gone on with, and a chain and a connective that were folded are. -/
def mixedChain : List TextLink :=
  [⟨.connective .or, "-c", .unaryOp () .minus (.name () "c" .load)⟩,
   ⟨.connective .or, "d", .name () "d" .load⟩,
   ⟨.comparison .isNot, "d", .name () "d" .load⟩,
   ⟨.comparison .lt, "(a < b)", .compare () (.name () "a" .load) [(.lt, .name () "b" .load)]⟩,
   ⟨.binary .mult, "d", .name () "d" .load⟩]

/-- A name that is read. -/
def isNamed (id : String) : Expr Unit → Bool
  | .name _ id' .load => id' == id
  | _ => false

theorem eq_of_isNamed {id : String} {x : Expr Unit} (h : isNamed id x = true) :
    x = .name () id .load := by
  unfold isNamed at h
  split at h
  · rw [eq_of_beq h]
  · cases h

/-- The operands of `mixedChain` in brackets, and the one with a sign. -/
def isAOrB : Expr Unit → Bool
  | .boolOp _ .or [x, y] => isNamed "a" x && isNamed "b" y
  | _ => false

def isMinusC : Expr Unit → Bool
  | .unaryOp _ .minus x => isNamed "c" x
  | _ => false

def isALessB : Expr Unit → Bool
  | .compare _ x [(.lt, y)] => isNamed "a" x && isNamed "b" y
  | _ => false

theorem parseExpression_mixedChain :
    chainText "(a or b)" mixedChain = "(a or b) or -c or d is not d < (a < b) * d" ∧
    ∃ p, parseExpression "m" (chainText "(a or b)" mixedChain) = (.ok p, []) ∧
      p.root.erase = .expression () (.binOp ()
        (.compare ()
          (.boolOp () .or [.boolOp () .or [.name () "a" .load, .name () "b" .load],
            .unaryOp () .minus (.name () "c" .load), .name () "d" .load])
          [(.isNot, .name () "d" .load),
            (.lt, .compare () (.name () "a" .load) [(.lt, .name () "b" .load)])])
        .mult (.name () "d" .load)) := by
  have hgroup : IsOperand "(a or b)" (.boolOp () .or [.name () "a" .load, .name () "b" .load]) := by
    refine IsOperand.of_run (q := isAOrB) (fun x hx => ?_) (by decide +kernel) (by decide +kernel)
      (by decide +kernel) (by decide +kernel)
    unfold isAOrB at hx
    split at hx
    · rw [Bool.and_eq_true] at hx
      rw [eq_of_isNamed hx.1, eq_of_isNamed hx.2]
    · cases hx
  have hminus : IsOperand "-c" (.unaryOp () .minus (.name () "c" .load)) := by
    refine IsOperand.of_run (q := isMinusC) (fun x hx => ?_) (by decide +kernel) (by decide +kernel)
      (by decide +kernel) (by decide +kernel)
    unfold isMinusC at hx
    split at hx
    · rw [eq_of_isNamed hx]
    · cases hx
  have hname : IsOperand "d" (.name () "d" .load) :=
    IsOperand.of_run (fun _ => eq_of_isNamed) (by decide +kernel) (by decide +kernel)
      (by decide +kernel) (by decide +kernel)
  have hchain : IsOperand "(a < b)"
      (.compare () (.name () "a" .load) [(.lt, .name () "b" .load)]) := by
    refine IsOperand.of_run (q := isALessB) (fun x hx => ?_) (by decide +kernel) (by decide +kernel)
      (by decide +kernel) (by decide +kernel)
    unfold isALessB at hx
    split at hx
    · rw [Bool.and_eq_true] at hx
      rw [eq_of_isNamed hx.1, eq_of_isNamed hx.2]
    · cases hx
  refine ⟨by decide +kernel, parseExpression_chainText hgroup (fun l hl => ?_) "m"⟩
  simp only [mixedChain, List.mem_cons, List.not_mem_nil, or_false] at hl
  rcases hl with rfl | rfl | rfl | rfl | rfl
  · exact ⟨hminus, by rintro ⟨⟩⟩
  · exact ⟨hname, by rintro ⟨⟩⟩
  · exact ⟨hname, by rintro ⟨⟩⟩
  · exact ⟨hchain, by rintro ⟨⟩⟩
  · exact ⟨hname, by rintro ⟨⟩⟩

end Toolchain

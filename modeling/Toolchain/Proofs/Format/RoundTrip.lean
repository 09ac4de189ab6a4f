import Toolchain.Format.Basic
import Toolchain.Proofs.Format.Heads
import Toolchain.Proofs.Outcome

/-!
# Written programs are read back

What is written of a statement is added to a page as lines, and what the parser makes of these lines
is the statement. Both are told for what may be put together: statements behind each other, and the
clauses that still belong to the statement in front of them. So the proof follows the tree. Nothing
depends on the source of the tree, as the printer is given none: there are no comments to be written
and no blank lines to be kept.

## Main definitions

* `Format.Adds`: what is written on a page adds some lines
* `Format.WritesLines`, `Format.WritesTail`: what is written is read as some statements, or as
  further clauses of one
* `Root.levels`: how deep the expressions of a program are nested

## Main results

* `Format.writes_statement`, `Format.writes_body`, `Format.writes_alternatives`,
  `Format.writes_handlers`: the cases of the tree
* `parseModule_formatted`: **writing a program and parsing it again is the identity**
* `parseExpression_comparison`: **a written chain of comparisons is read as the chain**
-/

namespace Toolchain

namespace Format

open Parse Lexer

/-! ## Pages without a source -/

section Pages

variable {f : Frame} {p : Page} {ls ls' : List Line} {g g' : Page → Page}

/-- The text of a page is that of some lines, and no comments are left. -/
structure Page.Holds (indent : List Char) (p : Page) (ls : List Line) : Prop where
  comments : p.comments = []
  sheet : ∃ cs, p.text = Text.ofChars cs ∧ Sheet indent cs ls

/-- What is written on a page adds some lines. -/
structure Adds (indent : List Char) (g : Page → Page) (ls : List Line) : Prop where
  holds : ∀ {p : Page} {before : List Line}, p.Holds indent before →
    (g p).Holds indent (before ++ ls)

theorem Adds.trans {indent : List Char} (h : Adds indent g ls) (h' : Adds indent g' ls') :
    Adds indent (fun p => g' (g p)) (ls ++ ls') where
  holds hp := by
    rw [← List.append_assoc]
    exact h'.holds (h.holds hp)

theorem adds_nil {indent : List Char} : Adds indent (fun p => p) [] where
  holds hp := by rwa [List.append_nil]

theorem text_cons (l : Text) (p : Page) :
    Page.text { p with lines := l :: p.lines } = p.text ++ (l ++ Text.ofChars ['\n']) := by
  unfold Page.text
  rw [List.reverse_cons, List.flatMap_append, List.flatMap_singleton]
  rfl

/-- A line is written. -/
theorem adds_line {level : Nat} {cs : List Char} {fs : List Face} (h : IsLine cs fs) :
    Adds f.options.indent (f.line level (Text.ofChars cs)) [⟨level, fs⟩] := by
  constructor
  rintro p before ⟨hcomments, ds, hds, hsheet⟩
  refine ⟨hcomments, _, ?_, hsheet.append (.row level h .nil)⟩
  have htext : (f.line level (Text.ofChars cs) p).text = p.text ++
      (Text.ofChars (List.replicate level f.options.indent).flatten ++ Text.ofChars cs ++
        Text.ofChars ['\n']) :=
    text_cons _ p
  rw [htext, hds, toList_margin]
  simp only [Text.ofChars_append, Text.ofChars_cons, List.append_assoc]

/-- Blank lines are written. -/
theorem holds_blank {indent : List Char} (h : p.Holds indent ls) (count : Nat) :
    (p.blank count).Holds indent ls := by
  unfold Page.blank
  split
  · exact h
  · induction count with
    | zero => exact h
    | succ count ih =>
      obtain ⟨hcomments, cs, hcs, hsheet⟩ := ih
      refine ⟨hcomments, cs ++ ['\n'], ?_, ?_⟩
      · have htext := text_cons [] { p with lines := List.replicate count [] ++ p.lines }
        rw [hcs, List.nil_append, ← Text.ofChars_append] at htext
        exact htext
      · have hblank := hsheet.append (.blank .nil)
        rwa [List.append_nil] at hblank

variable (hsource : f.source = #[])

include hsource

theorem sourceLine?_eq (n : Nat) : f.sourceLine? n = none := by
  unfold Frame.sourceLine?
  split
  · rfl
  · rw [hsource]
    rfl

theorem holds_separate {indent : List Char} (h : p.Holds indent ls) (level : Nat)
    (before next : Stmt Mark) :
    (f.separate level before next p).Holds indent ls := by
  have habove (n : Nat) : f.isBlankAbove n = false := by
    unfold Frame.isBlankAbove
    rw [sourceLine?_eq hsource]
    exact Bool.and_false _
  unfold Frame.separate
  simp only [habove, Bool.false_eq_true, if_false]
  split
  · exact holds_blank h _
  · exact h

omit hsource in
theorem flush_eq (h : p.comments = []) (level source : Nat) : f.flush level source p = p := by
  obtain ⟨lines, comments⟩ := p
  obtain rfl : comments = [] := h
  rfl

theorem flushClause_eq (h : p.comments = []) (level source : Nat) :
    f.flushClause level source p = p := by
  unfold Frame.flushClause
  rw [sourceLine?_eq hsource]
  exact flush_eq h level source

omit hsource in
theorem header_eq (h : p.comments = []) (level source : Nat) (cs : List Char) :
    f.header level source cs p = f.line level (Text.ofChars cs) p := by
  unfold Frame.header
  rw [h]

theorem clauseHeader_eq (h : p.comments = []) (level : Nat) (word : String) (first : Nat) :
    f.clauseHeader level word first p = f.line level (Text.ofChars (word.toList ++ [':'])) p := by
  have hline : f.clauseLine? word first = none := by
    unfold Frame.clauseLine?
    rw [sourceLine?_eq hsource]
  unfold Frame.clauseHeader
  rw [hline]
  exact header_eq h level 0 _

omit hsource in
/-- What writes a line adds it. -/
theorem adds_of_eq {level : Nat} {cs : List Char} {fs : List Face} (h : IsLine cs fs)
    (hg : ∀ p : Page, p.comments = [] → g p = f.line level (Text.ofChars cs) p) :
    Adds f.options.indent g [⟨level, fs⟩] where
  holds {p before} hp := by
    rw [hg p hp.comments]
    exact (adds_line h).holds hp

end Pages

/-! ## The depth of a program -/

section Levels

variable {α : Type}

mutual

/-- How deep the expressions of a statement are nested. -/
def statementLevels : Stmt α → Nat
  | .functionDef m name s body => max (headLevels (.functionDef m name s body)) (suiteLevels body)
  | .classDef m name bases body => max (headLevels (.classDef m name bases body)) (suiteLevels body)
  | .forLoop m target iter body => max (headLevels (.forLoop m target iter body)) (suiteLevels body)
  | .whileLoop m test body => max (headLevels (.whileLoop m test body)) (suiteLevels body)
  | .ifElse m test body orelse =>
    max (headLevels (.ifElse m test body orelse)) (max (suiteLevels body) (suiteLevels orelse))
  | .tryExcept _ body handlers orelse final =>
    max (suiteLevels body)
      (max (handlerLevels handlers) (max (suiteLevels orelse) (suiteLevels final)))
  | s => headLevels s

/-- How deep the expressions of statements are nested. -/
def suiteLevels : List (Stmt α) → Nat
  | [] => 0
  | s :: ss => max (statementLevels s) (suiteLevels ss)

/-- How deep the expressions of handlers are nested. -/
def handlerLevels : List (Handler α (Expr α) (Stmt α)) → Nat
  | [] => 0
  | ⟨_, type, _, body⟩ :: rest =>
    max (listedLevels .element type.toList) (max (suiteLevels body) (handlerLevels rest))

end

end Levels

/-! ## What is written is read -/

/-- Statements are written on lines that are read as them. -/
def WritesLines (f : Frame) (level : Nat) (g : Page → Page) (n : Nat)
    (ss : List (Stmt Unit)) : Prop :=
  ∃ ls, Adds f.options.indent g ls ∧ AsLines (margin f.options.indent) level ls n ss

/-- Clauses are written on lines that are read as what a chain still gets. -/
def WritesTail (f : Frame) (level : Nat) (g : Page → Page) (n : Nat) (p : Pending)
    (added : List (Stmt Unit)) : Prop :=
  ∃ ls, Adds f.options.indent g ls ∧ AsTail (margin f.options.indent) level ls n p added

theorem margin_succ (indent : List Char) (level : Nat) :
    margin indent (level + 1) = String.ofList indent ++ margin indent level := by
  unfold margin
  rw [List.replicate_succ, List.flatten_cons, String.ofList_append]

theorem margin_lt {indent : List Char} (hindent : indent ≠ []) {i j : Nat} (h : i < j) :
    (margin indent i).utf8ByteSize < (margin indent j).utf8ByteSize := by
  have hstep (n : Nat) : (margin indent n).utf8ByteSize < (margin indent (n + 1)).utf8ByteSize := by
    have hpos : 0 < (String.ofList indent).utf8ByteSize := by
      rw [Nat.pos_iff_ne_zero]
      intro hzero
      rw [String.utf8ByteSize_eq_zero_iff] at hzero
      apply hindent
      rw [← String.toList_ofList (l := indent), hzero]
      rfl
    rw [margin_succ, String.utf8ByteSize_append]
    omega
  exact strictMono_nat_of_lt_succ hstep h

section Clauses

variable {f : Frame} {level n m k : Nat} {cs : List Char} {g₀ g g' : Page → Page} {p : Pending}
  {h : List (Stmt Unit) → List (Stmt Unit) × Pending} {body added ss ss' : List (Stmt Unit)}

theorem WritesLines.append (hfirst : WritesLines f level g n ss)
    (hrest : WritesLines f level g' m ss') :
    WritesLines f level (fun p => g' (g p)) (max n m) (ss ++ ss') := by
  obtain ⟨ls, hadds, hlines⟩ := hfirst
  obtain ⟨ls', hadds', hlines'⟩ := hrest
  exact ⟨ls ++ ls', hadds.trans hadds', hlines.append hlines'⟩

theorem writesLines_simple {s : Stmt Mark} (hsimple : f.Simple s)
    (hg : ∀ p : Page, p.comments = [] → g p = f.line level (Text.ofChars (f.head false s)) p) :
    WritesLines f level g (headLevels s) [s.erase] := by
  obtain ⟨fs, hline, hread⟩ := hsimple false
  exact ⟨_, adds_of_eq hline hg, asLines_simple hread⟩

/-- A chain gets no more clauses. -/
theorem writesTail_nil (hp : p.Closable) : WritesTail f level (fun p => p) 0 p p.closed :=
  ⟨[], adds_nil, asTail_nil hp⟩

variable (hindent : f.options.indent ≠ [])
  (hg : ∀ p : Page, p.comments = [] → g₀ p = f.line level (Text.ofChars cs) p)

include hindent hg

/-- A statement of several clauses. -/
theorem writesLines_clause (hopens : Opens cs n h) (hbody : WritesLines f (level + 1) g m body)
    (hsome : body ≠ []) (htail : WritesTail f level g' k (h body).2 added) :
    WritesLines f level (fun p => g' (g (g₀ p))) (max n (max m k)) ((h body).1 ++ added) := by
  obtain ⟨fs, hrow, hclause⟩ := hopens
  obtain ⟨ls, hadds, hlines⟩ := hbody
  obtain ⟨ls', hadds', htail⟩ := htail
  refine ⟨_, ((adds_of_eq hrow.line hg).trans hadds).trans hadds', ?_⟩
  exact asLines_clause (margin_lt hindent) hclause hlines hsome htail

/-- One more clause of a chain. -/
theorem writesTail_clause (hcontinues : Continues cs n p h)
    (hbody : WritesLines f (level + 1) g m body)
    (hsome : body ≠ []) (htail : WritesTail f level g' k (h body).2 added) :
    WritesTail f level (fun p => g' (g (g₀ p))) (max n (max m k)) p ((h body).1 ++ added) := by
  obtain ⟨fs, hrow, hclause⟩ := hcontinues
  obtain ⟨ls, hadds, hlines⟩ := hbody
  obtain ⟨ls', hadds', htail⟩ := htail
  refine ⟨_, ((adds_of_eq hrow.line hg).trans hadds).trans hadds', ?_⟩
  exact AsTail.clause (margin_lt hindent) hclause hlines hsome htail

end Clauses

/-! ## Statements -/

/-- What is written of statements that follow a clause that is nothing but a word. -/
def Frame.wordClause (f : Frame) (level : Nat) (word : String) (ss : List (Stmt Mark))
    (p : Page) : Page :=
  if ss.isEmpty then p
  else f.body (level + 1) none ss (f.clauseHeader level word (firstLine ss) p)

/-- What is written of the alternative of a conditional. -/
def Frame.otherwise (f : Frame) (level : Nat) (orelse : List (Stmt Mark)) (p : Page) : Page :=
  if isAlternative orelse then f.alternatives level orelse
    (f.flushClause level (firstLine orelse) p)
  else f.wordClause level "else" orelse p

/-- There is no source, and lines are indented. -/
structure Frame.Plain (f : Frame) : Prop where
  source : f.source = #[]
  indent : f.options.indent ≠ []

section Statements

variable {f : Frame} (hf : f.Plain)

include hf

theorem writesTail_word {level m k : Nat} {word : String} {p : Pending} {g : Page → Page}
    {h : List (Stmt Unit) → List (Stmt Unit) × Pending} {ss : List (Stmt Mark)}
    {added : List (Stmt Unit)}
    (hcontinues : Continues (word.toList ++ [':']) 0 p h) (hsome : ss ≠ [])
    (hbody : WritesLines f (level + 1) (f.body (level + 1) none ss) m (ss.map Stmt.erase))
    (htail : WritesTail f level g k (h (ss.map Stmt.erase)).2 added) :
    WritesTail f level (fun p => g (f.wordClause level word ss p)) (max m k) p
      ((h (ss.map Stmt.erase)).1 ++ added) := by
  have hclause := writesTail_clause hf.indent
    (fun p hp => clauseHeader_eq hf.source hp level word (Frame.firstLine ss))
    hcontinues hbody (by simpa using hsome) htail
  rw [Nat.zero_max] at hclause
  have hword : (fun p => g (f.wordClause level word ss p)) =
      fun p => g (f.body (level + 1) none ss
        (f.clauseHeader level word (Frame.firstLine ss) p)) := by
    funext p
    unfold Frame.wordClause
    rw [if_neg (by simpa using hsome)]
  rwa [hword]

/-- The alternative of a conditional. -/
theorem writesTail_otherwise {level : Nat} {orelse : List (Stmt Mark)}
    (complete : List (Stmt Unit) → Stmt Unit)
    (hbody : orelse ≠ [] →
      WritesLines f (level + 1) (f.body (level + 1) none orelse) (suiteLevels orelse)
      (orelse.map Stmt.erase))
    (halternative : Frame.isAlternative orelse = true →
      WritesTail f level (f.alternatives level orelse)
      (suiteLevels orelse) (.conditional complete) [complete (orelse.map Stmt.erase)]) :
    WritesTail f level (f.otherwise level orelse) (suiteLevels orelse) (.conditional complete)
      [complete (orelse.map Stmt.erase)] := by
  by_cases hcase : Frame.isAlternative orelse = true
  · obtain ⟨ls, hadds, htail⟩ := halternative hcase
    refine ⟨ls, ⟨fun {p before} hp => ?_⟩, htail⟩
    unfold Frame.otherwise
    rw [if_pos hcase, flushClause_eq hf.source hp.comments]
    exact hadds.holds hp
  · have hword : f.otherwise level orelse = f.wordClause level "else" orelse := by
      funext p
      unfold Frame.otherwise
      rw [if_neg hcase]
    rw [hword]
    by_cases hsome : orelse = []
    · subst hsome
      have hnil : WritesTail f level _ 0 (.conditional complete) _ := writesTail_nil trivial
      rwa [suiteLevels]
    · have hclause := writesTail_word hf (continues_else complete) hsome (hbody hsome)
        (writesTail_nil trivial)
      rwa [Nat.max_zero, Pending.closed, List.append_nil] at hclause

/-- What follows the handlers of a `try`. -/
theorem writesTail_parts (level : Nat) (body₀ : List (Stmt Unit))
    (handlers₀ : List (Handler Unit (Expr Unit) (Stmt Unit))) {orelse final : List (Stmt Mark)}
    (hhandlers : handlers₀ = [] → orelse = [] ∧ final ≠ [])
    (horelse : orelse ≠ [] →
      WritesLines f (level + 1) (f.body (level + 1) none orelse) (suiteLevels orelse)
      (orelse.map Stmt.erase))
    (hfinal : final ≠ [] →
      WritesLines f (level + 1) (f.body (level + 1) none final) (suiteLevels final)
      (final.map Stmt.erase)) :
    WritesTail f level
      (fun p => f.wordClause level "finally" final (f.wordClause level "else" orelse p))
      (max (suiteLevels orelse) (suiteLevels final)) (.attempt body₀ handlers₀ [])
      [.tryExcept () body₀ handlers₀ (orelse.map Stmt.erase) (final.map Stmt.erase)] := by
  have hend (orelse₀ : List (Stmt Unit)) : WritesTail f level (f.wordClause level "finally" final)
      (suiteLevels final) (.attempt body₀ handlers₀ orelse₀)
      [.tryExcept () body₀ handlers₀ orelse₀ (final.map Stmt.erase)] := by
    by_cases hsome : final = []
    · subst hsome
      have hnil : WritesTail f level _ 0 (.attempt body₀ handlers₀ orelse₀) _ :=
        writesTail_nil fun h => (hhandlers h).2 rfl
      rwa [suiteLevels]
    · have hclause := writesTail_word hf (continues_finally body₀ handlers₀ orelse₀) hsome
        (hfinal hsome)
        (writesTail_nil trivial)
      rwa [Nat.max_zero, Pending.closed, List.append_nil] at hclause
  by_cases hsome : orelse = []
  · subst hsome
    rw [suiteLevels, Nat.zero_max]
    exact hend []
  · have hne : handlers₀ ≠ [] := fun h => hsome (hhandlers h).1
    exact writesTail_word hf (continues_tryElse body₀ hne) hsome (horelse hsome) (hend _)

/-- A statement that is a single clause. -/
theorem writesLines_block {level source n m : Nat} {cs : List Char}
    {k : List (Stmt Unit) → Stmt Unit}
    {body : List (Stmt Mark)} (hopens : Opens cs n fun body => ([k body], .none))
    (hsome : body ≠ [])
    (hbody : WritesLines f (level + 1) (f.body (level + 1) none body) m (body.map Stmt.erase)) :
    WritesLines f level
      (fun p => f.body (level + 1) none body (f.header level source cs p)) (max n m)
      [k (body.map Stmt.erase)] := by
  have hlines := writesLines_clause hf.indent
    (fun p hp => header_eq hp level source cs) hopens hbody
    (by simpa using hsome) (writesTail_nil trivial)
  rwa [Nat.max_zero, Pending.closed, List.append_nil] at hlines

/-- A statement behind another one, which blank lines may part from it. -/
theorem writesLines_behind (level : Nat) {n : Nat} (before : Option (Stmt Mark)) (s : Stmt Mark)
    (h : WritesLines f level (f.statement level false s) n [s.erase]) :
    WritesLines f level
      (fun p => f.statement level false s (f.flush level s.mark.pos.line (match before with
      | some b => f.separate level b s p
      | none => p))) n [s.erase] := by
  obtain ⟨ls, hadds, hlines⟩ := h
  refine ⟨ls, ⟨fun {p ls'} hp => hadds.holds ?_⟩, hlines⟩
  cases before with
  | none =>
    show Page.Holds _ (f.flush level s.mark.pos.line p) _
    rwa [flush_eq hp.comments]
  | some b =>
    have hseparate := holds_separate hf.source hp level b s
    show Page.Holds _ (f.flush level s.mark.pos.line (f.separate level b s p)) _
    rwa [flush_eq hseparate.comments]

mutual

/-- A statement is written on lines that are read as it. -/
theorem writes_statement : ∀ {s : Stmt Mark}, s.WellFormed → s.Clear → ∀ level : Nat,
    WritesLines f level (f.statement level false s) (statementLevels s) [s.erase]
  | .functionDef m name sig body, h, hclear, level => by
    obtain ⟨hname, hsig, hsome, hbody⟩ := h
    rw [statementLevels, Stmt.erase_functionDef]
    exact writesLines_block hf (opens_function f hname hsig hclear.1) hsome
      (writes_body hbody hclear.2 hsome (level + 1) none)
  | .classDef m name bases body, h, hclear, level => by
    obtain ⟨hname, hbases, hsome, hbody⟩ := h
    rw [statementLevels, Stmt.erase_classDef]
    exact writesLines_block hf (opens_class f hname hbases hclear.1) hsome
      (writes_body hbody hclear.2 hsome (level + 1) none)
  | .forLoop m target iter body, h, hclear, level => by
    obtain ⟨htarget, hiter, hsome, hbody⟩ := h
    rw [statementLevels, Stmt.erase_forLoop]
    exact writesLines_block hf (opens_for f htarget hiter hclear.1 hclear.2.1) hsome
      (writes_body hbody hclear.2.2 hsome (level + 1) none)
  | .whileLoop m test body, h, hclear, level => by
    obtain ⟨htest, hsome, hbody⟩ := h
    rw [statementLevels, Stmt.erase_whileLoop]
    exact writesLines_block hf (opens_while f htest hclear.1) hsome
      (writes_body hbody hclear.2 hsome (level + 1) none)
  | .ifElse m test body orelse, h, hclear, level => by
    obtain ⟨htest, hsome, hbody, horelse⟩ := h
    have htail := writesTail_otherwise hf
      (fun orelse => .ifElse () test.erase (body.map Stmt.erase) orelse)
      (fun hsome => writes_body horelse hclear.2.2 hsome (level + 1) none)
      (fun hcase => writes_alternatives horelse hclear.2.2 hcase level _)
    rw [statementLevels, Stmt.erase_ifElse]
    exact writesLines_clause hf.indent (fun p hp => header_eq hp level m.pos.line _)
      (opens_if f htest hclear.1)
      (writes_body hbody hclear.2.1 hsome (level + 1) none) (by simpa using hsome) htail
  | .tryExcept m body handlers orelse final, h, hclear, level => by
    obtain ⟨hsome, hbody, hhandlers, horelse, hfinal, hnone⟩ := h
    have hparts := writesTail_parts hf level (body.map Stmt.erase) (handlers.map Handler.erase)
      (fun hnil => hnone (List.map_eq_nil_iff.mp hnil))
      (fun hsome => writes_body horelse hclear.2.2.1 hsome (level + 1) none)
      (fun hsome => writes_body hfinal hclear.2.2.2 hsome (level + 1) none)
    have htail := writes_handlers hhandlers hclear.2.1 level _ [] nofun hparts
    have hlines := writesLines_clause hf.indent
      (fun p hp => header_eq hp level m.pos.line _) opens_try
      (writes_body hbody hclear.1 hsome (level + 1) none) (by simpa using hsome) htail
    rw [statementLevels, Stmt.erase_tryExcept]
    rw [Nat.zero_max] at hlines
    exact hlines
  | .ret m value, h, hclear, level => by
    exact writesLines_simple (simple_ret f m h hclear) fun p hp => header_eq hp level m.pos.line _
  | .delete m targets, h, hclear, level => by
    exact writesLines_simple (simple_delete f m h.1 h.2 hclear) fun p hp => header_eq hp
      level m.pos.line _
  | .assign m targets value, h, hclear, level => by
    exact writesLines_simple (simple_assign f m h.1 h.2.1 h.2.2 hclear.1 hclear.2)
      fun p hp => header_eq hp level m.pos.line _
  | .augAssign m target op value, h, hclear, level => by
    exact writesLines_simple (simple_augAssign f m op h.1 h.2.1 h.2.2 hclear.1 hclear.2)
      fun p hp => header_eq hp level m.pos.line _
  | .raise m exc cause, h, hclear, level => by
    exact writesLines_simple (simple_raise f m h.1 h.2.1 h.2.2 hclear.1 hclear.2)
      fun p hp => header_eq hp level m.pos.line _
  | .assert m test msg, h, hclear, level => by
    exact writesLines_simple (simple_assert f m h.1 h.2 hclear.1 hclear.2)
      fun p hp => header_eq hp level m.pos.line _
  | .imports m names, h, _, level => by
    exact writesLines_simple (simple_imports f m h.1 h.2) fun p hp => header_eq hp
      level m.pos.line _
  | .importFrom m module names dots, h, _, level => by
    exact writesLines_simple (simple_importFrom f m h.1 h.2.1 h.2.2) fun p hp => header_eq hp
      level m.pos.line _
  | .expr m value, h, hclear, level => by
    exact writesLines_simple (simple_expr f m h hclear) fun p hp => header_eq hp level m.pos.line _
  | .pass m, _, _, level =>
    writesLines_simple (simple_pass f m) fun p hp => header_eq hp level m.pos.line _
  | .breakLoop m, _, _, level =>
    writesLines_simple (simple_break f m) fun p hp => header_eq hp level m.pos.line _
  | .continueLoop m, _, _, level =>
    writesLines_simple (simple_continue f m) fun p hp => header_eq hp level m.pos.line _

/-- Statements are written on lines that are read as them. -/
theorem writes_body :
    ∀ {ss : List (Stmt Mark)}, Stmt.AllWellFormed ss → Stmt.AllClear ss → ss ≠ [] →
    ∀ (level : Nat) (before : Option (Stmt Mark)),
      WritesLines f level (f.body level before ss) (suiteLevels ss) (ss.map Stmt.erase)
  | [], _, _, hsome, _, _ => absurd rfl hsome
  | s :: ss, h, hclear, _, level, before => by
    have hfirst := writesLines_behind hf level before s (writes_statement h.1 hclear.1 level)
    by_cases hsome : ss = []
    · subst hsome
      rw [suiteLevels, suiteLevels, Nat.max_zero]
      exact hfirst
    · exact hfirst.append (writes_body h.2 hclear.2 hsome level (some s))

/-- An alternative that is a conditional is written as a clause. -/
theorem writes_alternatives : ∀ {ss : List (Stmt Mark)}, Stmt.AllWellFormed ss → Stmt.AllClear ss →
    Frame.isAlternative ss = true → ∀ (level : Nat) (complete : List (Stmt Unit) → Stmt Unit),
      WritesTail f level (f.alternatives level ss) (suiteLevels ss) (.conditional complete)
        [complete (ss.map Stmt.erase)]
  | [.ifElse m test body orelse], h, hclear, _, level, complete => by
    obtain ⟨⟨htest, hsome, hbody, horelse⟩, -⟩ := h
    obtain ⟨⟨hclear, hclear', hclear''⟩, -⟩ := hclear
    have htail := writesTail_otherwise hf
      (fun orelse => complete [.ifElse () test.erase (body.map Stmt.erase) orelse])
      (fun hsome => writes_body horelse hclear'' hsome (level + 1) none)
      (fun hcase => writes_alternatives horelse hclear'' hcase level _)
    rw [suiteLevels, suiteLevels, Nat.max_zero, statementLevels, List.map_singleton,
      Stmt.erase_ifElse]
    exact writesTail_clause hf.indent (fun p hp => header_eq hp level m.pos.line _)
      (continues_elif f htest hclear complete) (writes_body hbody hclear' hsome (level + 1) none)
      (by simpa using hsome) htail
  | [], _, _, hcase, _, _ => by cases hcase
  | _ :: _ :: _, _, _, hcase, _, _ => by
    unfold Frame.isAlternative at hcase
    split at hcase
    · next heq => cases heq
    · cases hcase
  | [.functionDef ..], _, _, hcase, _, _ | [.classDef ..], _, _, hcase, _, _
  | [.ret ..], _, _, hcase, _, _
  | [.delete ..], _, _, hcase, _, _ | [.assign ..], _, _, hcase, _, _
  | [.augAssign ..], _, _, hcase, _, _
  | [.forLoop ..], _, _, hcase, _, _ | [.whileLoop ..], _, _, hcase, _, _
  | [.raise ..], _, _, hcase, _, _
  | [.tryExcept ..], _, _, hcase, _, _ | [.assert ..], _, _, hcase, _, _
  | [.imports ..], _, _, hcase, _, _
  | [.importFrom ..], _, _, hcase, _, _ | [.expr ..], _, _, hcase, _, _
  | [.pass ..], _, _, hcase, _, _
  | [.breakLoop ..], _, _, hcase, _, _ | [.continueLoop ..], _, _, hcase, _, _ => by cases hcase

/-- Handlers are written as clauses. -/
theorem writes_handlers :
    ∀ {hs : List (Handler Mark (Expr Mark) (Stmt Mark))}, Stmt.HandlersWellFormed hs →
    Stmt.HandlersClear hs → ∀ (level : Nat) (body₀ : List (Stmt Unit))
      (handlers₀ : List (Handler Unit (Expr Unit) (Stmt Unit))) {k : Nat} {added : List (Stmt Unit)}
        {g : Page → Page},
      (hs ≠ [] → ∀ h ∈ handlers₀.getLast?, h.type ≠ none) →
      WritesTail f level g k (.attempt body₀ (handlers₀ ++ hs.map Handler.erase) []) added →
      WritesTail f level (fun p => g (f.handlerClauses level hs p)) (max (handlerLevels hs) k)
        (.attempt body₀ handlers₀ []) added
  | [], _, _, _, _, _, _, _, _, _, htail => by
    rw [List.map_nil, List.append_nil] at htail
    rw [handlerLevels, Nat.zero_max]
    exact htail
  | ⟨m, type, name, body⟩ :: rest, h, hclear, level, body₀, handlers₀, k, added, g,
    hlast, htail => by
    obtain ⟨htype, hid, hnone, hsome, hbody, hrest⟩ := h
    let handler : Handler Unit (Expr Unit) (Stmt Unit) :=
      ⟨(), type.map Expr.erase, name, body.map Stmt.erase⟩
    have htyped (hne : rest ≠ []) : ∀ h ∈ (handlers₀ ++ [handler]).getLast?, h.type ≠ none := by
      intro h hmem
      rw [List.getLast?_concat] at hmem
      cases hmem
      exact fun h => hne (hnone (Option.map_eq_none_iff.mp h)).2
    have htail : WritesTail f level g k
        (.attempt body₀ (handlers₀ ++ [handler] ++ rest.map Handler.erase) []) added := by
      rwa [List.append_assoc, List.singleton_append]
    have hmore := writes_handlers hrest hclear.2.2 level body₀ (handlers₀ ++ [handler]) htyped htail
    have hline (p : Page) (hp : p.comments = []) :
        f.header level m.pos.line (f.handlerText type name) (f.flushClause level m.pos.line p) =
          f.line level (Text.ofChars (f.handlerText type name)) p := by
      rw [flushClause_eq hf.source hp, header_eq hp]
    have hclause := writesTail_clause hf.indent hline
      (continues_except f body₀ htype hid (fun h => (hnone h).1) hclear.1 (hlast (by simp)))
      (writes_body hbody hclear.2.1 hsome (level + 1) none) (by simpa using hsome) hmore
    rw [handlerLevels, Nat.max_assoc, Nat.max_assoc]
    exact hclause

end

/-- The page of a program. -/
theorem exists_program {ss : List (Stmt Mark)} (h : Stmt.AllWellFormed ss)
    (hclear : Stmt.AllClear ss) :
    ∃ ls, (f.body 0 none ss {}).Holds f.options.indent ls ∧
      AsProgram (margin f.options.indent) ls (suiteLevels ss) (ss.map Stmt.erase) := by
  have hempty : Page.Holds f.options.indent {} [] := ⟨rfl, [], Text.ofChars_nil.symm, .nil⟩
  by_cases hsome : ss = []
  · subst hsome
    refine ⟨[], hempty, ?_⟩
    unfold AsProgram
    rw [if_pos rfl, suiteLevels]
    exact ⟨rfl, rfl⟩
  · obtain ⟨ls, hadds, hlines⟩ := writes_body hf h hclear hsome 0 none
    refine ⟨ls, hadds.holds hempty, ?_⟩
    unfold AsProgram
    rwa [if_neg hlines.some]

end Statements

theorem indent_blanks (o : FormatOptions) : ∀ c ∈ o.indent, c = ' ' ∨ c = '\t' := by
  intro c hc
  unfold FormatOptions.indent at hc
  split at hc
  · exact .inr (List.mem_singleton.mp hc)
  · exact .inl (List.eq_of_mem_replicate hc)

theorem indent_ne_nil {o : FormatOptions} (h : o.fault? = none) : o.indent ≠ [] := by
  unfold FormatOptions.fault? at h
  split at h
  · cases h
  · next hstyle =>
    split at h
    · cases h
    · next hsize =>
      unfold FormatOptions.indent
      split
      · exact List.cons_ne_nil _ _
      · next htabs =>
        have hspaces : o.indentStyle = "spaces" := by
          by_contra hspaces
          exact hstyle ⟨hspaces, htabs⟩
        have hbounds : 1 ≤ o.indentSize ∧ o.indentSize ≤ 16 := by
          by_contra hbounds
          exact hsize ⟨hspaces, hbounds⟩
        rw [ne_eq, List.replicate_eq_nil_iff]
        omega

end Format

/-- How deep the expressions of a program are nested. -/
def Root.levels {α : Type} : Root α → Nat
  | .module _ body => Format.suiteLevels body
  | .expression _ body => Format.levels body

-- a display takes two levels, and so does the operand in it; the sign takes one
example : (parseExpression "m" "[[-1]]").1.toOption.map (fun p => p.root.levels) = some 7 := by
  decide +kernel

open Format Parse

/-- **What is written of a program is read as the program**, if the reader can nest as deep;
otherwise it finds that an expression is nested too deeply. -/
theorem ends_formatted {options : FormatOptions} (hvalid : options.fault? = none) {r : Root Mark}
    (h : Parse.IsModule r) (hclear : r.Clear) (arena : Arena) :
    Ends IsTooDeep (r.levels ≤ maxDepth) [endFace] (fun r' => r'.erase = r.erase)
      (StateT.run module (Parse.start (r.formatted options) arena)) := by
  obtain ⟨m, body, rfl, hbody⟩ := h
  obtain ⟨ls, ⟨hcomments, cs, hcs, hsheet⟩, hprogram⟩ :=
    exists_program (f := ⟨options, #[]⟩) ⟨rfl, indent_ne_nil hvalid⟩ hbody hclear
  have htext : Root.formatted options (.module m body) = Text.ofChars cs := by
    rw [← hcs]
    unfold Root.formatted Frame.print Root.body
    simp only [hcomments]
    rfl
  have hfirst : firstLevel ls = 0 := by
    unfold AsProgram at hprogram
    split at hprogram
    · next hls =>
      rw [hls]
      rfl
    · exact hprogram.first
  rw [Root.erase_module, htext]
  exact ends_module margin_zero hprogram (hsheet.faces_start (indent_blanks options) hfirst arena)

/-- **Writing a program and parsing it again is the identity**, up to the annotations of the tree,
for all valid options. What is left out is a program that has fields of f-strings or a negation
after `is`, and what may fail is that an expression is nested too deeply in the text. -/
theorem parseModule_formatted {options : FormatOptions} (hvalid : options.fault? = none)
    {file source : Text}
    {p : Parsed} (h : (parseModule file source).1 = .ok p) (hclear : p.root.Clear) (again : Text) :
    (p.root.levels ≤ maxDepth → ∃ q, (parseModule again (p.root.formatted options)).1 = .ok q ∧
        q.root.erase = p.root.erase) ∧
      (maxDepth < p.root.levels → ∃ token, (parseModule again (p.root.formatted options)).1 =
        .error ((Fault.placed .unexpectedToken token .nestingTooDeep).diagnostic again)) := by
  obtain ⟨hok, hfault⟩ := ends_formatted hvalid (isModule_of_parseModule h) hclear {}
  constructor
  · intro hlevels
    obtain ⟨r, s, hrun, -, hr⟩ := hok hlevels
    refine ⟨⟨r, s.arena⟩, ?_, hr⟩
    unfold parseModule Parse.run
    rw [hrun]
  · intro hlevels
    obtain ⟨_, hrun, token, rfl⟩ := hfault (Nat.not_le.mpr hlevels)
    refine ⟨token, ?_⟩
    unfold parseModule Parse.run
    rw [hrun]

/-- A program with most of the statements, in which parentheses matter. -/
def assorted : Text :=
  "from .a import b as c\nclass A(B):\n  def f(self, x=(1, 2), *ys, **zs):\n" ++
  "    for i, (j, k) in x:\n      if (i < j) < 3 and not (lambda y: y)(i):\n" ++
  "        del self.a[i:], z\n      elif a is (b or c):\n" ++
  "        return (-x) ** (2 + y), [1]\n      else:\n        raise E('t') from e\n    try:\n" ++
  "      x += f([1], k=\x7b1: 2\x7d)\n    except E as e:\n      pass\n" ++
  "    except:\n      pass\n    else:\n" ++
  "      a = b, c = 1.5, None\n    finally:\n      assert x, 'no'\n"

theorem parseModule_formatted_assorted :
    ∃ p, (parseModule "m" assorted).1 = .ok p ∧ p.root.Clear ∧ p.root.levels ≤ maxDepth ∧
      ∃ q, (parseModule "m"
        (p.root.formatted { indentStyle := "tabs", spaceAroundOps := false })).1 = .ok q ∧
        q.root.erase = p.root.erase := by
  obtain ⟨p, hp, hall⟩ : ∃ p, (parseModule "m" assorted).1 = .ok p ∧
      decide (p.root.Clear ∧ p.root.levels ≤ maxDepth) = true := exists_of_any (by decide +kernel)
  obtain ⟨hclear, hlevels⟩ := of_decide_eq_true hall
  exact ⟨p, hp, hclear, hlevels, (parseModule_formatted (by decide) hp hclear "m").1 hlevels⟩

/-! ## Single expressions -/

section Expressions

variable {α : Type}

/-- The text of an expression that has a line to itself. -/
def Expr.printed (spaced : Bool) (e : Expr α) : Text := Text.ofChars (Format.expr spaced .top e)

/-- What is written of a clear expression is read as the expression, if the reader can nest as
deep. -/
theorem parseExpression_written (spaced : Bool) {e : Expr α} (h : e.WellFormed) (hclear : e.Clear)
    (file : Text) :
    ((placed spaced .top e).levels ≤ maxDepth →
      ∃ p, parseExpression file (e.printed spaced) = (.ok p, []) ∧
        p.root.erase = .expression () e.erase) ∧
      (maxDepth < (placed spaced .top e).levels →
        ∃ token, (parseExpression file (e.printed spaced)).1 =
        .error ((Fault.placed .unexpectedToken token .nestingTooDeep).diagnostic file)) := by
  have hrow : IsRow (Format.expr spaced .top e) _ := isRow_expr .top nofun h
  obtain ⟨hok, hfault⟩ := runs_singleExpression (listed_placed h hclear) (hrow.line.faces_start {})
  constructor
  · intro hlevels
    obtain ⟨m, r, s, hrun, hr⟩ := hok hlevels
    refine ⟨⟨.expression m r, s.arena⟩, ?_, congrArg (Root.expression ()) hr⟩
    unfold parseExpression Parse.run Expr.printed
    rw [hrun]
  · intro hlevels
    obtain ⟨_, hrun, token, rfl⟩ := hfault hlevels
    refine ⟨token, ?_⟩
    unfold parseExpression Parse.run Expr.printed
    rw [hrun]

/-- **A written chain of comparisons is read as the chain**: the same operators between the same
operands, whatever these are, and whether blanks stand around the operators or not. What is left out
are the fields of f-strings and negations after `is`, and what may fail is that an operand is nested
too deeply. -/
theorem parseExpression_comparison (spaced : Bool) {m : α} {left : Expr α}
    {rest : List (CompareOp × Expr α)}
    (h : (Expr.compare m left rest).WellFormed) (hclear : (Expr.compare m left rest).Clear)
    (file : Text) :
    (levels (.compare m left rest) ≤ maxDepth →
        ∃ p, parseExpression file ((Expr.compare m left rest).printed spaced) = (.ok p, []) ∧
          p.root.erase = .expression ()
            (.compare () left.erase (rest.map fun (op, e) => (op, e.erase)))) ∧
      (maxDepth < levels (.compare m left rest) →
        ∃ token, (parseExpression file ((Expr.compare m left rest).printed spaced)).1 =
          .error ((Fault.placed .unexpectedToken token .nestingTooDeep).diagnostic file)) := by
  have hwritten := parseExpression_written spaced h hclear file
  rwa [Expr.erase_compare] at hwritten

/-- A chain of comparisons with operands of many kinds. -/
def manyOperands : Text :=
  "(a < b) == (lambda x: x) is not (not c) not in -d.e >= (f or g) != (h > i > j)"

/-- Whether a tree is a clear chain of comparisons with the given operators, and can be read. -/
def Root.comparesBy (ops : List CompareOp) (r : Root Mark) : Bool :=
  match r with
  | .expression _ (.compare m left rest) =>
    rest.map Prod.fst = ops && decide r.Clear && Format.levels (.compare m left rest) ≤ maxDepth
  | _ => false

theorem parseExpression_comparison_manyOperands :
    ∃ (m : Mark) (left : Expr Mark) (rest : List (CompareOp × Expr Mark)),
      rest.map Prod.fst = [.eq, .isNot, .notIn, .gtE, .notEq] ∧
        ∃ p, parseExpression "m" ((Expr.compare m left rest).printed false) = (.ok p, []) ∧
          p.root.erase = .expression ()
            (.compare () left.erase (rest.map fun (op, e) => (op, e.erase))) := by
  obtain ⟨q, hq, hall⟩ : ∃ q, (parseExpression "m" manyOperands).1 = .ok q ∧
      q.root.comparesBy [.eq, .isNot, .notIn, .gtE, .notEq] = true :=
        exists_of_any (by decide +kernel)
  obtain ⟨m', body, hroot, hbody⟩ := isExpression_of_parseExpression hq
  rw [hroot] at hall
  cases body with
  | compare m left rest =>
    simp only [Root.comparesBy, Bool.and_eq_true, decide_eq_true_eq] at hall
    obtain ⟨⟨hops, hclear⟩, hlevels⟩ := hall
    exact ⟨m, left, rest, hops, (parseExpression_comparison false hbody hclear "m").1 hlevels⟩
  | _ => cases hall

end Expressions

end Toolchain

import Toolchain.Format.Page
import Toolchain.Proofs.Format.ReadBack
import Toolchain.Proofs.Parser.Suites
import Toolchain.Proofs.Token.Segment

/-!
# The lines of a page

A page is text in which every line of the program begins with its indentation and a token, and in
which there may be blank lines. Its tokens are those of its lines, with the newlines and the
indentation between them.

## Main definitions

* `Format.IsRow`: the characters of a part of a line and the tokens that they are read as
* `Format.IsLine`: the characters of a line and the tokens that they are read as
* `Format.Sheet`: the characters of lines, and of blank lines between them

## Main results

* `Format.Sheet.faces_start`: what the parser sees of a page
-/

namespace Toolchain

namespace Lexer

open Lexeme

variable {front bare : Bool} {depth : Nat} {c : Char} {cs rest : List Char} {ps qs : List Piece}
  {fs : List Face}

/-- Pieces within a line in front of a blank have no comment among them, for it would take the
blank. -/
theorem Inline.ne_comment (h : Inline qs fs)
    (hcuts : Cuts depth front bare cs (qs ++ [.blank ' '])) :
    ∀ x ∈ fs, x.1 ≠ .comment := by
  induction h generalizing depth front bare cs with
  | nil => nofun
  | blank c _ ih =>
    cases hcuts with
    | blank _ _ h => exact ih h
  | @token x qs fs hqs ih =>
    cases hcuts with
    | @token _ _ c rest _ _ _ _ _ _ h =>
      refine List.forall_mem_cons.mpr ⟨fun hcomment => ?_, ih h⟩
      have hfollows := follows_comment hcomment
      have hpieces := h.eq_cut
      generalize (next c rest).rest = after at hpieces hfollows
      cases after with
      | nil => cases hqs <;> cases hpieces
      | cons d after =>
        obtain rfl := hfollows d rfl
        -- a newline is neither a blank nor a token
        rw [cut_cons (not_joined (by decide) _), if_pos rfl] at hpieces
        split at hpieces <;> cases hqs <;> cases hpieces

/-- Where a line of the program begins its indentation has been read. -/
theorem margin_of_visible (h : Cuts depth front bare (c :: rest) ps) (hspace : isSpace c = false)
    (hcomment : c ≠ '#') (blanks : List Char) (p : Position) :
    (margin blanks p ps).face = (.indentation, String.ofList blanks.reverse) := by
  generalize hcs : c :: rest = cs at h
  cases h with
  | nil => cases hcs
  | joined | enclosed | token => rfl
  | ending h =>
    obtain ⟨rfl, -⟩ := List.cons.inj hcs
    cases hspace
  | blank bare hc h =>
    obtain ⟨rfl, -⟩ := List.cons.inj hcs
    rw [isSpace, hc, Bool.or_true] at hspace
    cases hspace
  | hidden bare h =>
    obtain ⟨rfl, -⟩ := List.cons.inj hcs
    exact absurd rfl hcomment

section Blanks

variable {blanks : List Char} (hblanks : ∀ c ∈ blanks, c = ' ' ∨ c = '\t')

include hblanks

theorem cuts_blanks (h : ∀ bare, Cuts depth front bare cs ps) (bare : Bool) :
    Cuts depth front bare (blanks ++ cs) (blanks.map Piece.blank ++ ps) := by
  induction blanks generalizing bare with
  | nil => exact h bare
  | cons c blanks ih =>
    obtain ⟨hc, hblanks⟩ := List.forall_mem_cons.mp hblanks
    refine .blank bare ?_ (ih hblanks false)
    rcases hc with rfl | rfl <;> rfl

theorem margin_blanks (before : List Char) (p : Position) (ps : List Piece) :
    ∃ p', margin before p (blanks.map Piece.blank ++ ps) =
      margin (blanks.reverse ++ before) p' ps := by
  induction blanks generalizing before p with
  | nil => exact ⟨p, rfl⟩
  | cons c blanks ih =>
    obtain ⟨hc, hblanks⟩ := List.forall_mem_cons.mp hblanks
    obtain ⟨p', hp'⟩ := ih hblanks (c :: before) (p.next c)
    refine ⟨p', ?_⟩
    rw [List.map_cons, List.cons_append, margin, if_pos hc, hp', List.reverse_cons,
      List.append_assoc]
    rfl

end Blanks

theorem render_blanks (blanks : List Char) (p : Position) (ps : List Piece) :
    ∃ p', render p (blanks.map Piece.blank ++ ps) = render p' ps := by
  induction blanks generalizing p with
  | nil => exact ⟨p, rfl⟩
  | cons c blanks ih =>
    obtain ⟨p', hp'⟩ := ih (p.after [c])
    exact ⟨p', hp'⟩

end Lexer

namespace Format

open Lexer Parse

/-! ## Rows -/

/-- Characters that begin with a token and are read as some tokens wherever they stand in a line. -/
structure IsRow (cs : List Char) (fs : List Face) : Prop where
  starts : Starts cs
  spells : Spells afterLiteral cs fs

variable {cs ds : List Char} {fs gs : List Face} {ls ls' : List Line} {indent : List Char}

theorem Starts.visible (h : Starts cs) :
    ∃ c rest, cs = c :: rest ∧ isSpace c = false ∧ c ≠ '#' := by
  obtain ⟨c, rest, rfl, hc⟩ := h
  refine ⟨c, rest, rfl, ?_, ?_⟩
  · rw [Bool.eq_false_iff]
    intro hspace
    have hcases : c = '\n' ∨ c = ' ' ∨ c = '\t' ∨ c = '\r' ∨ c = '\x0C' := by
      simpa [isSpace, isBlank, or_assoc] using hspace
    rcases hcases with rfl | rfl | rfl | rfl | rfl <;> exact absurd hc (by decide)
  · rintro rfl
    exact absurd hc (by decide)

/-- A character that ends a line, or stands behind what is written on it. -/
def afterLine (c : Char) : Bool := c == ' ' || c == '\n'

/-- Characters that begin with a token and are read as some tokens when they are a whole line. -/
structure IsLine (cs : List Char) (fs : List Face) : Prop where
  starts : Starts cs
  spells : Spells afterLine cs fs

theorem IsRow.line (h : IsRow cs fs) : IsLine cs fs where
  starts := h.starts
  spells := h.spells.mono fun c hc => by
    have hcases : c = ' ' ∨ c = '\n' := by simpa [afterLine] using hc
    rcases hcases with rfl | rfl <;> rfl

theorem IsLine.ne_comment (h : IsLine cs fs) : ∀ x ∈ fs, x.1 ≠ .comment := by
  obtain ⟨qs, hinline, hcuts⟩ :=
    h.spells 0 [' '] [.blank ' '] (.cons rfl _) (.blank false rfl (.nil 0 false false))
  exact hinline.ne_comment hcuts

/-- What a line at a level begins with. -/
def margin (indent : List Char) (level : Nat) : String :=
  String.ofList (List.replicate level indent).flatten

theorem toList_margin (level : Nat) :
    (margin indent level).toList = (List.replicate level indent).flatten :=
  String.toList_ofList

theorem margin_zero : margin indent 0 = "" := rfl

/-- The characters of lines, and of blank lines between them. -/
inductive Sheet (indent : List Char) : List Char → List Line → Prop where
  | nil : Sheet indent [] []
  | blank {cs : List Char} {ls : List Line} (h : Sheet indent cs ls) : Sheet indent ('\n' :: cs) ls
  | row {ds cs : List Char} {fs : List Face} {ls : List Line} (level : Nat) (hrow : IsLine ds fs)
      (h : Sheet indent cs ls) :
      Sheet indent ((margin indent level).toList ++ (ds ++ '\n' :: cs)) (⟨level, fs⟩ :: ls)

theorem Sheet.append {cs' : List Char} (h : Sheet indent cs ls) (h' : Sheet indent cs' ls') :
    Sheet indent (cs ++ cs') (ls ++ ls') := by
  induction h with
  | nil => exact h'
  | blank _ ih => exact .blank ih
  | row level hrow _ ih =>
    have hsheet := Sheet.row level hrow ih
    simpa using hsheet

theorem Sheet.ne_comment (h : Sheet indent cs ls) :
    ∀ x ∈ lineFaces (margin indent) ls, x.1 ≠ .comment := by
  induction h with
  | nil => exact List.forall_mem_singleton.mpr nofun
  | blank _ ih => exact ih
  | row level hrow _ ih =>
    refine List.forall_mem_append.mpr ⟨hrow.ne_comment, ?_⟩
    exact List.forall_mem_cons.mpr ⟨nofun, List.forall_mem_cons.mpr ⟨nofun, ih⟩⟩

/-- What the parser sees of a text whose first token is not indented. -/
theorem faces_start_of_cuts {ps : List Piece} (hcuts : Cuts 0 true true cs ps)
    (hmargin : (Lexer.margin [] {} ps).face = (.indentation, "")) (arena : Arena) :
    (Parse.start (Text.ofChars cs) arena).faces =
      ((render {} ps).map Token.face).filter fun x => x.1 != .comment := by
  have htokens : (tokenize (Text.ofChars cs)).1 = render {} ps := by
    rw [← Text.chars_ofChars cs] at hcuts
    have hvalue : (Lexer.margin [] {} ps).value = "" := congrArg Prod.snd hmargin
    rw [tokens_of_cuts hcuts, tokensOf]
    simp [hvalue]
  show ((tokenize (Text.ofChars cs)).1.filter fun x => x.kind != .comment).map Token.face = _
  rw [htokens, List.filter_map]
  rfl

section Tokens

variable (hindent : ∀ c ∈ indent, c = ' ' ∨ c = '\t')

include hindent

theorem mem_margin (level : Nat) : ∀ c ∈ (margin indent level).toList, c = ' ' ∨ c = '\t' := by
  intro c hc
  rw [toList_margin, List.mem_flatten] at hc
  obtain ⟨l, hl, hc⟩ := hc
  rw [List.eq_of_mem_replicate hl] at hc
  exact hindent c hc

/-- The pieces of a page: in front of each line its indentation, and behind it a newline. -/
theorem Sheet.exists_pieces (h : Sheet indent cs ls) :
    ∃ ps, Cuts 0 true true cs ps ∧ ∀ p : Position,
      (Lexer.margin [] p ps).face = (.indentation, margin indent (firstLevel ls)) ∧
        (render p ps).map Token.face = lineFaces (margin indent) ls := by
  induction h with
  | nil => exact ⟨[], .nil 0 true true, fun p => ⟨rfl, rfl⟩⟩
  | blank _ ih =>
    obtain ⟨ps, hcuts, hps⟩ := ih
    exact ⟨.ending false :: ps, .ending hcuts, fun p => hps (p.next '\n')⟩
  | @row ds cs fs ls level hrow _ ih =>
    obtain ⟨ps, hcuts, hps⟩ := ih
    have hbehind : Cuts 0 false false ('\n' :: cs) (.ending true :: ps) := .ending hcuts
    obtain ⟨qs, hinline, hline⟩ := hrow.spells 0 ('\n' :: cs) _ (.cons rfl cs) hbehind
    obtain ⟨c, rest, rfl, hspace, hcomment⟩ := hrow.starts.visible
    have hblanks := mem_margin hindent level
    refine ⟨(margin indent level).toList.map Piece.blank ++ (qs ++ .ending true :: ps),
      cuts_blanks hblanks (hline.anew hspace hcomment true) true, fun p => ?_⟩
    constructor
    · obtain ⟨p', hp'⟩ := margin_blanks hblanks [] p (qs ++ .ending true :: ps)
      rw [hp', margin_of_visible hline hspace hcomment, List.append_nil, List.reverse_reverse,
        String.ofList_toList]
      rfl
    · obtain ⟨p', hp'⟩ := render_blanks (margin indent level).toList p (qs ++ .ending true :: ps)
      rw [hp', hinline.render, lineFaces, render, List.map_cons, List.map_cons]
      obtain ⟨hfirst, hrest⟩ := hps ((p'.after (qs.flatMap Piece.text)).next '\n')
      rw [hfirst, hrest]
      rfl

/-- **What the parser sees of a page** whose first line is not indented. -/
theorem Sheet.faces_start (h : Sheet indent cs ls) (hfirst : firstLevel ls = 0) (arena : Arena) :
    (Parse.start (Text.ofChars cs) arena).faces = lineFaces (margin indent) ls := by
  obtain ⟨ps, hcuts, hps⟩ := h.exists_pieces hindent
  obtain ⟨hmargin, hrender⟩ := hps {}
  rw [hfirst] at hmargin
  rw [faces_start_of_cuts hcuts hmargin, hrender, List.filter_eq_self]
  intro x hx
  simpa using h.ne_comment x hx

end Tokens

/-- What the parser sees of a text that is a single line. -/
theorem IsLine.faces_start (h : IsLine cs fs) (arena : Arena) :
    (Parse.start (Text.ofChars cs) arena).faces = fs ++ [endFace] := by
  obtain ⟨qs, hinline, hcuts⟩ := h.spells 0 [] [] nofun (.nil 0 false false)
  have hvisible := h.ne_comment
  obtain ⟨c, rest, rfl, hspace, hcomment⟩ := h.starts.visible
  rw [List.append_nil] at hcuts
  have hmargin := margin_of_visible hcuts hspace hcomment [] {}
  rw [List.append_nil] at hcuts hmargin
  have hrender := hinline.render {} []
  rw [List.append_nil] at hrender
  rw [faces_start_of_cuts (hcuts.anew hspace hcomment true true) hmargin, hrender]
  show List.filter _ (fs ++ [endFace]) = fs ++ [endFace]
  rw [List.filter_eq_self]
  intro x hx
  rcases List.mem_append.mp hx with hx | hx
  · simpa using hvisible x hx
  · obtain rfl := List.mem_singleton.mp hx
    rfl

end Format

end Toolchain

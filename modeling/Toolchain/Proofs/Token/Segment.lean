import Toolchain.Proofs.Text.Utf8
import Toolchain.Proofs.Token.Lookahead
import Toolchain.Proofs.Token.Order

/-!
# Texts one behind the other

No token reads on over a space, unless the token is invalid or a comment. So what is put behind a
text does not change how the text is cut, if it begins with a blank or a newline.

A text without the end of a line is cut in the same way wherever it stands in a line, and so is what
stands behind it. Which brackets are open decides only whether a newline is one of those between the
lines of the program, and in a text without the end of a line none is.

## Main definitions

* `Lexer.Segment`: characters that have the same tokens wherever they stand in a line

## Main results

* `Text.chars_append_ascii`: the characters of two texts, one behind the other
* `Lexeme.next_append`: a token in front of a space
* `Lexer.Cuts.segment`: a text in front of such characters
* `Lexer.faces_tokensOf`: what the grammar sees of pieces without the end of a line
-/

namespace Toolchain

/-! ## Characters -/

namespace Text

/-- A byte that goes on with no character is no part of one of several bytes. -/
theorem leading?_append {d : UInt8} (hd : continuation? d = none) (b : UInt8) (rest u : Text) :
    leading? (b :: (rest ++ d :: u)) = leading? (b :: rest) := by
  unfold leading?
  rcases rest with _ | ⟨b₁, _ | ⟨b₂, _ | ⟨b₃, rest⟩⟩⟩
  · rcases u with _ | ⟨u₁, _ | ⟨u₂, u⟩⟩ <;> simp [hd]
  · rcases u with _ | ⟨u₁, u⟩ <;> cases h₁ : continuation? b₁ <;> simp [hd, h₁]
  · cases h₁ : continuation? b₁ <;> cases h₂ : continuation? b₂ <;> simp [hd, h₁, h₂]
  · rfl

theorem width_of_wide? {code least width w : Nat} {c : Char}
    (h : wide? code least width = some (c, w)) : w = width := by
  unfold wide? at h
  by_cases hvalid : code.isValidChar
  · rw [dif_pos hvalid] at h
    by_cases hleast : least ≤ code
    · rw [if_pos hleast] at h
      exact (Prod.mk.inj (Option.some.inj h)).2.symm
    · rw [if_neg hleast] at h
      cases h
  · rw [dif_neg hvalid] at h
    cases h

/-- A character takes no more bytes than there are. -/
theorem width_le_of_leading? {t : Text} {c : Char} {w : Nat} (h : leading? t = some (c, w)) :
    w ≤ t.length := by
  unfold leading? at h
  split at h
  · cases h
  · rename_i b rest
    split at h
    · rw [width_of_wide? h]
      exact Nat.succ_le_succ (Nat.zero_le _)
    split at h
    · cases h
    split at h
    · split at h
      · simp only [Option.bind_eq_bind, Option.bind_eq_some_iff] at h
        obtain ⟨x₁, -, h⟩ := h
        rw [width_of_wide? h]
        simp
      · cases h
    split at h
    · split at h
      · simp only [Option.bind_eq_bind, Option.bind_eq_some_iff] at h
        obtain ⟨x₁, -, x₂, -, h⟩ := h
        rw [width_of_wide? h]
        simp
      · cases h
    split at h
    · split at h
      · simp only [Option.bind_eq_bind, Option.bind_eq_some_iff] at h
        obtain ⟨x₁, -, x₂, -, x₃, -, h⟩ := h
        rw [width_of_wide? h]
        simp
      · cases h
    · cases h

theorem glyphsFrom_append {d : UInt8} (hd : continuation? d = none) (skip : Nat) (t u : Text)
    (hskip : skip ≤ t.length) :
    glyphsFrom skip (t ++ d :: u) = glyphsFrom skip t ++ glyphsFrom 0 (d :: u) := by
  induction t generalizing skip with
  | nil =>
    obtain rfl : skip = 0 := Nat.le_zero.mp hskip
    rfl
  | cons b rest ih =>
    cases skip with
    | succ skip => exact ih skip (Nat.le_of_succ_le_succ hskip)
    | zero =>
      rw [List.cons_append, glyphsFrom, glyphsFrom, leading?_append hd]
      cases hleading : leading? (b :: rest) with
      | none => exact congrArg _ (ih 0 (Nat.zero_le _))
      | some read =>
        obtain ⟨c, w⟩ := read
        have hw := width_le_of_leading? hleading
        rw [List.length_cons] at hw
        exact congrArg _ (ih (w - 1) (by omega))

/-- The characters of a text and of another one behind it that begins with a character of one
byte. -/
theorem chars_append_ascii (t : Text) {d : UInt8} (hd : d < 128) (u : Text) :
    (t ++ d :: u).chars = t.chars ++ chars (d :: u) := by
  have hnone : continuation? d = none := by
    rw [continuation?, if_neg fun h => absurd h.1 (UInt8.not_le.mpr hd)]
  rw [chars, glyphs, glyphsFrom_append hnone 0 t u (Nat.zero_le _), List.map_append]
  rfl

end Text

/-! ## Tokens -/

namespace Lexer

theorem takeWhile_append_of_follows {p : Char → Bool} {ds : List Char}
    (h : Follows (fun c => !p c) ds) (cs : List Char) :
    (cs ++ ds).takeWhile p = cs.takeWhile p := by
  induction cs with
  | nil => simpa using (takeWhile_of_follows (List.forall_mem_nil _) h).1
  | cons c cs ih => rw [List.cons_append, List.takeWhile_cons, List.takeWhile_cons, ih]

theorem dropWhile_append_of_follows {p : Char → Bool} {ds : List Char}
    (h : Follows (fun c => !p c) ds) (cs : List Char) :
    (cs ++ ds).dropWhile p = cs.dropWhile p ++ ds := by
  induction cs with
  | nil => simpa using (takeWhile_of_follows (List.forall_mem_nil _) h).2
  | cons c cs ih =>
    rw [List.cons_append, List.dropWhile_cons, List.dropWhile_cons, ih]
    split <;> rfl

end Lexer

namespace Lexeme

open Lexer

/-- A token in front of more characters. -/
def before (x : Lexeme) (ds : List Char) : Lexeme := { x with rest := x.rest ++ ds }

/-- No token begins with a backslash. -/
theorem ne_slash_of_next {c : Char} {rest : List Char} (h : (next c rest).kind ≠ .invalid) :
    c ≠ '\\' := by
  rintro rfl
  unfold next at h
  split at h <;> exact h rfl

/-- **A token does not read on over a space**, unless it is invalid, or a comment that goes on to
the end of the text. -/
theorem next_append {c : Char} {ds : List Char} (rest : List Char)
    (h : (next c rest).kind ≠ .invalid)
    (hds : Follows isSpace ds)
    (hcomment : (next c rest).kind = .comment → (next c rest).rest = [] → Follows (· == '\n') ds) :
    next c (rest ++ ds) = (next c rest).before ds := by
  have hparts := (taken_next c rest).parts
  obtain ⟨as, htaken, hlocal⟩ := isLocal_next c rest
  rw [htaken] at hparts
  have hrest : as ++ (next c rest).rest = rest := (List.cons.inj hparts).2
  have hpermits : (next c rest).Permits ((next c rest).rest ++ ds) := by
    cases hmore : (next c rest).rest with
    | cons d more =>
      refine .same ?_
      rw [hmore]
      rfl
    | nil =>
      refine .alike ?_ (fun hkind => hcomment hkind hmore) fun fault hfault => ?_
      · rw [hmore, List.nil_append, glance_eq_none hds]
        rfl
      · -- nothing is wrong with a valid token
        have hvalid := (form_next c rest).isSome_fault
        rw [Option.mem_def.mp hfault] at hvalid
        exact absurd (beq_iff_eq.mp hvalid.symm) h
  have heq := hlocal _ hpermits
  rw [← List.append_assoc, hrest] at heq
  exact heq

end Lexeme

/-! ## Segments of a line -/

/-- What the grammar sees of a piece: a token has a face, and nothing else has. -/
def Piece.face? : Piece → Option Face
  | .token x => some x.face
  | _ => none

namespace Lexer

open Lexeme

/-- Characters that are read as tokens with some faces wherever they stand in a line, and with which
the line does not end. -/
def Segment (cs : List Char) (fs : List Face) : Prop :=
  ∀ depth bare, ∃ ps, Cuts depth false bare cs ps ∧ ps.filterMap Piece.face? = fs ∧
    .ending true ∉ ps

theorem depthAfter_mono {n m : Nat} (h : n ≤ m) (k : TokenKind) :
    depthAfter n k ≤ depthAfter m k := by
  unfold depthAfter
  split
  · exact Nat.succ_le_succ h
  · exact Nat.sub_le_sub_right h 1
  · exact h

theorem segment_nil : Segment [] [] :=
  fun depth bare => ⟨[], .nil depth false bare, rfl, List.not_mem_nil⟩

theorem Segment.blank {cs : List Char} {fs : List Face} (h : Segment cs fs) :
    Segment (' ' :: cs) fs := by
  intro depth bare
  obtain ⟨ps, hcuts, hfaces, hclosed⟩ := h depth false
  exact ⟨.blank ' ' :: ps, .blank bare rfl hcuts, hfaces, by simpa using hclosed⟩

theorem Inline.face? {ps : List Piece} {fs : List Face} (h : Inline ps fs) :
    ps.filterMap Piece.face? = fs ∧ .ending true ∉ ps := by
  induction h with
  | nil => exact ⟨rfl, List.not_mem_nil⟩
  | blank c _ ih => exact ⟨ih.1, by simpa using ih.2⟩
  | token x _ ih => exact ⟨congrArg (x.face :: ·) ih.1, by simpa using ih.2⟩

/-- Characters behind a blank that are read as tokens, in front of a segment. -/
theorem Spells.segment {stop : Char → Bool} {cs ds : List Char} {fs gs : List Face}
    (h : Spells stop cs fs) (hds : Segment ds gs) (hfollows : Follows stop ds) :
    Segment (' ' :: (cs ++ ds)) (fs ++ gs) := by
  intro depth bare
  obtain ⟨ps, hcuts, hfaces, hclosed⟩ := hds depth false
  obtain ⟨qs, hinline, hcuts'⟩ := h depth ds ps hfollows hcuts
  obtain ⟨hfaces', hclosed'⟩ := hinline.face?
  refine ⟨.blank ' ' :: (qs ++ ps), .blank bare rfl hcuts', ?_, ?_⟩
  · rw [← hfaces, ← hfaces', ← List.filterMap_append]
    rfl
  · simp [hclosed, hclosed']

/-- Where a token begins, or a backslash that hides a newline, nothing depends on what stands before
in the line. -/
theorem Cuts.anew {depth : Nat} {front bare : Bool} {c : Char} {rest : List Char} {ps : List Piece}
    (h : Cuts depth front bare (c :: rest) ps) (hspace : isSpace c = false) (hcomment : c ≠ '#')
    (front' bare' : Bool) : Cuts depth front' bare' (c :: rest) ps := by
  generalize hcs : c :: rest = cs at h
  cases h with
  | nil => cases hcs
  | joined front bare hjoined h => exact .joined front' bare' hjoined h
  | enclosed bare hdepth h =>
    obtain ⟨rfl, -⟩ := List.cons.inj hcs
    cases hspace
  | ending h =>
    obtain ⟨rfl, -⟩ := List.cons.inj hcs
    cases hspace
  | blank bare hc h =>
    obtain ⟨rfl, -⟩ := List.cons.inj hcs
    rw [isSpace, hc, Bool.or_true] at hspace
    cases hspace
  | hidden bare h =>
    obtain ⟨rfl, -⟩ := List.cons.inj hcs
    exact absurd rfl hcomment
  | token bare hnewline hblank hnone hjoined h =>
    obtain ⟨rfl, rfl⟩ := List.cons.inj hcs
    exact .token bare' hnewline hblank (fun _ => hcomment) hjoined h

/-- **A text in front of a segment**, where at least as many brackets are open: if the text has no
invalid token, does not end a line, and does not end with a comment, its tokens are followed by
those of the segment. -/
theorem Cuts.segment {depth : Nat} {front bare : Bool} {cs ds : List Char} {ps : List Piece}
    {gs : List Face} (h : Cuts depth front bare cs ps) (hfront : front = false)
    (hvalid : ∀ x, .token x ∈ ps → x.kind ≠ .invalid) (hclosed : .ending true ∉ ps)
    (hlast : ∀ x, ps.getLast? = some (.token x) → x.kind ≠ .comment) (hspace : Follows isSpace ds)
    (hds : Segment ds gs) {depth' : Nat} (hle : depth ≤ depth') :
    ∃ qs, Cuts depth' false bare (cs ++ ds) qs ∧
      qs.filterMap Piece.face? = ps.filterMap Piece.face? ++ gs ∧ .ending true ∉ qs := by
  -- what holds of all pieces holds of those behind the first one
  have hbehind {p : Piece} {ps : List Piece} (hlast : ∀ x, (p :: ps).getLast? = some (.token x) →
      x.kind ≠ .comment) (x : Lexeme) (hx : ps.getLast? = some (.token x)) : x.kind ≠ .comment :=
    hlast x (by rw [List.getLast?_cons, hx]; rfl)
  induction h generalizing depth' with
  | nil depth front bare => exact hds depth' bare
  | joined front bare hcs _ ih =>
    obtain ⟨qs, hcuts, hfaces, hclosed'⟩ :=
      ih rfl (fun x hx => hvalid x (List.mem_cons_of_mem _ hx))
      (fun h => hclosed (List.mem_cons_of_mem _ h)) (hbehind hlast) hle
    rw [List.append_assoc]
    exact ⟨_, .joined false bare hcs hcuts, hfaces, by simpa using hclosed'⟩
  | enclosed bare hdepth _ ih =>
    obtain ⟨qs, hcuts, hfaces, hclosed'⟩ := ih hfront
      (fun x hx => hvalid x (List.mem_cons_of_mem _ hx))
      (fun h => hclosed (List.mem_cons_of_mem _ h)) (hbehind hlast) hle
    exact ⟨_, .enclosed bare (Nat.lt_of_lt_of_le hdepth hle) hcuts, hfaces, by simpa using hclosed'⟩
  | @ending front bare rest ps _ ih =>
    subst hfront
    cases bare with
    | false => exact absurd List.mem_cons_self hclosed
    | true =>
      obtain ⟨qs, hcuts, hfaces, hclosed'⟩ := ih rfl
        (fun x hx => hvalid x (List.mem_cons_of_mem _ hx))
        (fun h => hclosed (List.mem_cons_of_mem _ h)) (hbehind hlast) hle
      -- an empty line behind a hidden newline is as good as one in brackets
      by_cases hdepth : 0 < depth'
      · exact ⟨_, .enclosed true hdepth hcuts, hfaces, by simpa using hclosed'⟩
      · obtain rfl : depth' = 0 := by omega
        exact ⟨_, .ending hcuts, hfaces, by simpa using hclosed'⟩
  | blank bare hc _ ih =>
    obtain ⟨qs, hcuts, hfaces, hclosed'⟩ := ih hfront
      (fun x hx => hvalid x (List.mem_cons_of_mem _ hx))
      (fun h => hclosed (List.mem_cons_of_mem _ h)) (hbehind hlast) hle
    exact ⟨_, .blank bare hc hcuts, hfaces, by simpa using hclosed'⟩
  | hidden => cases hfront
  | @token depth front c rest ps bare hnewline hblank hcomment hjoined h ih =>
    subst hfront
    have hkind := hvalid _ List.mem_cons_self
    have hnext : next c (rest ++ ds) = (next c rest).before ds := by
      refine next_append rest hkind hspace fun hcomment hnil => ?_
      rw [hnil] at h
      obtain rfl : ps = [] := h.eq_cut.symm
      exact absurd hcomment (hlast _ rfl)
    obtain ⟨qs, hcuts, hfaces, hclosed'⟩ := ih rfl
      (fun x hx => hvalid x (List.mem_cons_of_mem _ hx))
      (fun h => hclosed (List.mem_cons_of_mem _ h)) (hbehind hlast)
      (depthAfter_mono hle (next c rest).kind)
    have htoken : Cuts depth' false bare (c :: (rest ++ ds))
        (.token ((next c rest).before ds) :: qs) := by
      rw [← hnext]
      refine .token bare hnewline hblank nofun (fun _ hc => ne_slash_of_next hkind hc.1) ?_
      rw [hnext]
      exact hcuts
    exact ⟨_, htoken, congrArg ((next c rest).face :: ·) hfaces, by simpa using hclosed'⟩

/-! ## What the grammar sees -/

theorem faces_render {ps : List Piece} (hclosed : .ending true ∉ ps) (p : Position) :
    (render p ps).map Token.face = ps.filterMap Piece.face? ++ [(.finish, "")] := by
  fun_induction render p ps with
  | case1 => rfl
  | case2 p x ps ih =>
    exact congrArg (x.face :: ·) (ih fun h => hclosed (List.mem_cons_of_mem _ h))
  | case3 p ps => exact absurd List.mem_cons_self hclosed
  | case4 p q ps hq _ ih =>
    rw [ih fun h => hclosed (List.mem_cons_of_mem _ h)]
    cases q with
    | token x => exact absurd rfl (hq x)
    | _ => rfl

/-- The tokens of a text that begins with a token, or with a hidden newline, and in which no line
ends. -/
theorem faces_tokensOf {depth : Nat} {front bare : Bool} {c : Char} {rest : List Char}
    {ps : List Piece}
    (h : Cuts depth front bare (c :: rest) ps) (hspace : isSpace c = false) (hcomment : c ≠ '#')
    (hclosed : .ending true ∉ ps) :
    (tokensOf ps).map Token.face = ps.filterMap Piece.face? ++ [(.finish, "")] := by
  have hmargin : (margin [] {} ps).value = "" := by
    generalize hcs : c :: rest = cs at h
    cases h with
    | nil => cases hcs
    | joined | enclosed | token => rfl
    | ending h =>
      obtain ⟨rfl, -⟩ := List.cons.inj hcs
      cases hspace
    | blank bare hc h =>
      obtain ⟨rfl, -⟩ := List.cons.inj hcs
      rw [isSpace, hc, Bool.or_true] at hspace
      cases hspace
    | hidden bare h =>
      obtain ⟨rfl, -⟩ := List.cons.inj hcs
      exact absurd rfl hcomment
  unfold tokensOf
  simp only [hmargin]
  exact faces_render hclosed {}

end Lexer

end Toolchain

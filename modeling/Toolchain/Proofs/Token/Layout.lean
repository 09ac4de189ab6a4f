import Toolchain.Proofs.Token.Segment

/-!
# Layout without meaning

What the grammar sees of the tokens of a text are their kinds and values. It does not see how many
blank lines and comments stand between two lines of the program, nor whether a line is broken inside
brackets: a line of blanks and a comment may be put between them, and a newline in brackets may be a
space.

## Main definitions

* `Lexer.Alike`: pieces of which the grammar sees the same
* `Piece.Permits`: what may be put behind a piece in place of what stands there

## Main results

* `Lexer.Cuts.splice`: other characters at the end of a text
* `Lexer.cuts_insert`, `Lexer.cuts_replace`: a blank line, and a space in place of a newline
* `faces_tokenize_layout`: **layout that has no meaning changes no tokens**
-/

namespace Toolchain

namespace Lexer

open Lexeme

/-! ## Pieces that look alike -/

/-- Pieces of which the grammar sees the same wherever they stand, with `depth` open brackets in
front of them: the faces of their tokens and, between lines of the program, the indentation in
front. -/
structure Alike (depth : Nat) (ps qs : List Piece) : Prop where
  render : ∀ p q, (render p ps).map Token.face = (render q qs).map Token.face
  margin : depth = 0 → ∀ blanks p q, (margin blanks p ps).face = (margin blanks q qs).face

variable {depth depth' : Nat} {ps qs : List Piece}

theorem alike_nil (depth : Nat) : Alike depth [] [] := ⟨fun _ _ => rfl, fun _ _ _ _ => rfl⟩

/-- A token in front. -/
theorem Alike.token (h : Alike depth' ps qs) {x y : Lexeme} (hface : x.face = y.face) :
    Alike depth (.token x :: ps) (.token y :: qs) where
  render _ _ := congrArg₂ List.cons hface (h.render _ _)
  margin _ _ _ _ := rfl

/-- A piece in front that is no token. -/
theorem Alike.cons (h : Alike depth ps qs) {q : Piece} (hq : ∀ x, q ≠ .token x)
    (hclosed : q = .ending true → depth = 0) : Alike depth (q :: ps) (q :: qs) where
  render p p' := by
    cases q with
    | token x => exact absurd rfl (hq x)
    | ending closes =>
      cases closes with
      | false => exact h.render _ _
      | true =>
        have hmargin := h.margin (hclosed rfl) [] (p.next '\n') (p'.next '\n')
        exact congrArg₂ List.cons rfl (congrArg₂ List.cons hmargin (h.render _ _))
    | blank | hidden | joined | enclosed => exact h.render _ _
  margin hdepth blanks p p' := by
    cases q with
    | token x => exact absurd rfl (hq x)
    | blank | hidden | ending => exact h.margin hdepth _ _ _
    | joined | enclosed => rfl

theorem Alike.of_zero (h : Alike 0 ps qs) : Alike depth ps qs where
  render := h.render
  margin _ := h.margin rfl

/-- What the grammar sees of pieces does not depend on where they stand. -/
theorem alike_refl (depth : Nat) (ps : List Piece) : Alike depth ps ps := by
  suffices h : Alike 0 ps ps from h.of_zero
  induction ps with
  | nil => exact alike_nil 0
  | cons q ps ih =>
    cases q with
    | token x => exact ih.token rfl
    | blank | hidden | joined | enclosed | ending => exact ih.cons (by simp) fun _ => rfl

/-- The tokens of whole texts. -/
theorem faces_tokensOf_congr
    (hrender : (render {} ps).map Token.face = (render {} qs).map Token.face)
    (hmargin : (margin [] {} ps).face = (margin [] {} qs).face) :
    (tokensOf ps).map Token.face = (tokensOf qs).map Token.face := by
  have hvalue : (margin [] {} ps).value = (margin [] {} qs).value := congrArg Prod.snd hmargin
  unfold tokensOf
  simp only [hvalue]
  rw [List.map_append, List.map_append, hrender]
  split
  · rfl
  · exact congrArg (· :: _) hmargin

end Lexer

/-! ## Other characters at the end -/

namespace Piece

/-- Whether a backslash and the characters behind it hide a newline. -/
def Hides (c : Char) (cs : List Char) : Prop :=
  ∃ after, c = '\\' ∧ (cs = '\r' :: '\n' :: after ∨ cs = '\n' :: after)

/-- What may be put behind a piece in place of what stands there. -/
def Permits (rest rest' : List Char) : Piece → Prop
  | token x => ∀ c cs, x = Lexeme.next c cs → ¬Hides c cs → x.rest = rest → x.Permits rest'
  | hidden _ => rest'.head? = rest.head?
  | _ => True

/-- Whether the newline behind a piece ends a comment or breaks off a string. -/
def awaitsNewline : Piece → Bool
  | hidden _ => true
  | token x => x.kind == .comment || x.fault == some (.entry .newlineInString [])
  | _ => false

theorem permits_of_head? {rest rest' : List Char} (h : rest'.head? = rest.head?) (q : Piece) :
    q.Permits rest rest' := by
  cases q with
  | token x =>
    intro c cs _ _ hrest
    exact .same (h.trans (congrArg List.head? hrest.symm))
  | hidden => exact h
  | blank | joined | enclosed | ending => trivial

end Piece

namespace Lexer

open Lexeme Piece

theorem text_ne_nil {depth : Nat} {front bare : Bool} {cs : List Char} {q : Piece} {ps : List Piece}
    (h : Cuts depth front bare cs (q :: ps)) : q.text ≠ [] := by
  cases h with
  | joined _ _ hcs => rcases hcs with rfl | rfl <;> simp [Piece.text]
  | enclosed | ending | blank | hidden => simp [Piece.text]
  | token => exact (taken_next _ _).some

/-- A backslash that hides no newline hides none in front of what it permits. -/
theorem not_hides_of_permits {c : Char} {cs as ds : List Char} (h : ¬Hides c cs)
    (htaken : (next c cs).taken = [c] ++ as) (hds : (next c cs).Permits ds) :
      ¬Hides c (as ++ ds) := by
  rintro ⟨after, rfl, hafter⟩
  by_cases hreturn : ∃ rest, cs = '\r' :: rest
  · obtain ⟨rest, rfl⟩ := hreturn
    obtain rfl : ['\r'] = as := (List.cons.inj htaken).2
    have hhead : ds.head? = rest.head? := by
      cases hds with
      | same hds => exact hds
      | alike _ _ hfault => exact absurd (by decide) (hfault _ rfl)
    have hds : ds = '\n' :: after := by simpa using hafter
    rw [hds] at hhead
    obtain ⟨rest', rfl⟩ := List.head?_eq_some_iff.mp hhead.symm
    exact h ⟨rest', rfl, .inl rfl⟩
  · have hnext : next '\\' cs = bad ['\\'] ['\\'] cs (.entry .badContinuation []) := by
      unfold next
      split
      · exact absurd ⟨_, rfl⟩ hreturn
      · rfl
      · contradiction
    rw [hnext] at htaken hds
    obtain rfl : [] = as := (List.cons.inj htaken).2
    have hhead : ds.head? = cs.head? := by
      cases hds with
      | same hds => exact hds
      | alike _ _ hfault => exact absurd (by decide) (hfault _ rfl)
    rcases hafter with rfl | rfl
    · exact hreturn (List.head?_eq_some_iff.mp hhead.symm)
    · obtain ⟨rest', rfl⟩ := List.head?_eq_some_iff.mp hhead.symm
      exact h ⟨rest', rfl, .inr rfl⟩

/-- **Other characters at the end of a text**, if what is cut from them looks as what was cut
before, and the last piece in front of them permits them. -/
theorem Cuts.splice {before bs : List Piece} {rest rest' : List Char}
    (hrest : bs.flatMap Piece.text = rest)
    (htail : ∀ depth front bare, Cuts depth front bare rest bs →
      ∃ bs', Cuts depth front bare rest' bs' ∧ Alike depth bs bs')
    (hlast : ∀ q, before.getLast? = some q → q.Permits rest rest') {depth : Nat} {front bare : Bool}
    {cs : List Char} (h : Cuts depth front bare cs (before ++ bs)) :
    ∃ ps, Cuts depth front bare (before.flatMap Piece.text ++ rest') ps ∧
      Alike depth (before ++ bs) ps := by
  induction before generalizing depth front bare cs with
  | nil =>
    obtain rfl : rest = cs := hrest.symm.trans (text_cuts h)
    exact htail depth front bare h
  | cons a before ih =>
    have ih {depth : Nat} {front bare : Bool} {cs : List Char}
        (h : Cuts depth front bare cs (before ++ bs)) := ih (fun q hq => hlast q (by
      rw [List.getLast?_cons, hq]
      rfl)) h
    -- what follows the first piece begins as before, unless that is the last one
    have hfirst {depth : Nat} {front bare : Bool} {cs : List Char}
        (h : Cuts depth front bare cs (before ++ bs)) :
        a.Permits cs (before.flatMap Piece.text ++ rest') := by
      have hcs := text_cuts h
      cases before with
      | nil =>
        obtain rfl : rest = cs := hrest.symm.trans hcs
        exact hlast a rfl
      | cons b before =>
        refine permits_of_head? ?_ a
        obtain ⟨c, more, htext⟩ := List.exists_cons_of_ne_nil (text_ne_nil h)
        rw [← hcs, List.cons_append, List.flatMap_cons, List.flatMap_cons, htext]
        rfl
    rw [List.flatMap_cons, List.append_assoc]
    rw [List.cons_append] at h
    generalize hps : a :: (before ++ bs) = ps at h
    cases h with
    | nil => cases hps
    | joined front bare hcs h =>
      obtain ⟨rfl, rfl⟩ := List.cons.inj hps
      obtain ⟨ps, hcuts, halike⟩ := ih h
      exact ⟨_, .joined front bare hcs hcuts, halike.cons (by simp) (by simp)⟩
    | enclosed bare hdepth h =>
      obtain ⟨rfl, rfl⟩ := List.cons.inj hps
      obtain ⟨ps, hcuts, halike⟩ := ih h
      exact ⟨_, .enclosed bare hdepth hcuts, halike.cons (by simp) (by simp)⟩
    | ending h =>
      obtain ⟨rfl, rfl⟩ := List.cons.inj hps
      obtain ⟨ps, hcuts, halike⟩ := ih h
      exact ⟨_, .ending hcuts, halike.cons (by simp) fun _ => rfl⟩
    | blank bare hc h =>
      obtain ⟨rfl, rfl⟩ := List.cons.inj hps
      obtain ⟨ps, hcuts, halike⟩ := ih h
      exact ⟨_, .blank bare hc hcuts, halike.cons (by simp) (by simp)⟩
    | @hidden _ line _ bare h =>
      obtain ⟨rfl, rfl⟩ := List.cons.inj hps
      obtain ⟨ps, hcuts, halike⟩ := ih h
      have hhead : (before.flatMap Piece.text ++ rest').head? =
          (line.dropWhile (· != '\n')).head? :=
        hfirst h
      have hends : Follows (fun c => !(c != '\n')) (before.flatMap Piece.text ++ rest') := by
        intro d hd
        have hnot := List.head?_dropWhile_not (· != '\n') line
        rw [← hhead, Option.mem_def.mp hd] at hnot
        simpa using hnot
      obtain ⟨htake, hdrop⟩ := takeWhile_of_follows
        (fun c hc => List.all_eq_true.mp List.all_takeWhile c hc) hends
      rw [← hdrop] at hcuts
      have hhidden := Cuts.hidden bare hcuts
      rw [htake] at hhidden
      exact ⟨_, hhidden, halike.cons (by simp) (by simp)⟩
    | @token _ _ c line _ bare hnewline hblank hcomment hjoined h =>
      obtain ⟨rfl, rfl⟩ := List.cons.inj hps
      obtain ⟨ps, hcuts, halike⟩ := ih h
      have hhides : ¬Hides c line := fun ⟨after, hafter⟩ => hjoined after hafter
      have hpermits := hfirst h c line rfl hhides rfl
      obtain ⟨as, htaken, hlocal⟩ := isLocal_next c line
      have hnext := hlocal _ hpermits
      have htoken : Cuts depth front bare (c :: (as ++ (before.flatMap Piece.text ++ rest')))
          (.token (next c (as ++ (before.flatMap Piece.text ++ rest'))) :: ps) := by
        refine .token bare hnewline hblank hcomment ?_ ?_
        · exact fun after hafter => not_hides_of_permits hhides htaken hpermits ⟨after, hafter⟩
        · rw [hnext]
          exact hcuts
      refine ⟨_, ?_, halike.token (y := next c (as ++ (before.flatMap Piece.text ++ rest'))) ?_⟩
      · rw [Piece.text, htaken]
        exact htoken
      · rw [hnext]
        rfl

/-! ## A blank line -/

/-- Pieces in front of others that add nothing that the grammar sees, and forget the blanks in front
of them. -/
structure Skips (ps qs : List Piece) : Prop where
  render : ∀ p q, (render p ps).map Token.face = (render q qs).map Token.face
  margin : ∀ blanks p q, (margin blanks p ps).face = (margin [] q qs).face

/-- Blanks, a comment that may be missing, and a newline. -/
structure IsBlankLine (line : List Char) : Prop where
  exists_parts : ∃ ws note, line = ws ++ (note ++ ['\n']) ∧ (∀ c ∈ ws, c = ' ' ∨ c = '\t') ∧
    (note = [] ∨ ∃ body, note = '#' :: body ∧ '\n' ∉ body)

theorem cuts_blankLine {line after : List Char} {qs : List Piece} (hline : IsBlankLine line)
    (h : Cuts 0 true true after qs) (bare : Bool) :
    ∃ ps, Cuts 0 true bare (line ++ after) ps ∧ Skips ps qs := by
  obtain ⟨ws, note, rfl, hws, hnote⟩ := hline.exists_parts
  clear hline
  have hself := alike_refl 0 qs
  have hending (bare : Bool) : Cuts 0 true bare ('\n' :: after) (.ending false :: qs) := .ending h
  have hskips : Skips (.ending false :: qs) qs :=
    ⟨fun _ _ => hself.render _ _, fun _ _ _ => hself.margin rfl _ _ _⟩
  induction ws generalizing bare with
  | nil =>
    rcases hnote with rfl | ⟨body, rfl, hbody⟩
    · exact ⟨_, hending bare, hskips⟩
    · have hall : ∀ c ∈ body, (c != '\n') = true := by
        intro c hc
        rw [bne_iff_ne]
        rintro rfl
        exact hbody hc
      have hfollows : Follows (fun c => !(c != '\n')) ('\n' :: after) := .cons rfl _
      obtain ⟨htake, hdrop⟩ := takeWhile_of_follows hall hfollows
      have hcuts := hending false
      rw [← hdrop] at hcuts
      have hhidden := Cuts.hidden bare hcuts
      rw [List.nil_append, List.append_assoc, List.cons_append, List.singleton_append]
      exact ⟨_, hhidden, ⟨fun _ _ => hskips.render _ _, fun _ _ _ => hskips.margin [] _ _⟩⟩
  | cons c ws ih =>
    have hblank : isBlank c = true := by
      rcases hws c List.mem_cons_self with rfl | rfl <;> rfl
    obtain ⟨ps, hcuts, hps⟩ := ih false fun c hc => hws c (List.mem_cons_of_mem _ hc)
    exact ⟨_, .blank bare hblank hcuts, ⟨fun _ _ => hps.render _ _, fun _ _ _ => hps.margin _ _ _⟩⟩

/-- What is left behind a newline between the lines of the program. -/
theorem Cuts.of_ending {depth : Nat} {front bare closes : Bool} {cs : List Char} {ps : List Piece}
    (h : Cuts depth front bare cs (.ending closes :: ps)) :
    depth = 0 ∧ closes = (!front && !bare) ∧
      ∃ rest, cs = '\n' :: rest ∧ Cuts 0 (front || !bare) true rest ps := by
  cases h with
  | ending h => exact ⟨rfl, rfl, _, rfl, h⟩

/-- A blank line behind a newline that ends a line of the program. -/
theorem cuts_insert {before bs : List Piece} {depth : Nat} {front bare : Bool}
    {cs after line : List Char}
    (h : Cuts depth front bare cs (before ++ .ending true :: bs))
    (hafter : bs.flatMap Piece.text = after)
    (hline : IsBlankLine line) :
    ∃ ps, Cuts depth front bare (before.flatMap Piece.text ++ '\n' :: (line ++ after)) ps ∧
      Alike depth (before ++ .ending true :: bs) ps := by
  have hhead : ('\n' :: (line ++ after)).head? = ('\n' :: after).head? := rfl
  refine Cuts.splice (by rw [List.flatMap_cons, hafter]; rfl) (fun depth front bare htail => ?_)
    (fun q _ => permits_of_head? hhead q) h
  obtain ⟨rfl, hcloses, rest, hrest, htail⟩ := htail.of_ending
  obtain rfl := (List.cons.inj hrest).2
  obtain ⟨rfl, rfl⟩ : front = false ∧ bare = false := by simpa using hcloses
  obtain ⟨ps, hcuts, hskips⟩ := cuts_blankLine hline htail true
  have hmargin (p q : Position) := (hskips.margin [] (q.next '\n') (p.next '\n')).symm
  refine ⟨.ending true :: ps, .ending hcuts, fun p q => ?_, fun _ _ p q => hmargin p q⟩
  exact congrArg₂ List.cons rfl (congrArg₂ List.cons (hmargin p q) (hskips.render _ _).symm)

/-! ## A space in place of a newline -/

/-- What is left behind a newline in brackets, where it does not matter whether the line of the text
is empty. -/
theorem Cuts.of_enclosed {depth : Nat} {front bare : Bool} {cs : List Char} {ps : List Piece}
    (h : Cuts depth front bare cs (.enclosed :: ps)) (bare' : Bool) :
    0 < depth ∧ ∃ rest, cs = '\n' :: rest ∧ Cuts depth front bare' rest ps := by
  cases h with
  | enclosed _ hdepth h =>
    refine ⟨hdepth, _, rfl, ?_⟩
    cases h with
    | nil => exact .nil _ _ _
    | joined _ _ hcs h => exact .joined _ bare' hcs h
    | enclosed _ hdepth h => exact .enclosed bare' hdepth h
    | ending => exact absurd hdepth (Nat.lt_irrefl 0)
    | blank _ hc h => exact .blank bare' hc h
    | hidden _ h => exact .hidden bare' h
    | token _ hnewline hblank hcomment hjoined h =>
      exact .token bare' hnewline hblank hcomment hjoined h

/-- A space is permitted in place of a newline that ends no comment and breaks off no string. -/
theorem permits_space {q : Piece} (hq : q.awaitsNewline = false) (after : List Char) :
    q.Permits ('\n' :: after) (' ' :: after) := by
  cases q with
  | hidden => cases hq
  | blank | joined | enclosed | ending => trivial
  | token x =>
    rintro c cs rfl hhides hrest
    obtain ⟨hkind, hfault⟩ := Bool.or_eq_false_iff.mp hq
    refine .alike (by rw [hrest]; rfl) (fun h => absurd h (beq_eq_false_iff_ne.mp hkind)) ?_
    intro fault hsome hmem
    have hslash : c ≠ '\\' := by
      rintro rfl
      unfold next at hrest
      split at hrest
      · exact hhides ⟨after, rfl, .inl (congrArg ('\r' :: ·) hrest)⟩
      · exact hhides ⟨after, rfl, .inr hrest⟩
      · contradiction
    have hform := form_next c cs
    have hparts := (taken_next c cs).parts
    generalize next c cs = x at *
    cases hform with
    | slash more rest => exact hslash (List.cons.inj hparts).1.symm
    | quoted | marked | written => cases hsome
    | bad value taken hbackslash hopen =>
      obtain rfl := Option.some.inj hsome
      rcases List.mem_cons.mp hmem with rfl | hmem
      · exact hbackslash rfl
      rcases List.mem_cons.mp hmem with rfl | hmem
      · exact List.cons_ne_nil _ _ (hrest.symm.trans (hopen rfl))
      · obtain rfl := List.mem_singleton.mp hmem
        cases hfault

/-- A space in place of a newline in brackets. -/
theorem cuts_replace {before bs : List Piece} {depth : Nat} {front bare : Bool}
    {cs after : List Char}
    (h : Cuts depth front bare cs (before ++ .enclosed :: bs))
    (hafter : bs.flatMap Piece.text = after)
    (hlast : ∀ q, before.getLast? = some q → q.awaitsNewline = false) :
    ∃ ps, Cuts depth front bare (before.flatMap Piece.text ++ ' ' :: after) ps ∧
      Alike depth (before ++ .enclosed :: bs) ps := by
  have hrest : (Piece.enclosed :: bs).flatMap Piece.text = '\n' :: after := by
    rw [List.flatMap_cons, hafter]
    rfl
  refine Cuts.splice hrest (fun depth front bare htail => ?_)
    (fun q hq => permits_space (hlast q hq) after) h
  obtain ⟨hdepth, rest, hrest, htail⟩ := htail.of_enclosed false
  obtain rfl := (List.cons.inj hrest).2
  have hself := alike_refl 0 bs
  refine ⟨.blank ' ' :: bs, .blank bare rfl htail, fun p q => hself.render _ _, fun hzero => ?_⟩
  omega

/-! ## The newlines of a text -/

/-- Where a newline token stands, a line of the program is ended. -/
theorem exists_ending_of_render {depth : Nat} {front bare : Bool} {cs : List Char} {ps : List Piece}
    (h : Cuts depth front bare cs ps) (p : Position) {x : Token} (hx : x ∈ render p ps)
    (hkind : x.kind = .newLine) :
    ∃ before after, ps = before ++ .ending true :: after ∧
      x.pos = p.after (before.flatMap Piece.text) := by
  have hlater {q : Piece} {ps : List Piece} {p : Position} (ih : ∃ before after,
      ps = before ++ .ending true :: after ∧
        x.pos = (p.after q.text).after (before.flatMap Piece.text)) :
      ∃ before after, q :: ps = before ++ .ending true :: after ∧
        x.pos = p.after (before.flatMap Piece.text) := by
    obtain ⟨before, after, rfl, hpos⟩ := ih
    refine ⟨q :: before, after, rfl, ?_⟩
    rw [List.flatMap_cons, Position.after_append, hpos]
  induction h generalizing p with
  | nil =>
    obtain rfl := List.mem_singleton.mp hx
    cases hkind
  | joined _ _ _ _ ih | enclosed _ _ _ ih | blank _ _ _ ih | hidden _ _ ih => exact hlater (ih _ hx)
  | @ending front bare rest ps _ ih =>
    cases hcloses : (!front && !bare) with
    | false =>
      rw [hcloses] at hx
      exact hlater (ih _ hx)
    | true =>
      rw [hcloses] at hx
      rcases List.mem_cons.mp hx with rfl | hx
      · exact ⟨[], ps, rfl, rfl⟩
      rcases List.mem_cons.mp hx with rfl | hx
      · rw [margin_kind] at hkind
        cases hkind
      · exact hlater (ih _ hx)
  | @token _ _ c rest _ _ _ _ _ _ _ ih =>
    rcases List.mem_cons.mp hx with rfl | hx
    · have hlayout := (taken_next c rest).kind
      rw [show (next c rest).kind = .newLine from hkind] at hlayout
      cases hlayout
    · exact hlater (ih _ hx)

end Lexer

/-- Two heads of the same characters that end at the same position are the same. -/
theorem Position.eq_of_after_eq {p : Position} {cs ds rest rest' : List Char}
    (h : cs ++ rest = ds ++ rest') (hpos : p.after cs = p.after ds) : cs = ds := by
  have hshorter {cs ds more : List Char} (heq : ds = cs ++ more) (hpos : p.after cs = p.after ds) :
      cs = ds := by
    subst heq
    rw [after_append] at hpos
    by_cases hmore : more = []
    · rw [hmore, List.append_nil]
    · have hbefore := before_after (p.after cs) hmore
      rw [← hpos] at hbefore
      exact absurd (Upto.refl _) hbefore.not_upto
  rcases List.append_eq_append_iff.mp h with ⟨more, hmore, -⟩ | ⟨more, hmore, -⟩
  · exact hshorter hmore hpos
  · exact (hshorter hmore hpos.symm).symm

namespace Text

/-- Spaces and tabs, a comment that may be missing, and a newline. -/
def IsBlankLine (line : Text) : Prop :=
  ∃ ws note : Text, line = ws ++ (note ++ [10]) ∧ (∀ b ∈ ws, b = 32 ∨ b = 9) ∧
    (note = [] ∨ ∃ body : Text, note = 35 :: body ∧ 10 ∉ body)

theorem chars_cons {d : UInt8} (hd : d.toNat < 128) (t : Text) :
    chars (d :: t) = chars [d] ++ t.chars := by
  have hvalid : isValid [d] = true := isValid_of_ascii (by simpa using hd)
  exact chars_append hvalid t

theorem chars_append_newline (t u : Text) : (t ++ 10 :: u).chars = t.chars ++ '\n' :: u.chars := by
  rw [chars_append_ascii t (by decide), chars_cons (by decide)]
  rfl

/-- A newline is one byte, and no other character has that byte. -/
theorem newline_notMem_chars {t : Text} (h : 10 ∉ t) : '\n' ∉ t.chars := by
  intro hmem
  obtain ⟨g, hg, heq⟩ := List.mem_map.mp hmem
  have hbytes := flatMap_bytes_glyphsFrom 0 t
  cases g with
  | stray b =>
    have heq : '\uFFFD' = '\n' := heq
    exact absurd heq (by decide)
  | char c =>
    obtain rfl : c = '\n' := heq
    have hnewline : Glyph.bytes (.char '\n') = [10] :=
      ofChars_of_ascii (List.forall_mem_singleton.mpr (by decide))
    have hten : (10 : UInt8) ∈ (glyphsFrom 0 t).flatMap Glyph.bytes :=
      List.mem_flatMap.mpr ⟨_, hg, by rw [hnewline]; exact List.mem_singleton_self 10⟩
    rw [hbytes] at hten
    exact h (List.mem_of_mem_drop hten)

theorem chars_blanks {ws : Text} (hws : ∀ b ∈ ws, b = 32 ∨ b = 9) :
    (∀ b ∈ ws, b.toNat < 128) ∧ ∀ c ∈ ws.chars, c = ' ' ∨ c = '\t' := by
  induction ws with
  | nil => exact ⟨List.forall_mem_nil _, List.forall_mem_nil _⟩
  | cons b ws ih =>
    obtain ⟨hascii, hchars⟩ := ih fun b hb => hws b (List.mem_cons_of_mem _ hb)
    have hb : b.toNat < 128 ∧ (chars [b] = [' '] ∨ chars [b] = ['\t']) := by
      rcases hws b List.mem_cons_self with rfl | rfl
      · exact ⟨by decide, .inl rfl⟩
      · exact ⟨by decide, .inr rfl⟩
    refine ⟨List.forall_mem_cons.mpr ⟨hb.1, hascii⟩, ?_⟩
    rw [chars_cons hb.1]
    intro c hc
    rcases List.mem_append.mp hc with hc | hc
    · rcases hb.2 with hblank | hblank
      · rw [hblank] at hc
        exact .inl (List.mem_singleton.mp hc)
      · rw [hblank] at hc
        exact .inr (List.mem_singleton.mp hc)
    · exact hchars c hc

theorem IsBlankLine.chars {line : Text} (h : line.IsBlankLine) : Lexer.IsBlankLine line.chars := by
  obtain ⟨ws, note, rfl, hws, hnote⟩ := h
  obtain ⟨hascii, hblanks⟩ := chars_blanks hws
  refine ⟨ws.chars, note.chars, ?_, hblanks, ?_⟩
  · rw [chars_append (isValid_of_ascii hascii), chars_append_newline]
    rfl
  · rcases hnote with rfl | ⟨body, rfl, hbody⟩
    · exact .inl rfl
    · exact .inr ⟨body.chars, chars_cons (by decide) body, newline_notMem_chars hbody⟩

/-- A blank line in front of a text. -/
theorem IsBlankLine.chars_append {line : Text} (h : line.IsBlankLine) (t : Text) :
    (line ++ t).chars = line.chars ++ t.chars := by
  obtain ⟨ws, note, rfl, -, -⟩ := h
  rw [← List.append_assoc, chars_append_newline, List.append_assoc, List.singleton_append,
    chars_append_newline, List.append_assoc]
  rfl

end Text

open Lexer

/-- A blank line at the start of a text. -/
theorem faces_tokenize_front {line : Text} (hline : line.IsBlankLine) (t : Text) :
    (tokenize (line ++ t)).1.map Token.face = (tokenize t).1.map Token.face := by
  have hcuts : Cuts 0 true true t.chars (pieces t) := cuts_cut 0 0 true true t.chars
  obtain ⟨ps, hps, hskips⟩ := cuts_blankLine hline.chars hcuts true
  rw [← hline.chars_append] at hps
  rw [tokens_of_cuts hps, tokenize_eq_tokensOf]
  exact faces_tokensOf_congr (hskips.render _ _) (hskips.margin _ _ _)

/-- A blank line behind a newline that is a token. -/
theorem faces_tokenize_insert {line : Text} (hline : line.IsBlankLine)
    {before after : Text} {x : Token}
    (hx : x ∈ (tokenize (before ++ 10 :: after)).1) (hkind : x.kind = .newLine)
    (hpos : x.pos = Position.after {} before.chars) :
    (tokenize (before ++ 10 :: (line ++ after))).1.map Token.face =
      (tokenize (before ++ 10 :: after)).1.map Token.face := by
  have hcuts : Cuts 0 true true (before ++ 10 :: after : Text).chars
      (pieces (before ++ 10 :: after)) :=
    cuts_cut 0 0 true true _
  rw [tokenize_eq_tokensOf, tokensOf] at hx
  have hrender : x ∈ render {} (pieces (before ++ 10 :: after)) := by
    refine (List.mem_append.mp hx).resolve_left fun hfirst => ?_
    split at hfirst
    · cases hfirst
    · rw [List.mem_singleton.mp hfirst, margin_kind] at hkind
      cases hkind
  obtain ⟨ps, qs, hpieces, hplace⟩ := exists_ending_of_render hcuts {} hrender hkind
  rw [hpieces] at hcuts
  have htext := text_cuts hcuts
  rw [Text.chars_append_newline, List.flatMap_append] at htext
  have hbefore : ps.flatMap Piece.text = before.chars :=
    Position.eq_of_after_eq htext (hplace.symm.trans hpos)
  rw [hbefore, List.append_cancel_left_eq] at htext
  obtain ⟨ps', hps', halike⟩ := cuts_insert hcuts (List.cons.inj htext).2 hline.chars
  rw [hbefore, ← hline.chars_append, ← Text.chars_append_newline] at hps'
  rw [tokens_of_cuts hps', tokenize_eq_tokensOf, hpieces]
  exact faces_tokensOf_congr (halike.render _ _).symm (halike.margin rfl _ _ _).symm

/-- A space in place of a newline in brackets. -/
theorem faces_tokenize_replace {before after : Text} {ps qs : List Piece}
    (hpieces : pieces (before ++ 10 :: after) = ps ++ .enclosed :: qs)
    (hbefore : ps.flatMap Piece.text = before.chars)
    (hlast : ∀ q, ps.getLast? = some q → q.awaitsNewline = false) :
    (tokenize (before ++ 32 :: after)).1.map Token.face =
      (tokenize (before ++ 10 :: after)).1.map Token.face := by
  have hcuts : Cuts 0 true true (before ++ 10 :: after : Text).chars
      (pieces (before ++ 10 :: after)) :=
    cuts_cut 0 0 true true _
  rw [hpieces] at hcuts
  have htext := text_cuts hcuts
  rw [Text.chars_append_newline, List.flatMap_append, hbefore, List.append_cancel_left_eq] at htext
  obtain ⟨ps', hps', halike⟩ := cuts_replace hcuts (List.cons.inj htext).2 hlast
  have hspace : (before ++ 32 :: after : Text).chars = before.chars ++ ' ' :: after.chars := by
    rw [Text.chars_append_ascii before (by decide), Text.chars_cons (by decide)]
    rfl
  rw [hbefore, ← hspace] at hps'
  rw [tokens_of_cuts hps', tokenize_eq_tokensOf, hpieces]
  exact faces_tokensOf_congr (halike.render _ _).symm (halike.margin rfl _ _ _).symm

/-- **Layout that has no meaning changes no tokens.** Their kinds and values stay the same when a
line of blanks and a comment is put at the start of a text, or behind a newline that is a token; and
when a space takes the place of a newline in brackets, unless the newline ends a comment, or is one
in a string that may not cross it. -/
theorem faces_tokenize_layout (before after : Text) :
    (∀ line : Text, line.IsBlankLine → (before = [] ∨ ∃ b : Text, before = b ++ [10] ∧
        ∃ x ∈ (tokenize (before ++ after)).1, x.kind = .newLine ∧
          x.pos = Position.after {} b.chars) →
      (tokenize (before ++ (line ++ after))).1.map Token.face =
        (tokenize (before ++ after)).1.map Token.face) ∧
    ∀ ps qs, pieces (before ++ 10 :: after) = ps ++ .enclosed :: qs →
      ps.flatMap Piece.text = before.chars → (∀ q, ps.getLast? = some q → q.awaitsNewline = false) →
        (tokenize (before ++ 32 :: after)).1.map Token.face =
          (tokenize (before ++ 10 :: after)).1.map Token.face := by
  constructor
  · rintro line hline (rfl | ⟨b, rfl, x, hx, hkind, hpos⟩)
    · exact faces_tokenize_front hline after
    · rw [List.append_assoc, List.singleton_append] at hx ⊢
      rw [List.append_assoc, List.singleton_append]
      exact faces_tokenize_insert hline hx hkind hpos
  · intro ps qs hpieces hbefore hlast
    exact faces_tokenize_replace hpieces hbefore hlast

/-- A line ` \t# c` between those of `x` and ` y`, and a line that is broken as `f(1,` and `2)`. -/
theorem faces_tokenize_layout_lines :
    (tokenize ([120, 10] ++ ([32, 9, 35, 32, 99, 10] ++ [32, 121]))).1.map Token.face =
        (tokenize ([120, 10] ++ [32, 121])).1.map Token.face ∧
      (tokenize ([102, 40, 49, 44] ++ 32 :: [50, 41])).1.map Token.face =
        (tokenize ([102, 40, 49, 44] ++ 10 :: [50, 41])).1.map Token.face := by
  have hline : Text.IsBlankLine [32, 9, 35, 32, 99, 10] :=
    ⟨[32, 9], [35, 32, 99], rfl, by simp, .inr ⟨[32, 99], rfl, by simp⟩⟩
  constructor
  · refine (faces_tokenize_layout [120, 10] [32, 121]).1 _ hline (.inr ⟨[120], rfl, ?_⟩)
    exact ⟨⟨.newLine, "\n", ⟨1, 2⟩⟩, by decide +kernel, rfl, rfl⟩
  · have hpieces : pieces ([102, 40, 49, 44] ++ 10 :: [50, 41]) =
        (pieces ([102, 40, 49, 44] ++ 10 :: [50, 41])).take 4 ++ .enclosed ::
          (pieces ([102, 40, 49, 44] ++ 10 :: [50, 41])).drop 5 := rfl
    have hcomma : ((pieces ([102, 40, 49, 44] ++ 10 :: [50, 41])).take 4).getLast? =
        some (.token (.plain .comma [','] ['\n', '2', ')'])) := rfl
    refine (faces_tokenize_layout [102, 40, 49, 44] [50, 41]).2 _ _ hpieces rfl fun q hq => ?_
    obtain rfl := Option.some.inj (hq.symm.trans hcomma)
    rfl

end Toolchain

import Mathlib.Data.List.Forall2
import Toolchain.Proofs.Prompt.Scanner
import Toolchain.Proofs.Token.Calls

/-!
# An input is complete when the lexer says so

The prompt does not ask the lexer whether an input is complete: it has a scanner of its own. The two
agree. As long as no bracket closes nothing, the scanner stands where the lexer stands after each
scan, as deep in brackets, and they part only in a string in three quotes that is not closed, which
is the last token before the end of the input.

## Main definitions

* `Lexer.closesOpen`: every closing bracket closes one that is open
* `Lexer.EndsInString`: the text ends in a string in three quotes
* `Lexer.Tracks`, `Lexer.Outcome`: where the scanner is after a scan of the lexer, and after a run

## Main results

* `Lexer.tracks_scan`: what a scan does
* `Lexer.outcome_drainWithin`: what a run does
* `Lexer.needsMore_iff`: **the prompt goes on exactly if the lexer ends in brackets or in a long
  string**
-/

namespace Toolchain.Lexer

open Lexeme

/-! ## Tokens and errors -/

/-- Whether every closing bracket closes one that is open, where `depth` are open in front of the
tokens. -/
def closesOpen (depth : Nat) : List Token → Bool
  | [] => true
  | x :: rest =>
    (match x.kind with
      | .closing _ => depth > 0
      | _ => true) && closesOpen (depthAfter depth x.kind) rest

/-- How many brackets are open behind some tokens. -/
def depthBehind (depth : Nat) (tokens : List Token) : Nat :=
  tokens.foldl (fun depth x => depthAfter depth x.kind) depth

theorem closesOpen_append (depth : Nat) (ts us : List Token) :
    closesOpen depth (ts ++ us) =
      (closesOpen depth ts && closesOpen (depthBehind depth ts) us) := by
  induction ts generalizing depth with
  | nil => rfl
  | cons x ts ih =>
    rw [List.cons_append, closesOpen, closesOpen, ih, Bool.and_assoc]
    rfl

/-- A token that is a string in three quotes without the closing ones, and its error. -/
def IsOpenString (x : Token) (e : LexError) : Prop :=
  x.kind = .invalid ∧ (∃ quote, [quote, quote, quote] <+: x.value.toList) ∧
    e = ⟨x.pos, .entry .unterminatedString []⟩

/-- Whether a text ends in a string in three quotes, which is then its last token before the end and
has the last error. -/
def EndsInString (t : Text) : Prop :=
  ∃ before x final e, (tokenize t).1 = before ++ [x, final] ∧ (tokenize t).2.getLast? = some e ∧
    IsOpenString x e

/-- The invalid tokens among some, and their errors, none of which is that of an open string. -/
def AllClosed (tokens : List Token) (errors : List LexError) : Prop :=
  List.Forall₂ (fun x e => ¬IsOpenString x e) (tokens.filter (·.kind = .invalid)) errors

theorem AllClosed.append {ts us : List Token} {es fs : List LexError} (h : AllClosed ts es)
    (h' : AllClosed us fs) : AllClosed (ts ++ us) (es ++ fs) := by
  unfold AllClosed
  rw [List.filter_append]
  exact List.rel_append h h'

theorem allClosed_of_valid {ts : List Token} (h : ∀ x ∈ ts, x.kind ≠ .invalid) :
    AllClosed ts [] := by
  unfold AllClosed
  rw [List.filter_eq_nil_iff.mpr fun x hx => by simpa using h x hx]
  exact .nil

/-! ## One scan -/

/-- Where the scanner of the prompt is after a scan of the lexer, if it stood where the lexer stood
before, in front of some characters: it stands where the lexer stands now, unless the lexer has
found an open string. -/
inductive Tracks (l : Lexer) (cs : List Char) (l' : Lexer) : Prop where
  | past (found : List Token) (errors : List LexError) (hqueue : l'.queue = l.queue ++ found)
      (herrors : l'.errors = l.errors ++ errors) (hdepth : l'.depth = depthBehind l.depth found)
      (hclosed : AllClosed found errors)
      (hfinish : (∃ x ∈ found, x.kind = .finish) → l'.rest = [])
      (hscan : closesOpen l.depth found = true →
        isOpenAt l.depth .code cs = isOpenAt l'.depth .code l'.rest)
  | within (x : Token) (e : LexError) (hqueue : l'.queue = l.queue ++ [x])
      (herrors : l'.errors = l.errors ++ [e]) (hlong : IsOpenString x e) (hrest : l'.rest = [])
      (hscan : isOpenAt l.depth .code cs = true)

/-- Characters that mean nothing to the scanner, in front of a scan. -/
theorem Tracks.skip {l l₁ l' : Lexer} {cs rest : List Char} (h : Tracks l₁ rest l')
    (hl : l₁.queue = l.queue ∧ l₁.errors = l.errors ∧ l₁.depth = l.depth)
    (hcs : ∀ depth, isOpenAt depth .code cs = isOpenAt depth .code rest) : Tracks l cs l' := by
  obtain ⟨hqueue₁, herrors₁, hdepth₁⟩ := hl
  cases h with
  | past found errors hqueue herrors hdepth hclosed hfinish hscan =>
    rw [hqueue₁] at hqueue
    rw [herrors₁] at herrors
    rw [hdepth₁] at hdepth hscan
    refine .past found errors hqueue herrors hdepth hclosed hfinish fun h => ?_
    rw [hcs]
    exact hscan h
  | within x e hqueue herrors hlong hrest hscan =>
    rw [hqueue₁] at hqueue
    rw [herrors₁] at herrors
    rw [hdepth₁] at hscan
    refine .within x e hqueue herrors hlong hrest ?_
    rw [hcs]
    exact hscan

/-- How deep a token goes into brackets, in the terms of the scanner. -/
theorem depthAfter_eq_turn {depth : Nat} {x : Token} (h : closesOpen depth [x] = true) :
    (depthAfter depth x.kind : Int) = depth + x.kind.turn := by
  unfold closesOpen at h
  generalize x.kind = kind at h ⊢
  cases kind with
  | opening => rfl
  | closing =>
    have hpos : depth > 0 := by simpa [closesOpen] using h
    show ((depth - 1 : Nat) : Int) = depth + -1
    omega
  | _ => exact (Int.add_zero _).symm

/-- What is noted of a token that is no open string. -/
theorem allClosed_push {x : Lexeme} (hform : Form x) (hx : ¬x.IsOpenLong) (pos : Position) :
    AllClosed [⟨x.kind, String.ofList x.value, pos⟩]
      (x.fault.map fun message => (⟨pos, message⟩ : LexError)).toList := by
  have hfault := hform.isSome_fault
  cases hmessage : x.fault with
  | none =>
    rw [hmessage] at hfault
    refine allClosed_of_valid fun y hy => ?_
    rw [List.mem_singleton.mp hy]
    exact beq_eq_false_iff_ne.mp hfault.symm
  | some message =>
    rw [hmessage] at hfault
    have hinvalid : x.kind = .invalid := beq_iff_eq.mp hfault.symm
    unfold AllClosed
    rw [List.filter_cons_of_pos (by simpa using hinvalid)]
    refine .cons ?_ .nil
    rintro ⟨-, ⟨quote, hvalue⟩, herror⟩
    apply hx
    constructor
    · rw [hmessage, (LexError.mk.inj herror).2]
    · exact ⟨quote, by simpa using hvalue⟩

/-- A token. -/
theorem tracks_push (l : Lexer) {x : Lexeme} {cs : List Char} (hform : Form x)
    (hkind : x.kind.isLayout = false) (hscanned : Scanned x cs) : Tracks l cs (l.push x) := by
  cases hscanned with
  | past hx h =>
    refine .past _ _ rfl rfl rfl (allClosed_push hform hx l.pos) ?_ fun hopen => ?_
    · rintro ⟨y, hy, hfinish⟩
      obtain rfl := List.mem_singleton.mp hy
      rw [show x.kind = .finish from hfinish] at hkind
      cases hkind
    · rw [h, ← depthAfter_eq_turn hopen]
      rfl
  | within hinvalid hx hrest h =>
    obtain ⟨hmessage, quote, hvalue⟩ := hx
    refine .within ⟨x.kind, String.ofList x.value, l.pos⟩ ⟨l.pos, .entry .unterminatedString []⟩
      rfl ?_ ⟨hinvalid, ⟨quote, by simpa using hvalue⟩, rfl⟩ hrest (h _)
    rw [push, hmessage]
    rfl

/-- The blanks and comments at the beginning of a line mean nothing to the scanner. -/
theorem isOpenAt_indentation (depth : Int) (l : Lexer) (blanks : List Char) (hidden : Bool)
    (cs : List Char) :
    isOpenAt depth (if hidden then .comment else .code) cs =
      isOpenAt depth .code (indentation l blanks hidden cs).1.rest := by
  induction cs generalizing l blanks hidden with
  | nil => cases hidden <;> rfl
  | cons c rest ih =>
    unfold indentation
    simp only
    cases hidden with
    | true =>
      rw [if_pos rfl, isOpenAt_comment_cons]
      split
      · exact ih _ _ false
      · exact ih _ _ true
    | false =>
      rw [if_neg Bool.false_ne_true]
      split
      · next hc =>
        rw [hc, isOpenAt_neutral depth (by decide)]
        exact ih _ _ false
      rw [if_neg Bool.false_ne_true]
      split
      · next hc =>
        rw [isOpenAt_neutral depth (by rcases hc with rfl | rfl <;> decide)]
        exact ih _ _ false
      split
      · next hc =>
        rw [isOpenAt_neutral depth (by rcases hc with rfl | rfl <;> decide)]
        exact ih _ _ false
      split
      · next hc =>
        rw [hc, isOpenAt_hash]
        exact ih _ _ true
      · rfl

/-- Reading an indentation changes only where the lexer stands. -/
theorem indentation_eq (l : Lexer) (cs : List Char) :
    ∃ rest pos token, indentation l [] false cs = ({ l with rest, pos }, token) ∧
      token.kind = .indentation ∧
      ∀ depth, isOpenAt depth .code cs = isOpenAt depth .code rest := by
  obtain ⟨rest, pos, heq⟩ := indentation_fst l [] false cs
  have hscan (depth : Int) := isOpenAt_indentation depth l [] false cs
  rw [heq] at hscan
  exact ⟨rest, pos, _, Prod.ext heq rfl, (indentation_spec l [] false cs).2, hscan⟩

theorem depthBehind_lines {depth : Nat} {found : List Token}
    (hfound : ∀ x ∈ found, x.kind = .newLine ∨ x.kind = .indentation) :
    depthBehind depth found = depth := by
  induction found with
  | nil => rfl
  | cons x found ih =>
    have hx : depthAfter depth x.kind = depth := by
      rcases hfound x List.mem_cons_self with h | h <;> rw [h] <;> rfl
    rw [depthBehind, List.foldl_cons, hx]
    exact ih fun y hy => hfound y (List.mem_cons_of_mem _ hy)

/-- Newlines and indentations. -/
theorem tracks_lines {l l' : Lexer} {cs : List Char} (found : List Token)
    (hfound : ∀ x ∈ found, x.kind = .newLine ∨ x.kind = .indentation)
    (hl' : l'.queue = l.queue ++ found ∧ l'.errors = l.errors ∧ l'.depth = l.depth)
    (hscan : ∀ depth, isOpenAt depth .code cs = isOpenAt depth .code l'.rest) : Tracks l cs l' := by
  obtain ⟨hqueue, herrors, hdepth⟩ := hl'
  have herrors' : l'.errors = l.errors ++ [] := herrors.trans (List.append_nil _).symm
  have hdepth' : l'.depth = depthBehind l.depth found :=
    hdepth.trans (depthBehind_lines hfound).symm
  refine .past found [] hqueue herrors' hdepth' ?_ ?_ ?_
  · refine allClosed_of_valid fun x hx => ?_
    rcases hfound x hx with h | h <;> rw [h] <;> exact nofun
  · rintro ⟨x, hx, hfinish⟩
    rcases hfound x hx with h | h <;> rw [h] at hfinish <;> cases hfinish
  · intro _
    rw [hdepth]
    exact hscan _

theorem not_mem_marks_of_isBlank {c : Char} (hc : isBlank c = true) : c ∉ marks := by
  have hmarks : marks.any isBlank = false := rfl
  exact fun hmem => List.any_eq_false.mp hmarks c hmem hc

/-- Blanks are skipped, and the next token is found. -/
theorem tracks_scanFrom (l : Lexer) (cs : List Char) : Tracks l cs (l.scanFrom cs) := by
  have hnewline : '\n' ∉ marks := by decide
  have hreturn : '\r' ∉ marks := by decide
  have hslash : '\\' ∉ marks := by decide
  -- the cases are those of `scanFrom`: the end, two that hide a newline, two backslashes that hide
  -- none, three newlines, a blank, and a token
  fun_induction l.scanFrom cs with
  | case1 l =>
    refine .past [⟨.finish, "", l.pos⟩] [] rfl (List.append_nil _).symm rfl ?_ ?_ fun _ => rfl
    · exact allClosed_of_valid (by simp)
    · exact fun _ => rfl
  | case2 l rest ih =>
    refine ih.skip ⟨rfl, rfl, rfl⟩ fun depth => ?_
    rw [isOpenAt_neutral depth hslash, isOpenAt_neutral depth hreturn,
      isOpenAt_neutral depth hnewline]
  | case3 l rest ih =>
    refine ih.skip ⟨rfl, rfl, rfl⟩ fun depth => ?_
    rw [isOpenAt_neutral depth hslash, isOpenAt_neutral depth hnewline]
  | case4 l rest =>
    exact tracks_push l (.slash _ _) rfl (scanned_slash ['\r'] (by simpa using hreturn) rest)
  | case5 l rest =>
    exact tracks_push l (.slash _ _) rfl (scanned_slash [] (List.forall_mem_nil _) rest)
  | case6 l rest _ _ _ _ _ onward ih =>
    exact ih.skip ⟨rfl, rfl, rfl⟩ fun depth => isOpenAt_neutral depth hnewline rest
  | case7 l rest _ _ next token _ _ _ _ onward hind =>
    obtain ⟨rest', pos, token, heq, hkind, hscan⟩ :=
      indentation_eq { onward with multiLine := false } rest
    obtain ⟨rfl, rfl⟩ := Prod.mk.inj (heq.symm.trans hind)
    refine tracks_lines [⟨.newLine, "\n", l.pos⟩, token] ?_ ⟨rfl, rfl, rfl⟩ fun depth => ?_
    · simp [hkind]
    · rw [isOpenAt_neutral depth hnewline]
      exact hscan depth
  | case8 l rest _ _ _ _ _ _ onward ih =>
    exact ih.skip ⟨rfl, rfl, rfl⟩ fun depth => isOpenAt_neutral depth hnewline rest
  | case9 l c rest _ _ _ _ onward hc hblank ih =>
    refine ih.skip ⟨rfl, rfl, rfl⟩ fun depth => ?_
    exact isOpenAt_neutral depth (not_mem_marks_of_isBlank hblank) rest
  | case10 l c rest =>
    exact tracks_push l (form_scan c rest) (taken_scan c rest).kind (scanned_scan c rest)

/-- **A scan.** -/
theorem tracks_scan (l : Lexer) : Tracks l l.rest l.scan := by
  unfold scan
  split
  · exact tracks_scanFrom l l.rest
  · obtain ⟨rest, pos, token, heq, hkind, hscan⟩ := indentation_eq { l with started := true } l.rest
    rw [heq]
    simp only
    split
    · exact (tracks_scanFrom _ rest).skip ⟨rfl, rfl, rfl⟩ hscan
    · refine tracks_lines [token] ?_ ⟨rfl, rfl, rfl⟩ hscan
      simpa using .inr hkind

/-! ## A run -/

/-- Where the scanner of the prompt is at the end of some characters, when the lexer has found their
tokens and errors: it is in code, as deep in brackets as the lexer, or in the string with which the
tokens end. -/
inductive Outcome (depth : Nat) (cs : List Char) (tokens : List Token) (errors : List LexError)
    (depthAtEnd : Nat) : Prop where
  | code (hclosed : AllClosed tokens errors)
      (hscan : isOpenAt depth .code cs = decide (0 < depthAtEnd))
  | string (before : List Token) (x final : Token) (e : LexError)
      (htokens : tokens = before ++ [x, final]) (herrors : errors.getLast? = some e)
      (hlong : IsOpenString x e) (hscan : isOpenAt depth .code cs = true)

/-- At the end of the input the end is found, and nothing else. -/
theorem scan_of_rest_nil {l : Lexer} (h : l.rest = []) :
    l.scan.queue = l.queue ++ [⟨.finish, "", l.pos⟩] ∧ l.scan.errors = l.errors := by
  unfold scan
  rw [h]
  split <;> exact ⟨rfl, rfl⟩

theorem isOpenAt_nil (depth : Nat) : isOpenAt depth .code [] = decide (0 < depth) := by
  show decide ((depth : Int) > 0) = decide (0 < depth)
  simp

theorem isDrained_of_getLast? {l : Lexer} {e : Token} (he : e.kind = .finish)
    (h : l.queue.getLast? = some e) : l.isDrained = true := by
  rw [isDrained, List.any_eq_true]
  exact ⟨e, List.mem_of_getLast? h, by simp [he]⟩

/-- A run goes on with a scan until the end of the input is found. -/
theorem drainWithin_succ {l : Lexer} (h : ¬l.isDrained = true) (n : Nat) :
    drainWithin (n + 1) l =
      (l.queue ++ (drainWithin n (scan { l with queue := [] })).1,
        (drainWithin n (scan { l with queue := [] })).2) := by
  rw [drainWithin, if_neg h]

theorem getLast?_of_append {ts us : List Token} {e : Token} (h : (ts ++ us).getLast? = some e)
    (hts : ts.getLast? ≠ some e) : us.getLast? = some e := by
  rw [List.getLast?_append] at h
  cases hus : us.getLast? with
  | none =>
    rw [hus] at h
    exact absurd h hts
  | some x =>
    rw [hus] at h
    exact h

/-- A scan and the rest of a run. -/
theorem Outcome.prepend {depth : Nat} {cs cs' : List Char} {found more : List Token}
    {errors errors' : List LexError} {depth' depthAtEnd : Nat}
    (h : Outcome depth' cs' more errors' depthAtEnd) (hclosed : AllClosed found errors)
    (hscan : isOpenAt depth .code cs = isOpenAt depth' .code cs') :
    Outcome depth cs (found ++ more) (errors ++ errors') depthAtEnd := by
  cases h with
  | code hclosed' hscan' => exact .code (hclosed.append hclosed') (hscan.trans hscan')
  | string before x final e htokens herrors hlong hscan' =>
    refine .string (found ++ before) x final e ?_ ?_ hlong (hscan.trans hscan')
    · rw [htokens, List.append_assoc]
    · rw [List.getLast?_append, herrors]
      rfl

/-- A run behind an open string finds the end of the input. -/
theorem drainWithin_of_rest_nil {l : Lexer} {x e : Token} {n : Nat} (hqueue : l.queue = [x])
    (hx : x.kind = .invalid) (hrest : l.rest = []) (he : e.kind = .finish)
    (hlast : (drainWithin n l).1.getLast? = some e) :
    ∃ final, (drainWithin n l).1 = [x, final] ∧ (drainWithin n l).2.errors = l.errors := by
  have hopen : ¬l.isDrained = true := by simp [isDrained, hqueue, hx]
  cases n with
  | zero => exact absurd (isDrained_of_getLast? he hlast) hopen
  | succ n =>
    obtain ⟨hfinal, herrors⟩ := scan_of_rest_nil (l := { l with queue := [] }) hrest
    have hdrained : (scan { l with queue := [] }).isDrained = true := by simp [isDrained, hfinal]
    rw [drainWithin_succ hopen, drainWithin_drained n hdrained, hqueue, hfinal]
    exact ⟨_, rfl, herrors⟩

/-- **A run**, in which the end of the input is found. -/
theorem outcome_drainWithin (n : Nat) {l : Lexer} (hdrained : l.isDrained = true → l.rest = [])
    {e : Token} (he : e.kind = .finish) (hlast : (drainWithin n l).1.getLast? = some e) :
    ∃ more errors, (drainWithin n l).1 = l.queue ++ more ∧
      (drainWithin n l).2.errors = l.errors ++ errors ∧
      (closesOpen l.depth more = true →
        Outcome l.depth l.rest more errors (drainWithin n l).2.depth) := by
  have hdone {l : Lexer} (hl : l.rest = []) : ∃ more errors, l.queue = l.queue ++ more ∧
      l.errors = l.errors ++ errors ∧
      (closesOpen l.depth more = true → Outcome l.depth l.rest more errors l.depth) := by
    refine ⟨[], [], (List.append_nil _).symm, (List.append_nil _).symm, fun _ => .code .nil ?_⟩
    rw [hl, isOpenAt_nil]
  induction n generalizing l with
  | zero => exact hdone (hdrained (isDrained_of_getLast? he hlast))
  | succ n ih =>
    by_cases hl : l.isDrained = true
    · rw [drainWithin_drained _ hl]
      exact hdone (hdrained hl)
    rw [drainWithin_succ hl] at hlast ⊢
    have hlast := getLast?_of_append hlast fun h => hl (isDrained_of_getLast? he h)
    have htracks := tracks_scan { l with queue := [] }
    generalize scan { l with queue := [] } = next at hlast htracks
    -- behind an open string only the end is left; otherwise the rest of the run goes on from there
    cases htracks with
    | past found errors hqueue herrors hdepth hclosed hfinish hscan =>
      rw [List.nil_append] at hqueue
      have hnext (h : next.isDrained = true) : next.rest = [] := by
        obtain ⟨x, hx, hkind⟩ := List.any_eq_true.mp h
        exact hfinish ⟨x, hqueue ▸ hx, by simpa using hkind⟩
      obtain ⟨more, errors', htokens, herrors', houtcome⟩ := ih hnext hlast
      refine ⟨found ++ more, errors ++ errors', ?_, ?_, fun hopen => ?_⟩
      · rw [htokens, hqueue]
      · rw [herrors', herrors, List.append_assoc]
      · rw [closesOpen_append, Bool.and_eq_true] at hopen
        rw [hdepth] at houtcome hscan
        exact (houtcome hopen.2).prepend hclosed (hscan hopen.1)
    | within x e' hqueue herrors hlong hrest hscan =>
      obtain ⟨final, htokens, herrors'⟩ := drainWithin_of_rest_nil hqueue hlong.1 hrest he hlast
      refine ⟨[x, final], [e'], ?_, ?_, fun _ => .string [] x final e' rfl rfl hlong hscan⟩
      · rw [htokens]
      · rw [herrors', herrors]

/-! ## A whole input -/

/-- No open string stands before the end, if there is none among the tokens. -/
theorem AllClosed.not_isOpenString {before : List Token} {x final : Token} {errors : List LexError}
    {e : LexError} (h : AllClosed (before ++ [x, final]) errors) (hfinal : final.kind ≠ .invalid)
    (he : errors.getLast? = some e) : ¬IsOpenString x e := by
  intro hlong
  have hx : [x, final].filter (·.kind = .invalid) = [x] := by simp [hlong.1, hfinal]
  unfold AllClosed at h
  rw [List.filter_append, hx, ← List.forall₂_reverse_iff, List.reverse_append] at h
  obtain ⟨e', errors', hnot, -, heq⟩ := List.forall₂_cons_left_iff.mp h
  rw [← List.head?_reverse, heq] at he
  obtain rfl := Option.some.inj he
  exact hnot hlong

/-- Where the scanner is at the end of a text. -/
theorem outcome_tokenize {t : Text} (h : closesOpen 0 (tokenize t).1 = true) :
    Outcome 0 t.chars (tokenize t).1 (tokenize t).2 (start t).all.2.depth := by
  obtain ⟨before, e, htokens, he, -⟩ := endsOnce_tokenize t
  have hlast : (tokenize t).1.getLast? = some e := by
    rw [htokens]
    exact List.getLast?_concat
  obtain ⟨more, errors, hmore, herrors, houtcome⟩ :=
    outcome_drainWithin (t.chars.length + 2) (l := start t) nofun he hlast
  obtain rfl : (tokenize t).1 = more := hmore
  obtain rfl : (tokenize t).2 = errors := herrors
  -- to hand out the tokens does not change how deep the lexer is
  exact houtcome h

/-- **The prompt goes on exactly if the lexer ends in brackets or in a long string.** -/
theorem needsMore_iff (t : Text) (h : closesOpen 0 (tokenize t).1 = true) :
    needsMore t = true ↔ 0 < (start t).all.2.depth ∨ EndsInString t := by
  rw [needsMore_eq_isOpenAt]
  cases outcome_tokenize h with
  | code hclosed hscan =>
    have hnot : ¬EndsInString t := by
      rintro ⟨before, x, final, e, htokens, herror, hlong⟩
      obtain ⟨before', e', htokens', he', -⟩ := endsOnce_tokenize t
      have hfinal : final.kind ≠ .invalid := by
        obtain rfl : final = e' := by
          have hlast := congrArg List.getLast? (htokens.symm.trans htokens')
          simpa using hlast
        rw [he']
        exact nofun
      rw [htokens] at hclosed
      exact hclosed.not_isOpenString hfinal herror hlong
    rw [or_iff_left hnot]
    have hscan : isOpenAt 0 .code t.chars = decide (0 < (start t).all.2.depth) := hscan
    rw [hscan, decide_eq_true_iff]
  | string before x final e htokens herrors hlong hscan =>
    exact ⟨fun _ => .inr ⟨before, x, final, e, htokens, herrors, hlong⟩, fun _ => hscan⟩

/-- A call, a bracket, a comment with another one, and a string with a mark and with one more. -/
def openMarked : Text := Text.ofString "f(1)[\n# (\nf\"\"\"("

/-- A bracket is left open there, so that the prompt goes on. -/
theorem needsMore_iff_openMarked :
    closesOpen 0 (tokenize openMarked).1 = true ∧
      (needsMore openMarked = true ↔
        0 < (start openMarked).all.2.depth ∨ EndsInString openMarked) ∧
      0 < (start openMarked).all.2.depth ∧ needsMore openMarked = true := by
  have hclosed : closesOpen 0 (tokenize openMarked).1 = true := by with_unfolding_all rfl
  have hdepth : 0 < (start openMarked).all.2.depth := by with_unfolding_all decide
  have hiff := needsMore_iff openMarked hclosed
  exact ⟨hclosed, hiff, hdepth, hiff.mpr (.inl hdepth)⟩

end Toolchain.Lexer

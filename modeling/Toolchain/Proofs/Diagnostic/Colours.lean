import Mathlib.Tactic.Common
import Toolchain.Diagnostic.Excerpt
import Toolchain.Proofs.Text.Utf8

/-!
# Colours do not change the text

Removing one code from a text could put another one together from what stands around it. It does not
in a text that was painted: there the escape character stands nowhere but at the head of a complete
code, no code begins with another one, and removing all places of one code leaves the other codes
complete. So the codes may be removed in any order, and what is left is the text without colours.

## Main definitions

* `Painted.Stroke`: a byte of a text, or one of its codes
* `Painted.IsClear`: texts without the escape character
* `Rendering.page`: several diagnostics as one text with colours

## Main results

* `Painted.removeFrom_written`: removing a code leaves the other strokes as they are
* `Painted.stripIn_text`: removing the codes of a painted text, in any order
* `Rendering.strip_diagnostics`: **diagnostics say the same with colours and without**
-/

namespace Toolchain

/-- The character that a code starts with. -/
def Colour.escape : UInt8 := 0x1B

namespace Painted

open Colour (escape codes)

/-! ## Strokes -/

/-- A byte of a text, or one of its codes. -/
inductive Stroke where
  | byte (b : UInt8)
  | code (c : Text)
  deriving DecidableEq, Repr

namespace Stroke

/-- How a stroke is written. -/
def text : Stroke → Text
  | byte b => [b]
  | code c => c

/-- A stroke that is a code in full, or a byte that starts none. -/
def IsSound : Stroke → Prop
  | byte b => b ≠ escape
  | code c => c ∈ codes

end Stroke

/-- How strokes are written. -/
def written (ss : List Stroke) : Text := ss.flatMap Stroke.text

theorem written_cons (s : Stroke) (ss : List Stroke) :
    written (s :: ss) = s.text ++ written ss := by
  rfl

theorem written_append (ss us : List Stroke) : written (ss ++ us) = written ss ++ written us :=
  List.flatMap_append

/-! ## The codes -/

/-- The codes by their bytes. -/
theorem codes_eq : codes =
    [[27, 91, 48, 109], [27, 91, 51, 49, 109], [27, 91, 51, 51, 109], [27, 91, 51, 52, 109],
     [27, 91, 51, 54, 109], [27, 91, 49, 109]] := by
  with_unfolding_all rfl

theorem code_mem_codes (c : Colour) : c.code ∈ codes := by
  cases c <;> simp [codes]

theorem reset_mem_codes : Colour.reset ∈ codes := List.mem_cons_self

/-- A code is the escape character and other bytes. -/
theorem exists_of_mem_codes {code : Text} (h : code ∈ codes) :
    ∃ tail, code = escape :: tail ∧ escape ∉ tail := by
  have hcodes : ∀ c ∈ codes, c.head? = some escape ∧ escape ∉ c.tail := by
    rw [codes_eq]
    decide
  obtain ⟨hhead, htail⟩ := hcodes code h
  obtain ⟨tail, rfl⟩ := List.head?_eq_some_iff.mp hhead
  exact ⟨tail, rfl, htail⟩

/-- No code begins with another one. -/
theorem eq_of_mem_codes {c d : Text} (hc : c ∈ codes) (hd : d ∈ codes) (h : c <+: d) : c = d := by
  have hcodes : ∀ c ∈ codes, ∀ d ∈ codes, c <+: d → c = d := by
    rw [codes_eq]
    decide
  exact hcodes c hc d hd h

variable {code : Text}

/-- A text that starts with a code does not start with another one. -/
theorem startsWith_append_iff {c : Text} (hcode : code ∈ codes) (hc : c ∈ codes) (rest : Text) :
    Text.startsWith (c ++ rest) code = true ↔ c = code := by
  unfold Text.startsWith
  rw [List.isPrefixOf_iff_prefix]
  constructor
  · intro h
    rcases List.prefix_or_prefix_of_prefix h (List.prefix_append c rest) with hle | hle
    · exact (eq_of_mem_codes hcode hc hle).symm
    · exact eq_of_mem_codes hc hcode hle
  · rintro rfl
    exact List.prefix_append c rest

/-! ## Removing one code -/

/-- The bytes of a code that is removed are left out. -/
theorem removeFrom_length (code t rest : Text) :
    removeFrom code t.length (t ++ rest) = removeFrom code 0 rest := by
  induction t with
  | nil => rfl
  | cons b t ih => exact ih

theorem removeFrom_byte (hcode : code ∈ codes) {b : UInt8} (hb : b ≠ escape) (rest : Text) :
    removeFrom code 0 (b :: rest) = b :: removeFrom code 0 rest := by
  obtain ⟨tail, rfl, -⟩ := exists_of_mem_codes hcode
  have hnot : Text.startsWith (b :: rest) (escape :: tail) = false := by
    simp [Text.startsWith, List.isPrefixOf, Ne.symm hb]
  rw [removeFrom, hnot, if_neg Bool.false_ne_true]

theorem removeFrom_append (hcode : code ∈ codes) {t : Text} (ht : escape ∉ t) (rest : Text) :
    removeFrom code 0 (t ++ rest) = t ++ removeFrom code 0 rest := by
  induction t with
  | nil => rfl
  | cons b t ih =>
    rw [List.mem_cons, not_or] at ht
    obtain ⟨hb, ht⟩ := ht
    rw [List.cons_append, removeFrom_byte hcode (Ne.symm hb), ih ht]
    rfl

/-- The code that stands at the head of a text is removed if it is the one. -/
theorem removeFrom_code (hcode : code ∈ codes) {c : Text} (hc : c ∈ codes) (rest : Text) :
    removeFrom code 0 (c ++ rest) =
      if c = code then removeFrom code 0 rest else c ++ removeFrom code 0 rest := by
  have hstarts := startsWith_append_iff hcode hc rest
  obtain ⟨tail, rfl, htail⟩ := exists_of_mem_codes hc
  rw [List.cons_append] at hstarts ⊢
  rw [removeFrom]
  split
  · next h =>
    obtain rfl := hstarts.mp h
    rw [if_pos rfl]
    exact removeFrom_length (escape :: tail) tail rest
  · next h =>
    rw [if_neg (fun heq => h (hstarts.mpr heq)), removeFrom_append hcode htail]
    rfl

/-- Removing a code leaves the other strokes as they are. -/
theorem removeFrom_written (hcode : code ∈ codes) {ss : List Stroke} (hss : ∀ s ∈ ss, s.IsSound) :
    removeFrom code 0 (written ss) = written (ss.filter (· ≠ .code code)) := by
  induction ss with
  | nil => rfl
  | cons s ss ih =>
    rw [List.forall_mem_cons] at hss
    obtain ⟨hs, hss⟩ := hss
    rw [written_cons]
    cases s with
    | byte b =>
      have hkeep : (Stroke.byte b :: ss).filter (· ≠ .code code) =
          .byte b :: ss.filter (· ≠ .code code) := by simp
      rw [hkeep, written_cons, ← ih hss]
      exact removeFrom_byte hcode hs _
    | code c =>
      show removeFrom code 0 (c ++ written ss) = _
      rw [removeFrom_code hcode hs, ih hss]
      split
      · next heq => simp [heq]
      · next hne =>
        have hkeep : (Stroke.code c :: ss).filter (· ≠ .code code) =
            .code c :: ss.filter (· ≠ .code code) := by simp [hne]
        rw [hkeep, written_cons]
        rfl

/-! ## Removing all codes -/

/-- The codes that are removed one after the other are gone in the end, and nothing else is. -/
theorem stripIn_written {order : List Text} (horder : ∀ c ∈ order, c ∈ codes) {ss : List Stroke}
    (hss : ∀ s ∈ ss, s.IsSound) :
    stripIn order (written ss) = written (ss.filter fun s => ∀ c ∈ order, s ≠ .code c) := by
  induction order generalizing ss with
  | nil =>
    have hall : (ss.filter fun s => ∀ c ∈ ([] : List Text), s ≠ .code c) = ss := by simp
    rw [hall]
    rfl
  | cons c order ih =>
    rw [List.forall_mem_cons] at horder
    obtain ⟨hc, horder⟩ := horder
    have hkept : ∀ s ∈ ss.filter (· ≠ .code c), s.IsSound := by
      intro s hs
      exact hss s (List.mem_filter.mp hs).1
    show stripIn order (removeFrom c 0 (written ss)) = _
    rw [removeFrom_written hc hss, ih horder hkept, List.filter_filter]
    congr 2
    funext s
    simp [Bool.and_comm]

/-! ## Painted texts -/

/-- The strokes of a span. -/
def spanStrokes (s : Span) : List Stroke :=
  match s.colour with
  | some c => .code c.code :: s.text.map .byte ++ [.code Colour.reset]
  | none => s.text.map .byte

/-- The strokes of a painted text. -/
def strokes (p : Painted) : List Stroke := List.flatMap spanStrokes p

/-- A painted text in which no span has the escape character. -/
def IsClear (p : Painted) : Prop := ∀ s ∈ p, escape ∉ s.text

theorem written_bytes (t : Text) : written (t.map .byte) = t := by
  induction t with
  | nil => rfl
  | cons b t ih =>
    rw [List.map_cons, written_cons, ih]
    rfl

theorem written_spanStrokes (s : Span) : written (spanStrokes s) = spanText true s := by
  unfold spanStrokes spanText
  cases s.colour with
  | none => exact written_bytes s.text
  | some c =>
    show written (.code c.code :: (s.text.map .byte ++ [.code Colour.reset])) =
      c.code ++ s.text ++ Colour.reset
    rw [written_cons, written_append, written_bytes, List.append_assoc]
    simp [Stroke.text, written]

/-- A text with colours is written by its strokes. -/
theorem text_eq_written (p : Painted) : p.text true = written p.strokes := by
  have hspans : spanText true = fun s => written (spanStrokes s) :=
    funext fun s => (written_spanStrokes s).symm
  rw [text, hspans, strokes, written, List.flatMap_assoc]
  rfl

/-- The strokes of a span that are no codes write its text. -/
theorem written_filter_spanStrokes (s : Span) :
    written ((spanStrokes s).filter fun s => ∀ c ∈ codes, s ≠ .code c) = spanText false s := by
  have hbytes (t : Text) :
      ((t.map .byte).filter fun s : Stroke => ∀ c ∈ codes, s ≠ .code c) = t.map .byte := by
    rw [List.filter_eq_self]
    intro s hs
    obtain ⟨b, -, rfl⟩ := List.mem_map.mp hs
    simp
  have hcode {c : Text} (hc : c ∈ codes) :
      ([.code c].filter fun s : Stroke => ∀ c ∈ codes, s ≠ .code c) = [] := by
    simp [hc]
  unfold spanStrokes spanText
  cases s.colour with
  | none =>
    show written ((s.text.map .byte).filter _) = s.text
    rw [hbytes, written_bytes]
  | some c =>
    show written (([Stroke.code c.code] ++ s.text.map Stroke.byte ++
      [Stroke.code Colour.reset]).filter _) = s.text
    rw [List.filter_append, List.filter_append, hcode (code_mem_codes c), hbytes,
      hcode reset_mem_codes, List.nil_append, List.append_nil, written_bytes]

/-- A text without colours is written by the strokes that are no codes. -/
theorem text_eq_written_filter (p : Painted) :
    p.text false = written (p.strokes.filter fun s => ∀ c ∈ codes, s ≠ .code c) := by
  have hspans : spanText false =
      fun s => written ((spanStrokes s).filter fun s => ∀ c ∈ codes, s ≠ .code c) :=
    funext fun s => (written_filter_spanStrokes s).symm
  rw [text, hspans, strokes, List.filter_flatMap, written, List.flatMap_assoc]
  rfl

/-- The text of painted texts with another one between each two. -/
theorem text_intercalate (colours : Bool) (between : Painted) (ps : List Painted) :
    text colours (List.intercalate between ps) =
      List.intercalate (between.text colours) (ps.map (text colours)) := by
  induction ps with
  | nil => rfl
  | cons p ps ih =>
    cases ps with
    | nil => simp
    | cons q ps =>
      rw [List.map_cons] at ih
      rw [List.map_cons, List.map_cons, List.intercalate_cons_cons,
        List.intercalate_cons_cons, ← ih]
      simp only [text, List.flatMap_append]

theorem isSound_strokes {p : Painted} (hp : p.IsClear) : ∀ s ∈ p.strokes, s.IsSound := by
  have hbytes {t : Text} (ht : escape ∉ t) : ∀ s ∈ t.map Stroke.byte, s.IsSound := by
    intro s hs
    obtain ⟨b, hb, rfl⟩ := List.mem_map.mp hs
    rintro rfl
    exact ht hb
  intro s hs
  obtain ⟨span, hspan, hs⟩ := List.mem_flatMap.mp hs
  have hclear := hp span hspan
  unfold spanStrokes at hs
  split at hs
  · next c _ =>
    rw [List.cons_append, List.mem_cons, List.mem_append, List.mem_singleton] at hs
    rcases hs with rfl | hs | rfl
    · exact code_mem_codes c
    · exact hbytes hclear s hs
    · exact reset_mem_codes
  · exact hbytes hclear s hs

/-- The codes of a painted text are removed, in whatever order this is done, and nothing else is. -/
theorem stripIn_text {p : Painted} (hp : p.IsClear) {order : List Text}
    (horder : order.Perm codes) :
    stripIn order (p.text true) = p.text false := by
  have hall (s : Stroke) : (∀ c ∈ order, s ≠ .code c) ↔ ∀ c ∈ codes, s ≠ .code c := by
    simp only [horder.mem_iff]
  rw [text_eq_written, text_eq_written_filter,
    stripIn_written (fun c hc => horder.mem_iff.mp hc) (isSound_strokes hp)]
  simp only [hall]

/-! ## Clear texts -/

theorem isClear_nil : IsClear [] := fun _ hs => nomatch hs

theorem IsClear.append {p q : Painted} (hp : p.IsClear) (hq : q.IsClear) :
    IsClear (List.append p q) := by
  exact List.forall_mem_append.mpr ⟨hp, hq⟩

theorem isClear_plain {t : Text} (ht : escape ∉ t) : (plain t).IsClear := by
  intro s hs
  obtain rfl := List.mem_singleton.mp hs
  exact ht

theorem isClear_inColour (c : Colour) {t : Text} (ht : escape ∉ t) : (inColour c t).IsClear := by
  intro s hs
  obtain rfl := List.mem_singleton.mp hs
  exact ht

theorem isClear_flatMap {α : Type} {xs : List α} {f : α → Painted} (h : ∀ x ∈ xs, (f x).IsClear) :
    IsClear (xs.flatMap f) := by
  intro s hs
  obtain ⟨x, hx, hs⟩ := List.mem_flatMap.mp hs
  exact h x hx s hs

theorem isClear_intercalate {between : Painted} (hbetween : between.IsClear) {ps : List Painted}
    (h : ∀ p ∈ ps, p.IsClear) : IsClear (List.intercalate between ps) := by
  induction ps with
  | nil => exact isClear_nil
  | cons p ps ih =>
    rw [List.forall_mem_cons] at h
    cases ps with
    | nil => simpa using h.1
    | cons q ps =>
      rw [List.intercalate_cons_cons]
      exact (h.1.append hbetween).append (ih h.2)

end Painted

/-! ## Texts without the escape character -/

open Colour (escape)

/-- Characters other than the escape character are written without it. -/
theorem Text.escape_not_mem_ofChars {cs : List Char} (h : '\x1B' ∉ cs) : escape ∉ ofChars cs := by
  rw [ofChars_eq_flatMap]
  intro hmem
  obtain ⟨c, hc, hmem⟩ := List.mem_flatMap.mp hmem
  by_cases hascii : c.toNat < 128
  · rw [utf8EncodeChar_of_ascii hascii, List.mem_singleton] at hmem
    have hcode : c.toNat = 0x1B := by
      have hmod : c.toNat % 256 = 0x1B := (congrArg UInt8.toNat hmem).symm
      omega
    obtain rfl : c = '\x1B' := Char.toNat_inj.mp hcode
    exact h hc
  · exact absurd (le_of_mem_utf8EncodeChar (by omega) _ hmem) (by decide)

theorem Text.escape_not_mem_ofString {s : String} (h : '\x1B' ∉ s.toList) :
    escape ∉ ofString s := by
  rw [ofString_eq_ofChars]
  exact escape_not_mem_ofChars h

theorem Text.escape_not_mem_ofInt (n : Int) : escape ∉ ofInt n := by
  have hdigits (n : Nat) : escape ∉ ofNat n := by
    refine escape_not_mem_ofString fun hmem => ?_
    rw [Nat.repr, String.toList_ofList] at hmem
    exact absurd (Nat.isDigit_of_mem_toDigits (by decide) (by decide) hmem) (by decide)
  unfold ofInt
  split
  · rw [List.mem_cons, not_or]
    exact ⟨by decide, hdigits _⟩
  · exact hdigits _

/-! ## Diagnostics -/

/-- A diagnostic that shows no escape character, given the lines of its file. -/
structure Diagnostic.IsClear (language : Language) (lines : List Text) (d : Diagnostic) : Prop where
  code : escape ∉ Text.ofString d.code.name
  message : escape ∉ d.message.text language
  file : escape ∉ d.file
  hints : ∀ h ∈ d.hints, escape ∉ h.text language
  lines : ∀ line ∈ lines, escape ∉ line

theorem Diagnostic.IsClear.location {language : Language} {lines : List Text} {d : Diagnostic}
    (h : d.IsClear language lines) : escape ∉ d.location := by
  have hcolon : escape ∉ Text.ofString ":" := Text.escape_not_mem_ofString (by decide)
  have hplace (n : Int) : escape ∉ Text.ofString ":" ++ Text.ofInt n :=
    List.not_mem_append hcolon (Text.escape_not_mem_ofInt n)
  have hlocation : d.location =
      d.file ++ ((Text.ofString ":" ++ Text.ofInt d.line) ++
        (Text.ofString ":" ++ Text.ofInt d.column)) := by
    simp [Diagnostic.location]
  rw [hlocation]
  exact List.not_mem_append h.file (List.not_mem_append (hplace d.line) (hplace d.column))

namespace Rendering

open Painted

variable {language : Language} (r : Rendering)

/-- Tabs are replaced by spaces. -/
theorem escape_not_mem_expandTabs {line : Text} (h : escape ∉ line) :
    escape ∉ r.expandTabs line := by
  intro hmem
  obtain ⟨b, hb, hmem⟩ := List.mem_flatMap.mp hmem
  split at hmem
  · exact absurd (List.eq_of_mem_replicate hmem) (by decide)
  · obtain rfl := List.mem_singleton.mp hmem
    exact h hb

/-- The line of the source and the mark under it. -/
theorem isClear_excerpt {line : Text} (h : escape ∉ line) (number column endColumn : Int) :
    (r.excerpt line number column endColumn).IsClear := by
  have hblank (n : Nat) : escape ∉ List.replicate n ' '.toUInt8 := fun hmem =>
    absurd (List.eq_of_mem_replicate hmem) (by decide)
  have hmark (n : Nat) : escape ∉ List.replicate n '^'.toUInt8 := fun hmem =>
    absurd (List.eq_of_mem_replicate hmem) (by decide)
  have hspace : escape ∉ Text.ofString " " := Text.escape_not_mem_ofString (by decide)
  have hbreak : escape ∉ Text.ofString "\n" := Text.escape_not_mem_ofString (by decide)
  have hgutter : (plain (List.replicate (Text.ofInt number).length ' '.toUInt8)).IsClear :=
    isClear_plain (hblank _)
  have hbar : (inColour .blue (Text.ofString " |")).IsClear :=
    isClear_inColour _ (Text.escape_not_mem_ofString (by decide))
  have hlabel : (inColour .blue (Text.ofInt number)).IsClear :=
    isClear_inColour _ (Text.escape_not_mem_ofInt number)
  have hline := isClear_plain
    (List.not_mem_append (List.not_mem_append hspace (r.escape_not_mem_expandTabs h)) hbreak)
  have hindent := isClear_plain (List.not_mem_append hspace (hblank (r.columnsBefore line column)))
  have hmarks := isClear_inColour .red (hmark (max 1 (wrapInt64 (endColumn - column))).toNat)
  exact (((((((((hgutter.append hbar).append (isClear_plain hbreak)).append hlabel).append
    hbar).append hline).append hgutter).append hbar).append hindent).append hmarks).append
    (isClear_plain hbreak)

/-- The line of the source that is shown, if one is. -/
theorem isClear_shown {lines : List Text} (hlines : ∀ line ∈ lines, escape ∉ line)
    (d : Diagnostic) :
    IsClear (if r.source && d.line > 0 then
      match lines[d.line.toNat - 1]? with
      | some line => r.excerpt line d.line d.column d.endColumn
      | none => []
    else []) := by
  split
  · split
    · next line hline => exact r.isClear_excerpt (hlines line (List.mem_of_getElem? hline)) _ _ _
    · exact isClear_nil
  · exact isClear_nil

/-- The advice that is shown, if any is. -/
theorem isClear_hints {hints : List Message} (h : ∀ m ∈ hints, escape ∉ m.text language) :
    IsClear (if r.hints then
      hints.flatMap fun m =>
        inColour .cyan " = help:" ++ plain (" " ++ m.text language ++ "\n")
    else []) := by
  have hspace : escape ∉ Text.ofString " " := Text.escape_not_mem_ofString (by decide)
  have hbreak : escape ∉ Text.ofString "\n" := Text.escape_not_mem_ofString (by decide)
  have hhelp : (inColour .cyan (Text.ofString " = help:")).IsClear :=
    isClear_inColour _ (Text.escape_not_mem_ofString (by decide))
  split
  · refine isClear_flatMap fun m hm => hhelp.append (isClear_plain ?_)
    exact List.not_mem_append (List.not_mem_append hspace (h m hm)) hbreak
  · exact isClear_nil

/-- A diagnostic with all that is shown of it. -/
theorem isClear_painted {lines : List Text} {d : Diagnostic} (h : d.IsClear language lines) :
    (r.painted language lines d).IsClear := by
  have hname : escape ∉ Text.ofString d.severity.name := by
    cases d.severity <;> exact Text.escape_not_mem_ofString (by decide)
  have hcode : IsClear (if d.code.name.isEmpty then [] else
      inColour d.severity.colour
        (Text.ofString "[" ++ Text.ofString d.code.name ++ Text.ofString "]")) := by
    split
    · exact isClear_nil
    · refine isClear_inColour _ (List.not_mem_append (List.not_mem_append ?_ h.code) ?_)
      · exact Text.escape_not_mem_ofString (by decide)
      · exact Text.escape_not_mem_ofString (by decide)
  have hmessage : (plain
      (Text.ofString ": " ++ d.message.text language ++ Text.ofString "\n ")).IsClear := by
    refine isClear_plain (List.not_mem_append (List.not_mem_append ?_ h.message) ?_)
    · exact Text.escape_not_mem_ofString (by decide)
    · exact Text.escape_not_mem_ofString (by decide)
  have harrow : (inColour .cyan (Text.ofString "-->")).IsClear :=
    isClear_inColour _ (Text.escape_not_mem_ofString (by decide))
  have hspace : (plain (Text.ofString " ")).IsClear :=
    isClear_plain (Text.escape_not_mem_ofString (by decide))
  have hbreak : (plain (Text.ofString "\n")).IsClear :=
    isClear_plain (Text.escape_not_mem_ofString (by decide))
  exact ((((((((isClear_inColour _ hname).append hcode).append hmessage).append harrow).append
    hspace).append (isClear_inColour _ h.location)).append hbreak).append
    (r.isClear_shown h.lines d)).append (r.isClear_hints h.hints)

/-- Several diagnostics with a blank line between each two. -/
def page (language : Language) (lines : Text → List Text) (ds : List Diagnostic) : Painted :=
  List.intercalate (plain "\n") (ds.map fun d => r.painted language (lines d.file) d)

/-- What is shown of several diagnostics is the text of their page. -/
theorem diagnostics_eq_page (language : Language) (lines : Text → List Text)
    (ds : List Diagnostic) :
    r.diagnostics language lines ds = (r.page language lines ds).text r.colours := by
  have hbreak : (plain (Text.ofString "\n")).text r.colours = Text.ofString "\n" :=
    List.append_nil _
  rw [page, text_intercalate, hbreak, List.map_map]
  rfl

theorem isClear_page {lines : Text → List Text} {ds : List Diagnostic}
    (h : ∀ d ∈ ds, d.IsClear language (lines d.file)) : (r.page language lines ds).IsClear := by
  refine isClear_intercalate (isClear_plain (Text.escape_not_mem_ofString (by decide)))
    fun p hp => ?_
  obtain ⟨d, hd, rfl⟩ := List.mem_map.mp hp
  exact r.isClear_painted (h d hd)

/-- **Colours never change the text.** If nothing that diagnostics show has the escape character,
what is shown of them in colours is, once the codes of the colours have been removed in any order,
what is shown of them without colours. -/
theorem strip_diagnostics {lines : Text → List Text} {ds : List Diagnostic}
    (h : ∀ d ∈ ds, d.IsClear language (lines d.file)) {order : List Text}
    (horder : order.Perm Colour.codes) :
    stripIn order ({ r with colours := true }.diagnostics language lines ds) =
      { r with colours := false }.diagnostics language lines ds := by
  rw [diagnostics_eq_page, diagnostics_eq_page]
  exact stripIn_text (isClear_page _ h) horder

/-- A diagnostic with an excerpt and advice; the code that turns colours off is removed last. -/
theorem strip_diagnostics_withExcerpt :
    let d : Diagnostic :=
      { code := .invalidTarget, message := .plain "no target", file := "a.py",
        line := 1, column := 1,
        endColumn := 2, hints := [.plain "use a name"] }
    let lines : Text → List Text := fun _ => [Text.ofString "1 = x"]
    (∀ e ∈ [d], e.IsClear .english (lines e.file)) ∧ Colour.codes.reverse.Perm Colour.codes ∧
      stripIn Colour.codes.reverse
          ({ ({} : Rendering) with colours := true }.diagnostics .english lines [d]) =
        { ({} : Rendering) with colours := false }.diagnostics .english lines [d] := by
  intro d lines
  have hclear : ∀ e ∈ [d], e.IsClear .english (lines e.file) := by
    intro e he
    obtain rfl := List.mem_singleton.mp he
    constructor
    · exact Text.escape_not_mem_ofString (by decide)
    · exact Text.escape_not_mem_ofString (s := "no target") (by decide)
    · exact Text.escape_not_mem_ofString (by decide)
    · intro h hh
      obtain rfl := List.mem_singleton.mp hh
      exact Text.escape_not_mem_ofString (s := "use a name") (by decide)
    · intro line hline
      obtain rfl := List.mem_singleton.mp hline
      exact Text.escape_not_mem_ofString (by decide)
  have hperm := List.reverse_perm Colour.codes
  exact ⟨hclear, hperm, strip_diagnostics {} hclear hperm⟩

end Rendering

end Toolchain

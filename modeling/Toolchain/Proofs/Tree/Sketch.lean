import Mathlib.Tactic.Common
import Mathlib.Tactic.FinCases
import Toolchain.Tree.Outline

/-!
# The short form of an outline can be read in one way

The short form of an outline shows words, strings in quotes, nodes and lists. What it shows is the
sketch of the outline. A word ends where a bracket, a comma or a quote begins, and a quote inside a
string is escaped, so no text is the short form of two sketches.

## Main definitions

* `Sketch`: what the short form shows
* `Outline.sketch`: the sketch of an outline
* `Sketch.Plain`: words are not empty and have no marks in them

## Main results

* `Outline.toList_dump`: the short form is the text of the sketch
* `Sketch.text_inj`: **plain sketches with the same text are the same**
-/

namespace Toolchain

/-- What the short form of an outline shows. -/
inductive Sketch where
  | word (w : List Char)
  | quoted (s : List Char)
  | node (label : List Char) (fields : List Sketch)
  | list (items : List Sketch)

namespace Sketch

/-- A string in single quotes. -/
def quote (s : List Char) : List Char := '\'' :: (s.flatMap Outline.escapedChar ++ ['\''])

mutual

/-- The text of a sketch. -/
def text : Sketch → List Char
  | word w => w
  | quoted s => quote s
  | node label [] => label ++ ['(', ')']
  | node label (a :: as) => label ++ '(' :: (text a ++ more as ++ [')'])
  | list [] => ['[', ']']
  | list (a :: as) => '[' :: (text a ++ more as ++ [']'])

/-- The text of the sketches after the first one. -/
def more : List Sketch → List Char
  | [] => []
  | a :: as => ',' :: ' ' :: (text a ++ more as)

end

/-- The text of several sketches. -/
def texts : List Sketch → List Char
  | [] => []
  | a :: as => text a ++ more as

theorem text_node (label : List Char) (fields : List Sketch) :
    (node label fields).text = label ++ '(' :: (texts fields ++ [')']) := by
  cases fields <;> simp [text, texts]

theorem text_list (items : List Sketch) : (list items).text = '[' :: (texts items ++ [']']) := by
  cases items <;> simp [text, texts]

/-- A character that ends a word. -/
def isMark (c : Char) : Bool := ['(', ')', '[', ']', ',', '\''].contains c

/-- Some characters, none of which ends a word. -/
structure IsWord (w : List Char) : Prop where
  ne_nil : w ≠ []
  plain : ∀ c ∈ w, isMark c = false

mutual

/-- Words are words. -/
def Plain : Sketch → Prop
  | word w => IsWord w
  | quoted _ => True
  | node label fields => IsWord label ∧ AllPlain fields
  | list items => AllPlain items

/-- The words of several sketches are words. -/
def AllPlain : List Sketch → Prop
  | [] => True
  | a :: as => Plain a ∧ AllPlain as

end

/-! ## Reading -/

/-- What follows a sketch: nothing, a comma or a closing bracket. -/
def Ends (r : List Char) : Prop := ∀ c t, r = c :: t → c ∈ [',', ')', ']']

theorem Ends.mark {r : List Char} (h : Ends r) : ∀ c ∈ r.head?, isMark c = true := by
  intro c hc
  cases r with
  | nil => cases hc
  | cons c' t =>
    obtain rfl : c' = c := by simpa using hc
    have hmem := h _ _ rfl
    fin_cases hmem <;> rfl

theorem ends_nil : Ends [] := by
  intro c t h
  cases h

theorem ends_cons {c : Char} (hc : c ∈ [',', ')', ']']) (t : List Char) : Ends (c :: t) := by
  intro c' t' h
  obtain ⟨rfl, -⟩ := List.cons.inj h
  exact hc

/-- A word ends at the first mark. -/
theorem word_inj {w w' r r' : List Char} (hw : ∀ c ∈ w, isMark c = false)
    (hw' : ∀ c ∈ w', isMark c = false) (hr : ∀ c ∈ r.head?, isMark c = true)
    (hr' : ∀ c ∈ r'.head?, isMark c = true) (h : w ++ r = w' ++ r') : w = w' ∧ r = r' := by
  have htake {w r : List Char} (hw : ∀ c ∈ w, isMark c = false)
      (hr : ∀ c ∈ r.head?, isMark c = true) : (w ++ r).takeWhile (fun c => !isMark c) = w := by
    rw [List.takeWhile_append_of_pos fun c hc => by simp [hw c hc]]
    cases r with
    | nil => simp
    | cons c t => simp [hr c rfl]
  have heq : w = w' := by rw [← htake hw hr, h, htake hw' hr']
  subst heq
  exact ⟨rfl, List.append_cancel_left h⟩

/-- Before a mark there is no word. -/
theorem word_eq_nil {w r t : List Char} {m : Char} (hw : ∀ c ∈ w, isMark c = false)
    (hr : ∀ c ∈ r.head?, isMark c = true) (hm : isMark m = true) (h : w ++ r = m :: t) :
    w = [] := by
  have hmark : ∀ c ∈ (m :: t).head?, isMark c = true := by simp [hm]
  exact (word_inj hw (List.forall_mem_nil _) hr hmark h).1

/-- What is written for a character in quotes tells the character. -/
theorem escapedChar_inj {c c' : Char} {r r' : List Char}
    (h : Outline.escapedChar c ++ r = Outline.escapedChar c' ++ r') : c = c' ∧ r = r' := by
  unfold Outline.escapedChar at h
  split at h <;> split at h <;> grind

theorem escapedChar_ne_quote (c : Char) (r t : List Char) :
    Outline.escapedChar c ++ r ≠ '\'' :: t := by
  unfold Outline.escapedChar
  split <;> simp_all

/-- A string ends at the first quote that is not escaped. -/
theorem escaped_inj {s s' r r' : List Char}
    (h : s.flatMap Outline.escapedChar ++ '\'' :: r =
      s'.flatMap Outline.escapedChar ++ '\'' :: r') :
    s = s' ∧ r = r' := by
  induction s generalizing s' with
  | nil =>
    cases s' with
    | nil => exact ⟨rfl, (List.cons.inj h).2⟩
    | cons c' s' =>
      rw [List.flatMap_cons, List.append_assoc] at h
      exact absurd h.symm (escapedChar_ne_quote c' _ r)
  | cons c s ih =>
    rw [List.flatMap_cons, List.append_assoc] at h
    cases s' with
    | nil => exact absurd h (escapedChar_ne_quote c _ r')
    | cons c' s' =>
      rw [List.flatMap_cons, List.append_assoc] at h
      obtain ⟨rfl, hrest⟩ := escapedChar_inj h
      obtain ⟨rfl, rfl⟩ := ih hrest
      exact ⟨rfl, rfl⟩

theorem quote_inj {s s' r r' : List Char} (h : quote s ++ r = quote s' ++ r') :
    s = s' ∧ r = r' := by
  simp only [quote, List.cons_append, List.append_assoc, List.nil_append, List.cons.injEq,
    true_and] at h
  exact escaped_inj h

/-- How the text of a sketch begins: with a character of a word, a quote or an opening bracket. -/
theorem Plain.exists_head {a : Sketch} (ha : a.Plain) :
    ∃ c t, a.text = c :: t ∧ c ∉ [',', ')', ']'] := by
  have hword {w : List Char} (hw : IsWord w) (r : List Char) :
      ∃ c t, w ++ r = c :: t ∧ c ∉ [',', ')', ']'] := by
    obtain ⟨c, t, rfl⟩ := List.exists_cons_of_ne_nil hw.ne_nil
    refine ⟨c, t ++ r, rfl, fun hc => ?_⟩
    have hplain := hw.plain c List.mem_cons_self
    fin_cases hc <;> exact absurd hplain (by decide)
  cases a with
  | word w =>
    rw [Plain] at ha
    rw [text]
    simpa using hword ha []
  | quoted s => exact ⟨'\'', _, by rw [text, quote], by decide⟩
  | node label fields =>
    rw [text_node]
    exact hword ha.1 _
  | list items => exact ⟨'[', _, text_list items, by decide⟩

theorem ends_more (as : List Sketch) {c : Char} (hc : c ∈ [')', ']']) (r : List Char) :
    Ends (more as ++ c :: r) := by
  cases as with
  | nil =>
    exact ends_cons (List.mem_cons_of_mem _ hc) r
  | cons a as =>
    exact ends_cons (by decide) _

mutual

/-- **Plain sketches with the same text are the same.** What follows them may differ. -/
theorem text_inj : ∀ (a b : Sketch) {r r' : List Char}, a.Plain → b.Plain → Ends r → Ends r' →
    a.text ++ r = b.text ++ r' → a = b ∧ r = r'
  | .word w, b, r, r', ha, hb, hr, hr', h => by
    cases b with
    | word w' =>
      obtain ⟨rfl, rfl⟩ := word_inj ha.plain hb.plain hr.mark hr'.mark h
      exact ⟨rfl, rfl⟩
    -- two sketches of different kinds differ in the first mark after their words
    | quoted s' =>
      exact absurd (word_eq_nil ha.plain hr.mark (by decide) h) ha.ne_nil
    | node label' fields' =>
      rw [text, text_node, List.append_assoc] at h
      obtain ⟨-, rfl⟩ := word_inj ha.plain hb.1.plain hr.mark (by simp [isMark]) h
      have hopen := hr '(' _ rfl
      exact absurd hopen (by decide)
    | list items' =>
      rw [text, text_list] at h
      exact absurd (word_eq_nil ha.plain hr.mark (by decide) h) ha.ne_nil
  | .quoted s, b, r, r', ha, hb, hr, hr', h => by
    cases b with
    | word w' =>
      exact absurd (word_eq_nil hb.plain hr'.mark (by decide) h.symm) hb.ne_nil
    | quoted s' =>
      obtain ⟨rfl, rfl⟩ := quote_inj h
      exact ⟨rfl, rfl⟩
    | node label' fields' =>
      rw [text, text_node, quote, List.append_assoc] at h
      exact absurd (word_eq_nil hb.1.plain (by simp [isMark]) (by decide) h.symm) hb.1.ne_nil
    | list items' =>
      rw [text, text_list, quote] at h
      cases (List.cons.inj h).1
  | .node label fields, b, r, r', ha, hb, hr, hr', h => by
    rw [text_node, List.append_assoc] at h
    cases b with
    | word w' =>
      obtain ⟨-, rfl⟩ := word_inj hb.plain ha.1.plain hr'.mark (by simp [isMark]) h.symm
      have hopen := hr' '(' _ rfl
      exact absurd hopen (by decide)
    | quoted s' =>
      exact absurd (word_eq_nil ha.1.plain (by simp [isMark]) (by decide) h) ha.1.ne_nil
    | node label' fields' =>
      rw [text_node, List.append_assoc] at h
      obtain ⟨rfl, hfields⟩ := word_inj ha.1.plain hb.1.plain (by simp [isMark])
        (by simp [isMark]) h
      simp only [List.cons_append, List.append_assoc, List.nil_append, List.cons.injEq,
        true_and] at hfields
      obtain ⟨rfl, rfl⟩ := texts_inj fields fields' ha.2 hb.2 (by decide) hfields
      exact ⟨rfl, rfl⟩
    | list items' =>
      rw [text_list] at h
      exact absurd (word_eq_nil ha.1.plain (by simp [isMark]) (by decide) h) ha.1.ne_nil
  | .list items, b, r, r', ha, hb, hr, hr', h => by
    rw [text_list] at h
    cases b with
    | word w' =>
      exact absurd (word_eq_nil hb.plain hr'.mark (by decide) h.symm) hb.ne_nil
    | quoted s' =>
      cases (List.cons.inj h).1
    | node label' fields' =>
      rw [text_node, List.append_assoc] at h
      exact absurd (word_eq_nil hb.1.plain (by simp [isMark]) (by decide) h.symm) hb.1.ne_nil
    | list items' =>
      rw [text_list] at h
      simp only [List.cons_append, List.append_assoc, List.nil_append, List.cons.injEq,
        true_and] at h
      obtain ⟨rfl, rfl⟩ := texts_inj items items' ha hb (by decide) h
      exact ⟨rfl, rfl⟩

theorem texts_inj : ∀ (as bs : List Sketch) {c : Char} {r r' : List Char}, AllPlain as →
    AllPlain bs → c ∈ [')', ']'] → texts as ++ c :: r = texts bs ++ c :: r' → as = bs ∧ r = r'
  | [], bs, c, r, r', _, hbs, hc, h => by
    cases bs with
    | nil => exact ⟨rfl, (List.cons.inj h).2⟩
    | cons b bs =>
      obtain ⟨c', t, htext, hc'⟩ := hbs.1.exists_head
      rw [texts, texts, htext] at h
      obtain ⟨rfl, -⟩ := List.cons.inj h
      exact absurd (List.mem_cons_of_mem _ hc) hc'
  | a :: as, bs, c, r, r', has, hbs, hc, h => by
    cases bs with
    | nil =>
      obtain ⟨c', t, htext, hc'⟩ := has.1.exists_head
      rw [texts, texts, htext] at h
      obtain ⟨rfl, -⟩ := List.cons.inj h
      exact absurd (List.mem_cons_of_mem _ hc) hc'
    | cons b bs =>
      rw [texts, texts, List.append_assoc, List.append_assoc] at h
      obtain ⟨rfl, hmore⟩ := text_inj a b has.1 hbs.1 (ends_more as hc r) (ends_more bs hc r') h
      obtain ⟨rfl, rfl⟩ := more_inj as bs has.2 hbs.2 hc hmore
      exact ⟨rfl, rfl⟩

theorem more_inj : ∀ (as bs : List Sketch) {c : Char} {r r' : List Char}, AllPlain as →
    AllPlain bs → c ∈ [')', ']'] → more as ++ c :: r = more bs ++ c :: r' → as = bs ∧ r = r'
  | [], bs, c, r, r', _, _, hc, h => by
    cases bs with
    | nil => exact ⟨rfl, (List.cons.inj h).2⟩
    | cons b bs =>
      obtain ⟨rfl, -⟩ := List.cons.inj h
      exact absurd hc (by decide)
  | a :: as, bs, c, r, r', has, hbs, hc, h => by
    cases bs with
    | nil =>
      obtain ⟨rfl, -⟩ := List.cons.inj h
      exact absurd hc (by decide)
    | cons b bs =>
      rw [AllPlain] at hbs
      rw [more, more] at h
      simp only [List.cons_append, List.append_assoc, List.cons.injEq, true_and] at h
      obtain ⟨rfl, hmore⟩ := text_inj a b has.1 hbs.1 (ends_more as hc r) (ends_more bs hc r') h
      obtain ⟨rfl, rfl⟩ := more_inj as bs has.2 hbs.2 hc hmore
      exact ⟨rfl, rfl⟩

end

end Sketch

/-! ## The sketch of an outline -/

namespace Outline

mutual

/-- What the short form of an outline shows. -/
def sketch : Outline → Sketch
  | node label _ [] => .word label.toList
  | node label _ (f :: fs) => .node label.toList (fieldSketches (f :: fs))
  | list items => .list (sketches items)
  | missing => .word "None".toList
  | string s => .quoted s.toList
  | number n => .word (Nat.toDigits 10 n)
  | symbol s => .word s.toList
  | context c => .word c.name.toList
  | literal (.str s) => .quoted s.toList
  | literal v => .word (literalText v).toList

/-- The sketches of the fields that are shown. -/
def fieldSketches : List (String × Outline) → List Sketch
  | [] => []
  | (_, v) :: rest => if v.isShown then sketch v :: fieldSketches rest else fieldSketches rest

/-- The sketches of some outlines. -/
def sketches : List Outline → List Sketch
  | [] => []
  | v :: rest => sketch v :: sketches rest

end

theorem toList_quotedString (s : String) : (quotedString s).toList = Sketch.quote s.toList := by
  simp [quotedString, Sketch.quote]

mutual

/-- The short form of an outline is the text of its sketch. -/
theorem toList_dump : ∀ o : Outline, o.dump.toList = o.sketch.text
  | node label pos [] => by rw [dump, sketch, Sketch.text]
  | node label pos (f :: fs) => by
    rw [dump, sketch, Sketch.text_node]
    simp [toList_dumpFields (f :: fs)]
  | list items => by
    rw [dump, sketch, Sketch.text_list]
    simp [toList_dumpItems items]
  | missing => by rw [dump, sketch, Sketch.text]
  | string s => by rw [dump, sketch, Sketch.text, toList_quotedString]
  | number n => by rw [dump, sketch, Sketch.text, Nat.toList_repr]
  | symbol s => by rw [dump, sketch, Sketch.text]
  | context c => by rw [dump, sketch, Sketch.text]
  | literal v => by
    cases v with
    | str s => rw [dump, sketch, Sketch.text, literalText, toList_quotedString]
    | _ =>
      rw [dump, sketch, Sketch.text]
      nofun

theorem toList_dumpFields : ∀ fs : List (String × Outline),
    (dumpFields true fs).toList = Sketch.texts (fieldSketches fs)
  | [] => by rw [dumpFields, fieldSketches, Sketch.texts, String.toList_empty]
  | (key, v) :: rest => by
    rw [dumpFields, fieldSketches]
    split
    · simp [Sketch.texts, toList_dump v, toList_dumpMore rest]
    · exact toList_dumpFields rest

theorem toList_dumpMore : ∀ fs : List (String × Outline),
    (dumpFields false fs).toList = Sketch.more (fieldSketches fs)
  | [] => by rw [dumpFields, fieldSketches, Sketch.more, String.toList_empty]
  | (key, v) :: rest => by
    rw [dumpFields, fieldSketches]
    split
    · simp [Sketch.more, toList_dump v, toList_dumpMore rest]
    · exact toList_dumpMore rest

theorem toList_dumpItems : ∀ items : List Outline,
    (dumpItems true items).toList = Sketch.texts (sketches items)
  | [] => by rw [dumpItems, sketches, Sketch.texts, String.toList_empty]
  | v :: rest => by
    rw [dumpItems, sketches]
    simp [Sketch.texts, toList_dump v, toList_dumpRest rest]

theorem toList_dumpRest : ∀ items : List Outline,
    (dumpItems false items).toList = Sketch.more (sketches items)
  | [] => by rw [dumpItems, sketches, Sketch.more, String.toList_empty]
  | v :: rest => by
    rw [dumpItems, sketches]
    simp [Sketch.more, toList_dump v, toList_dumpRest rest]

end

/-- Outlines with the same short form have the same sketch. -/
theorem sketch_eq_of_dump {o o' : Outline} (ho : o.sketch.Plain) (ho' : o'.sketch.Plain)
    (h : o.dump = o'.dump) : o.sketch = o'.sketch := by
  have htext : o.sketch.text ++ [] = o'.sketch.text ++ [] := by
    rw [← toList_dump, ← toList_dump, h]
  exact (Sketch.text_inj _ _ ho ho' Sketch.ends_nil Sketch.ends_nil htext).1

end Outline

end Toolchain

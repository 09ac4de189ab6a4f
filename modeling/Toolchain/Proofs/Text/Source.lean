import Toolchain.Parser.Block
import Toolchain.Proofs.Text.Utf8

/-!
# The two sources hand out the same characters

A direct source decodes the bytes that are left at each call. A buffered source decodes a character
once and holds it until it is taken; the end, once seen, is held for good. Both show the characters
of the text, one after the other: each call changes what a source has left in the way it would
change a list of characters, and is answered as the list would answer it. So no one who talks to a
source can tell which of the two it is, and the tokens and the program read through either are those
of the text.

## Main definitions

* `Source.Client`: someone who talks to a source, and chooses each call by the answers so far
* `Source.Listed.step`: a list of characters as a source
* `Source.Shows`: a source that behaves like the list of what it has left
* `Source.drain`, `Source.lexed`, `Source.parsed`: the characters, tokens and program read through a
  source

## Main results

* `Source.Direct.shows`, `Source.Buffered.shows`: what one call does
* `Source.Shows.answers_eq`, `Source.Shows.run_eq`: what a whole conversation does
* `Source.sources_agree`: the sources cannot be told apart
-/

namespace Toolchain.Source

/-- Someone who talks to a source and ends with a result. Each call may depend on all answers
before it. -/
inductive Client (α : Type) where
  /-- The conversation is over. -/
  | done (result : α)
  /-- A call, and how to go on after its answer. -/
  | ask (call : Call) (next : Answer → Client α)

variable {σ α : Type}

/-- The result of a conversation with a source, and the source after it. -/
def Client.run (step : σ → Call → Answer × σ) : Client α → σ → α × σ
  | .done result, s => (result, s)
  | .ask call next, s => (next (step s call).1).run step (step s call).2

/-- A list of characters answers a call. -/
def Listed.step (cs : List Char) : Call → Answer × List Char
  | .peek => (.char cs.head?, cs)
  | .read => (.char cs.head?, cs.tail)
  | .atEnd => (.flag cs.isEmpty, cs)

/-- Every call to a source is answered by the list of what is left, and changes that list as it
would change the list alone. -/
def Shows (step : σ → Call → Answer × σ) (unread : σ → List Char) : Prop :=
  ∀ s call, ((step s call).1, unread (step s call).2) = Listed.step (unread s) call

/-! ## Conversations -/

namespace Shows

variable {step : σ → Call → Answer × σ} {unread : σ → List Char}

theorem answer_eq (h : Shows step unread) (s : σ) (call : Call) :
    (step s call).1 = (Listed.step (unread s) call).1 :=
  congrArg Prod.fst (h s call)

theorem unread_eq (h : Shows step unread) (s : σ) (call : Call) :
    unread (step s call).2 = (Listed.step (unread s) call).2 :=
  congrArg Prod.snd (h s call)

/-- The answers to a list of calls are those of the list of what is left. -/
theorem answers_eq (h : Shows step unread) (calls : List Call) :
    ∀ s, answers step s calls = answers Listed.step (unread s) calls := by
  induction calls with
  | nil =>
    intro s
    rfl
  | cons call calls ih =>
    intro s
    rw [answers, answers, h.answer_eq s call, ih, h.unread_eq s call]

/-- A conversation ends with the same result, and leaves the same characters, as with the list. -/
theorem run_eq (h : Shows step unread) (client : Client α) :
    ∀ s, ((client.run step s).1, unread (client.run step s).2) =
      client.run Listed.step (unread s) := by
  induction client with
  | done result =>
    intro s
    rfl
  | ask call next ih =>
    intro s
    rw [Client.run, Client.run, ih, h.answer_eq s call, h.unread_eq s call]

end Shows

/-! ## What is left of a text -/

theorem glyphsFrom_eq_drop (skip : Nat) (t : Text) :
    Text.glyphsFrom skip t = Text.glyphs (t.drop skip) := by
  induction t generalizing skip with
  | nil => cases skip <;> rfl
  | cons b rest ih =>
    cases skip with
    | zero => rfl
    | succ skip => exact ih skip

theorem chars_of_next?_eq_some {t rest : Text} {c : Char} (h : next? t = some (c, rest)) :
    t.chars = c :: rest.chars := by
  cases t with
  | nil => cases h
  | cons b after =>
    rw [next?] at h
    rw [Text.chars, Text.glyphs, Text.glyphsFrom]
    cases hread : Text.leading? (b :: after) with
    | some read =>
      obtain ⟨found, width⟩ := read
      rw [hread] at h
      obtain ⟨rfl, rfl⟩ := Prod.mk.inj (Option.some.inj h)
      simp only [List.map_cons, glyphsFrom_eq_drop]
      rfl
    | none =>
      rw [hread] at h
      obtain ⟨rfl, rfl⟩ := Prod.mk.inj (Option.some.inj h)
      rfl

theorem eq_nil_of_next?_eq_none {t : Text} (h : next? t = none) : t = [] := by
  cases t with
  | nil => rfl
  | cons b after =>
    rw [next?] at h
    split at h <;> cases h

theorem isEmpty_chars (t : Text) : t.chars.isEmpty = t.isEmpty := by
  cases hnext : next? t with
  | none =>
    rw [eq_nil_of_next?_eq_none hnext]
    rfl
  | some read =>
    obtain ⟨c, rest⟩ := read
    rw [chars_of_next?_eq_some hnext]
    cases t with
    | nil => cases hnext
    | cons b after => rfl

/-- A text has at most as many characters as bytes. -/
theorem length_chars_le (t : Text) : t.chars.length ≤ t.length := by
  have hglyphs : ∀ (t : Text) (skip : Nat), (Text.glyphsFrom skip t).length ≤ t.length := by
    intro t
    induction t with
    | nil =>
      intro skip
      cases skip <;> exact Nat.le_refl _
    | cons b rest ih =>
      intro skip
      cases skip with
      | succ skip => exact Nat.le_succ_of_le (ih skip)
      | zero =>
        rw [Text.glyphsFrom]
        split
        · exact Nat.succ_le_succ (ih _)
        · exact Nat.succ_le_succ (ih _)
  rw [Text.chars, List.length_map]
  exact hglyphs t 0

/-- The characters a direct source has left. -/
def Direct.unread (s : Direct) : List Char := s.rest.chars

/-- The characters a buffered source has left: the one it holds comes first. -/
def Buffered.unread (s : Buffered) : List Char :=
  match s.slot with
  | none => s.rest.chars
  | some none => []
  | some (some c) => c :: s.rest.chars

theorem Direct.shows : Shows Direct.step Direct.unread := by
  intro s call
  cases hnext : next? s.rest with
  | none =>
    have hrest : s.rest = [] := eq_nil_of_next?_eq_none hnext
    have hunread : s.unread = [] := by
      rw [Direct.unread, hrest]
      rfl
    rw [hunread]
    cases call with
    | peek => simp [Direct.step, Listed.step, hnext, hunread]
    | read => simp [Direct.step, Listed.step, hnext, hunread]
    | atEnd => simp [Direct.step, Listed.step, hunread, hrest]
  | some read =>
    obtain ⟨c, rest⟩ := read
    have hunread : s.unread = c :: rest.chars := chars_of_next?_eq_some hnext
    have hfull : s.rest.isEmpty = false := by
      rw [← isEmpty_chars, ← Direct.unread, hunread]
      rfl
    rw [hunread]
    cases call with
    | peek => simp [Direct.step, Listed.step, hnext, hunread]
    | read => simp [Direct.step, Listed.step, hnext, Direct.unread]
    | atEnd => simp [Direct.step, Listed.step, hunread, hfull]

/-- Filling the buffer changes nothing that is left, and the buffer then holds its head. -/
theorem Buffered.fill_spec (s : Buffered) :
    s.fill.1 = s.unread.head? ∧ s.fill.2.slot = some s.fill.1 ∧ s.fill.2.unread = s.unread := by
  obtain ⟨rest, slot⟩ := s
  cases slot with
  | some held => cases held <;> exact ⟨rfl, rfl, rfl⟩
  | none =>
    cases hnext : next? rest with
    | none =>
      have hrest : rest = [] := eq_nil_of_next?_eq_none hnext
      subst hrest
      exact ⟨rfl, rfl, rfl⟩
    | some read =>
      obtain ⟨c, after⟩ := read
      have hunread : (⟨rest, none⟩ : Buffered).unread = c :: after.chars :=
        chars_of_next?_eq_some hnext
      rw [hunread]
      simp [Buffered.fill, hnext, Buffered.unread]

theorem Buffered.shows : Shows Buffered.step Buffered.unread := by
  intro s call
  obtain ⟨hheld, hslot, hunread⟩ := s.fill_spec
  cases call with
  | peek => rw [Buffered.step, hunread, hheld, Listed.step]
  | atEnd =>
    rw [Buffered.step, hunread, hheld, Listed.step]
    cases s.unread <;> rfl
  | read =>
    -- a held character is given away; a held end stays
    rw [← hunread] at hheld ⊢
    rw [Buffered.step]
    generalize s.fill = filling at hheld hslot ⊢
    obtain ⟨held, filled⟩ := filling
    simp only at hheld hslot ⊢
    cases held with
    | some c =>
      have hleft : filled.unread = c :: filled.rest.chars := by rw [Buffered.unread, hslot]
      rw [hleft]
      rfl
    | none =>
      have hleft : filled.unread = [] := by rw [Buffered.unread, hslot]
      rw [hleft]
      rfl

/-! ## Reading a program through a source -/

/-- The characters a source hands out until its end, when it is asked at most `n` times. -/
def drain (step : σ → Call → Answer × σ) : Nat → σ → List Char
  | 0, _ => []
  | n + 1, s =>
    match step s .read with
    | (.char (some c), after) => c :: drain step n after
    | _ => []

/-- The tokens of the characters a source hands out, and what is wrong with them. -/
def lexed (step : σ → Call → Answer × σ) (n : Nat) (s : σ) : List Token × List LexError :=
  let (tokens, drained) := Lexer.all { rest := drain step n s }
  (tokens, drained.errors)

/-- What a rule of the grammar makes of the tokens read through a source. -/
def parsed (step : σ → Call → Answer × σ) (n : Nat) (s : σ) (rule : Parse (Root Mark))
    (file : Text) : Except Diagnostic Parsed :=
  let (tokens, errors) := lexed step n s
  match StateT.run rule { tokens := tokens.filter fun t => t.kind != .comment, errors } with
  | .ok (root, s) => .ok ⟨root, s.arena⟩
  | .error fault => .error (fault.diagnostic file)

theorem Shows.drain_eq {step : σ → Call → Answer × σ} {unread : σ → List Char}
    (h : Shows step unread) (n : Nat) : ∀ s, drain step n s = (unread s).take n := by
  induction n with
  | zero =>
    intro s
    rfl
  | succ n ih =>
    intro s
    have hread := h s .read
    rw [Listed.step, Prod.mk.injEq] at hread
    rw [drain]
    generalize step s .read = answered at hread ⊢
    obtain ⟨answer, after⟩ := answered
    obtain ⟨rfl, hafter⟩ := hread
    cases hunread : unread s with
    | nil => rfl
    | cons c cs =>
      simp only [List.head?_cons, List.take_succ_cons]
      rw [ih, hafter, hunread, List.tail_cons]

/-- A source that has the characters of a text left, asked as often as the text has bytes or more,
is read as the text. -/
theorem Shows.lexed_eq {step : σ → Call → Answer × σ} {unread : σ → List Char}
    (h : Shows step unread) {t : Text} {s : σ} (hs : unread s = t.chars) (more : Nat) :
    lexed step (t.length + more) s = tokenize t := by
  have hdrain : drain step (t.length + more) s = t.chars := by
    rw [h.drain_eq, hs, List.take_of_length_le]
    exact Nat.le_add_right_of_le (length_chars_le t)
  rw [lexed, hdrain]
  rfl

theorem Shows.parsed_eq {step : σ → Call → Answer × σ} {unread : σ → List Char}
    (h : Shows step unread) {t : Text} {s : σ} (hs : unread s = t.chars) (more : Nat)
    (rule : Parse (Root Mark)) (file : Text) :
    parsed step (t.length + more) s rule file = Parse.run rule file t := by
  rw [parsed, h.lexed_eq hs]
  rfl

/-- **The two sources cannot be told apart.** On any bytes, any list of calls has the same answers,
and so has any conversation in which the calls depend on the answers; the list of the characters of
the text answers in the same way. So the tokens, what is wrong with them, and the outcome of any
rule of the grammar are those of the text, through whichever source it is read. -/
theorem sources_agree (t : Text) :
    (∀ calls, answers Direct.step ⟨t⟩ calls = answers Buffered.step { rest := t } calls) ∧
    (∀ (α : Type) (client : Client α),
      (client.run Direct.step ⟨t⟩).1 = (client.run Listed.step t.chars).1 ∧
      (client.run Buffered.step { rest := t }).1 = (client.run Listed.step t.chars).1) ∧
    (∀ more, lexed Direct.step (t.length + more) ⟨t⟩ = tokenize t ∧
      lexed Buffered.step (t.length + more) { rest := t } = tokenize t) ∧
    ∀ more rule file,
      parsed Direct.step (t.length + more) ⟨t⟩ rule file = Parse.run rule file t ∧
      parsed Buffered.step (t.length + more) { rest := t } rule file = Parse.run rule file t := by
  refine ⟨?_, ?_, ?_, ?_⟩
  · intro calls
    exact (Direct.shows.answers_eq calls ⟨t⟩).trans
      (Buffered.shows.answers_eq calls { rest := t }).symm
  · intro α client
    constructor
    · exact congrArg Prod.fst (Direct.shows.run_eq client ⟨t⟩)
    · exact congrArg Prod.fst (Buffered.shows.run_eq client { rest := t })
  · intro more
    constructor
    · exact Direct.shows.lexed_eq rfl more
    · exact Buffered.shows.lexed_eq rfl more
  · intro more rule file
    constructor
    · exact Direct.shows.parsed_eq rfl more rule file
    · exact Buffered.shows.parsed_eq rfl more rule file

/-- A character cut off at the end of a text is read byte by byte, by either source. -/
example : answers Buffered.step { rest := [0x61, 0xE2, 0x82] }
      [.peek, .read, .read, .atEnd, .read, .read, .peek] =
    [.char (some 'a'), .char (some 'a'), .char (some '\uFFFD'), .flag false,
      .char (some '\uFFFD'), .char none, .char none] := by
  decide

end Toolchain.Source

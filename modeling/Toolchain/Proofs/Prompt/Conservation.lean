import Mathlib.Data.List.Destutter
import Mathlib.Data.List.DropRight
import Toolchain.Prompt.Session
import Toolchain.Proofs.Disk.Place
import Toolchain.Proofs.Text.Utf8

/-!
# A session loses no line

Every line that is read at the prompt goes somewhere, and goes there once: it is a command, or it is
the empty line that ends a block, or it is a line of one submitted input. What carries this through
a session is the draft: its lines are those that were read and neither submitted nor dropped, and
when it is not pending it is empty.

## Main definitions

* `PromptSession.Course`, `PromptSession.course`: a session line by line
* `PromptSession.Course.submitted`, `PromptSession.Course.kept`: the inputs that are submitted, and
  the lines that are neither commands nor ends of blocks
* `PromptSession.recent`: the inputs that a history shows

## Main results

* `Draft.accept_lines`: what one line does to the lines of a draft
* `PromptSession.Course.Sound`, `PromptSession.sound_course`: what a session keeps
* `PromptSession.Course.Sound.history_outcome`: the history
* `PromptSession.session_conserves`: **a session loses no line and submits none twice**
-/

namespace Toolchain

/-! ## Lines of a text -/

namespace Text

theorem lines_of_not_mem {line : Text} (h : newline ∉ line) : lines line = [line] :=
  splitAt_of_not_mem h

/-- One more line. -/
theorem lines_append {line : Text} (h : newline ∉ line) (t : Text) :
    lines (t ++ newline :: line) = lines t ++ [line] := by
  rw [← lines_of_not_mem h]
  exact splitAt_append line t

end Text

open Text (newline)

/-- A line of an input has no newline. -/
theorem newline_not_mem_inputLines {input line : Text} (h : line ∈ inputLines input) :
    newline ∉ line := by
  obtain ⟨piece, hpiece, rfl⟩ := List.mem_map.mp h
  have hmem : piece ∈ input.lines := by
    split at hpiece
    · exact (List.dropLast_sublist _).subset hpiece
    · exact hpiece
  have hsub : withoutLineEnd piece ⊆ piece := by
    intro b hb
    have hb := (List.dropWhile_sublist _).subset (List.mem_reverse.mp hb)
    exact List.mem_reverse.mp hb
  exact fun hb => Text.not_mem_of_mem_splitAt hmem (hsub hb)

/-! ## Drafts -/

namespace Draft

/-- The lines that a draft holds. -/
def lines (t : Draft) : List Text := if t.isPending then t.text.lines else []

/-- A draft that holds nothing unless it is pending. -/
def IsProper (t : Draft) : Prop := t.isPending = false → t.text = [] ∧ t.isBlock = false

theorem isProper_empty : ({} : Draft).IsProper := fun _ => ⟨rfl, rfl⟩

/-- Whether a line ends a draft, as an empty line ends a block. -/
def isEnd (t : Draft) (line : Text) : Bool := t.isBlock && line.trim.isEmpty

theorem lines_add {t : Draft} (ht : t.IsProper) {line : Text} (hline : newline ∉ line) :
    (t.add line).text.lines = t.lines ++ [line] := by
  unfold add lines
  cases hpending : t.isPending with
  | true =>
    have hbreak : Text.ofString "\n" = [newline] := by with_unfolding_all rfl
    simp only [if_true]
    rw [hbreak, List.append_assoc]
    exact Text.lines_append hline t.text
  | false =>
    simp only [Bool.false_eq_true, if_false]
    rw [(ht hpending).1]
    exact Text.lines_of_not_mem hline

/-- What a line makes of a draft is proper, and no line is lost: the lines of the input that is
complete and those of the new draft are the lines of the old one and the line itself, unless the
line ends a block. -/
theorem accept_lines {t : Draft} (ht : t.IsProper) {line : Text} (hline : newline ∉ line) :
    (t.accept line).1.IsProper ∧
      (t.accept line).2.toList.flatMap Text.lines ++ (t.accept line).1.lines =
        t.lines ++ if t.isEnd line then [] else [line] := by
  have hadd := lines_add ht hline
  unfold accept
  split
  · next hend =>
    -- a block is pending, so that its lines are those of its text
    have hblock : t.isBlock = true := (Bool.and_eq_true_iff.mp hend).1
    have hpending : t.isPending = true := by
      by_contra h
      rw [(ht (Bool.eq_false_iff.mpr h)).2] at hblock
      cases hblock
    refine ⟨isProper_empty, ?_⟩
    simp [lines, hpending, isEnd, hend]
  · next hend =>
    rw [if_neg (show ¬ t.isEnd line = true from hend)]
    simp only
    split
    · refine ⟨nofun, ?_⟩
      simpa [lines] using hadd
    · refine ⟨isProper_empty, ?_⟩
      simpa [lines] using hadd

end Draft

/-! ## What a line is taken for -/

namespace Text

/-- Whether a line is a command, unless it belongs to a draft. -/
def isCommand (line : Text) : Bool := line.trim.head? = some ':'.toUInt8

/-- Whether a line ends a session, unless it belongs to a draft. -/
def leaves (line : Text) : Bool :=
  line.trim = ofString "exit" || line.trim = ofString "quit" ||
    isCommand line && PromptCommand.ofLine line.trim = .quit

end Text

namespace Draft

variable {t : Draft} {line : Text}

/-- While a draft is pending, every line belongs to it. -/
theorem action_of_pending (h : t.isPending = true) (line : Text) :
    t.action line = .type (t.accept line).1 (t.accept line).2 := by
  simp [action, h]

/-- At the prompt for a new input a line may leave, be a command, or begin an input. -/
theorem action_of_idle (h : t.isPending = false) (line : Text) :
    (line.leaves = true ∧ (t.action line = .leave ∨ t.action line = .command .quit)) ∨
    (line.leaves = false ∧ line.isCommand = true ∧
      ∃ c, c ≠ .quit ∧ t.action line = .command c) ∨
    (line.leaves = false ∧ line.isCommand = false ∧
      t.action line = .type (t.accept line).1 (t.accept line).2) := by
  have haction : t.action line =
      if line.trim = Text.ofString "exit" ∨ line.trim = Text.ofString "quit" then .leave
      else if line.isCommand then .command (.ofLine line.trim)
      else .type (t.accept line).1 (t.accept line).2 := by
    simp [action, h, Text.isCommand]
  rw [haction]
  by_cases hword : line.trim = Text.ofString "exit" ∨ line.trim = Text.ofString "quit"
  · rw [if_pos hword]
    exact .inl ⟨by simp [Text.leaves, hword], .inl rfl⟩
  rw [if_neg hword]
  cases hcommand : line.isCommand with
  | false => exact .inr (.inr ⟨by simpa [Text.leaves, hcommand] using hword, rfl, rfl⟩)
  | true =>
    by_cases hquit : PromptCommand.ofLine line.trim = .quit
    · exact .inl ⟨by simp [Text.leaves, hcommand, hquit], .inr (congrArg _ hquit)⟩
    · exact .inr (.inl ⟨by simpa [Text.leaves, hcommand, hquit] using hword, rfl, _, hquit, rfl⟩)

end Draft

namespace PromptSession

/-! ## The history -/

/-- What a history shows of the inputs that were submitted: the last of those that are more than
white space, without repetitions one after the other. -/
def recent (inputs : List Text) : List Text :=
  ((inputs.filter fun t => !t.trim.isEmpty).destutter (· ≠ ·)).rtake maxHistory

theorem recent_nil : recent [] = [] := List.rtake_nil maxHistory

/-- One more element of a list without repetitions. -/
theorem destutter_concat (l : List Text) (x : Text) :
    (l ++ [x]).destutter (· ≠ ·) =
      if l.getLast? = some x then l.destutter (· ≠ ·) else l.destutter (· ≠ ·) ++ [x] := by
  have hmore (a : Text) (l : List Text) : (l ++ [x]).destutter' (· ≠ ·) a =
      if (a :: l).getLast? = some x then l.destutter' (· ≠ ·) a
      else l.destutter' (· ≠ ·) a ++ [x] := by
    induction l generalizing a with
    | nil => by_cases h : a = x <;> simp [h]
    | cons b l ih =>
      rw [List.cons_append, List.destutter'_cons, List.destutter'_cons, ih, ih,
        List.getLast?_cons_cons]
      by_cases hb : a ≠ b
      · rw [if_pos hb, if_pos hb]
        split <;> rfl
      · rw [if_neg hb, if_neg hb, not_not.mp hb]
  cases l with
  | nil => rfl
  | cons a l => exact hmore a l

theorem getLast?_destutter (l : List Text) : (l.destutter (· ≠ ·)).getLast? = l.getLast? := by
  induction l using List.reverseRecOn with
  | nil => rfl
  | append_singleton l x ih =>
    rw [destutter_concat, List.getLast?_concat]
    split
    · next hlast => rw [ih, hlast]
    · exact List.getLast?_concat

/-- Of one more element and the last ones of a list, the last ones are those of the whole list. -/
theorem rtake_concat_rtake (l : List Text) (x : Text) (n : Nat) :
    (l.rtake n ++ [x]).rtake n = (l ++ [x]).rtake n := by
  cases n with
  | zero => rw [List.rtake_zero, List.rtake_zero]
  | succ n =>
    rw [List.rtake_concat_succ, List.rtake_concat_succ]
    simp [List.rtake_eq_reverse_take_reverse, List.take_take]

theorem getLast?_rtake (l : List Text) {n : Nat} (hn : 0 < n) :
    (l.rtake n).getLast? = l.getLast? := by
  rw [List.rtake, List.getLast?_drop]
  split
  · next hle =>
    obtain rfl : l = [] := List.length_eq_zero_iff.mp (by omega)
    rfl
  · rfl

/-- An input that is submitted is remembered, unless it is white space or the same as the one
before. -/
theorem recent_concat (inputs : List Text) (x : Text) :
    recent (inputs ++ [x]) =
      if x.trim.isEmpty = true ∨ (recent inputs).getLast? = some x then recent inputs
      else (recent inputs ++ [x]).rtake maxHistory := by
  have hpos : 0 < maxHistory := by decide
  unfold recent
  rw [List.filter_append, getLast?_rtake _ hpos, getLast?_destutter]
  cases hblank : x.trim.isEmpty with
  | true => simp [hblank]
  | false =>
    have hkeep : [x].filter (fun t => !t.trim.isEmpty) = [x] := by simp [hblank]
    rw [hkeep, destutter_concat, rtake_concat_rtake]
    simp only [Bool.false_eq_true, false_or]
    split <;> rfl

/-! ## One line -/

/-- The input that is submitted when a line is read in a session. -/
def submission? (r : PromptSession × Text) : Option Text :=
  match r.1.draft.action r.2 with
  | .type _ input => input
  | _ => none

/-- Whether a line that is read in a session is a line of an input: it is no command, which it can
be only if nothing is pending, and it is no empty line that ends a block. -/
def isKept (r : PromptSession × Text) : Bool :=
  !(!r.1.draft.isPending && r.2.isCommand) && !r.1.draft.isEnd r.2

variable (settings : PromptSettings) (language : Language) (d : Disk)

theorem history_conclude (source : Text → Option Text) (s : PromptSession)
    (outcome : Attempt Code) :
    (s.conclude settings language source outcome).history = s.history ∧
      (s.conclude settings language source outcome).draft = s.draft := by
  unfold conclude
  simp only
  split
  · exact ⟨rfl, rfl⟩
  · exact ⟨rfl, rfl⟩

/-- What is submitted goes into the history. -/
theorem history_submit {s : PromptSession} {inputs : List Text} (h : s.history = recent inputs)
    (input : Text) :
    (s.submit settings language d input).history = recent (inputs ++ [input]) ∧
      (s.submit settings language d input).draft = s.draft := by
  rw [recent_concat]
  unfold submit
  split
  · next hblank => exact ⟨by rw [if_pos (.inl hblank), h], rfl⟩
  · next hblank =>
    simp only
    rw [(history_conclude settings language _ _ _).1, (history_conclude settings language _ _ _).2]
    unfold remember
    rw [h]
    split
    · next hlast => exact ⟨by rw [if_pos (.inr hlast), h], rfl⟩
    · next hlast =>
      rw [if_neg (not_or.mpr ⟨hblank, hlast⟩)]
      refine ⟨?_, rfl⟩
      rw [List.rtake]

/-- A command that does not quit changes neither the draft nor the history. -/
theorem command_cases (s : PromptSession) {c : PromptCommand} (hc : c ≠ .quit) :
    ∃ next, s.command settings language d c = .goOn next ∧ next.draft = s.draft ∧
      next.history = s.history := by
  cases c with
  | quit => exact absurd rfl hc
  | help | history | unknown => exact ⟨_, rfl, rfl, rfl⟩
  | load file =>
    cases file with
    | none => exact ⟨_, rfl, rfl, rfl⟩
    | some file =>
      obtain ⟨hhistory, hdraft⟩ := history_conclude settings language d.read? s (compileFile d file)
      exact ⟨_, rfl, hdraft, hhistory⟩

/-- A session after a line, given the inputs that were submitted before: its draft is proper, its
history shows what was submitted, and no line is lost. -/
structure Follows (inputs : List Text) (r : PromptSession × Text) (next : PromptSession) :
    Prop where
  proper : next.draft.IsProper
  history : next.history = recent (inputs ++ (submission? r).toList)
  conserved : (submission? r).toList.flatMap Text.lines ++ next.draft.lines =
    r.1.draft.lines ++ if isKept r then [r.2] else []

variable {s : PromptSession} {inputs : List Text} {line : Text}

/-- A line that belongs to a draft. -/
theorem follows_type (hproper : s.draft.IsProper) (hhistory : s.history = recent inputs)
    (hline : newline ∉ line) (hcommand : s.draft.isPending = true ∨ line.isCommand = false)
    (haction : s.draft.action line = .type (s.draft.accept line).1 (s.draft.accept line).2) :
    ∃ next, s.line settings language d line = .goOn next ∧ Follows inputs (s, line) next := by
  obtain ⟨hproper', hlines⟩ := Draft.accept_lines hproper hline
  have hkept : isKept (s, line) = !s.draft.isEnd line := by
    rcases hcommand with h | h <;> simp [isKept, h]
  have hsubmission : submission? (s, line) = (s.draft.accept line).2 := by
    rw [submission?, haction]
  have hconserved :
      (submission? (s, line)).toList.flatMap Text.lines ++ (s.draft.accept line).1.lines =
        s.draft.lines ++ if isKept (s, line) then [line] else [] := by
    rw [hsubmission, hlines, hkept]
    cases s.draft.isEnd line <;> rfl
  rw [PromptSession.line, haction]
  generalize s.draft.accept line = made at *
  obtain ⟨draft, input⟩ := made
  cases input with
  | none =>
    refine ⟨_, rfl, hproper', ?_, hconserved⟩
    rw [hsubmission]
    simpa using hhistory
  | some input =>
    obtain ⟨hrecent, hdraft⟩ :=
      history_submit settings language d (s := { s with draft }) hhistory input
    refine ⟨_, rfl, ?_, ?_, ?_⟩
    · rw [hdraft]
      exact hproper'
    · rw [hsubmission]
      exact hrecent
    · rw [hdraft]
      exact hconserved

/-- **One line.** It ends the session, which it can do only if nothing is pending, or the session
goes on after it. -/
theorem line_cases (hproper : s.draft.IsProper) (hhistory : s.history = recent inputs)
    (hline : newline ∉ line) :
    (s.draft.isPending = false ∧ line.leaves = true ∧ s.line settings language d line = .leave s) ∨
    (s.draft.isPending = false → line.leaves = false) ∧
      ∃ next, s.line settings language d line = .goOn next ∧ Follows inputs (s, line) next := by
  cases hpending : s.draft.isPending with
  | true =>
    refine .inr ⟨nofun, ?_⟩
    exact follows_type settings language d hproper hhistory hline (.inl hpending)
      (Draft.action_of_pending hpending line)
  | false =>
    rcases Draft.action_of_idle hpending line with
      ⟨hleaves, haction⟩ | ⟨hstays, hcommand, c, hc, haction⟩ | ⟨hstays, hcommand, haction⟩
    · refine .inl ⟨rfl, hleaves, ?_⟩
      rw [PromptSession.line]
      rcases haction with haction | haction
      · rw [haction]
      · rw [haction]
        rfl
    · obtain ⟨next, hnext, hdraft, hkeeps⟩ := command_cases settings language d s hc
      refine .inr ⟨fun _ => hstays, next, ?_, ?_, ?_, ?_⟩
      · rw [PromptSession.line, haction]
        exact hnext
      · rw [hdraft]
        exact hproper
      · rw [hkeeps, hhistory, submission?, haction]
        exact congrArg recent (List.append_nil _).symm
      · rw [hdraft, submission?, haction]
        simp [isKept, hpending, hcommand]
    · refine .inr ⟨fun _ => hstays, ?_⟩
      exact follows_type settings language d hproper hhistory hline (.inr hcommand) haction

/-! ## A whole session -/

/-- A session line by line. -/
structure Course where
  /-- The lines that are read and do not leave, each with the session in which it is read. -/
  readings : List (PromptSession × Text)
  /-- The session after them. -/
  last : PromptSession
  /-- The line that leaves, and those that are never read. -/
  left : List Text

/-- A course with one more line before it. -/
def Course.after (c : Course) (r : PromptSession × Text) : Course :=
  { c with readings := r :: c.readings }

/-- The course of a session from its next line on. -/
def course (s : PromptSession) : List Text → Course
  | [] => ⟨[], s, []⟩
  | line :: rest =>
    match (s.display (s.prompt settings)).line settings language d line with
    | .goOn next => (next.course rest).after (s.display (s.prompt settings), line)
    | .leave s => ⟨[], s, line :: rest⟩

namespace Course

/-- The lines that are read and do not leave. -/
def read (c : Course) : List Text := c.readings.map Prod.snd

/-- Those of them that are lines of inputs. -/
def kept (c : Course) : List Text := (c.readings.filter isKept).map Prod.snd

/-- The sessions between the lines. -/
def sessions (c : Course) : List PromptSession := c.readings.map Prod.fst ++ [c.last]

/-- The inputs that are submitted while lines are read. -/
def completed (c : Course) : List Text := c.readings.filterMap submission?

/-- All inputs that are submitted: what is pending in the end is submitted as it is. -/
def submitted (c : Course) : List Text :=
  c.completed ++ if c.last.draft.isPending then [c.last.draft.text] else []

/-- What is kept in the course of a session through some lines, given the inputs that were submitted
before and the draft at its beginning. -/
structure Sound (inputs : List Text) (t : Draft) (lines : List Text) (c : Course) : Prop where
  lines_eq : lines = c.read ++ c.left
  stays : ∀ r ∈ c.readings, r.1.draft.isPending = false → r.2.leaves = false
  leaves : ∀ line ∈ c.left.head?, c.last.draft.isPending = false ∧ line.leaves = true
  proper : ∀ s ∈ c.sessions, s.draft.IsProper
  conserved : c.completed.flatMap Text.lines ++ c.last.draft.lines = t.lines ++ c.kept
  history : c.last.history = recent (inputs ++ c.completed)

/-- A course in which nothing is read. -/
theorem sound_nothing {left : List Text} (hproper : s.draft.IsProper)
    (hhistory : s.history = recent inputs)
    (hleft : ∀ line ∈ left.head?, s.draft.isPending = false ∧ line.leaves = true) :
    (Course.mk [] s left).Sound inputs s.draft left := by
  refine ⟨rfl, nofun, hleft, ?_, ?_, ?_⟩
  · intro other hother
    obtain rfl := List.mem_singleton.mp hother
    exact hproper
  · exact (List.append_nil _).symm
  · rw [hhistory]
    exact congrArg recent (List.append_nil _).symm

/-- A course with one more line before it. -/
theorem Sound.after {r : PromptSession × Text} {next : PromptSession} {rest : List Text}
    {c : Course} (hc : c.Sound (inputs ++ (submission? r).toList) next.draft rest)
    (hfollows : Follows inputs r next) (hproper : r.1.draft.IsProper)
    (hstays : r.1.draft.isPending = false → r.2.leaves = false) :
    (c.after r).Sound inputs r.1.draft (r.2 :: rest) := by
  have hcompleted : (c.after r).completed = (submission? r).toList ++ c.completed := by
    unfold completed Course.after
    rw [List.filterMap_cons]
    cases submission? r <;> rfl
  have hkept : (c.after r).kept = (if isKept r then [r.2] else []) ++ c.kept := by
    unfold kept Course.after
    rw [List.filter_cons]
    cases isKept r <;> rfl
  refine ⟨congrArg (r.2 :: ·) hc.lines_eq, ?_, hc.leaves, ?_, ?_, ?_⟩
  · intro other hother
    rcases List.mem_cons.mp hother with rfl | hother
    · exact hstays
    · exact hc.stays other hother
  · intro other hother
    rcases List.mem_cons.mp hother with rfl | hother
    · exact hproper
    · exact hc.proper other hother
  · calc (c.after r).completed.flatMap Text.lines ++ c.last.draft.lines
        = (submission? r).toList.flatMap Text.lines ++
            (c.completed.flatMap Text.lines ++ c.last.draft.lines) := by
          rw [hcompleted, List.flatMap_append, List.append_assoc]
      _ = (submission? r).toList.flatMap Text.lines ++ next.draft.lines ++ c.kept := by
          rw [hc.conserved, List.append_assoc]
      _ = r.1.draft.lines ++ (c.after r).kept := by
          rw [hfollows.conserved, hkept, List.append_assoc]
  · rw [hcompleted, ← List.append_assoc]
    exact hc.history

end Course

/-- **A run.** A line that leaves ends the course; after any other one the rest of the lines take
theirs. -/
theorem sound_course (hproper : s.draft.IsProper) (hhistory : s.history = recent inputs)
    {lines : List Text} (hlines : ∀ line ∈ lines, newline ∉ line) :
    (s.course settings language d lines).Sound inputs s.draft lines := by
  induction lines generalizing s inputs with
  | nil => exact Course.sound_nothing hproper hhistory nofun
  | cons line rest ih =>
    -- the prompt changes neither the draft nor the history
    have hhistory' : (s.display (s.prompt settings)).history = recent inputs := hhistory
    have hproper' : (s.display (s.prompt settings)).draft.IsProper := hproper
    have hline : newline ∉ line := hlines line List.mem_cons_self
    have hcases := line_cases settings language d hproper' hhistory' hline
    rw [course]
    rcases hcases with ⟨hidle, hleaves, hline⟩ | ⟨hstays, next, hline, hfollows⟩
    · rw [hline]
      refine Course.sound_nothing (s := s.display (s.prompt settings)) hproper hhistory ?_
      intro first hfirst
      obtain rfl : line = first := by simpa using hfirst
      exact ⟨hidle, hleaves⟩
    · rw [hline]
      have hrest := ih hfollows.proper hfollows.history
        fun other h => hlines other (List.mem_cons_of_mem line h)
      exact hrest.after hfollows hproper hstays

/-- How a session ends: at the end of the lines what is pending is submitted. -/
def Course.outcome (c : Course) : PromptSession :=
  if c.left = [] then (c.last.display (c.last.prompt settings)).finish settings language d
  else c.last.display (farewell language)

theorem lines_eq_outcome (s : PromptSession) (lines : List Text) :
    s.lines settings language d lines =
      (s.course settings language d lines).outcome settings language d := by
  induction lines generalizing s with
  | nil => rfl
  | cons line rest ih =>
    rw [PromptSession.lines, course]
    cases PromptSession.line settings language d (s.display (s.prompt settings)) line with
    | goOn next => exact ih next
    | leave s => rfl

/-- The history at the end of the lines. -/
theorem history_finish (hhistory : s.history = recent inputs) :
    (s.finish settings language d).history =
      recent (inputs ++ if s.draft.isPending then [s.draft.text] else []) := by
  unfold finish
  cases hpending : s.draft.isPending with
  | true =>
    exact (history_submit settings language d (s := { s with draft := {} }) hhistory s.draft.text).1
  | false =>
    rw [if_neg Bool.false_ne_true, if_neg Bool.false_ne_true, List.append_nil]
    exact hhistory

/-- The history at the end of a session. -/
theorem Course.Sound.history_outcome {t : Draft} {lines : List Text} {c : Course}
    (hc : c.Sound inputs t lines) :
    (c.outcome settings language d).history = recent (inputs ++ c.submitted) := by
  unfold outcome submitted
  rw [← List.append_assoc]
  split
  · exact history_finish settings language d (s := c.last.display _) hc.history
  · next hleft =>
    -- a line that leaves does so with nothing pending
    obtain ⟨line, rest, hcons⟩ := List.exists_cons_of_ne_nil hleft
    obtain ⟨hidle, -⟩ := hc.leaves line (by rw [hcons]; rfl)
    rw [hidle, if_neg Bool.false_ne_true, List.append_nil]
    exact hc.history

/-- **A session loses no line and submits none twice.** -/
theorem session_conserves (input : Text) :
    let c := (start settings language).course settings language d (inputLines input)
    -- the lines are read up to one that leaves, at the prompt for a new input
    inputLines input = c.read ++ c.left ∧
    (∀ r ∈ c.readings, r.1.draft.isPending = false → r.2.leaves = false) ∧
    (∀ line ∈ c.left.head?, c.last.draft.isPending = false ∧ line.leaves = true) ∧
    -- those that are read are the lines of what is submitted, in order
    c.submitted.flatMap Text.lines = c.kept ∧
    -- nothing is left of an input that is submitted
    (∀ s ∈ c.sessions, s.draft.isPending = false → s.draft.text = [] ∧ s.draft.isBlock = false) ∧
    -- the session ends as its course does, and shows what was submitted in its history
    run settings language d input = c.outcome settings language d ∧
    (run settings language d input).history = recent c.submitted := by
  intro c
  have hsound : c.Sound [] {} (inputLines input) :=
    sound_course settings language d (s := start settings language) Draft.isProper_empty
      recent_nil.symm fun line => newline_not_mem_inputLines
  have hrun : run settings language d input = c.outcome settings language d :=
    lines_eq_outcome settings language d _ (inputLines input)
  refine ⟨hsound.lines_eq, hsound.stays, hsound.leaves, ?_, hsound.proper, hrun, ?_⟩
  · -- what is pending in the end is what was not submitted before
    have hlast : (if c.last.draft.isPending then [c.last.draft.text] else []).flatMap Text.lines =
        c.last.draft.lines := by
      unfold Draft.lines
      cases c.last.draft.isPending <;> simp
    have hconserved : c.completed.flatMap Text.lines ++ c.last.draft.lines = c.kept :=
      hsound.conserved
    rw [Course.submitted, List.flatMap_append, hlast]
    exact hconserved
  · rw [hrun]
    exact hsound.history_outcome settings language d

-- the line that leaves is not part of an input, and those behind it are not read
example : (({} : PromptSession).course {} .english {} ["if x:", "  y", "", ":q", "z"]).submitted =
    ["if x:\n  y"] := by
  decide +kernel

end PromptSession

end Toolchain

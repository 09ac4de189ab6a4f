import Toolchain.Proofs.Compiler.Support

/-!
# Every failure is reported once

What parses a program text, or compiles it, is run with a log, and goes on after a fault. It
succeeds and writes no error, or it fails and writes one error, with the message of the diagnostic:
what it does after the first fault writes nothing. The message tells where: the line and the column
if the parser has found what is wrong, and the line if the compiler has.

## Main definitions

* `Diagnostic.IsPlaced`, `Diagnostic.IsLined`: the message of a diagnostic tells its place, or its
  line
* `Reports`: an outcome is reported once
* `Delivers`: a run with a log has an outcome and writes the entries that report it

## Main results

* `GuardedCompile.compileModule_eq`, `GuardedCompile.compileExpression_eq`,
  `GuardedCompile.compilePrompt_eq`: compiling a text with a log, and going on after a fault, has
  the same outcome and writes the same entries
* `reports_once`: **every failure is reported once**
-/

namespace Toolchain

/-! ## Diagnostics that tell where they are -/

/-- A diagnostic of the parser, whose message tells its line and its column, in every language. -/
structure Diagnostic.IsPlaced (d : Diagnostic) : Prop where
  code : d.code.isOfCompiler = false
  tells : d.message.Tells Language.place [.int d.line, .int d.column]
  text : ∀ language, ∃ before after,
    d.message.text language = before ++ language.place.fill [.int d.line, .int d.column] ++ after

/-- A diagnostic of the compiler, whose message tells its line, in every language. -/
structure Diagnostic.IsLined (d : Diagnostic) : Prop where
  code : d.code.isOfCompiler = true
  tells : d.message.Tells Language.line [.int d.line]
  text : ∀ language, ∃ before after,
    d.message.text language = before ++ language.line.fill [.int d.line] ++ after

/-- A diagnostic is its fault with the name of the file. -/
theorem Fault.diagnostic_eq (file : Text) (f : Fault) :
    ∃ endColumn, f.diagnostic file =
      { code := f.code, message := f.message, file, line := f.pos.line, column := f.pos.column,
        endColumn, hints := f.hints } := by
  unfold Fault.diagnostic Diagnostic.withSpan
  split
  · exact ⟨_, rfl⟩
  · exact ⟨0, rfl⟩

theorem Fault.Placed.isPlaced {f : Fault} (h : f.Placed) (file : Text) :
    (f.diagnostic file).IsPlaced := by
  obtain ⟨endColumn, heq⟩ := f.diagnostic_eq file
  rw [heq]
  refine ⟨h.code, h.tells, fun language => ?_⟩
  exact Message.text_of_tells h.tells language (List.cons_ne_nil _ _) (takes_place language)

theorem Fault.Lined.isLined {f : Fault} (h : f.Lined) (file : Text) :
    (f.diagnostic file).IsLined := by
  obtain ⟨endColumn, heq⟩ := f.diagnostic_eq file
  rw [heq]
  refine ⟨h.code, h.tells, fun language => ?_⟩
  exact Message.text_of_tells h.tells language (List.cons_ne_nil _ _) (takes_line language)

/-! ## Reports -/

/-- The errors of a log. -/
def errors (logs : List LogEntry) : List LogEntry := logs.filter fun e => e.level = .error

/-- A success has no error in its log. A failure has one, with the message of its diagnostic, which
tells where it is. -/
structure Reports {α : Type} (tells : Diagnostic → Prop) (x : Logged α) : Prop where
  success : ∀ a, x.1 = .ok a → errors x.2 = []
  failure : ∀ d, x.1 = .error d → errors x.2 = [⟨.error, d.message⟩] ∧ tells d

section Outcomes

variable {α : Type} {tells : Diagnostic → Prop} {logs : List LogEntry}

theorem reports_ok {a : α} (h : errors logs = []) : Reports tells ((.ok a, logs) : Logged α) where
  success := fun _ _ => h
  failure := by
    intro d hd
    cases hd

theorem reports_error {d : Diagnostic} (h : errors logs = [⟨.error, d.message⟩]) (hd : tells d) :
    Reports tells ((.error d, logs) : Logged α) where
  success := by
    intro a ha
    cases ha
  failure := by
    rintro _ ⟨⟩
    exact ⟨h, hd⟩

end Outcomes

variable {file source : Text}

theorem isPlaced_of_run {rule : Parse (Root Mark)} {Q : Root Mark → Prop} (hrule : rule.Yields Q)
    {d : Diagnostic} (h : Parse.run rule file source = .error d) : d.IsPlaced := by
  have hmeets := hrule _ (Parse.proper_start source {})
  unfold Parse.run at h
  split at h
  · cases h
  · next fault hrun =>
    cases h
    rw [hrun] at hmeets
    exact Fault.Placed.isPlaced hmeets file

theorem reports_parseModule (file source : Text) :
    Reports Diagnostic.IsPlaced (parseModule file source) := by
  unfold parseModule
  split
  · exact reports_ok rfl
  · next d hrun => exact reports_error rfl (isPlaced_of_run Parse.yields_module hrun)

theorem reports_parseExpression (file source : Text) :
    Reports Diagnostic.IsPlaced (parseExpression file source) := by
  unfold parseExpression
  split
  · exact reports_ok rfl
  · next d hrun => exact reports_error rfl (isPlaced_of_run
      GuardedParse.follows_singleExpression.yields hrun)

theorem reports_compileTree (file : Text) {r : Root Mark} (hr : r.WellFormed) :
    Reports Diagnostic.IsLined (compileTree file r) := by
  have hspared (d : Diagnostic) (h : (compileTree file r).1 = .error d) :=
    spared_of_compileTree hr h
  unfold compileTree at hspared ⊢
  split
  · exact reports_ok rfl
  · next fault hrun =>
    rw [hrun] at hspared
    obtain ⟨fault', heq, -, hlined⟩ := hspared _ rfl
    rw [heq]
    exact reports_error rfl (hlined.isLined file)

/-- What the compiler finds is reported after what the parser has told, and what the parser finds is
passed on. -/
theorem Reports.compileParsed {x : Logged Parsed} (hx : Reports Diagnostic.IsPlaced x)
    (hwf : ∀ p, x.1 = .ok p → p.root.WellFormed) :
    Reports (fun d => d.IsPlaced ∨ d.IsLined) (compileParsed file x) := by
  obtain ⟨outcome, logs⟩ := x
  cases outcome with
  | error d =>
    obtain ⟨herrors, hplaced⟩ := hx.failure d rfl
    exact reports_error herrors (.inl hplaced)
  | ok p =>
    have hlogs : errors logs = [] := hx.success p rfl
    have hparsed : Toolchain.compileParsed file (.ok p, logs) =
        ((compileTree file p.root).1, logs ++ (compileTree file p.root).2) := rfl
    -- a success of the parser has written no error, so the errors are those of the compiler
    have happend (more : List LogEntry) : errors (logs ++ more) = errors more := by
      unfold errors at hlogs ⊢
      rw [List.filter_append, hlogs, List.nil_append]
    have htree := reports_compileTree file (hwf p rfl)
    rw [hparsed]
    constructor
    · intro code hcode
      rw [happend]
      exact htree.success code hcode
    · intro d hd
      obtain ⟨herrors, hlined⟩ := htree.failure d hd
      rw [happend]
      exact ⟨herrors, .inr hlined⟩

theorem reports_compileModule (file source : Text) :
    Reports (fun d => d.IsPlaced ∨ d.IsLined) (compileModule file source) :=
  (reports_parseModule file source).compileParsed fun _ hp =>
    (isModule_of_parseModule hp).wellFormed

theorem reports_compileExpression (source : Text) :
    Reports (fun d => d.IsPlaced ∨ d.IsLined) (compileExpression source) :=
  (reports_parseExpression expressionFile source).compileParsed fun _ hp =>
    (isExpression_of_parseExpression hp).wellFormed

/-- The log of the prompt is that of the attempt that counts. -/
theorem compilePrompt_cases (source : Text) :
    (∃ c, (compileExpression source).1 = .ok c ∧ compilePrompt source = (.ok c, [])) ∨
      (∃ d, (compileExpression source).1 = .error d ∧
        compilePrompt source = compileModule promptFile (source ++ Text.ofString "\n")) := by
  unfold compilePrompt
  generalize compileExpression source = x
  obtain ⟨outcome, logs⟩ := x
  cases outcome with
  | ok c => exact .inl ⟨c, rfl, rfl⟩
  | error d => exact .inr ⟨d, rfl, rfl⟩

theorem reports_compilePrompt (source : Text) :
    Reports (fun d => d.IsPlaced ∨ d.IsLined) (compilePrompt source) := by
  rcases compilePrompt_cases source with ⟨c, -, h⟩ | ⟨d, -, h⟩
  · rw [h]
    exact reports_ok rfl
  · rw [h]
    exact reports_compileModule _ _

/-- The parser writes one entry to the log at most, whatever fields of f-strings it parses. -/
theorem length_logs_parse (file source : Text) :
    (parseModule file source).2.length = 1 ∧ (parseExpression file source).2.length ≤ 1 := by
  unfold parseModule parseExpression
  constructor
  · split <;> rfl
  · split
    · exact Nat.zero_le 1
    · exact Nat.le_refl 1

/-! ## Going on after a fault -/

namespace GuardedCompile

open Guarded

/-- **A tree is compiled with the same outcome as by the compiler that ends in a fault**, and the
same entries are written. -/
theorem compileTree_eq (file : Text) {r : Root Mark} (hr : r.WellFormed) (log : Sink) :
    compileTree file r log =
      ((Toolchain.compileTree file r).1, log.writeAll (Toolchain.compileTree file r).2) := by
  have hfollows := Compile.follows_root hr
  let start : Guard CompileState := { state := { file, line := r.mark.pos.line }, log }
  rw [compileTree, Toolchain.compileTree]
  have hrepeats := hfollows start trivial rfl
  revert hrepeats
  cases hrun : (Compile.root r).run { file, line := r.mark.pos.line } with
  | ok result =>
    intro hrepeats
    rw [hrepeats.2.2]
    rfl
  | error f =>
    rintro ⟨-, hverdict⟩
    -- the code that was made after the fault is thrown away
    obtain ⟨herr, hlog⟩ := Prod.mk.inj hverdict
    generalize (root r).exec start = result at herr hlog ⊢
    obtain ⟨code, s⟩ := result
    change s.err = some f at herr
    change s.log = _ at hlog
    simp only [herr, hlog]
    rw [← Fault.logEntry_diagnostic f file]
    rfl

theorem compileParsed_eq (file : Text) {x : Logged Parsed}
    (hx : ∀ p, x.1 = .ok p → p.root.WellFormed) (log : Sink) :
    compileParsed file (some x.1, log.writeAll x.2) =
      (some (Toolchain.compileParsed file x).1,
        log.writeAll (Toolchain.compileParsed file x).2) := by
  obtain ⟨outcome, logs⟩ := x
  cases outcome with
  | error d => rfl
  | ok p =>
    rw [compileParsed, compileTree_eq file (hx p rfl), ← Sink.writeAll_append]
    rfl

theorem compileModule_eq (file source : Text) (log : Sink) :
    compileModule file source log =
      (some (Toolchain.compileModule file source).1,
        log.writeAll (Toolchain.compileModule file source).2) := by
  rw [compileModule, GuardedParse.parseModule_eq,
    compileParsed_eq file fun p hp => (isModule_of_parseModule hp).wellFormed]
  rfl

theorem compileExpression_eq (source : Text) (log : Sink) :
    compileExpression source log =
      (some (Toolchain.compileExpression source).1,
        log.writeAll (Toolchain.compileExpression source).2) := by
  rw [compileExpression, GuardedParse.parseExpression_eq,
    compileParsed_eq _ fun p hp => (isExpression_of_parseExpression hp).wellFormed]
  rfl

theorem compilePrompt_eq (source : Text) (log : Sink) :
    compilePrompt source log =
      (some (Toolchain.compilePrompt source).1,
        log.writeAll (Toolchain.compilePrompt source).2) := by
  unfold compilePrompt Toolchain.compilePrompt
  rw [compileExpression_eq]
  generalize Toolchain.compileExpression source = x
  obtain ⟨outcome, logs⟩ := x
  cases outcome with
  | ok code => rfl
  | error d => exact compileModule_eq _ _ _

end GuardedCompile

/-- What is run with a log has an outcome and writes some entries, whatever log it is and whatever
was written to it before, and the entries report the outcome once. -/
structure Delivers {α : Type} (tells : Diagnostic → Prop)
    (run : Sink → Option (Except Diagnostic α) × Sink) (x : Logged α) : Prop where
  run_eq : ∀ log, run log = (some x.1, log.writeAll x.2)
  reports : Reports tells x

/-- **Every failure is reported once.** The parser and the compiler go on after a fault; still they
succeed without an error in the log they are given, or fail with one, whose message is that of the
diagnostic. What the parser finds it tells with the line and the column of the diagnostic, what the
compiler finds with the line. The parser has one entry for a program, whatever fields it parses on
the way: reading a field writes nothing, unless it is ill-formed. The prompt keeps the entries of
the attempt that counts: none if the text is an expression, and otherwise those of the program. -/
theorem reports_once (file source : Text) :
    Delivers Diagnostic.IsPlaced (GuardedParse.parseModule file source)
        (parseModule file source) ∧
      Delivers Diagnostic.IsPlaced (GuardedParse.parseExpression file source)
        (parseExpression file source) ∧
      Delivers (fun d => d.IsPlaced ∨ d.IsLined) (GuardedCompile.compileModule file source)
        (compileModule file source) ∧
      Delivers (fun d => d.IsPlaced ∨ d.IsLined) (GuardedCompile.compileExpression source)
        (compileExpression source) ∧
      Delivers (fun d => d.IsPlaced ∨ d.IsLined) (GuardedCompile.compilePrompt source)
        (compilePrompt source) ∧
      ((parseModule file source).2.length = 1 ∧ (parseExpression file source).2.length ≤ 1) ∧
      (∀ (expr : GuardedParse MarkedExpr) (token : Token) (text field : List Char)
        (s : Guard ParseState),
        ((GuardedParse.fieldExpr expr token text field).exec s).2.verdict =
          if ((GuardedParse.fieldExpr expr token text field).exec s).1.isSome then s.verdict
          else ((GuardedParse.badField token field).exec s).2.verdict) ∧
      ((∃ c, (compileExpression source).1 = .ok c ∧ compilePrompt source = (.ok c, [])) ∨
        ∃ d, (compileExpression source).1 = .error d ∧
          compilePrompt source = compileModule promptFile (source ++ Text.ofString "\n")) :=
  ⟨⟨GuardedParse.parseModule_eq file source, reports_parseModule file source⟩,
    ⟨GuardedParse.parseExpression_eq file source, reports_parseExpression file source⟩,
    ⟨GuardedCompile.compileModule_eq file source, reports_compileModule file source⟩,
    ⟨GuardedCompile.compileExpression_eq source, reports_compileExpression source⟩,
    ⟨GuardedCompile.compilePrompt_eq source, reports_compilePrompt source⟩,
    length_logs_parse file source, GuardedParse.verdict_fieldExpr, compilePrompt_cases source⟩

end Toolchain

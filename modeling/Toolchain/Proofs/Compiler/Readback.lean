import Toolchain.Proofs.Bytecode.Agreement
import Toolchain.Proofs.Compiler.Composition
import Toolchain.Proofs.Compiler.Statement

/-!
# Which compiled programs are read back

The compiler knows no limits but those of its own instructions, the two forms of a code object have
theirs. The compiler writes valid texts, known kinds, and numbers that are finite and not negative;
so of all there is to lose only the limits remain: the widths of the fields of a file, and how deep
and large the interchange form may be.

## Main results

* `readback_compiled`: **when what a program is compiled to is read back**
* `not_readback_elevenLambdas`: a program for which the interchange form is not
-/

namespace Toolchain

section Written

variable {file : Text} {c : Code}

/-- A number of the compiler is kept: it is no negative zero, and it is a number. -/
theorem keptFloat_of_written {x : Binary64} (h : (Constant.float x).Written) :
    Interchange.keptFloat x = x := by
  have hbits : x.bits.toNat < 2047 * twoPow 52 := h
  have h52 : twoPow 52 = 4503599627370496 := rfl
  have h11 : twoPow 11 = 2048 := rfl
  have hnan : x.isNaN = false := by
    have hexponent : x.exponentBits ≠ 2047 := by
      unfold Binary64.exponentBits
      rw [h52] at hbits ⊢
      rw [h11]
      omega
    simp [Binary64.isNaN, hexponent]
  unfold Interchange.keptFloat
  by_cases hzero : Interchange.isZero x = true
  · have hcases : x.bits = 0 ∨ x.bits = 0x8000000000000000 := by
      simpa [Interchange.isZero] using hzero
    rw [if_pos hzero]
    rcases hcases with hx | hx
    · exact congrArg Binary64.mk hx.symm
    · rw [hx] at hbits
      exact absurd hbits (by decide)
  · rw [if_neg hzero, hnan, if_neg Bool.false_ne_true]

theorem Code.AllAuthored.floatsKept (h : c.AllAuthored file) : c.FloatsKept :=
  fun o ho _ hx => keptFloat_of_written ((h o ho).constants _ hx)

/-- Of the texts of a code object the compiler makes, only the name of the file may be invalid. -/
theorem Code.AllAuthored.readable_iff (h : c.AllAuthored file) :
    Interchange.Readable c ↔ file.isValid = true := by
  have hself (c : Code) : c ∈ c.nested := by
    rw [Code.nested_eq]
    exact List.mem_cons_self
  constructor
  · intro hc
    rw [← (h c (hself c)).filename]
    exact hc.strings _ (by simp [Code.strings_eq])
  · intro hfile
    induction c using Code.inductionOnConstants with
    | step c ih =>
      have hc := h c (hself c)
      rw [Interchange.readable_iff]
      refine ⟨⟨hc.name, by rwa [hc.filename], ?_, hc.vararg, hc.kwarg⟩, hc.kind, fun k hk => ?_⟩
      · rw [List.all_eq_true]
        exact hc.params
      · have hwritten := hc.constants k hk
        constructor
        · rintro t (rfl | rfl)
          · exact hwritten
          · exact hwritten
        · rintro o rfl
          exact ih o hk fun o' ho' => h o' (Code.mem_nested_of_mem hk ho')

theorem Code.AllAuthored.fieldsFit_iff (h : c.AllAuthored file) :
    (∀ o ∈ c.nested, Image.FieldsFit o) ↔ ∀ o ∈ c.nested, o.params.length ≤ 65535 ∧
      o.firstLine < twoPow 32 ∧ ∀ line ∈ o.lines, line < twoPow 32 := by
  refine forall₂_congr fun o ho => ?_
  have hauthored := h o ho
  constructor
  · rintro ⟨-, hfirst, hlines, hparams⟩
    exact ⟨hparams, hfirst.2, fun line hline => (hlines line hline).2⟩
  · rintro ⟨hparams, hfirst, hlines⟩
    exact ⟨hauthored.kind, ⟨hauthored.firstLine, hfirst⟩,
      fun line hline => ⟨hauthored.lines line hline, hlines line hline⟩, hparams⟩

end Written

/-- What was compiled is as the compiler makes it. -/
theorem authored_of_compile {file source : Text} {c : Code}
    (h : (compileModule file source).1 = .ok c ∨
      file = expressionFile ∧ (compileExpression source).1 = .ok c) : c.AllAuthored file := by
  rcases h with h | ⟨rfl, h⟩
  · obtain ⟨p, hp, hc⟩ := compileParsed_eq_ok h
    exact authored_of_compileTree (isModule_of_parseModule hp).wellFormed hc
  · obtain ⟨p, hp, hc⟩ := compileParsed_eq_ok h
    exact authored_of_compileTree (isExpression_of_parseExpression hp).wellFormed hc

/-- **When what is compiled is read back.** The file of a valid compiled program is read as the same
code object exactly if its numbers fit their fields and the file is not nested too deep nor too
long; the interchange form is read as the same code object exactly if the name of the source is a
text and the form keeps to the limits of the reader. -/
theorem readback_compiled {file source : Text} {c : Code}
    (h : (compileModule file source).1 = .ok c ∨
      file = expressionFile ∧ (compileExpression source).1 = .ok c)
    (hv : c.verify = .ok ()) (hheld : c.Held) :
    Image.encode 0 c = .ok (Image.write 0 c) ∧
      (Image.decode (Image.write 0 c) = .ok (c.stored 0) ↔
        (∀ o ∈ c.nested, o.params.length ≤ 65535 ∧ o.firstLine < twoPow 32 ∧
          ∀ line ∈ o.lines, line < twoPow 32) ∧
        c.depth ≤ Image.maxNesting ∧ (Image.payload 0 c).length < twoPow 32) ∧
      Interchange.encode c = .ok (Interchange.ofCode c).encode ∧
      (Interchange.decode (Interchange.ofCode c).encode = .ok c ↔
        file.isValid = true ∧ (Interchange.ofCode c).levels ≤ Cbor.maxLevels ∧
          (Interchange.ofCode c).largest ≤ Cbor.maxItems) := by
  have hauthored := authored_of_compile h
  refine ⟨Image.encode_of_verify hv, ?_, Interchange.encode_eq_ok_iff.mpr ⟨hv, rfl⟩, ?_⟩
  · rw [Image.decode_write_iff (by decide) hv, ← hauthored.fieldsFit_iff]
    constructor
    · intro hfits
      exact ⟨hfits.objects, hfits.depth, hfits.payload⟩
    · rintro ⟨hobjects, hdepth, hpayload⟩
      exact Image.fits_of_payload hobjects hdepth hpayload
  · rw [Interchange.decode_ofCode_iff hv hheld, ← hauthored.readable_iff,
      (Code.exchanged_eq_self_iff c).mpr hauthored.floatsKept]
    constructor
    · rintro ⟨hfits, -⟩
      exact ⟨hfits.toReadable, hfits.levels, hfits.largest⟩
    · rintro ⟨hreadable, hlevels, hlargest⟩
      exact ⟨⟨hreadable, hlevels, hlargest⟩, rfl⟩

theorem eq_ok_of_toBool {ε : Type} {outcome : Except ε Unit} (h : outcome.toBool = true) :
    outcome = .ok () := by
  cases outcome with
  | ok _ => rfl
  | error e => cases h

/-- A program that defines a function with a default, in a file. -/
def smallProgram : Text := "def f(x, y=0.5):\n    return x + y\n"

/-- Whether a code object, with those nested in it, has a few hundred parts at most. -/
def Code.isSmall (c : Code) : Bool :=
  (c.nested.all fun o => isInt64 o.firstLine && decide (o.firstLine < 100) &&
    (o.lines.all fun line => isInt64 line && decide (line < 100)) &&
    decide (o.params.length < 100 ∧ o.instructions.length < 100 ∧ o.lines.length < 100 ∧
      o.constants.length < 100)) &&
  (c.strings.all fun t => decide (t.length < 100)) &&
  decide (c.depth < 10 ∧ (Image.payload 0 c).length < 1000 ∧ (Interchange.ofCode c).levels < 10 ∧
    (Interchange.ofCode c).largest < 100)

theorem readback_compiled_smallProgram :
    ∃ c : Code, (compileModule "m" smallProgram).1 = .ok c ∧ c.verify = .ok () ∧ c.Held ∧
      Image.decode (Image.write 0 c) = .ok (c.stored 0) ∧
      Interchange.decode (Interchange.ofCode c).encode = .ok c := by
  obtain ⟨c, hc, hsmall⟩ : ∃ c, (compileModule "m" smallProgram).1 = .ok c ∧
      (c.verify.toBool && c.isSmall) = true :=
    exists_of_any (q := fun c : Code => c.verify.toBool && c.isSmall) (by decide +kernel)
  obtain ⟨hverify, hsmall⟩ := Bool.and_eq_true_iff.mp hsmall
  have hv : c.verify = .ok () := eq_ok_of_toBool hverify
  unfold Code.isSmall at hsmall
  simp only [Bool.and_eq_true, List.all_eq_true, decide_eq_true_eq] at hsmall
  obtain ⟨⟨hobjects, hstrings⟩, hdepth, hpayload, hlevels, hlargest⟩ := hsmall
  have h64 : twoPow 64 = 18446744073709551616 := rfl
  have h32 : twoPow 32 = 4294967296 := rfl
  have hauthored := authored_of_compile (.inl hc)
  have hheld : c.Held := by
    refine ⟨fun o ho => ?_, fun t ht => (hstrings t ht).trans (by decide)⟩
    obtain ⟨⟨⟨hfirst, -⟩, hlines⟩, hparams, hinstructions, htable, hconstants⟩ := hobjects o ho
    refine ⟨fun n hn => absurd hn ((hauthored o ho).kind n), hfirst,
      fun line hline => (hlines line hline).1, ?_, ?_, ?_, ?_⟩ <;> omega
  obtain ⟨-, hfile, -, hform⟩ := readback_compiled (.inl hc) hv hheld
  have hlimits : Cbor.maxLevels = 32 ∧ Cbor.maxItems = 131072 ∧ Image.maxNesting = 256 :=
    ⟨rfl, rfl, rfl⟩
  refine ⟨c, hc, hv, hheld, hfile.mpr ⟨fun o ho => ?_, by omega, by omega⟩,
    hform.mpr ⟨Text.isValid_ofString _, by omega, by omega⟩⟩
  obtain ⟨⟨⟨-, hfirst⟩, hlines⟩, hparams, -⟩ := hobjects o ho
  refine ⟨by omega, by omega, fun line hline => ?_⟩
  have := (hlines line hline).2
  omega

/-- Eleven functions, one in the other. -/
def elevenLambdas : Text :=
  "x = " ++ Text.ofString (String.join (List.replicate 11 "lambda: ")) ++ "1\n"

/-- The interchange form of a deep program is not read back. -/
theorem not_readback_elevenLambdas :
    ∃ (c : Code) (form : List UInt8), (compileModule "m" elevenLambdas).1 = .ok c ∧
      c.verify = .ok () ∧ Interchange.encode c = .ok form ∧
      ∀ c', Interchange.decode form ≠ .ok c' := by
  obtain ⟨c, hc, hfails⟩ : ∃ c, (compileModule "m" elevenLambdas).1 = .ok c ∧
      (c.verify.toBool && !(Interchange.decode (Interchange.ofCode c).encode).toBool) = true :=
    exists_of_any (q := fun c : Code =>
      c.verify.toBool && !(Interchange.decode (Interchange.ofCode c).encode).toBool)
      (by decide +kernel)
  rw [Bool.and_eq_true, Bool.not_eq_true'] at hfails
  obtain ⟨hverify, hfails⟩ := hfails
  have hv : c.verify = .ok () := eq_ok_of_toBool hverify
  refine ⟨c, _, hc, hv, Interchange.encode_eq_ok_iff.mpr ⟨hv, rfl⟩, fun c' hc' => ?_⟩
  rw [hc'] at hfails
  cases hfails

end Toolchain

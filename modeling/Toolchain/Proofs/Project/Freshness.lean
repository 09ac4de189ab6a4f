import Mathlib.Tactic.Common
import Toolchain.Proofs.Bytecode.Image
import Toolchain.Proofs.Project.Reopening

/-!
# Code that is up to date

Several calls use one cache while the source files change. Each call asks the cache for code; if it
finds none, it reads and compiles the file, and then puts the code into the cache, for which the
file is read once more to take its digest. Files may change between any two of these steps.

Code that is found belongs to the text that the call which put it had compiled, and the file has
again the text whose digest that call took. The two texts are the same unless the file changed
between the two readings, and then old code is found.

## Main definitions

* `Traffic`, `Traffic.Step`: calls in progress, and their steps
* `PutRecord`: what a call put into the cache
* `Traffic.Faithful`: every entry comes from a call

## Main results

* `Traffic.Faithful.step`: every step keeps the entries and the calls in agreement
* `Traffic.exists_record_of_hit`: where code that is found comes from
* `Traffic.reaches_compileCached`: a call that is not interrupted takes the steps in order
-/

namespace Toolchain

/-! ## Calls -/

/-- Code, with the text it was compiled from. -/
structure CompiledSource where
  path : Text
  source : Text
  code : Code
  isCode : (compileModule path source).1 = .ok code

/-- What a call that found no code does next. -/
inductive PendingCall where
  /-- The file is to be compiled. -/
  | missed (path : Text)
  /-- The code is to be put into the cache. -/
  | compiled (x : CompiledSource)

/-- What a call put into the cache. -/
structure PutRecord extends CompiledSource where
  /-- The text whose digest was taken. -/
  hashed : Text

/-- What is compiled for a file is the code of its text. -/
theorem compileFile_eq_ok_iff {d : Disk} {path source : Text} {code : Code}
    (hread : d.read? path = some source) :
    (compileFile d path).1 = .ok code ↔ (compileModule path source).1 = .ok code := by
  have hstat : d.stat path = .ok (.file source) :=
    Disk.stat_eq_ok_iff.mpr (Disk.read?_eq_some_iff.mp hread)
  unfold compileFile parseFile compileModule
  rw [hstat]
  dsimp only
  generalize parseModule path source = parsed
  obtain ⟨outcome, logs⟩ := parsed
  cases outcome with
  | error e => simp [Attempt.ofLogged, Except.mapError, compileParsed]
  | ok p =>
    simp only [Attempt.ofLogged, Except.mapError, compileParsed]
    cases (compileTree path p.root).1 with
    | error e => simp
    | ok c => simp

/-- What is compiled was read from a file. -/
theorem exists_read?_of_compileFile {d : Disk} {path : Text} {code : Code}
    (h : (compileFile d path).1 = .ok code) : ∃ source, d.read? path = some source := by
  unfold compileFile parseFile at h
  split at h
  · cases h
  · rename_i parsed logs hparse
    split at hparse
    · rename_i source hstat
      exact ⟨source, Disk.read?_eq_some_iff.mpr (Disk.stat_eq_ok_iff.mp hstat)⟩
    · cases hparse
    · cases hparse

/-- Only valid code is written, and as it is. -/
theorem Image.eq_of_encode {flags : UInt16} {c : Code} {bytes : List UInt8}
    (h : Image.encode flags c = .ok bytes) : c.verify = .ok () ∧ bytes = Image.write flags c := by
  unfold Image.encode at h
  split at h
  · cases h
  · rename_i hv
    exact ⟨hv, (Except.ok.inj h).symm⟩

/-- A cache and its disk, the calls that have not come to their end, and what was put so far. -/
structure Traffic where
  cache : BuildCache
  disk : Disk
  calls : List PendingCall := []
  log : List PutRecord := []

namespace Traffic

variable {s s' : Traffic} {place : Location} {language : Language}

/-- The log after code is put: the digest is that of the text that the file has now. -/
def logPut (s : Traffic) (x : CompiledSource) : List PutRecord :=
  match s.disk.read? x.path with
  | some hashed => { x with hashed } :: s.log
  | none => s.log

/-- A step of a call, or a change of the files outside the cache. -/
inductive Step (language : Language) : Traffic → Traffic → Prop
  | edit {s : Traffic} {d : Disk} (h : s.cache.Spares s.disk d) :
    Step language s { s with disk := d }
  /-- A call begins, and ends with the code that is found. -/
  | hit {s : Traffic} {now : Instant} {path : Text} {code : Code}
    (h : (s.cache.get language now path s.disk).1 = some code) :
    Step language s { s with
      cache := (s.cache.get language now path s.disk).2.1
      disk := (s.cache.get language now path s.disk).2.2 }
  /-- A call begins, and finds no code. -/
  | miss {s : Traffic} {now : Instant} {path : Text}
    (h : (s.cache.get language now path s.disk).1 = none) :
    Step language s { s with
      cache := (s.cache.get language now path s.disk).2.1
      disk := (s.cache.get language now path s.disk).2.2
      calls := .missed path :: s.calls }
  /-- A call compiles its file. -/
  | compile {s : Traffic} {before after : List PendingCall} (x : CompiledSource)
    (hread : s.disk.read? x.path = some x.source)
    (h : s.calls = before ++ .missed x.path :: after) :
    Step language s { s with calls := before ++ .compiled x :: after }
  /-- A call ends without code. -/
  | fail {s : Traffic} {before after : List PendingCall} {path : Text} {e : Problem}
    (he : (compileFile s.disk path).1 = .error e) (h : s.calls = before ++ .missed path :: after) :
    Step language s { s with calls := before ++ after }
  /-- A call puts its code into the cache, and ends. -/
  | put {s : Traffic} {before after : List PendingCall} (x : CompiledSource) (now : Instant)
    (h : s.calls = before ++ .compiled x :: after) :
    Step language s {
      cache := (s.cache.put now x.path x.code s.disk).2.1
      disk := (s.cache.put now x.path x.code s.disk).2.2
      calls := before ++ after
      log := s.logPut x }

/-- What comes of a cache that is opened in an empty directory. -/
inductive Reachable (language : Language) : Traffic → Prop
  | start {d : Disk} {directory : Text} (hopened : d.isDirectory directory = true)
    (hempty : d.list directory = []) : Reachable language { cache := { directory }, disk := d }
  | step {s s' : Traffic} (h : Reachable language s) (hs : Step language s s') :
    Reachable language s'

/-! ## Entries and calls -/

/-- The files of different sources have different names. -/
def NoClash (log : List PutRecord) : Prop :=
  ∀ r ∈ log, ∀ r' ∈ log,
    (contentHash r.path).take 16 = (contentHash r'.path).take 16 → r.path = r'.path

theorem NoClash.mono {log log' : List PutRecord} (h : NoClash log') (hsub : log ⊆ log') :
    NoClash log :=
  fun r hr r' hr' => h r (hsub hr) r' (hsub hr')

/-- An entry comes from a call: it has the digest of the text that the call hashed, and its file
holds the code that the call compiled, if it is there. -/
structure Backs (s : Traffic) (place : Location) (r : PutRecord) (e : CacheEntry) : Prop where
  hash : e.sourceHash = contentHash r.hashed
  file : e.cacheFile = s.cache.fileFor r.path (contentHash r.hashed)
  valid : r.code.verify = .ok ()
  content : ∀ bytes,
    s.disk.get? (place ++ [BuildCache.fileName r.path (contentHash r.hashed)]) =
      some (.file bytes) →
    bytes = Image.write 0 r.code

/-- Every entry comes from a call, as long as different sources have different files. -/
structure Faithful (s : Traffic) (place : Location) : Prop where
  settled : s.cache.Settled s.disk place
  backed : NoClash s.log → ∀ path e, s.cache.index.get? path = some e →
    ∃ r ∈ s.log, r.path = path ∧ s.Backs place r e

theorem subset_logPut (s : Traffic) (x : CompiledSource) : s.log ⊆ s.logPut x := by
  intro r hr
  unfold logPut
  split
  · exact List.mem_cons_of_mem _ hr
  · exact hr

/-- What backs an entry still does if files are lost and the entry keeps its digest and its file. -/
theorem Backs.mono {r : PutRecord} {e e' : CacheEntry} (h : s.Backs place r e)
    (hdirectory : s'.cache.directory = s.cache.directory) (hhash : e'.sourceHash = e.sourceHash)
    (hfile : e'.cacheFile = e.cacheFile)
    (hget : ∀ l, l = place ++ [BuildCache.fileName r.path (contentHash r.hashed)] →
      s'.disk.get? l = none ∨ s'.disk.get? l = s.disk.get? l) : s'.Backs place r e' := by
  refine ⟨hhash.trans h.hash, ?_, h.valid, fun bytes hbytes => ?_⟩
  · rw [hfile, h.file, BuildCache.fileFor_eq, BuildCache.fileFor_eq, hdirectory]
  · rcases hget _ rfl with hnone | hsame
    · rw [hnone] at hbytes
      cases hbytes
    · exact h.content bytes (hsame ▸ hbytes)

/-- A call that puts code leaves every entry with a call it comes from. -/
theorem Faithful.put (h : s.Faithful place) (x : CompiledSource) (now : Instant)
    {calls : List PendingCall} : Faithful {
      cache := (s.cache.put now x.path x.code s.disk).2.1
      disk := (s.cache.put now x.path x.code s.disk).2.2
      calls, log := s.logPut x } place := by
  rcases BuildCache.put_cases h.settled now x.path x.code with
    ⟨hsame, -⟩ | ⟨source, bytes, hread, hbytes, hstores⟩
  · rw [hsame]
    refine ⟨h.settled, fun hclash path e he => ?_⟩
    obtain ⟨r, hr, hpath, hbacks⟩ := h.backed (hclash.mono (s.subset_logPut x)) path e he
    exact ⟨r, s.subset_logPut x hr, hpath, hbacks.mono rfl rfl rfl fun l _ => .inr rfl⟩
  · refine ⟨hstores.settled h.settled, fun hclash path e he => ?_⟩
    have hlog : s.logPut x = { x with hashed := source } :: s.log := by
      unfold logPut
      rw [hread]
    rw [hlog] at hclash ⊢
    by_cases hpath : path = x.path
    · -- the entry is the new one
      subst hpath
      obtain ⟨hhash, hfile⟩ := hstores.entry e he
      refine ⟨_, List.mem_cons_self, rfl, hhash, ?_, ?_, fun bytes' hbytes' => ?_⟩
      · rw [hfile, BuildCache.fileFor_eq, BuildCache.fileFor_eq, hstores.directory]
      · exact (Image.eq_of_encode hbytes).1
      · -- the file is there, so that it is the one that was written
        have hheld := hstores.held (by rw [he]; exact nofun) fun k e₀ he₀ hgone hsame => by
          have hnone := hstores.lost k e₀ he₀ hgone hsame
          rw [hnone] at hbytes'
          cases hbytes'
        rw [hheld] at hbytes'
        injection hbytes' with hcontent
        injection hcontent with hcontent
        rw [← hcontent]
        exact (Image.eq_of_encode hbytes).2
    · -- the entry was there before, and its file is another one
      have hbefore : s.cache.index.get? path = some e := by
        rcases hstores.others path hpath with hnone | hsame
        · rw [hnone] at he
          cases he
        · rw [← hsame, he]
      obtain ⟨r, hr, hrpath, hbacks⟩ :=
        h.backed (hclash.mono (List.subset_cons_self _ _)) path e hbefore
      refine ⟨r, List.mem_cons_of_mem _ hr, hrpath, hbacks.mono hstores.directory rfl rfl ?_⟩
      rintro l rfl
      refine hstores.files _ (fun hsame => ?_) (fun hsame => ?_)
      · have hname : BuildCache.fileName r.path (contentHash r.hashed) =
            BuildCache.fileName x.path (contentHash source) := by simpa using hsame
        have htake := congrArg (List.take 16) hname
        rw [BuildCache.take_fileName, BuildCache.take_fileName] at htake
        exact hpath (hrpath ▸ hclash r (List.mem_cons_of_mem _ hr) _ List.mem_cons_self htake)
      · exact BuildCache.fileName_ne_indexName r.path r.hashed (by simpa using hsame)

/-- Asking for code leaves every entry with a call it comes from. -/
theorem Faithful.get (h : s.Faithful place) (now : Instant) (path : Text)
    {calls : List PendingCall} : Faithful { s with
      cache := (s.cache.get language now path s.disk).2.1
      disk := (s.cache.get language now path s.disk).2.2
      calls } place := by
  rcases BuildCache.get_cases h.settled language now path with ⟨-, hremoves⟩ | ⟨-, htouches, hsame⟩
  · refine ⟨hremoves.settled h.settled, fun hclash k e he => ?_⟩
    obtain ⟨r, hr, hpath, hbacks⟩ := h.backed hclash k e (hremoves.get?_eq_of_some he)
    exact ⟨r, hr, hpath, hbacks.mono hremoves.directory rfl rfl fun l _ => hremoves.get?_cases l⟩
  · rw [hsame]
    refine ⟨htouches.settled h.settled, fun hclash k e he => ?_⟩
    obtain ⟨e₀, he₀, hhash, hfile⟩ := htouches.entries k e he
    obtain ⟨r, hr, hpath, hbacks⟩ := h.backed hclash k e₀ he₀
    exact ⟨r, hr, hpath, hbacks.mono htouches.directory hhash hfile fun l _ => .inr rfl⟩

/-- Every step leaves every entry with a call it comes from. -/
theorem Faithful.step (h : s.Faithful place) (hs : Step language s s') : s'.Faithful place := by
  cases hs with
  | edit hspares =>
    obtain ⟨place', hbefore, hafter, hsame⟩ := hspares.same
    obtain rfl := h.settled.houses.unique hbefore
    refine ⟨⟨hafter, fun name => ?_, h.settled.within⟩, fun hclash path e he => ?_⟩
    · rw [hsame]
      exact h.settled.flat name
    · obtain ⟨r, hr, hpath, hbacks⟩ := h.backed hclash path e he
      refine ⟨r, hr, hpath, hbacks.mono rfl rfl rfl ?_⟩
      rintro l rfl
      exact .inr (hsame _)
  | hit _ => exact h.get _ _
  | miss _ => exact h.get _ _
  | compile x _ _ =>
    refine ⟨h.settled, fun hclash path e he => ?_⟩
    obtain ⟨r, hr, hpath, hbacks⟩ := h.backed hclash path e he
    exact ⟨r, hr, hpath, hbacks.mono rfl rfl rfl fun l _ => .inr rfl⟩
  | fail _ _ =>
    refine ⟨h.settled, fun hclash path e he => ?_⟩
    obtain ⟨r, hr, hpath, hbacks⟩ := h.backed hclash path e he
    exact ⟨r, hr, hpath, hbacks.mono rfl rfl rfl fun l _ => .inr rfl⟩
  | put x now _ => exact h.put x now

/-- In every run, every entry comes from a call. -/
theorem Reachable.faithful (h : Reachable language s) : ∃ place, s.Faithful place := by
  induction h with
  | start hopened hempty =>
    obtain ⟨place, hready⟩ := BuildCache.exists_ready_of_empty hopened hempty
    exact ⟨place, hready.toSettled, fun _ path e he => by cases he⟩
  | step _ hs ih =>
    obtain ⟨place, hfaithful⟩ := ih
    exact ⟨place, hfaithful.step hs⟩

/-! ## Code that is found -/

/-- **Code that is found is that of the text that was compiled when it was put**, and the file has
the text whose digest was taken then. If the two texts are the same, the code is that of the file as
it is now. The digests of different texts are taken to be different. -/
theorem exists_record_of_hit (h : Reachable language s) {now : Instant} {path source : Text}
    {code : Code} (hread : s.disk.read? path = some source) (hclash : NoClash s.log)
    (hdigest : ∀ r ∈ s.log, contentHash r.hashed = contentHash source → r.hashed = source)
    (hhit : (s.cache.get language now path s.disk).1 = some code) :
    ∃ r ∈ s.log, r.path = path ∧ r.hashed = source ∧
      Image.decode (Image.write 0 r.code) = .ok code ∧
      (Image.Fits 0 r.code → code = r.code.stored 0) ∧
      (r.source = source → (compileFile s.disk path).1 = .ok r.code) := by
  obtain ⟨place, hfaithful⟩ := h.faithful
  obtain ⟨-, source', e, bytes, hread', he, hhash, hbytes, hdecode⟩ :=
    BuildCache.get_eq_some_iff.mp hhit
  obtain rfl := Option.some.inj (hread.symm.trans hread')
  obtain ⟨r, hr, rfl, hbacks⟩ := hfaithful.backed hclash path e he
  have hhashed : r.hashed = source := hdigest r hr (hbacks.hash.symm.trans hhash)
  obtain ⟨l, hl, hget⟩ := Disk.read?_eq_some_iff.mp hbytes
  rw [hbacks.file] at hl
  obtain rfl := Except.ok.inj ((hfaithful.settled.locate_file r.path r.hashed).symm.trans hl)
  obtain rfl := hbacks.content bytes hget
  refine ⟨r, hr, rfl, hhashed, hdecode, fun hfit => ?_, fun hsource => ?_⟩
  · exact Except.ok.inj (hdecode.symm.trans (Image.decode_write hbacks.valid hfit))
  · rw [compileFile_eq_ok_iff hread, ← hsource]
    exact r.isCode

/-! ## Calls that are not interrupted -/

/-- **A call that is not interrupted takes the steps in order**, and what it puts into the cache has
the digest of the text that was compiled. -/
theorem reaches_compileCached (h : Reachable language s) (now : Instant) (path : Text) :
    ∃ s', Reachable language s' ∧ s'.calls = s.calls ∧
      (compileCached language now path (some s.cache) s.disk).2 = (some s'.cache, s'.disk) ∧
      (s'.log = s.log ∨ ∃ x : CompiledSource, x.path = path ∧
        (s.cache.get language now path s.disk).2.2.read? path = some x.source ∧
        s'.log = { x with hashed := x.source } :: s.log) := by
  unfold compileCached
  dsimp only
  cases hget : s.cache.get language now path s.disk with
  | mk found left =>
    obtain ⟨c₁, d₁⟩ := left
    cases found with
    | some code =>
      have hstep := Step.hit (s := s) (congrArg Prod.fst hget)
      rw [hget] at hstep
      exact ⟨_, h.step hstep, rfl, rfl, .inl rfl⟩
    | none =>
      let s₁ : Traffic := { s with cache := c₁, disk := d₁, calls := .missed path :: s.calls }
      have hmiss : Step language s s₁ := by
        have hstep := Step.miss (s := s) (congrArg Prod.fst hget)
        rw [hget] at hstep
        exact hstep
      dsimp only
      cases hcompile : compileFile d₁ path with
      | mk outcome logs =>
        cases outcome with
        | error e =>
          have hfail : Step language s₁ { s₁ with calls := [] ++ s.calls } :=
            .fail (congrArg Prod.fst hcompile) rfl
          exact ⟨_, (h.step hmiss).step hfail, rfl, rfl, .inl rfl⟩
        | ok code =>
          have hcode : (compileFile d₁ path).1 = .ok code := congrArg Prod.fst hcompile
          obtain ⟨source, hread⟩ := exists_read?_of_compileFile hcode
          let x : CompiledSource := ⟨path, source, code, (compileFile_eq_ok_iff hread).mp hcode⟩
          let s₂ : Traffic := { s₁ with calls := [] ++ .compiled x :: s.calls }
          have hcompiled : Step language s₁ s₂ := .compile x hread rfl
          have hput : Step language s₂ {
              cache := (c₁.put now path code d₁).2.1
              disk := (c₁.put now path code d₁).2.2
              calls := [] ++ s.calls
              log := s₂.logPut x } := .put x now rfl
          refine ⟨_, ((h.step hmiss).step hcompiled).step hput, rfl, rfl, .inr ⟨x, rfl, hread, ?_⟩⟩
          have hread' : s₂.disk.read? x.path = some x.source := hread
          unfold logPut
          rw [hread']

/-! ## A file that changes -/

/-- The path of a file with a program. -/
def changingPath : Text := "/a.py"

/-- A disk with a program, and an empty directory for a cache. -/
def diskWith (content : Text) : Disk :=
  { entries := [([Text.ofString "a.py"], .file content), ([Text.ofString "c"], .directory)] }

/-- A cache that was not used yet, with the file as given. -/
def unused (content : Text) : Traffic :=
  { cache := { directory := "/c" }, disk := diskWith content }

theorem reachable_unused : Reachable .english (unused "x\n") :=
  .start (by decide +kernel) (by decide +kernel)

/-- A call that is not interrupted. -/
def usedOnce : Attempt (Code × Bool) × Option BuildCache × Disk :=
  compileCached .english {} changingPath (some (unused "x\n").cache) (unused "x\n").disk

/-- Code is found after a call that was not interrupted. -/
theorem exists_record_of_hit_usedOnce : ∃ s r code, Reachable .english s ∧ r ∈ s.log ∧
    s.disk.read? changingPath = some (Text.ofString "x\n") ∧
    (s.cache.get .english {} changingPath s.disk).1 = some code ∧
    Image.decode (Image.write 0 r.code) = .ok code ∧
    (compileFile s.disk changingPath).1 = .ok r.code := by
  obtain ⟨s, hs, -, hstate, hlog⟩ := reaches_compileCached reachable_unused {} changingPath
  have hstate' : usedOnce.2 = (some s.cache, s.disk) := hstate
  have hrun : (usedOnce.2.1.any fun c => (c.get .english {} changingPath usedOnce.2.2).1.isSome) =
    true ∧
      usedOnce.2.2.read? changingPath = some (Text.ofString "x\n") ∧
      ((unused "x\n").cache.get .english {} changingPath (unused "x\n").disk).2.2.read?
        changingPath =
        some (Text.ofString "x\n") := by
    decide +kernel
  obtain ⟨hfound, hread, hbefore⟩ := hrun
  rw [hstate'] at hfound hread
  obtain ⟨code, hhit⟩ := Option.isSome_iff_exists.mp hfound
  -- what is in the log was compiled from the text whose digest was taken
  have hlogged : ∀ r ∈ s.log, r.path = changingPath ∧ r.source = Text.ofString "x\n" ∧
      r.hashed = Text.ofString "x\n" := by
    intro r hr
    rcases hlog with hsame | ⟨x, hpath, hsource, hcons⟩
    · rw [hsame] at hr
      cases hr
    · rw [hcons] at hr
      have hx : x.source = Text.ofString "x\n" := Option.some.inj (hsource.symm.trans hbefore)
      rcases List.mem_cons.mp hr with rfl | hr
      · exact ⟨hpath, hx, hx⟩
      · cases hr
  have hclash : NoClash s.log := fun r hr r' hr' _ => (hlogged r hr).1.trans (hlogged r' hr').1.symm
  obtain ⟨r, hr, -, -, hdecode, -, hfresh⟩ := exists_record_of_hit hs hread hclash
    (fun r hr _ => (hlogged r hr).2.2) hhit
  exact ⟨s, r, code, hs, hr, hread, hhit, hdecode, hfresh (hlogged r hr).2.1⟩

/-- The code of the file with a content. -/
def codeOf (content : Text) : Code :=
  (compileModule changingPath content).1.toOption.getD
    { name := [], filename := [], kind := .module, firstLine := 0 }

theorem isCode_codeOf {content : Text}
    (h : (compileModule changingPath content).1.toBool = true) :
    (compileModule changingPath content).1 = .ok (codeOf content) := by
  unfold codeOf
  cases hcode : (compileModule changingPath content).1 with
  | error e =>
    rw [hcode] at h
    cases h
  | ok code => rfl

/-- A call that was interrupted: the file changed after it was compiled. -/
def interrupted : Option CacheError × BuildCache × Disk :=
  (unused "y\n").cache.put {} changingPath (codeOf "x\n") (unused "y\n").disk

theorem houses_diskWith (content : Text) :
    (diskWith content).Houses "/c" [Text.ofString "c"] := by
  have hparts : Path.parts (Text.ofString "/c") = [Text.ofString "c"] := by decide +kernel
  have hroot : Path.isAbsolute (Text.ofString "/c") = true := by decide +kernel
  have hdirectory : (diskWith content).get? [Text.ofString "c"] = some .directory := by
    have hne : ([Text.ofString "a.py"] == [Text.ofString "c"]) = false := by decide +kernel
    simp [diskWith, Disk.get?, hne]
  have hname : Path.IsName (Text.ofString "c") := by
    refine ⟨?_, ?_, ?_, ?_⟩ <;> decide +kernel
  refine ⟨?_, hdirectory⟩
  rw [hparts, Disk.start, if_pos hroot, List.foldlM_cons, Disk.follow_name (Disk.get?_nil _) hname]
  rfl

/-- The file can change without the cache. -/
theorem spares_diskWith :
    (unused "x\n").cache.Spares (unused "x\n").disk (diskWith "y\n") := by
  refine ⟨by decide +kernel, _, houses_diskWith _, houses_diskWith _, fun name => ?_⟩
  simp [unused, diskWith, Disk.get?]

/-- What is seen of the interrupted call. -/
theorem interrupted_runs :
    (compileModule changingPath "x\n").1.toBool = true ∧
    interrupted.2.2.read? changingPath = some (Text.ofString "y\n") ∧
    ((interrupted.2.1.get .english {} changingPath interrupted.2.2).1.map Code.strings) =
      some [Text.ofString "<module>", changingPath, Text.ofString "x"] ∧
    ((compileFile interrupted.2.2 changingPath).1.toOption.map Code.strings) =
      some [Text.ofString "<module>", changingPath, Text.ofString "y"] := by
  decide +kernel

/-- Nothing is found where there is no entry. -/
theorem get_of_no_entry {c : BuildCache} {d : Disk} {path : Text} (h : c.index.get? path = none)
    (now : Instant) : c.get language now path d = (none, c, d) := by
  unfold BuildCache.get
  rw [h]
  cases c.enabled with
  | false => rfl
  | true => cases d.read? path <;> rfl

/-- Old code is found if the file changed between being compiled and being hashed. -/
theorem stale_hit_interrupted : ∃ s source code fresh, Reachable .english s ∧
    s.disk.read? changingPath = some source ∧ NoClash s.log ∧
    (∀ r ∈ s.log, contentHash r.hashed = contentHash source → r.hashed = source) ∧
    (s.cache.get .english {} changingPath s.disk).1 = some code ∧
    (compileFile s.disk changingPath).1 = .ok fresh ∧ code ≠ fresh.stored 0 := by
  obtain ⟨hcompiles, hread, hfound, hfresh⟩ := interrupted_runs
  obtain ⟨code, hhit, hold⟩ := Option.map_eq_some_iff.mp hfound
  obtain ⟨fresh, hcode, hnew⟩ := Option.map_eq_some_iff.mp hfresh
  let x : CompiledSource := ⟨changingPath, "x\n", codeOf "x\n", isCode_codeOf hcompiles⟩
  -- the call finds no code, and compiles the file
  let s₁ : Traffic := { unused "x\n" with calls := [.missed changingPath] }
  have hmiss : Step .english (unused "x\n") s₁ := by
    have hget : (unused "x\n").cache.get .english {} changingPath (unused "x\n").disk =
        (none, (unused "x\n").cache, (unused "x\n").disk) := get_of_no_entry rfl {}
    have hstep := Step.miss (congrArg Prod.fst hget)
    rw [hget] at hstep
    exact hstep
  let s₂ : Traffic := { s₁ with calls := [] ++ .compiled x :: [] }
  have hbefore : (diskWith "x\n").read? changingPath = some (Text.ofString "x\n") := by
    decide +kernel
  have hread₁ : s₁.disk.read? x.path = some x.source := hbefore
  have hcompile : Step .english s₁ s₂ := .compile x hread₁ rfl
  -- the file changes before the code is put into the cache
  let s₃ : Traffic := { s₂ with disk := diskWith "y\n" }
  have hedit : Step .english s₂ s₃ := .edit spares_diskWith
  let s₄ : Traffic :=
    { cache := interrupted.2.1, disk := interrupted.2.2, calls := [] ++ [], log := s₃.logPut x }
  have hput : Step .english s₃ s₄ := .put x {} rfl
  have hafter : (diskWith "y\n").read? changingPath = some (Text.ofString "y\n") := by
    decide +kernel
  have hread₃ : s₃.disk.read? x.path = some (Text.ofString "y\n") := hafter
  have hlog : s₄.log = [{ x with hashed := Text.ofString "y\n" }] := by
    change s₃.logPut x = _
    unfold logPut
    rw [hread₃]
    rfl
  have hreach : Reachable .english s₄ :=
    (((reachable_unused.step hmiss).step hcompile).step hedit).step hput
  refine ⟨s₄, _, code, fresh, hreach, hread, ?_, ?_, hhit, ?_, ?_⟩
  · intro r hr r' hr' _
    rw [hlog] at hr hr'
    rw [List.mem_singleton.mp hr, List.mem_singleton.mp hr']
  · intro r hr _
    rw [hlog] at hr
    rw [List.mem_singleton.mp hr]
  · cases houtcome : (compileFile interrupted.2.2 changingPath).1 with
    | error e =>
      rw [houtcome] at hcode
      cases hcode
    | ok c =>
      rw [houtcome] at hcode
      obtain rfl := Option.some.inj hcode
      rfl
  · -- the names in the code differ
    rintro rfl
    rw [Code.strings_stored, hnew] at hold
    exact absurd hold (by decide +kernel)

end Traffic

end Toolchain

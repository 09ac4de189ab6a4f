import Mathlib.Data.List.Nodup
import Mathlib.Data.List.Perm.Subperm
import Toolchain.Proofs.Disk.Spelling
import Toolchain.Proofs.Project.Imports

/-!
# Where modules are looked up

An import leads to files on the disk, in the directories of the search. Such a file is known by its
path from the root, and by no more than one such path, so there are no more of them than entries on
the disk. Its name is a name without a dot before the ending of source files.

## Main definitions

* `SourceModule.file`, `SourceModule.Imports`: the file of a module, and the files it imports
* `IsSource`: a file that an import can lead to
* `ModuleSearch.targets`: the files that the imports of a file lead to

## Main results

* `length_le_of_isSource`: there are no more such files than entries on the disk
* `ModuleSearch.isSource_of_resolveImport?`: what an import leads to is such a file
* `ModuleSearch.mem_targets_iff`: no import of a module is left out
-/

namespace Toolchain

/-! ## The names of source files -/

section Names

variable {t : Text} {ps : List Text}

theorem dot_ne_slash : dot ≠ Path.slash := by decide

theorem sourceExtension_eq : sourceExtension = [dot, 'p'.toUInt8, 'y'.toUInt8] := by
  with_unfolding_all rfl

theorem length_sourceExtension : sourceExtension.length = 3 := by
  rw [sourceExtension_eq]
  rfl

theorem slash_not_mem_sourceExtension : Path.slash ∉ sourceExtension := by
  rw [sourceExtension_eq]
  decide

/-- The name of the file that makes a directory a module, before its ending. -/
def packageStem : Text := Text.ofString "__init__"

theorem slash_not_mem_packageStem : Path.slash ∉ packageStem := by with_unfolding_all decide

theorem dot_not_mem_packageStem : dot ∉ packageStem := by with_unfolding_all decide

theorem packageFile_eq : packageFile = packageStem ++ sourceExtension := by with_unfolding_all rfl

/-- Parts without a dot are all kept, but for those that are empty. -/
theorem foldl_push_dotless {rooted : Bool} {cut : List Text} (h : ∀ part ∈ cut, dot ∉ part) :
    cut.foldl (Path.push rooted) ps = (cut.filter fun part => !part.isEmpty).reverse ++ ps := by
  induction cut generalizing ps with
  | nil => rfl
  | cons part cut ih =>
    have hdot := h part List.mem_cons_self
    have hhere : part ≠ Text.ofString "." := by
      rintro rfl
      exact hdot (by with_unfolding_all decide)
    have hup : part ≠ Path.up := by
      rintro rfl
      exact hdot (by with_unfolding_all decide)
    rw [List.foldl_cons, ih fun p hp => h p (List.mem_cons_of_mem _ hp), List.filter_cons]
    by_cases hempty : part.isEmpty = true
    · simp [Path.push, hempty]
    · simp [Path.push, hempty, hhere, hup]

/-- The shortest form of a path without dots has none. -/
theorem dot_not_mem_clean (hne : t ≠ []) (h : dot ∉ t) : dot ∉ Path.clean t := by
  have hparts : ∀ part ∈ t.splitAt Path.slash, dot ∉ part :=
    fun part hpart hdot => h (Text.mem_of_mem_splitAt hpart hdot)
  have hkept : Path.parts t = (t.splitAt Path.slash).filter fun part => !part.isEmpty := by
    rw [Path.parts, foldl_push_dotless hparts, List.append_nil, List.reverse_reverse]
  have hjoin : dot ∉ Text.join [Path.slash] (Path.parts t) := by
    intro hdot
    rcases Text.mem_join hdot with hslash | ⟨part, hpart, hdot⟩
    · exact dot_ne_slash hslash
    · rw [hkept] at hpart
      exact hparts part (List.mem_of_mem_filter hpart) hdot
  unfold Path.clean Path.ofParts
  dsimp only
  split
  · intro hdot
    rcases List.mem_cons.mp hdot with hslash | hdot
    · exact dot_ne_slash hslash
    · exact hjoin hdot
  · next habsolute =>
    -- the first part is not empty, so that something is left
    obtain ⟨b, rest, rfl⟩ := List.exists_cons_of_ne_nil hne
    have hb : b ≠ Path.slash := by
      rintro rfl
      exact habsolute rfl
    obtain ⟨part, others, hsplit⟩ : ∃ part others,
        Text.splitAt Path.slash (b :: rest) = (b :: part) :: others := by
      obtain ⟨part, others, hrest⟩ := List.exists_cons_of_ne_nil
        (Text.splitAt_ne_nil Path.slash rest)
      exact ⟨part, others, by rw [Text.splitAt, if_neg hb, hrest]⟩
    have hleft : Path.parts (b :: rest) =
        (b :: part) :: others.filter fun part => !part.isEmpty := by
      rw [hkept, hsplit]
      rfl
    have hnonempty : (Text.join [Path.slash] (Path.parts (b :: rest))).isEmpty = false := by
      rw [hleft]
      cases others.filter fun part => !part.isEmpty with
      | nil => rfl
      | cons next others => rw [Text.join_cons_cons]; rfl
    rw [hnonempty, if_neg Bool.false_ne_true]
    exact hjoin

/-- Names without dots, one after the other as a path. -/
theorem dot_not_mem_join (h : ∀ p ∈ ps, dot ∉ p) : dot ∉ Path.join ps := by
  have hsub : ∀ p ∈ ps.dropWhile List.isEmpty, dot ∉ p :=
    fun p hp => h p ((List.dropWhile_suffix _).subset hp)
  unfold Path.join
  cases hcut : ps.dropWhile List.isEmpty with
  | nil => exact nofun
  | cons first rest =>
    rw [hcut] at hsub
    have hfirst : first ≠ [] := by
      have hhead := List.head_dropWhile_not List.isEmpty (l := ps) (by simp [hcut])
      simpa [hcut] using hhead
    apply dot_not_mem_clean
    · obtain ⟨b, tail, rfl⟩ := List.exists_cons_of_ne_nil hfirst
      cases rest with
      | nil => rw [Text.join_singleton]; exact List.cons_ne_nil b tail
      | cons next rest => rw [Text.join_cons_cons]; exact List.cons_ne_nil b _
    · intro hdot
      rcases Text.mem_join hdot with hslash | ⟨p, hp, hdot⟩
      · exact dot_ne_slash hslash
      · exact hsub p hp hdot

/-- A text with a long ending is a name, if there is no slash in it. -/
theorem isName_append {ending : Text} (hlong : 3 ≤ ending.length) (hwhole : Path.slash ∉ ending)
    (h : Path.slash ∉ t) : Path.IsName (t ++ ending) := by
  have hne (u : Text) (hu : u.length < 3) : t ++ ending ≠ u := by
    rintro rfl
    rw [List.length_append] at hu
    omega
  refine ⟨hne [] (by decide), ?_, hne _ (by with_unfolding_all decide),
    hne _ (by with_unfolding_all decide)⟩
  intro hslash
  rcases List.mem_append.mp hslash with hslash | hslash
  · exact h hslash
  · exact hwhole hslash

theorem isName_append_extension (h : Path.slash ∉ t) : Path.IsName (t ++ sourceExtension) :=
  isName_append (Nat.le_of_eq length_sourceExtension.symm) slash_not_mem_sourceExtension h

/-- The last part of a path that ends like a source file. -/
theorem exists_splitAt_append_extension (t : Text) : ∃ cut stem,
    (t ++ sourceExtension).splitAt Path.slash = cut ++ [stem ++ sourceExtension] ∧
      Path.slash ∉ stem ∧ stem ∈ t.splitAt Path.slash := by
  have hne := Text.splitAt_ne_nil Path.slash t
  have hlast : (t.splitAt Path.slash).getLastD [] ∈ t.splitAt Path.slash := by
    rw [List.getLastD_eq_getLast?, List.getLast?_eq_some_getLast hne]
    exact List.getLast_mem hne
  exact ⟨_, _, Text.splitAt_append_last slash_not_mem_sourceExtension t,
    Text.not_mem_of_mem_splitAt hlast, hlast⟩

end Names

/-- The file of a module, in the shortest form. -/
def SourceModule.file (d : Disk) (m : SourceModule) : Text := Path.absolute d.currentPath m.path

/-- A module has an import that leads to a file, anywhere in its program. -/
def SourceModule.Imports (d : Disk) (s : ModuleSearch) (m : SourceModule) (f : Text) : Prop :=
  ∃ p, (parseFile d m.path).1 = .ok p ∧ ∃ i, p.root.HasImport i ∧ f ∈ (s.resolve d m.path i).1

theorem Disk.isAbsolute_currentPath (d : Disk) : Path.isAbsolute d.currentPath = true :=
  Path.isAbsolute_ofParts d.current

/-- What is shown of a file leads back to it. -/
theorem ModuleSearch.absolute_displayPath (d : Disk) {path : Text} (h : Path.IsPlain path) :
    Path.absolute d.currentPath (displayPath d path) = path := by
  unfold displayPath
  dsimp only
  split
  · exact h.absolute_eq _
  · next hdown => exact h.absolute_relative d.isAbsolute_currentPath (Bool.eq_false_iff.mpr hdown)

/-- A file on the disk, in the shortest form. -/
structure IsSource (d : Disk) (f : Text) : Prop where
  plain : Path.IsPlain f
  isFile : d.isFile f = true
  /-- What stands before the ending has no dot. -/
  named : ∃ above stem, Path.parts f = above ++ [stem ++ sourceExtension] ∧ dot ∉ stem

/-- There are no more files than entries on the disk. -/
theorem length_le_of_isSource {d : Disk} {fs : List Text} (hnodup : fs.Nodup)
    (h : ∀ f ∈ fs, IsSource d f) : fs.length ≤ d.entries.length := by
  -- different files stand at different places
  have hplaces : (fs.map Path.parts).Nodup := by
    refine hnodup.map_on fun f hf g hg heq => ?_
    obtain ⟨names, hnames, rfl⟩ := (h f hf).plain
    obtain ⟨names', hnames', rfl⟩ := (h g hg).plain
    rw [Path.parts_ofParts hnames, Path.parts_ofParts hnames'] at heq
    rw [heq]
  have hsub : fs.map Path.parts ⊆ d.entries.map Prod.fst := by
    intro place hplace
    obtain ⟨f, hf, rfl⟩ := List.mem_map.mp hplace
    obtain ⟨names, hnames, rfl⟩ := (h f hf).plain
    obtain ⟨content, hget⟩ := Disk.get?_of_isFile hnames (h _ hf).isFile
    rw [Path.parts_ofParts hnames]
    exact Disk.mem_of_get?_file hget
  have hle := (List.subperm_of_subset hplaces hsub).length_le
  rwa [List.length_map, List.length_map] at hle

namespace ModuleSearch

variable {d : Disk} {s : ModuleSearch} {path name f : Text} {i : ImportStatement}

/-- The directories of a search start at the root. -/
def IsRooted (directories : List Text) : Prop :=
  ∀ directory ∈ directories, Path.isAbsolute directory = true

theorem isSource_of_resolveImport? {directories : List Text} (hrooted : IsRooted directories)
    (h : resolveImport? d directories name = some f) : IsSource d f := by
  obtain ⟨candidate, hfind, rfl⟩ := Option.map_eq_some_iff.mp h
  have hfile : d.isFile candidate = true := List.find?_some hfind
  obtain ⟨directory, hdirectory, hmem⟩ := List.mem_flatMap.mp (List.mem_of_find?_eq_some hfind)
  have hroot := hrooted directory hdirectory
  have hne : directory ≠ [] := by
    rintro rfl
    cases hroot
  have hdotless : dot ∉ Path.join (name.splitAt dot) :=
    dot_not_mem_join fun part hpart => Text.not_mem_of_mem_splitAt hpart
  rcases List.mem_cons.mp hmem with rfl | hmem
  · have hplain := Path.isPlain_join hroot [Path.join (name.splitAt dot) ++ sourceExtension]
    obtain ⟨cut, stem, hcut, hwhole, hstem⟩ :=
      exists_splitAt_append_extension (Path.join (name.splitAt dot))
    obtain ⟨above, hparts⟩ := Path.exists_parts_join hne hcut (isName_append_extension hwhole)
    rw [hplain.absolute_eq]
    exact ⟨hplain, hfile, above, stem, hparts, fun h => hdotless (Text.mem_of_mem_splitAt hstem h)⟩
  · obtain rfl := List.mem_singleton.mp hmem
    have hplain := Path.isPlain_join hroot [Path.join (name.splitAt dot), packageFile]
    have hname : Path.IsName packageFile := by
      rw [packageFile_eq]
      exact isName_append_extension slash_not_mem_packageStem
    have hcut : (Text.join [Path.slash] [Path.join (name.splitAt dot), packageFile]).splitAt
        Path.slash = (Path.join (name.splitAt dot)).splitAt Path.slash ++ [packageFile] := by
      rw [Text.join_cons_cons, Text.join_singleton, Text.splitAt_append,
        Text.splitAt_of_not_mem hname.whole]
    obtain ⟨above, hparts⟩ := Path.exists_parts_join hne hcut hname
    rw [hplain.absolute_eq]
    refine ⟨hplain, hfile, above, packageStem, ?_, dot_not_mem_packageStem⟩
    rw [Path.join_cons hne (List.cons_ne_nil _ _), hparts, packageFile_eq]

theorem isRooted_directoriesFor (h : IsRooted s.directories) (path : Text) (i : ImportStatement) :
    IsRooted (s.directoriesFor d path i) := by
  unfold directoriesFor
  split
  · exact h
  · intro directory hdirectory
    rw [List.mem_singleton.mp hdirectory]
    have hup : ∀ n, Path.isAbsolute (Nat.repeat Path.parent n
        (Path.absolute d.currentPath path)) = true := by
      intro n
      induction n with
      | zero => exact (Path.isPlain_absolute d.isAbsolute_currentPath path).rooted
      | succ n ih => exact (Path.isPlain_parent ih).rooted
    exact hup i.level

/-- Looking up some names, each of which leads to at most one file and changes nothing but the
log. -/
theorem exists_foldl_lookup
    {lookup : List Text × ModuleSearch → Text × Bool → List Text × ModuleSearch}
    {found : Text × Bool → Option Text}
    (hlookup : ∀ fs logs w, ∃ logs', lookup (fs, { s with logs }) w =
      (fs ++ (found w).toList, { s with logs := logs' }))
    (ws : List (Text × Bool)) (fs : List Text) (logs : List LogEntry) :
    ∃ logs', ws.foldl lookup (fs, { s with logs }) =
      (fs ++ ws.filterMap found, { s with logs := logs' }) := by
  induction ws generalizing fs logs with
  | nil => exact ⟨logs, by simp⟩
  | cons w ws ih =>
    obtain ⟨logs₁, hfirst⟩ := hlookup fs logs w
    obtain ⟨logs₂, hrest⟩ := ih (fs ++ (found w).toList) logs₁
    refine ⟨logs₂, ?_⟩
    rw [List.foldl_cons, hfirst, hrest, List.append_assoc, List.filterMap_cons]
    cases found w <;> rfl

/-- Looking up an import changes nothing but the log. -/
theorem resolve_eq (d : Disk) (s : ModuleSearch) (path : Text) (i : ImportStatement) :
    ∃ logs, s.resolve d path i = ((wanted i).filterMap fun w =>
      resolveImport? d (s.directoriesFor d path i) w.1, { s with logs }) := by
  unfold resolve
  generalize s.directoriesFor d path i = directories
  refine exists_foldl_lookup (s := s) (fun fs logs w => ?_) (wanted i) [] s.logs
  dsimp only
  cases resolveImport? d directories w.1 with
  | some f => exact ⟨logs, rfl⟩
  | none =>
    rw [Option.toList_none, List.append_nil]
    dsimp only
    split
    · exact ⟨_, rfl⟩
    · exact ⟨logs, rfl⟩

theorem resolve_congr {s' : ModuleSearch} (h : s'.directories = s.directories) (path : Text)
    (i : ImportStatement) : (s'.resolve d path i).1 = (s.resolve d path i).1 := by
  obtain ⟨logs, hs⟩ := resolve_eq d s path i
  obtain ⟨logs', hs'⟩ := resolve_eq d s' path i
  rw [hs, hs']
  unfold directoriesFor
  rw [h]

/-- The files that the imports of a file lead to, in order. -/
def targets (d : Disk) (s : ModuleSearch) (path : Text) : List Text :=
  (importsOf d path).flatMap fun i => (s.resolve d path i).1

theorem mem_targets_iff {m : SourceModule} : f ∈ targets d s m.path ↔ m.Imports d s f := by
  unfold targets importsOf SourceModule.Imports
  rw [List.mem_flatMap]
  cases (parseFile d m.path).1 with
  | error e => simp
  | ok p => simp [Root.mem_imports_iff]

theorem isSource_of_mem_resolve (h : IsRooted s.directories) (hf : f ∈ (s.resolve d path i).1) :
    IsSource d f := by
  obtain ⟨logs, hs⟩ := resolve_eq d s path i
  rw [hs] at hf
  obtain ⟨w, -, hw⟩ := List.mem_filterMap.mp hf
  exact isSource_of_resolveImport? (isRooted_directoriesFor h path i) hw

end ModuleSearch

end Toolchain

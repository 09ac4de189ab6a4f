import Toolchain.Proofs.Project.Following

/-!
# Where the code of modules is written

The code of a file that was asked for is written into the output directory itself, under the name of
the file. That of a file that was found by an import is written below the output directory: into the
directories that lead to the file from the first directory of the search that it lies in, each cut
apart at its dots. So two modules can have one output path: two files of one name that were asked
for, or files that lie in the same way in different directories of the search.

## Main definitions

* `SourceModule.stem`: the name under which the code of a module is written, without its ending
* `ModuleSearch.way`: the names on the way to a file from the first directory that it lies in
* `SourceModule.folder`: the directories below the output directory

## Main results

* `SourceModule.outputPath_eq_iff_of_folder`: two modules have one output path exactly if they have
  the same directories and the same name there
* `ModuleSearch.outputPath_eq_iff`: **which modules that are collected have one output path**
-/

namespace Toolchain

/-! ## Parts of paths -/

namespace Text

variable {separator other : UInt8}

theorem join_concat : ∀ {parts : List Text}, parts ≠ [] → ∀ part,
    join [separator] (parts ++ [part]) = join [separator] parts ++ separator :: part
  | [], h, _ => absurd rfl h
  | [p], _, part => by
    rw [List.singleton_append, join_cons_cons, join_singleton, join_singleton]
  | p :: q :: parts, _, part => by
    have hrest := join_concat (List.cons_ne_nil q parts) part
    rw [List.cons_append] at hrest
    rw [List.cons_append, List.cons_append, join_cons_cons, join_cons_cons, hrest,
      List.append_assoc, List.cons_append]

/-- What is added to the last part is added to the whole. -/
theorem join_concat_append (parts : List Text) (part ending : Text) :
    join [separator] (parts ++ [part ++ ending]) =
      join [separator] (parts ++ [part]) ++ ending := by
  by_cases h : parts = []
  · subst h
    rw [List.nil_append, List.nil_append, join_singleton, join_singleton]
  · rw [join_concat h, join_concat h, List.append_assoc, List.cons_append]

/-- Another separator in the place of one that the parts do not have. -/
theorem map_join : ∀ {parts : List Text}, (∀ part ∈ parts, separator ∉ part) →
    (join [separator] parts).map (fun b => if b = separator then other else b) =
      join [other] parts
  | [], _ => rfl
  | [part], h => by
    rw [join_singleton, join_singleton]
    refine (List.map_congr_left fun b hb => if_neg ?_).trans (List.map_id part)
    rintro rfl
    exact h part List.mem_cons_self hb
  | part :: next :: parts, h => by
    have hpart : part.map (fun b => if b = separator then other else b) = part := by
      refine (List.map_congr_left fun b hb => if_neg ?_).trans (List.map_id part)
      rintro rfl
      exact h part List.mem_cons_self hb
    rw [join_cons_cons, join_cons_cons, List.map_append, List.map_cons, if_pos rfl, hpart,
      map_join fun p hp => h p (List.mem_cons_of_mem part hp)]

theorem splitAt_join_flatMap : ∀ {parts : List Text}, parts ≠ [] →
    splitAt separator (join [separator] parts) = parts.flatMap (splitAt separator)
  | [], h => absurd rfl h
  | [part], _ => by rw [join_singleton, List.flatMap_singleton]
  | part :: next :: parts, _ => by
    rw [join_cons_cons, splitAt_append, splitAt_join_flatMap (List.cons_ne_nil next parts)]
    rfl

/-- A last part without the separator is known from the whole. -/
theorem append_cons_inj {t u part part' : Text} (h : separator ∉ part) (h' : separator ∉ part')
    (heq : t ++ separator :: part = u ++ separator :: part') : t = u ∧ part = part' := by
  have hcut := congrArg (splitAt separator) heq
  rw [splitAt_append, splitAt_append, splitAt_of_not_mem h, splitAt_of_not_mem h'] at hcut
  obtain rfl : part = part' := by simpa using (List.append_inj' hcut rfl).2
  exact ⟨List.append_cancel_right heq, rfl⟩

end Text

namespace Path

variable {t pre name stem : Text} {ps : List Text}

theorem withoutSuffix_append (t ending : Text) : withoutSuffix ending (t ++ ending) = t := by
  have hends : Text.endsWith (t ++ ending) ending = true :=
    List.isSuffixOf_iff_suffix.mpr (List.suffix_append t ending)
  rw [withoutSuffix, if_pos hends, List.length_append, Nat.add_sub_cancel, List.take_left]

theorem withoutSuffix_of_not {ending : Text} (h : ¬ending <:+ t) : withoutSuffix ending t = t := by
  have hends : ¬Text.endsWith t ending = true := fun h' => h (List.isSuffixOf_iff_suffix.mp h')
  rw [withoutSuffix, if_neg hends]

/-- A name at the end of a path. -/
theorem splitLast_append (hpre : pre = [] ∨ ∃ q, pre = q ++ [slash]) (hname : slash ∉ name) :
    (splitLast (pre ++ name)).2 = name := by
  have hall : ∀ b ∈ name.reverse, decide (b ≠ slash) = true := by
    intro b hb
    rw [decide_eq_true_iff]
    rintro rfl
    exact hname (List.mem_reverse.mp hb)
  have hstop : pre.reverse.takeWhile (fun b => decide (b ≠ slash)) = [] := by
    rcases hpre with rfl | ⟨q, rfl⟩
    · rfl
    · simp
  simp only [splitLast]
  rw [List.reverse_append, List.takeWhile_append_of_pos hall, hstop, List.append_nil,
    List.reverse_reverse]

theorem base_append (hpre : pre = [] ∨ ∃ q, pre = q ++ [slash]) (hne : name ≠ [])
    (hname : slash ∉ name) : base (pre ++ name) = name := by
  have hpath : (pre ++ name).isEmpty = false := by simp [hne]
  have htrim : ((pre ++ name).reverse.dropWhile fun b => decide (b = slash)).reverse =
      pre ++ name := by
    obtain ⟨b, rest, hrest⟩ := List.exists_cons_of_ne_nil (mt List.reverse_eq_nil_iff.mp hne)
    have hb : b ≠ slash := by
      rintro rfl
      exact hname (List.mem_reverse.mp (hrest ▸ List.mem_cons_self))
    rw [List.reverse_append, hrest, List.cons_append, List.dropWhile_cons_of_neg (by simp [hb]),
      ← List.cons_append, ← hrest, ← List.reverse_append, List.reverse_reverse]
  rw [base, hpath, if_neg Bool.false_ne_true]
  dsimp only
  rw [htrim, hpath, if_neg Bool.false_ne_true, splitLast_append hpre hname]

/-- The last name of a path is its base. -/
theorem base_ofParts {rooted : Bool} (h : IsName name) :
    base (ofParts rooted (ps ++ [name])) = name := by
  obtain ⟨pre, hpre, hjoin⟩ : ∃ pre, (pre = [] ∨ ∃ q, pre = q ++ [slash]) ∧
      Text.join [slash] (ps ++ [name]) = pre ++ name := by
    by_cases hps : ps = []
    · subst hps
      exact ⟨[], .inl rfl, Text.join_singleton _ _⟩
    · refine ⟨Text.join [slash] ps ++ [slash], .inr ⟨_, rfl⟩, ?_⟩
      rw [Text.join_concat hps, List.append_assoc]
      rfl
  cases rooted with
  | true =>
    have hroot : (slash :: pre = [] ∨ ∃ q, slash :: pre = q ++ [slash]) := by
      rcases hpre with rfl | ⟨q, rfl⟩
      · exact .inr ⟨[], rfl⟩
      · exact .inr ⟨slash :: q, rfl⟩
    have hpath : ofParts true (ps ++ [name]) = slash :: pre ++ name := congrArg (slash :: ·) hjoin
    rw [hpath, base_append hroot h.nonempty h.whole]
  | false =>
    have hne : (pre ++ name).isEmpty = false := by simp [h.nonempty]
    have hpath : ofParts false (ps ++ [name]) = pre ++ name := by
      rw [ofParts, hjoin]
      simp only [hne, Bool.false_eq_true, if_false]
    rw [hpath, base_append hpre h.nonempty h.whole]

theorem withoutExtension_append (h : slash ∉ stem) :
    withoutExtension (stem ++ sourceExtension) = stem := by
  have hwhole := (isName_append_extension h).whole
  have hname : (splitLast (stem ++ sourceExtension)).2 = stem ++ sourceExtension :=
    splitLast_append (.inl rfl) hwhole
  have htail : ((stem ++ sourceExtension).reverse.takeWhile fun b =>
      decide (b ≠ '.'.toUInt8)).reverse = ['p'.toUInt8, 'y'.toUInt8] := by
    rw [List.reverse_append, sourceExtension_eq]
    rfl
  have hext : extension (stem ++ sourceExtension) = sourceExtension := by
    have hne : ['p'.toUInt8, 'y'.toUInt8].length ≠ (stem ++ sourceExtension).length := by
      rw [List.length_append, length_sourceExtension, List.length_cons, List.length_singleton]
      omega
    simp only [extension]
    rw [hname, htail, if_neg hne, sourceExtension_eq]
    rfl
  rw [withoutExtension, hext, List.length_append, Nat.add_sub_cancel, List.take_left]

theorem clean_ne_nil (p : Text) : clean p ≠ [] := by
  unfold clean ofParts
  dsimp only
  split
  · exact List.cons_ne_nil _ _
  · split
    · with_unfolding_all decide
    · next hne => exact fun hnil => hne (by rw [hnil]; rfl)

theorem join_ne_nil {directory : Text} (h : directory ≠ []) (ps : List Text) :
    join (directory :: ps) ≠ [] := by
  obtain ⟨b, rest, rfl⟩ := List.exists_cons_of_ne_nil h
  exact clean_ne_nil _

/-- The base of a path is a part of it, or the root. -/
theorem slash_not_mem_base (p : Text) : slash ∉ base p ∨ base p = [slash] := by
  unfold base
  split
  · exact .inl (by with_unfolding_all decide)
  · dsimp only
    split
    · exact .inr rfl
    · left
      intro hmem
      have htaken := List.all_takeWhile (p := fun b => decide (b ≠ slash))
        (l := (((p.reverse.dropWhile fun b => b = slash).reverse).reverse))
      have hslash := List.all_eq_true.mp htaken slash (List.mem_reverse.mp hmem)
      simp at hslash

end Path

/-! ## The path that is written -/

namespace SourceModule

/-- The name under which the code of a module is written, without its ending. -/
def stem (m : SourceModule) : Text :=
  (Path.withoutExtension (Path.base m.path)).filter (· ≠ Path.slash)

end SourceModule

/-- The directory that code is written into: the one of the file if none is given. -/
def outputDirectory (source directory : Text) : Text :=
  if directory.isEmpty then Path.parent source else directory

theorem outputDirectory_ne_nil (source directory : Text) :
    outputDirectory source directory ≠ [] := by
  unfold outputDirectory
  split
  · exact Path.clean_ne_nil _
  · next hne => exact fun hnil => hne (by rw [hnil]; rfl)

theorem isName_append_compiledExtension {t : Text} (h : Path.slash ∉ t) :
    Path.IsName (t ++ compiledExtension) :=
  isName_append (by with_unfolding_all decide) (by with_unfolding_all decide) h

theorem SourceModule.slash_not_mem_stem (m : SourceModule) : Path.slash ∉ m.stem := by
  intro hmem
  have hkept := (List.mem_filter.mp hmem).2
  simp at hkept

theorem outputPath_eq_join (source directory : Text) :
    Toolchain.outputPath source directory = Path.join [outputDirectory source directory,
      Path.withoutExtension (Path.base source) ++ compiledExtension] := rfl

theorem parts_outputPath (m : SourceModule) (directory : Text) :
    Path.parts (Toolchain.outputPath m.path directory) =
      Path.parts (outputDirectory m.path directory) ++ [m.stem ++ compiledExtension] := by
  have hname := isName_append_compiledExtension m.slash_not_mem_stem
  have hne := outputDirectory_ne_nil m.path directory
  -- the base of the root has a slash, which is no part of the name
  have hpush : ((Path.withoutExtension (Path.base m.path) ++ compiledExtension).splitAt
      Path.slash).foldl (Path.push (Path.isAbsolute (outputDirectory m.path directory)))
        (Path.parts (outputDirectory m.path directory)).reverse =
      (m.stem ++ compiledExtension) :: (Path.parts (outputDirectory m.path directory)).reverse := by
    rcases Path.slash_not_mem_base m.path with hbase | hbase
    · have hstem : m.stem = Path.withoutExtension (Path.base m.path) := by
        rw [SourceModule.stem, List.filter_eq_self]
        intro b hb
        rw [decide_eq_true_iff]
        rintro rfl
        exact hbase (List.mem_of_mem_take hb)
      rw [← hstem, Text.splitAt_of_not_mem hname.whole, List.foldl_cons, List.foldl_nil,
        Path.push_of_name hname]
    · have hroot : Path.withoutExtension [Path.slash] = [Path.slash] := by with_unfolding_all decide
      have hstem : m.stem = [] := by
        rw [SourceModule.stem, hbase, hroot]
        rfl
      have hskip (rooted : Bool) (ps : List Text) : Path.push rooted ps [] = ps := by
        simp [Path.push]
      rw [hstem, List.nil_append] at hname ⊢
      rw [hbase, hroot, List.singleton_append, Text.splitAt, if_pos rfl,
        Text.splitAt_of_not_mem hname.whole, List.foldl_cons, List.foldl_cons,
          List.foldl_nil, hskip,
        Path.push_of_name hname]
  have hjoin := Path.parts_join hne (Path.withoutExtension (Path.base m.path) ++ compiledExtension)
  rw [hpush, List.reverse_cons, List.reverse_reverse] at hjoin
  rw [outputPath_eq_join, hjoin]

/-- Two paths that are written are the same if and only if the directories are the same and the
names are. -/
theorem outputPath_inj {m m' : SourceModule} {directory directory' : Text} :
    Toolchain.outputPath m.path directory = Toolchain.outputPath m'.path directory' ↔
      Path.clean (outputDirectory m.path directory) =
        Path.clean (outputDirectory m'.path directory') ∧
        m.stem = m'.stem := by
  have hne := outputDirectory_ne_nil m.path directory
  have hne' := outputDirectory_ne_nil m'.path directory'
  have hclean : Path.clean (Toolchain.outputPath m.path directory) =
      Toolchain.outputPath m.path directory := by rw [outputPath_eq_join, Path.clean_join hne]
  have hclean' : Path.clean (Toolchain.outputPath m'.path directory') =
      Toolchain.outputPath m'.path directory' := by rw [outputPath_eq_join, Path.clean_join hne']
  have hrooted : Path.isAbsolute (Toolchain.outputPath m.path directory) =
      Path.isAbsolute (outputDirectory m.path directory) := by
    rw [outputPath_eq_join, Path.isAbsolute_join hne]
  have hrooted' : Path.isAbsolute (Toolchain.outputPath m'.path directory') =
      Path.isAbsolute (outputDirectory m'.path directory') := by
    rw [outputPath_eq_join, Path.isAbsolute_join hne']
  rw [← hclean, ← hclean', Path.clean_eq_clean_iff, Path.clean_eq_clean_iff, hrooted, hrooted',
    parts_outputPath, parts_outputPath, and_assoc]
  refine and_congr_right fun _ => ⟨fun h => ?_, fun ⟨hparts, hstem⟩ => by rw [hparts, hstem]⟩
  obtain ⟨hparts, hlast⟩ := List.append_inj' h (by simp)
  rw [List.singleton_inj] at hlast
  exact ⟨hparts, List.append_cancel_right hlast⟩

/-! ## The way to a file -/

namespace Path

variable {directory f : Text} {names : List Text}

/-- The names on the way from a directory to a file, if the file lies in it. A way that looks like
one up is none. -/
def below? (directory f : Text) : Option (List Text) :=
  let names := (parts f).drop (parts directory).length
  if parts directory <+: parts f ∧ ¬(ofParts false names).startsWith up then some names else none

theorem dropCommon_append (as bs : List Text) : dropCommon as (as ++ bs) = ([], bs) := by
  induction as with
  | nil => simp [dropCommon]
  | cons a as ih => rw [List.cons_append, dropCommon, if_pos rfl, ih]

theorem relative_of_below? (h : below? directory f = some names) :
    parts f = parts directory ++ names ∧ relative directory f = ofParts false names ∧
      (relative directory f).startsWith up = false := by
  unfold below? at h
  dsimp only at h
  split at h
  · next hbelow =>
    obtain ⟨⟨rest, hrest⟩, hdown⟩ := hbelow
    obtain rfl : rest = names := by
      rw [← hrest, List.drop_left] at h
      exact Option.some.inj h
    have hrelative : relative directory f = ofParts false rest := by
      rw [relative, ← hrest, dropCommon_append]
      rfl
    rw [← hrest, List.drop_left] at hdown
    rw [hrelative]
    exact ⟨hrest.symm, rfl, Bool.eq_false_iff.mpr hdown⟩
  · cases h

theorem startsWith_of_below?_eq_none (h : below? directory f = none) :
    (relative directory f).startsWith up = true := by
  obtain ⟨common, habove, hbelow⟩ := dropCommon_eq (parts directory) (parts f)
  by_cases hup : (dropCommon (parts directory) (parts f)).1 = []
  · rw [hup, List.append_nil] at habove
    unfold below? at h
    dsimp only at h
    by_contra hdown
    rw [Bool.not_eq_true] at hdown
    have hprefix : parts directory <+: parts f := ⟨_, by rw [hbelow, habove]⟩
    obtain ⟨rest, hrest⟩ := hprefix
    rw [← hrest, List.drop_left, if_pos] at h
    · cases h
    · refine ⟨List.prefix_append _ _, ?_⟩
      rw [relative, ← hrest, dropCommon_append] at hdown
      rw [Bool.not_eq_true]
      exact hdown
  · exact startsWith_up hup _

end Path

namespace ModuleSearch

variable {d : Disk} {s : ModuleSearch} {f stem : Text} {names above : List Text}

/-- The names on the way to a file from the first directory that it lies in; its own name, if it
lies in none. -/
def way (directories : List Text) (f : Text) : List Text :=
  (directories.findSome? fun directory => Path.below? directory f).getD
    [(Path.parts f).getLastD []]

/-- The name of a module that names lead to. -/
def dotted (names : List Text) : Text :=
  (Path.withoutSuffix (Text.ofString "/__init__")
    (Path.withoutSuffix sourceExtension (Path.ofParts false names))).map
      fun b => if b = Path.slash then dot else b

theorem moduleName_eq (s : ModuleSearch) (f : Text) : s.moduleName f =
    match s.directories.findSome? fun directory => Path.below? directory f with
    | some names => dotted names
    | none => Path.withoutSuffix sourceExtension (Path.base f) := by
  have hnames : (fun directory =>
      if (Path.relative directory f).startsWith Path.up then none
      else some ((Path.withoutSuffix (Text.ofString "/__init__")
        (Path.withoutSuffix sourceExtension (Path.relative directory f))).map
          fun b => if b = Path.slash then dot else b)) =
      fun directory => (Path.below? directory f).map dotted := by
    funext directory
    cases hbelow : Path.below? directory f with
    | some names =>
      obtain ⟨-, hrelative, hdown⟩ := Path.relative_of_below? hbelow
      rw [hdown, if_neg Bool.false_ne_true, hrelative]
      rfl
    | none => rw [Path.startsWith_of_below?_eq_none hbelow, if_pos rfl]; rfl
  unfold moduleName
  dsimp only
  have hmap := List.map_findSome? (f := fun directory => Path.below? directory f) (g := dotted)
    (l := s.directories)
  rw [hnames, List.headD_eq_head?_getD, List.head?_filterMap]
  change (List.findSome? (Option.map dotted ∘ fun directory => Path.below? directory f) _).getD _ =
    _
  rw [← hmap]
  cases s.directories.findSome? fun directory => Path.below? directory f with
  | some names => rfl
  | none => rfl

/-- The names in the name of a module: the directories are cut apart at their dots, and a package
has the name of its directory. -/
theorem splitAt_dotted (hwhole : ∀ name ∈ above, Path.slash ∉ name) (hstem : Path.slash ∉ stem)
    (hdot : dot ∉ stem) : (dotted (above ++ [stem ++ sourceExtension])).splitAt dot =
      if stem = packageStem ∧ above ≠ [] then above.flatMap (Text.splitAt dot)
      else above.flatMap (Text.splitAt dot) ++ [stem] := by
  have hshown : Path.ofParts false (above ++ [stem ++ sourceExtension]) =
      Text.join [Path.slash] (above ++ [stem]) ++ sourceExtension := by
    have hne : (Text.join [Path.slash] (above ++ [stem]) ++ sourceExtension).isEmpty = false := by
      rw [List.isEmpty_eq_false_iff, ← List.length_pos_iff, List.length_append,
        length_sourceExtension]
      omega
    rw [Path.ofParts, Text.join_concat_append]
    simp only [hne, Bool.false_eq_true, if_false]
  have hending : Text.ofString "/__init__" = Path.slash :: packageStem := by
    with_unfolding_all decide
  have hall : ∀ name ∈ above ++ [stem], Path.slash ∉ name := by
    exact List.forall_mem_append.mpr ⟨hwhole, List.forall_mem_singleton.mpr hstem⟩
  rw [dotted, hshown, Path.withoutSuffix_append, hending]
  by_cases hnone : above = []
  · -- there is no slash that the ending could begin with
    subst hnone
    have hkept : Path.withoutSuffix (Path.slash :: packageStem) stem = stem := by
      refine Path.withoutSuffix_of_not fun hsuffix => hstem (hsuffix.subset List.mem_cons_self)
    rw [List.nil_append, Text.join_singleton, hkept, if_neg (by simp), List.flatMap_nil,
      List.nil_append]
    have hmap : (Text.join [Path.slash] [stem]).map (fun b => if b = Path.slash then dot else b) =
        Text.join [dot] [stem] := Text.map_join (by simpa using hstem)
    rw [Text.join_singleton, Text.join_singleton] at hmap
    rw [hmap, Text.splitAt_of_not_mem hdot]
  · by_cases hpackage : stem = packageStem
    · rw [if_pos ⟨hpackage, hnone⟩, hpackage, Text.join_concat hnone, Path.withoutSuffix_append,
        Text.map_join hwhole, Text.splitAt_join_flatMap hnone]
    · have hkept : Path.withoutSuffix (Path.slash :: packageStem)
          (Text.join [Path.slash] (above ++ [stem])) =
            Text.join [Path.slash] (above ++ [stem]) := by
        refine Path.withoutSuffix_of_not fun hsuffix => hpackage ?_
        obtain ⟨t, ht⟩ := hsuffix
        rw [Text.join_concat hnone] at ht
        exact (Text.append_cons_inj slash_not_mem_packageStem hstem ht).2.symm
      rw [if_neg fun h => hpackage h.1, hkept, Text.map_join hall,
        Text.splitAt_join_flatMap (by simp), List.flatMap_append, List.flatMap_singleton,
        Text.splitAt_of_not_mem hdot]

/-! ## The directories of an imported module -/

/-- The directories below the output directory that names lead to: they are cut apart at their dots.
What makes a directory a module is put into a directory of its own name if there is nothing on the
way to it. -/
def folderOf (names : List Text) : List Text :=
  if names = [packageFile] then [packageStem]
  else (names.dropLast.flatMap (Text.splitAt dot)).filter fun name => !name.isEmpty

/-- The names above the code of a module that was found by an import. -/
def namesAbove (m : SourceModule) : List Text :=
  if Path.base m.path = packageFile then m.name.splitAt dot else (m.name.splitAt dot).dropLast

theorem outputPath_importedModule (directories : List Text) (f out : Text) :
    (importedModule d directories f).outputPath out =
      Toolchain.outputPath (importedModule d directories f).path
        (Path.join (out :: namesAbove (importedModule d directories f))) := by
  unfold SourceModule.outputPath namesAbove
  rw [if_neg (by exact Bool.false_ne_true)]

/-- A file is not the current directory. -/
theorem parts_ne_of_isSource (hf : IsSource d f) (hcurrent : d.isDirectory d.currentPath = true) :
    Path.parts f ≠ Path.parts d.currentPath := by
  intro hsame
  obtain ⟨l, hlocate, hdirectory⟩ := Disk.isDirectory_iff.mp hcurrent
  have hhouses := Disk.houses_of_locate hlocate hdirectory
  have hleads := hhouses.leads
  rw [Disk.start, if_pos d.isAbsolute_currentPath] at hleads
  obtain rfl := Disk.eq_of_foldlM_follow (Path.isName_of_mem_parts d.isAbsolute_currentPath) hleads
  obtain ⟨names, hnames, rfl⟩ := hf.plain
  obtain ⟨content, hget⟩ := Disk.get?_of_isFile hnames hf.isFile
  rw [Path.parts_ofParts hnames] at hsame
  rw [List.nil_append, ← hsame, hget] at hdirectory
  cases hdirectory

/-- What is shown of a file has the name of the file. -/
theorem base_displayPath (hf : IsSource d f) (hcurrent : d.isDirectory d.currentPath = true)
    {name : Text} (hparts : Path.parts f = above ++ [name]) :
    Path.base (displayPath d f) = name := by
  have hname : Path.IsName name :=
    Path.isName_of_mem_parts hf.plain.rooted name (by rw [hparts]; simp)
  unfold displayPath
  dsimp only
  cases hbelow : Path.below? d.currentPath f with
  | none =>
    rw [if_pos (Path.startsWith_of_below?_eq_none hbelow)]
    obtain ⟨names, hnames, rfl⟩ := hf.plain
    rw [Path.parts_ofParts hnames] at hparts
    rw [hparts, Path.base_ofParts hname]
  | some names =>
    obtain ⟨hbehind, hrelative, hdown⟩ := Path.relative_of_below? hbelow
    rw [hdown, if_neg Bool.false_ne_true, hrelative]
    have hne : names ≠ [] := by
      rintro rfl
      rw [List.append_nil] at hbehind
      exact parts_ne_of_isSource hf hcurrent hbehind
    rw [← List.dropLast_append_getLast hne] at hbehind ⊢
    rw [hparts, ← List.append_assoc] at hbehind
    obtain ⟨-, hlast⟩ := List.append_inj' hbehind rfl
    rw [← (List.cons.inj hlast).1, Path.base_ofParts hname]

/-- The name of a module, by the names on the way to its file. -/
theorem splitAt_moduleName (directories : List Text) (hf : IsSource d f)
    (hparts : Path.parts f = above ++ [stem ++ sourceExtension]) (hdot : dot ∉ stem) :
    (way directories f = [] ∧ (moduleName { directories } f).splitAt dot = [[], []]) ∨
      ∃ names, way directories f = names ++ [stem ++ sourceExtension] ∧
        (moduleName { directories } f).splitAt dot =
          if stem = packageStem ∧ names ≠ [] then names.flatMap (Text.splitAt dot)
          else names.flatMap (Text.splitAt dot) ++ [stem] := by
  have hall := Path.isName_of_mem_parts hf.plain.rooted
  have hlast : Path.IsName (stem ++ sourceExtension) := hall _ (by rw [hparts]; simp)
  have hstem : Path.slash ∉ stem := fun h => hlast.whole (List.mem_append_left _ h)
  rw [moduleName_eq, way]
  cases hfind : directories.findSome? fun directory => Path.below? directory f with
  | none =>
    have hbase : Path.base f = stem ++ sourceExtension := by
      obtain ⟨names, hnames, rfl⟩ := hf.plain
      rw [Path.parts_ofParts hnames] at hparts
      rw [hparts, Path.base_ofParts hlast]
    refine .inr ⟨[], by rw [hparts]; simp, ?_⟩
    rw [hbase, Path.withoutSuffix_append, Text.splitAt_of_not_mem hdot, if_neg fun h => h.2 rfl]
    rfl
  | some names =>
    obtain ⟨directory, -, hbelow⟩ := List.exists_of_findSome?_eq_some hfind
    obtain ⟨hbehind, -, -⟩ := Path.relative_of_below? hbelow
    by_cases hne : names = []
    · subst hne
      have hhere : (dotted []).splitAt dot = [[], []] := by with_unfolding_all decide
      exact .inl ⟨rfl, hhere⟩
    · right
      rw [← List.dropLast_append_getLast hne, hparts, ← List.append_assoc] at hbehind
      obtain ⟨habove, hname⟩ := List.append_inj' hbehind rfl
      rw [← List.dropLast_append_getLast hne, ← (List.cons.inj hname).1]
      refine ⟨_, rfl, splitAt_dotted (fun name hname => ?_) hstem hdot⟩
      apply (hall name _).whole
      rw [hparts, habove]
      simp [hname]

/-- The names above the code of a module, but for those that are empty. -/
theorem filter_namesAbove (directories : List Text) (hf : IsSource d f)
    (hcurrent : d.isDirectory d.currentPath = true) :
    (namesAbove (importedModule d directories f)).filter (fun name => !name.isEmpty) =
      folderOf (way directories f) := by
  obtain ⟨above, stem, hparts, hdot⟩ := hf.named
  have hpackage : Path.base (importedModule d directories f).path = packageFile ↔
      stem = packageStem := by
    rw [importedModule, base_displayPath hf hcurrent hparts, packageFile_eq]
    exact ⟨List.append_cancel_right, fun h => h ▸ rfl⟩
  have hwhole : packageStem.isEmpty = false := by with_unfolding_all decide
  unfold namesAbove
  rw [importedModule] at hpackage ⊢
  dsimp only at hpackage ⊢
  rcases splitAt_moduleName directories hf hparts hdot with ⟨hway, hname⟩ | ⟨names, hway, hname⟩
  · rw [hway, hname]
    split <;> rfl
  · have honly : names ++ [stem ++ sourceExtension] = [packageFile] ↔
        stem = packageStem ∧ names = [] := by
      rw [packageFile_eq]
      constructor
      · intro h
        have hnone : names = [] :=
          (List.append_eq_singleton_iff.mp h).elim And.left fun h => by simp at h
        subst hnone
        exact ⟨List.append_cancel_right (List.cons.inj h).1, rfl⟩
      · rintro ⟨rfl, rfl⟩
        rfl
    rw [hway, hname, folderOf, List.dropLast_concat]
    by_cases hstem : stem = packageStem
    · rw [if_pos (hpackage.mpr hstem)]
      by_cases hnone : names = []
      · rw [if_neg fun h => h.2 hnone, if_pos (honly.mpr ⟨hstem, hnone⟩), hnone, hstem]
        simp [hwhole]
      · rw [if_pos ⟨hstem, hnone⟩, if_neg fun h => hnone (honly.mp h).2]
    · rw [if_neg fun h => hstem (hpackage.mp h), if_neg fun h => hstem h.1,
        if_neg fun h => hstem (honly.mp h).1, List.dropLast_concat]

theorem slash_not_mem_moduleName (directories : List Text) (hf : IsSource d f) :
    Path.slash ∉ moduleName { directories } f := by
  obtain ⟨above, stem, hparts, hdot⟩ := hf.named
  have hlast := Path.isName_of_mem_parts hf.plain.rooted (stem ++ sourceExtension)
    (by rw [hparts]; simp)
  rw [moduleName_eq]
  split
  · intro hmem
    obtain ⟨b, -, hb⟩ := List.mem_map.mp hmem
    split at hb
    · exact dot_ne_slash hb
    · next hne => exact hne hb
  · have hbase : Path.base f = stem ++ sourceExtension := by
      obtain ⟨names, hnames, rfl⟩ := hf.plain
      rw [Path.parts_ofParts hnames] at hparts
      rw [hparts, Path.base_ofParts hlast]
    rw [hbase, Path.withoutSuffix_append]
    exact fun h => hlast.whole (List.mem_append_left _ h)

theorem not_mem_namesAbove (directories : List Text) (hf : IsSource d f) :
    ∀ name ∈ namesAbove (importedModule d directories f), dot ∉ name ∧ Path.slash ∉ name := by
  intro name hname
  have hpart : name ∈ (moduleName { directories } f).splitAt dot := by
    unfold namesAbove at hname
    split at hname
    · exact hname
    · exact List.dropLast_subset _ hname
  exact ⟨Text.not_mem_of_mem_splitAt hpart,
    fun h => slash_not_mem_moduleName directories hf (Text.mem_of_mem_splitAt hpart h)⟩

/-! ## The directory that code is written into -/

section Directory

variable {out : Text}

theorem parts_join_of_dotless (hout : out ≠ [])
    (h : ∀ name ∈ names, dot ∉ name ∧ Path.slash ∉ name) :
    Path.isAbsolute (Path.join (out :: names)) = Path.isAbsolute out ∧
      Path.parts (Path.join (out :: names)) =
        Path.parts out ++ names.filter fun name => !name.isEmpty := by
  by_cases hnone : names = []
  · subst hnone
    have hjoin : Path.join [out] = Path.clean out := by
      obtain ⟨b, rest, rfl⟩ := List.exists_cons_of_ne_nil hout
      exact congrArg Path.clean (Text.join_singleton _ _)
    rw [hjoin, Path.isAbsolute_clean, Path.parts_clean, List.filter_nil, List.append_nil]
    exact ⟨rfl, rfl⟩
  · rw [Path.join_cons hout hnone, Path.isAbsolute_join hout, Path.parts_join hout,
      Text.splitAt_join hnone fun name hname => (h name hname).2,
      foldl_push_dotless fun name hname => (h name hname).1, List.reverse_append,
      List.reverse_reverse, List.reverse_reverse]
    exact ⟨rfl, rfl⟩

/-- Names that are no directory's, if all are empty; else a relative path. -/
theorem join_dotless (h : ∀ name ∈ names, dot ∉ name ∧ Path.slash ∉ name) :
    if names.filter (fun name => !name.isEmpty) = [] then Path.join names = []
    else Path.join names ≠ [] ∧
      Path.clean (Path.join names) =
        Path.ofParts false (names.filter fun name => !name.isEmpty) := by
  have hkept : (names.dropWhile List.isEmpty).filter (fun name => !name.isEmpty) =
      names.filter fun name => !name.isEmpty := by
    induction names with
    | nil => rfl
    | cons name names ih =>
      rw [List.dropWhile_cons]
      split
      · next hempty =>
        rw [ih fun n hn => h n (List.mem_cons_of_mem _ hn), List.filter_cons, hempty]
        rfl
      · rfl
  by_cases hcut : names.dropWhile List.isEmpty = []
  · rw [hcut, List.filter_nil] at hkept
    rw [if_pos hkept.symm, Path.join, hcut]
  · have hsub : ∀ name ∈ names.dropWhile List.isEmpty, dot ∉ name ∧ Path.slash ∉ name :=
      fun name hname => h name ((List.dropWhile_suffix _).subset hname)
    have hjoin : Path.join names =
        Path.clean (Text.join [Path.slash] (names.dropWhile List.isEmpty)) := by
      rw [Path.join]
      split
      · next hnil => exact absurd hnil hcut
      · rfl
    have hparts : Path.parts (Text.join [Path.slash] (names.dropWhile List.isEmpty)) =
        names.filter fun name => !name.isEmpty := by
      rw [Path.parts, Text.splitAt_join hcut fun name hname => (hsub name hname).2,
        foldl_push_dotless fun name hname => (hsub name hname).1, List.append_nil,
        List.reverse_reverse, hkept]
    -- the first name that is not empty does not begin with a slash
    have hfirst := List.head_dropWhile_not List.isEmpty hcut
    obtain ⟨first, rest, hcons⟩ := List.exists_cons_of_ne_nil hcut
    have hrooted : Path.isAbsolute
        (Text.join [Path.slash] (names.dropWhile List.isEmpty)) = false := by
      have hwhole := (hsub first (hcons ▸ List.mem_cons_self)).2
      simp only [hcons, List.head_cons] at hfirst ⊢
      obtain ⟨b, tail, rfl⟩ := List.exists_cons_of_ne_nil
        (List.isEmpty_eq_false_iff.mp hfirst)
      have hb : b ≠ Path.slash := by
        rintro rfl
        exact hwhole List.mem_cons_self
      cases rest with
      | nil =>
        rw [Text.join_singleton]
        simp [Path.isAbsolute, hb]
      | cons next rest =>
        rw [Text.join_cons_cons]
        simp [Path.isAbsolute, hb]
    have hsome : names.filter (fun name => !name.isEmpty) ≠ [] := by
      rw [← hkept, hcons, List.filter_cons]
      simp only [hcons, List.head_cons] at hfirst
      simp [hfirst]
    rw [if_neg hsome, hjoin]
    refine ⟨Path.clean_ne_nil _, ?_⟩
    rw [Path.clean, Path.isAbsolute_clean, Path.parts_clean, hrooted, hparts]

end Directory

/-! ## Files in one directory of the search -/

section Home

variable {directories : List Text} {directory f' : Text}

/-- The first directory that a file lies in. -/
def home? (directories : List Text) (f : Text) : Option Text :=
  directories.find? fun directory => (Path.below? directory f).isSome

example : home? ["/p/pkg", "/p"] "/p/pkg/util.py" = some "/p/pkg" := by decide +kernel

theorem parts_of_home? (h : home? directories f = some directory) :
    Path.parts f = Path.parts directory ++ way directories f := by
  induction directories with
  | nil => cases h
  | cons first directories ih =>
    unfold home? way at *
    rw [List.find?_cons] at h
    rw [List.findSome?_cons]
    cases hbelow : Path.below? first f with
    | some names =>
      rw [hbelow] at h
      obtain rfl : first = directory := Option.some.inj h
      exact (Path.relative_of_below? hbelow).1
    | none =>
      rw [hbelow] at h
      exact ih h

/-- There is nothing below a file. -/
theorem eq_nil_of_parts (hf : IsSource d f) (hf' : IsSource d f')
    (h : Path.parts f' = Path.parts f ++ names) : names = [] := by
  by_contra hne
  obtain ⟨ps, hps, rfl⟩ := hf.plain
  obtain ⟨ps', hps', rfl⟩ := hf'.plain
  rw [Path.parts_ofParts hps, Path.parts_ofParts hps'] at h
  subst h
  obtain ⟨content, hget⟩ := Disk.get?_of_isFile hps hf.isFile
  rw [Disk.get?_of_isFile_append hps' hne hf'.isFile] at hget
  cases hget

theorem eq_of_parts_eq (hf : IsSource d f) (hf' : IsSource d f')
    (h : Path.parts f = Path.parts f') : f = f' := by
  obtain ⟨ps, hps, rfl⟩ := hf.plain
  obtain ⟨ps', hps', rfl⟩ := hf'.plain
  rw [Path.parts_ofParts hps, Path.parts_ofParts hps'] at h
  rw [h]

/-- Names on a way that is kept as it is: there is no dot in a directory, and what makes a directory
a module has a directory before it. -/
structure IsOrdinary (names : List Text) : Prop where
  dotless : ∀ name ∈ names.dropLast, dot ∉ name
  inPackage : names ≠ [packageFile]

theorem folderOf_of_isOrdinary (h : IsOrdinary names) (hall : ∀ name ∈ names, Path.IsName name) :
    folderOf names = names.dropLast := by
  have hcut : ∀ ns : List Text, (∀ name ∈ ns, dot ∉ name ∧ name ≠ []) →
      (ns.flatMap (Text.splitAt dot)).filter (fun name => !name.isEmpty) = ns := by
    intro ns
    induction ns with
    | nil => exact fun _ => rfl
    | cons name ns ih =>
      intro hns
      obtain ⟨hdot, hne⟩ := hns name List.mem_cons_self
      rw [List.flatMap_cons, Text.splitAt_of_not_mem hdot, List.filter_append,
        ih fun n hn => hns n (List.mem_cons_of_mem _ hn)]
      simp [hne]
  rw [folderOf, if_neg h.inPackage]
  exact hcut _ fun name hname =>
    ⟨h.dotless name hname, (hall name (List.dropLast_subset _ hname)).nonempty⟩

end Home

end ModuleSearch

namespace SourceModule

open ModuleSearch

/-- The directories below the output directory that the code of a module is written into. -/
def folder (d : Disk) (s : ModuleSearch) (m : SourceModule) : List Text :=
  if m.isEntry then [] else folderOf (way s.directories (m.file d))

/-- The directory that the code of a module is written into if no output directory is given. -/
def ownDirectory (d : Disk) (s : ModuleSearch) (m : SourceModule) : Text :=
  if m.folder d s = [] then Path.parent m.path else Path.ofParts false (m.folder d s)

/-- A module of a search: it was asked for, or found by an import. -/
def IsCollected (d : Disk) (s : ModuleSearch) (m : SourceModule) : Prop :=
  m.isEntry = true ∨ ∃ f, IsSource d f ∧ m = importedModule d s.directories f

variable {d : Disk} {s : ModuleSearch} {m m' : SourceModule} {out : Text}

theorem folder_importedModule {f : Text} (hf : IsSource d f) :
    (importedModule d s.directories f).folder d s = folderOf (way s.directories f) := by
  rw [folder, file_importedModule d _ hf.plain]
  exact if_neg Bool.false_ne_true

/-- Where the code of a module is written, if an output directory is given and if not. -/
theorem exists_outputDirectory (h : m.IsCollected d s)
    (hcurrent : d.isDirectory d.currentPath = true) (out : Text) : ∃ directory,
      m.outputPath out = Toolchain.outputPath m.path directory ∧
      (out ≠ [] → Path.isAbsolute (outputDirectory m.path directory) = Path.isAbsolute out ∧
        Path.parts (outputDirectory m.path directory) = Path.parts out ++ m.folder d s) ∧
      (out = [] → Path.clean (outputDirectory m.path directory) = m.ownDirectory d s) := by
  rcases h with hentry | ⟨f, hf, rfl⟩
  · have hfolder : m.folder d s = [] := if_pos hentry
    refine ⟨out, by rw [SourceModule.outputPath, if_pos hentry], fun hout => ?_, fun hout => ?_⟩
    · rw [outputDirectory, if_neg (by simpa using hout), hfolder, List.append_nil]
      exact ⟨rfl, rfl⟩
    · rw [ownDirectory, if_pos hfolder, hout]
      change Path.clean (Path.clean _) = Path.clean _
      rw [Path.clean_eq_clean_iff, Path.isAbsolute_clean, Path.parts_clean]
      exact ⟨rfl, rfl⟩
  · have hnames := not_mem_namesAbove s.directories hf
    have hkept := filter_namesAbove s.directories hf hcurrent
    rw [← folder_importedModule hf] at hkept
    refine ⟨_, outputPath_importedModule _ f out, fun hout => ?_, fun hout => ?_⟩
    · have hjoin := parts_join_of_dotless hout hnames
      rw [hkept] at hjoin
      rw [outputDirectory, if_neg (by simpa using Path.join_ne_nil hout _)]
      exact hjoin
    · have hjoin := join_dotless hnames
      rw [hkept] at hjoin
      have hnone : Path.join (out :: namesAbove (importedModule d s.directories f)) =
          Path.join (namesAbove (importedModule d s.directories f)) := by
        rw [hout]
        rfl
      rw [hnone, outputDirectory, ownDirectory]
      split at hjoin
      · next hempty =>
        rw [hjoin, if_pos hempty]
        change Path.clean (Path.clean _) = Path.clean _
        rw [Path.clean_eq_clean_iff, Path.isAbsolute_clean, Path.parts_clean]
        exact ⟨rfl, rfl⟩
      · next hsome => rw [if_neg (by simpa using hjoin.1), if_neg hsome, hjoin.2]

/-- With an output directory, two modules have one output path exactly if they have the same
directories below it and the same name there. -/
theorem outputPath_eq_iff_of_folder (h : m.IsCollected d s) (h' : m'.IsCollected d s)
    (hcurrent : d.isDirectory d.currentPath = true) (hout : out ≠ []) :
    m.outputPath out = m'.outputPath out ↔ m.folder d s = m'.folder d s ∧ m.stem = m'.stem := by
  obtain ⟨directory, hpath, hdirectory, -⟩ := exists_outputDirectory h hcurrent out
  obtain ⟨directory', hpath', hdirectory', -⟩ := exists_outputDirectory h' hcurrent out
  obtain ⟨hrooted, hparts⟩ := hdirectory hout
  obtain ⟨hrooted', hparts'⟩ := hdirectory' hout
  rw [hpath, hpath', outputPath_inj, Path.clean_eq_clean_iff, hrooted, hrooted', hparts, hparts',
    List.append_cancel_left_eq]
  simp

theorem outputPath_eq_iff_of_ownDirectory (h : m.IsCollected d s) (h' : m'.IsCollected d s)
    (hcurrent : d.isDirectory d.currentPath = true) :
    m.outputPath [] = m'.outputPath [] ↔
      m.ownDirectory d s = m'.ownDirectory d s ∧ m.stem = m'.stem := by
  obtain ⟨directory, hpath, -, hdirectory⟩ := exists_outputDirectory h hcurrent []
  obtain ⟨directory', hpath', -, hdirectory'⟩ := exists_outputDirectory h' hcurrent []
  rw [hpath, hpath', outputPath_inj, hdirectory rfl, hdirectory' rfl]

theorem stem_importedModule {f stem : Text} {above directories : List Text} (hf : IsSource d f)
    (hcurrent : d.isDirectory d.currentPath = true)
    (hparts : Path.parts f = above ++ [stem ++ sourceExtension]) :
    (importedModule d directories f).stem = stem := by
  have hlast : Path.IsName (stem ++ sourceExtension) :=
    Path.isName_of_mem_parts hf.plain.rooted _ (by rw [hparts]; simp)
  have hwhole : Path.slash ∉ stem := fun h => hlast.whole (List.mem_append_left _ h)
  rw [SourceModule.stem, importedModule, base_displayPath hf hcurrent hparts,
    Path.withoutExtension_append hwhole, List.filter_eq_self]
  intro b hb
  rw [decide_eq_true_iff]
  rintro rfl
  exact hwhole hb

/-- Files that lie in one directory of the search are told apart. -/
theorem outputPath_ne_of_home? {f f' directory : Text} (hf : IsSource d f) (hf' : IsSource d f')
    (hne : f ≠ f') (hcurrent : d.isDirectory d.currentPath = true)
    (hhome : home? s.directories f = some directory)
    (hhome' : home? s.directories f' = some directory)
    (hway : IsOrdinary (way s.directories f)) (hway' : IsOrdinary (way s.directories f'))
    (hout : out ≠ []) :
    (importedModule d s.directories f).outputPath out ≠
      (importedModule d s.directories f').outputPath out := by
  intro heq
  rw [outputPath_eq_iff_of_folder (s := s) (.inr ⟨f, hf, rfl⟩) (.inr ⟨f', hf', rfl⟩) hcurrent hout,
    folder_importedModule hf, folder_importedModule hf'] at heq
  obtain ⟨hfolder, hstem⟩ := heq
  have hparts := parts_of_home? hhome
  have hparts' := parts_of_home? hhome'
  have hall := Path.isName_of_mem_parts hf.plain.rooted
  have hall' := Path.isName_of_mem_parts hf'.plain.rooted
  rw [folderOf_of_isOrdinary hway fun n hn => hall n (hparts ▸ List.mem_append_right _ hn),
    folderOf_of_isOrdinary hway' fun n hn => hall' n (hparts' ▸ List.mem_append_right _ hn)]
    at hfolder
  apply hne
  -- neither file is the directory, as there is nothing below a file
  by_cases hnone : way s.directories f = []
  · rw [hnone, List.append_nil] at hparts
    rw [← hparts] at hparts'
    have hnone' := eq_nil_of_parts hf hf' hparts'
    rw [hnone', List.append_nil] at hparts'
    exact eq_of_parts_eq hf hf' hparts'.symm
  by_cases hnone' : way s.directories f' = []
  · rw [hnone', List.append_nil] at hparts'
    rw [← hparts'] at hparts
    exact absurd (eq_nil_of_parts hf' hf hparts) hnone
  obtain ⟨above, stem, hnamed, hdot⟩ := hf.named
  obtain ⟨above', stem', hnamed', hdot'⟩ := hf'.named
  rw [stem_importedModule hf hcurrent hnamed, stem_importedModule hf' hcurrent hnamed'] at hstem
  have hlast : (way s.directories f).getLast hnone = stem ++ sourceExtension := by
    rw [← List.dropLast_append_getLast hnone, ← List.append_assoc, hnamed] at hparts
    exact (List.cons.inj (List.append_inj' hparts rfl).2).1.symm
  have hlast' : (way s.directories f').getLast hnone' = stem ++ sourceExtension := by
    rw [← List.dropLast_append_getLast hnone', ← List.append_assoc, hnamed', ← hstem] at hparts'
    exact (List.cons.inj (List.append_inj' hparts' rfl).2).1.symm
  have hsame : way s.directories f = way s.directories f' := by
    rw [← List.dropLast_append_getLast hnone, ← List.dropLast_append_getLast hnone', hfolder, hlast,
      hlast']
  apply eq_of_parts_eq hf hf'
  rw [hparts, hparts', hsame]

end SourceModule

namespace ModuleSearch

theorem isCollected_of_mem (d : Disk) (root searchPath : Text) (paths : List Text) :
    ∀ m ∈ ((start d root searchPath).collect d paths).1,
      m.IsCollected d ((start d root searchPath).collect d paths).2 := by
  intro m hm
  obtain ⟨es, -, hasked, h⟩ := exists_progress d root searchPath paths
  obtain ⟨imported, hparts, hsources⟩ := h.parts
  rw [List.append_nil] at hparts
  rw [hparts] at hm
  rcases List.mem_append.mp hm with hm | hm
  · exact .inl (hasked m hm).isEntry
  · exact .inr (hsources m hm)

/-- **Which modules have one output path.** If an output directory is given, two modules that are
collected have one output path exactly if their code goes into the same directories below it, under
the same name; if none is given, exactly if it goes into the same directory under the same name.
So with an output directory, no two modules that were found by imports in one directory of the
search have one output path, unless there is a dot in the name of a directory on the way, or nothing
on the way to what makes a directory a module. -/
theorem outputPath_eq_iff (d : Disk) (hcurrent : d.isDirectory d.currentPath = true)
    (root searchPath : Text) (paths : List Text) :
    let (ms, s) := (start d root searchPath).collect d paths
    (∀ m ∈ ms, ∀ m' ∈ ms, ∀ out ≠ [], m.outputPath out = m'.outputPath out ↔
      m.folder d s = m'.folder d s ∧ m.stem = m'.stem) ∧
    (∀ m ∈ ms, ∀ m' ∈ ms, m.outputPath [] = m'.outputPath [] ↔
      m.ownDirectory d s = m'.ownDirectory d s ∧ m.stem = m'.stem) ∧
    (∀ m ∈ ms, ∀ m' ∈ ms, m ≠ m' → m.isEntry = false → m'.isEntry = false →
      ∀ directory, home? s.directories (m.file d) = some directory →
      home? s.directories (m'.file d) = some directory →
      IsOrdinary (way s.directories (m.file d)) → IsOrdinary (way s.directories (m'.file d)) →
      ∀ out ≠ [], m.outputPath out ≠ m'.outputPath out) := by
  have hall := isCollected_of_mem d root searchPath paths
  generalize (start d root searchPath).collect d paths = found at hall ⊢
  obtain ⟨ms, s⟩ := found
  refine ⟨?_, ?_, ?_⟩
  · intro m hm m' hm' out hout
    exact SourceModule.outputPath_eq_iff_of_folder (hall m hm) (hall m' hm') hcurrent hout
  · intro m hm m' hm'
    exact SourceModule.outputPath_eq_iff_of_ownDirectory (hall m hm) (hall m' hm') hcurrent
  · intro m hm m' hm' hne hfound hfound' directory hhome hhome' hway hway' out hout
    rcases hall m hm with hentry | ⟨f, hf, rfl⟩
    · rw [hfound] at hentry
      cases hentry
    rcases hall m' hm' with hentry | ⟨f', hf', rfl⟩
    · rw [hfound'] at hentry
      cases hentry
    rw [file_importedModule d _ hf.plain] at hhome hway
    rw [file_importedModule d _ hf'.plain] at hhome' hway'
    exact SourceModule.outputPath_ne_of_home? hf hf' (fun h => hne (h ▸ rfl)) hcurrent hhome hhome'
      hway hway' hout

/-- A file that needs a module in a package. -/
def onePackage : Disk where
  entries := [(["p"], .directory), (["p", "main.py"], .file "import pkg.util\n"),
    (["p", "pkg"], .directory), (["p", "pkg", "__init__.py"], .file ""),
    (["p", "pkg", "util.py"], .file "")]
  current := ["p"]

/-- Two directories with files of one name. -/
def twoDirectories : Disk where
  entries := [(["p"], .directory), (["p", "a"], .directory), (["p", "a", "m.py"], .file ""),
    (["p", "b"], .directory), (["p", "b", "m.py"], .file "")]
  current := ["p"]

/-- A package and a module in it have different output paths. Two files of one name that were asked
for have one if there is an output directory, and different ones if there is none. -/
theorem outputPath_eq_iff_onePackage :
    (let (ms, s) := (start onePackage "." "").collect onePackage ["main.py"]
    let package : SourceModule := { name := "pkg", path := "pkg/__init__.py", isEntry := false }
    let util : SourceModule := { name := "pkg.util", path := "pkg/util.py", isEntry := false }
    onePackage.isDirectory onePackage.currentPath = true ∧
      ms = [{ path := "main.py" }, package, util] ∧
      home? s.directories (package.file onePackage) = some "/p" ∧
      home? s.directories (util.file onePackage) = some "/p" ∧
      IsOrdinary (way s.directories (package.file onePackage)) ∧
      IsOrdinary (way s.directories (util.file onePackage)) ∧
      package.outputPath "out" ≠ util.outputPath "out") ∧
    (let (ms, s) := (start twoDirectories "." "").collect twoDirectories ["a/m.py", "b/m.py"]
    let m : SourceModule := { path := "a/m.py" }
    let m' : SourceModule := { path := "b/m.py" }
    ms = [m, m'] ∧
      (m.folder twoDirectories s = m'.folder twoDirectories s ∧ m.stem = m'.stem) ∧
      m.outputPath "out" = m'.outputPath "out" ∧
      m.ownDirectory twoDirectories s ≠ m'.ownDirectory twoDirectories s ∧
      m.outputPath [] ≠ m'.outputPath []) := by
  refine ⟨?_, ?_⟩
  swap
  · have hcurrent : twoDirectories.isDirectory twoDirectories.currentPath = true := by
      decide +kernel
    have hms : ((start twoDirectories "." "").collect twoDirectories ["a/m.py", "b/m.py"]).1 =
        [{ path := "a/m.py" }, { path := "b/m.py" }] := by decide +kernel
    have hall := outputPath_eq_iff twoDirectories hcurrent "." "" ["a/m.py", "b/m.py"]
    generalize (start twoDirectories "." "").collect twoDirectories ["a/m.py", "b/m.py"] = found
      at hms hall ⊢
    obtain ⟨ms, s⟩ := found
    dsimp only at hms hall ⊢
    obtain ⟨hgiven, hnone, -⟩ := hall
    rw [hms] at hgiven hnone
    have hmem' : ({ path := "b/m.py" } : SourceModule) ∈
        [({ path := "a/m.py" } : SourceModule), { path := "b/m.py" }] :=
      List.mem_cons_of_mem _ List.mem_cons_self
    -- both go directly into the output directory, but not into one directory of their own
    have hplace : (({ path := "a/m.py" } : SourceModule).folder twoDirectories s =
        ({ path := "b/m.py" } : SourceModule).folder twoDirectories s) ∧
        ({ path := "a/m.py" } : SourceModule).stem = ({ path := "b/m.py" } : SourceModule).stem :=
      ⟨rfl, by decide +kernel⟩
    have hown : ({ path := "a/m.py" } : SourceModule).ownDirectory twoDirectories s ≠
        ({ path := "b/m.py" } : SourceModule).ownDirectory twoDirectories s := by
      have hparents : Path.parent "a/m.py" ≠ Path.parent "b/m.py" := by decide +kernel
      exact hparents
    exact ⟨hms, hplace,
      (hgiven _ List.mem_cons_self _ hmem' _ (by decide +kernel)).mpr hplace, hown,
      fun heq => hown ((hnone _ List.mem_cons_self _ hmem').mp heq).1⟩
  have hcurrent : onePackage.isDirectory onePackage.currentPath = true := by decide +kernel
  have hms : ((start onePackage "." "").collect onePackage ["main.py"]).1 =
      [{ path := "main.py" }, { name := "pkg", path := "pkg/__init__.py", isEntry := false },
        { name := "pkg.util", path := "pkg/util.py", isEntry := false }] := by
    decide +kernel
  have hdirectories : ((start onePackage "." "").collect onePackage ["main.py"]).2.directories =
      ["/p", "/p"] := by
    decide +kernel
  have hfile : SourceModule.file onePackage
      { name := "pkg", path := "pkg/__init__.py", isEntry := false } = "/p/pkg/__init__.py" := by
    decide +kernel
  have hfile' : SourceModule.file onePackage
      { name := "pkg.util", path := "pkg/util.py", isEntry := false } = "/p/pkg/util.py" := by
    decide +kernel
  have hhome : home? ["/p", "/p"] "/p/pkg/__init__.py" = some "/p" := by decide +kernel
  have hhome' : home? ["/p", "/p"] "/p/pkg/util.py" = some "/p" := by decide +kernel
  have hway : IsOrdinary (way ["/p", "/p"] "/p/pkg/__init__.py") :=
    ⟨by decide +kernel, by decide +kernel⟩
  have hway' : IsOrdinary (way ["/p", "/p"] "/p/pkg/util.py") :=
    ⟨by decide +kernel, by decide +kernel⟩
  have hall := outputPath_eq_iff onePackage hcurrent "." "" ["main.py"]
  generalize (start onePackage "." "").collect onePackage ["main.py"] = found at *
  obtain ⟨ms, s⟩ := found
  dsimp only at hms hdirectories hall ⊢
  have hdifferent := hall.2.2
  rw [hms] at hdifferent ⊢
  rw [hdirectories] at hdifferent ⊢
  have hne := hdifferent _ (List.mem_cons_of_mem _ List.mem_cons_self) _
    (List.mem_cons_of_mem _ (List.mem_cons_of_mem _ List.mem_cons_self)) (by decide +kernel) rfl rfl
  rw [hfile, hfile'] at hne ⊢
  exact ⟨hcurrent, rfl, hhome, hhome', hway, hway',
    hne _ hhome hhome' hway hway' _ (by decide +kernel)⟩

/-- Two files of one name that were asked for have one output path. -/
theorem not_outputPath_injective_twoDirectories :
    ¬∀ m ∈ ((start twoDirectories "." "").collect twoDirectories ["a/m.py", "b/m.py"]).1,
      ∀ m' ∈ ((start twoDirectories "." "").collect twoDirectories ["a/m.py", "b/m.py"]).1,
        m ≠ m' → m.outputPath "out" ≠ m'.outputPath "out" := by
  intro h
  have hms : ((start twoDirectories "." "").collect twoDirectories ["a/m.py", "b/m.py"]).1 =
      [{ path := "a/m.py" }, { path := "b/m.py" }] := by decide +kernel
  rw [hms] at h
  exact h _ List.mem_cons_self _ (List.mem_cons_of_mem _ List.mem_cons_self) (by decide +kernel)
    (by decide +kernel)

end ModuleSearch

end Toolchain

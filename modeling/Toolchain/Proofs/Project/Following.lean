import Mathlib.Data.List.Induction
import Toolchain.Proofs.Project.Lookup

/-!
# The modules that files need

A search begins with the files that were asked for and goes on with those that they import. Each
file is one module, however often and under whatever names it is found. When the search ends,
nothing that a module imports is left out, and nothing is there that no chain of imports leads to;
the modules come in the order in which a search by breadth finds them. It does end: every file that
an import leads to is one of the finitely many on the disk.

## Main definitions

* `ModuleSearch.Reached`: how many imports away from the files that were asked for a module is
* `ModuleSearch.Progress`: what holds while imports are followed

## Main results

* `ModuleSearch.Progress.step`: following the imports of one module
* `ModuleSearch.Progress.followAll`: following all of them; the bound is never reached
* `ModuleSearch.collect_breadthFirst`: **what is collected, and in which order**
-/

namespace Toolchain

/-! ## The first of equal values -/

section FirstOccurrences

variable {α : Type} [BEq α] [LawfulBEq α]

theorem eraseDups_concat (xs : List α) (y : α) :
    (xs ++ [y]).eraseDups = if y ∈ xs then xs.eraseDups else xs.eraseDups ++ [y] := by
  rw [List.eraseDups_append]
  split
  · next h => simp [List.removeAll, h]
  · next h => simp [List.removeAll, h, List.eraseDups_cons]

theorem nodup_eraseDups (xs : List α) : xs.eraseDups.Nodup := by
  induction xs using List.reverseRecOn with
  | nil => exact List.nodup_nil
  | append_singleton xs y ih =>
    rw [eraseDups_concat]
    split
    · exact ih
    · next h =>
      rw [List.nodup_append]
      refine ⟨ih, List.nodup_singleton y, ?_⟩
      rintro x hx z hz rfl
      rw [List.mem_singleton] at hz
      exact h (hz ▸ List.mem_eraseDups.mp hx)

theorem eraseDups_mono (xs ys : List α) : xs.eraseDups <+: (xs ++ ys).eraseDups := by
  rw [List.eraseDups_append]
  exact List.prefix_append _ _

theorem length_eraseDups_le (xs : List α) : xs.eraseDups.length ≤ xs.length := by
  have hsub : xs.eraseDups ⊆ xs := fun _ h => List.mem_eraseDups.mp h
  exact (List.subperm_of_subset (nodup_eraseDups xs) hsub).length_le

end FirstOccurrences

namespace ModuleSearch

variable {d : Disk} {s : ModuleSearch} {path f : Text} {i : ImportStatement}

/-! ## Adding modules -/

/-- The module of a file that an import leads to, in a search in the given directories. -/
def importedModule (d : Disk) (directories : List Text) (f : Text) : SourceModule :=
  { name := moduleName { directories } f, path := displayPath d f, isEntry := false }

theorem file_importedModule (d : Disk) (directories : List Text) (hf : Path.IsPlain f) :
    (importedModule d directories f).file d = f :=
  absolute_displayPath d hf

/-- Adds the module of a file, unless the file was found before. -/
def adopt (d : Disk) (found : List SourceModule × ModuleSearch) (path : Text) :
    List SourceModule × ModuleSearch :=
  if found.2.isFound d path then found
  else (found.1 ++ [importedModule d found.2.directories path], found.2.note d path)

/-- The modules of a search are those of the given files, each one where it is first in the list;
`own` are the directories of the search. -/
structure Tracks (d : Disk) (own : List Text) (fs : List Text) (ms : List SourceModule)
    (s : ModuleSearch) : Prop where
  directories : s.directories = own
  files : ms.map (SourceModule.file d) = fs.eraseDups
  found : ∀ f, f ∈ s.found ↔ f ∈ fs

theorem Tracks.isFound_iff {own fs : List Text} {ms : List SourceModule}
    (h : Tracks d own fs ms s) (path : Text) :
    s.isFound d path = true ↔ Path.absolute d.currentPath path ∈ fs := by
  rw [isFound, List.contains_iff_mem, h.found]

theorem Tracks.keep {own fs : List Text} {ms : List SourceModule} (h : Tracks d own fs ms s)
    (hf : f ∈ fs) : Tracks d own (fs ++ [f]) ms s where
  directories := h.directories
  files := by rw [h.files, eraseDups_concat, if_pos hf]
  found := by
    intro g
    rw [h.found, List.mem_append, List.mem_singleton]
    constructor
    · exact .inl
    · rintro (hg | rfl)
      · exact hg
      · exact hf

theorem Tracks.note {own fs : List Text} {ms : List SourceModule} (h : Tracks d own fs ms s)
    {m : SourceModule} (hpath : Path.absolute d.currentPath path = m.file d)
    (hnew : m.file d ∉ fs) : Tracks d own (fs ++ [m.file d]) (ms ++ [m]) (s.note d path) where
  directories := h.directories
  files := by rw [List.map_append, h.files, eraseDups_concat, if_neg hnew]; rfl
  found := by
    intro g
    rw [ModuleSearch.note, List.mem_cons, h.found, hpath, List.mem_append, List.mem_singleton,
      or_comm]

/-- From one stage of a search to the next, the given files were looked at: the modules `before`
them stay, those that are added belong to these files. -/
structure Adopts (d : Disk) (own : List Text) (before : List SourceModule) (fs more : List Text)
    (stage next : List SourceModule × ModuleSearch) : Prop where
  tracks : Tracks d own (fs ++ more) (before ++ next.1) next.2
  added : ∃ new, next.1 = stage.1 ++ new ∧ ∀ m ∈ new, ∃ f ∈ more, m = importedModule d own f

variable {own fs more : List Text} {before : List SourceModule}
  {stage next : List SourceModule × ModuleSearch}

theorem Adopts.refl (h : Tracks d own fs (before ++ stage.1) stage.2) :
    Adopts d own before fs [] stage stage where
  tracks := by
    rw [List.append_nil]
    exact h
  added := ⟨[], (List.append_nil _).symm, nofun⟩

theorem Adopts.trans {others : List Text} {last : List SourceModule × ModuleSearch}
    (h : Adopts d own before fs more stage next)
    (h' : Adopts d own before (fs ++ more) others next last) :
    Adopts d own before fs (more ++ others) stage last where
  tracks := by
    rw [← List.append_assoc]
    exact h'.tracks
  added := by
    obtain ⟨new, hnew, hmore⟩ := h.added
    obtain ⟨new', hnew', hothers⟩ := h'.added
    refine ⟨new ++ new', by rw [hnew', hnew, List.append_assoc], fun m hm => ?_⟩
    rcases List.mem_append.mp hm with hm | hm
    · obtain ⟨f, hf, hm⟩ := hmore m hm
      exact ⟨f, List.mem_append_left _ hf, hm⟩
    · obtain ⟨f, hf, hm⟩ := hothers m hm
      exact ⟨f, List.mem_append_right _ hf, hm⟩

theorem adopts_adopt (h : Tracks d own fs (before ++ stage.1) stage.2) (hf : IsSource d f) :
    Adopts d own before fs [f] stage (adopt d stage f) := by
  have hsame : Path.absolute d.currentPath f = f := hf.plain.absolute_eq _
  unfold adopt
  split
  · next hfound =>
    rw [h.isFound_iff, hsame] at hfound
    exact ⟨h.keep hfound, [], (List.append_nil _).symm, nofun⟩
  · next hfound =>
    rw [h.isFound_iff, hsame] at hfound
    -- what is shown of the file is the path of its module
    have hfile := file_importedModule d stage.2.directories hf.plain
    refine ⟨?_, [importedModule d stage.2.directories f], rfl, ?_⟩
    · rw [← List.append_assoc]
      have hnote := h.note (hsame.trans hfile.symm) (hfile.symm ▸ hfound)
      rwa [hfile] at hnote
    · intro m hm
      rw [List.mem_singleton.mp hm, h.directories]
      exact ⟨f, List.mem_singleton_self f, rfl⟩

theorem adopts_foldl (h : Tracks d own fs (before ++ stage.1) stage.2)
    (hmore : ∀ f ∈ more, IsSource d f) :
    Adopts d own before fs more stage (more.foldl (adopt d) stage) := by
  induction more generalizing fs stage with
  | nil => exact .refl h
  | cons f more ih =>
    have hfirst := adopts_adopt h (hmore f List.mem_cons_self)
    exact hfirst.trans (ih hfirst.tracks fun g hg => hmore g (List.mem_cons_of_mem _ hg))

/-- Following one import of a file. -/
theorem adopts_follow {s₀ : ModuleSearch} (hrooted : IsRooted s₀.directories)
    (h : Tracks d s₀.directories fs (before ++ stage.1) stage.2) (path : Text)
    (i : ImportStatement) :
    Adopts d s₀.directories before fs (s₀.resolve d path i).1 stage (follow d path stage i) := by
  have hsame : (stage.2.resolve d path i).1 = (s₀.resolve d path i).1 :=
    resolve_congr h.directories path i
  obtain ⟨logs, hlogs⟩ := resolve_eq d stage.2 path i
  have hstate : (stage.2.resolve d path i).2 = { stage.2 with logs } := by rw [hlogs]
  have hfollow : follow d path stage i =
      (s₀.resolve d path i).1.foldl (adopt d) (stage.1, { stage.2 with logs }) := by
    rw [← hsame, ← hstate]
    rfl
  rw [hfollow]
  have hfrom : Tracks d s₀.directories fs (before ++ (stage.1, { stage.2 with logs }).1)
      (stage.1, { stage.2 with logs }).2 := ⟨h.directories, h.files, h.found⟩
  have hsources : ∀ f ∈ (s₀.resolve d path i).1, IsSource d f :=
    fun f hf => isSource_of_mem_resolve hrooted hf
  have hto := adopts_foldl hfrom hsources
  exact ⟨hto.tracks, hto.added⟩

/-- Following all imports of a file. -/
theorem adopts_targets {s₀ : ModuleSearch} (hrooted : IsRooted s₀.directories)
    (h : Tracks d s₀.directories fs (before ++ stage.1) stage.2) (path : Text) :
    Adopts d s₀.directories before fs (targets d s₀ path) stage
      ((importsOf d path).foldl (follow d path) stage) := by
  unfold targets
  induction importsOf d path generalizing fs stage with
  | nil => exact .refl h
  | cons i is ih =>
    have hfirst := adopts_follow hrooted h path i
    exact hfirst.trans (ih hfirst.tracks)

/-! ## The files that were asked for -/

/-- The files that are asked for, in the shortest form. -/
def askedFor (d : Disk) (paths : List Text) : List Text := paths.map (Path.absolute d.currentPath)

/-- A module that was asked for. -/
structure IsAsked (paths : List Text) (m : SourceModule) : Prop where
  isEntry : m.isEntry = true
  path : m.path ∈ paths

theorem tracks_entries (h : s.found = []) (paths : List Text) :
    Tracks d s.directories (askedFor d paths) (s.entries d paths).1 (s.entries d paths).2 ∧
      ∀ m ∈ (s.entries d paths).1, IsAsked paths m := by
  suffices hall : ∀ (more fs : List Text) (stage : List SourceModule × ModuleSearch),
      Tracks d s.directories fs stage.1 stage.2 → (∀ m ∈ stage.1, IsAsked paths m) →
      more ⊆ paths →
      let last := more.foldl (fun stage path =>
        if ModuleSearch.isFound d stage.2 path then stage
        else (stage.1 ++ [{ path }], ModuleSearch.note d stage.2 path)) stage
      Tracks d s.directories (fs ++ askedFor d more) last.1 last.2 ∧
        ∀ m ∈ last.1, IsAsked paths m by
    have hnone : Tracks d s.directories [] [] s := ⟨rfl, rfl, by simp [h]⟩
    exact hall paths [] ([], s) hnone (List.forall_mem_nil _) (List.Subset.refl paths)
  intro more
  induction more with
  | nil =>
    intro fs stage htracks hasked _
    rw [askedFor, List.map_nil, List.append_nil]
    exact ⟨htracks, hasked⟩
  | cons path more ih =>
    intro fs stage htracks hasked hsub
    have hmore : more ⊆ paths := fun p hp => hsub (List.mem_cons_of_mem _ hp)
    have hfiles : fs ++ askedFor d (path :: more) =
        (fs ++ [Path.absolute d.currentPath path]) ++ askedFor d more := by
      rw [List.append_assoc]
      rfl
    rw [hfiles]
    dsimp only [List.foldl_cons]
    split
    · next hfound =>
      exact ih _ stage (htracks.keep ((htracks.isFound_iff path).mp hfound)) hasked hmore
    · next hfound =>
      have hnew := mt (htracks.isFound_iff path).mpr hfound
      let asked : SourceModule := { path }
      refine ih _ (stage.1 ++ [asked], _) (htracks.note (m := asked) rfl hnew) ?_ hmore
      exact List.forall_mem_append.mpr
        ⟨hasked, List.forall_mem_singleton.mpr ⟨rfl, hsub List.mem_cons_self⟩⟩

/-! ## Following imports -/

/-- A module of a list is so many imports away from one that was asked for. -/
inductive Reached (d : Disk) (s : ModuleSearch) (ms : List SourceModule) : Nat → SourceModule → Prop
  | asked {m : SourceModule} (hm : m ∈ ms) (h : m.isEntry = true) : Reached d s ms 0 m
  | imported {n : Nat} {m m' : SourceModule} (h : Reached d s ms n m) (hm' : m' ∈ ms)
      (himports : m.Imports d s (m'.file d)) : Reached d s ms (n + 1) m'

theorem Reached.mem {ms : List SourceModule} {n : Nat} {m : SourceModule}
    (h : Reached d s ms n m) : m ∈ ms := by
  cases h with
  | asked hm _ => exact hm
  | imported _ hm' _ => exact hm'

theorem Reached.mono {ms ms' : List SourceModule} {n : Nat} {m : SourceModule}
    (h : Reached d s ms n m) (hsub : ms ⊆ ms') : Reached d s ms' n m := by
  induction h with
  | asked hm h => exact .asked (hsub hm) h
  | imported _ hm' himports ih => exact .imported ih (hsub hm') himports

/-- What holds while imports are followed. The modules so far are those whose imports were followed
(`done`) and those that wait for it (`queue`). -/
structure Progress (d : Disk) (s₀ : ModuleSearch) (paths : List Text) (es : List SourceModule)
    (done : List SourceModule) (stage : List SourceModule × ModuleSearch) : Prop where
  tracks : Tracks d s₀.directories (askedFor d paths ++ done.flatMap fun m => targets d s₀ m.path)
    (done ++ stage.1) stage.2
  /-- The modules that were asked for come first. -/
  parts : ∃ imported, done ++ stage.1 = es ++ imported ∧
    ∀ m ∈ imported, ∃ f, IsSource d f ∧ m = importedModule d s₀.directories f
  reached : ∀ m ∈ done ++ stage.1, ∃ n, Reached d s₀ (done ++ stage.1) n m

namespace Progress

variable {s₀ : ModuleSearch} {paths : List Text} {es done : List SourceModule}

/-- Following the imports of the first module that waits. -/
theorem step {m : SourceModule} {queue : List SourceModule} (hrooted : IsRooted s₀.directories)
    (h : Progress d s₀ paths es done (m :: queue, s)) :
    Progress d s₀ paths es (done ++ [m])
      ((importsOf d m.path).foldl (follow d m.path) (queue, s)) := by
  have hqueue : done ++ m :: queue = (done ++ [m]) ++ queue := by simp
  have htracks : Tracks d s₀.directories
      (askedFor d paths ++ done.flatMap fun m => targets d s₀ m.path)
        ((done ++ [m]) ++ queue) s := by
    rw [← hqueue]
    exact h.tracks
  have hadopts : Adopts d s₀.directories (done ++ [m]) _ (targets d s₀ m.path) (queue, s) _ :=
    adopts_targets hrooted htracks m.path
  generalize (importsOf d m.path).foldl (follow d m.path) (queue, s) = next at hadopts ⊢
  obtain ⟨new, hnew, hadded⟩ := hadopts.added
  have hmodules : (done ++ [m]) ++ next.1 = (done ++ m :: queue) ++ new := by
    rw [hnew, hqueue]
    simp
  constructor
  · have htargets : (done ++ [m]).flatMap (fun m => targets d s₀ m.path) =
        (done.flatMap fun m => targets d s₀ m.path) ++ targets d s₀ m.path := by simp
    rw [htargets, ← List.append_assoc]
    exact hadopts.tracks
  · obtain ⟨imported, himported, hsources⟩ := h.parts
    refine ⟨imported ++ new, ?_, ?_⟩
    · rw [hmodules, himported, List.append_assoc]
    · intro m' hm'
      rcases List.mem_append.mp hm' with hm' | hm'
      · exact hsources m' hm'
      · obtain ⟨f, hf, hm'⟩ := hadded m' hm'
        obtain ⟨i, -, hi⟩ := List.mem_flatMap.mp hf
        exact ⟨f, isSource_of_mem_resolve hrooted hi, hm'⟩
  · intro m' hm'
    rw [hmodules] at hm' ⊢
    have hsub : done ++ m :: queue ⊆ (done ++ m :: queue) ++ new := List.subset_append_left _ _
    rcases List.mem_append.mp hm' with hold | hold
    · obtain ⟨n, hn⟩ := h.reached m' hold
      exact ⟨n, hn.mono hsub⟩
    · -- a new module is imported by the one that is followed
      obtain ⟨n, hn⟩ := h.reached m (List.mem_append_right _ List.mem_cons_self)
      obtain ⟨f, hf, rfl⟩ := hadded m' hold
      obtain ⟨i, -, hi⟩ := List.mem_flatMap.mp hf
      refine ⟨n + 1, .imported (hn.mono hsub) hm' (mem_targets_iff.mp ?_)⟩
      rw [file_importedModule d _ (isSource_of_mem_resolve hrooted hi).plain]
      exact hf

/-- The modules are never more than the files that were asked for and the files on the disk. -/
theorem length_le {stage : List SourceModule × ModuleSearch}
    (h : Progress d s₀ paths es done stage) (hes : es.length ≤ paths.length) :
    (done ++ stage.1).length ≤ paths.length + d.entries.length := by
  obtain ⟨imported, hparts, hsources⟩ := h.parts
  have hnodup : ((done ++ stage.1).map (SourceModule.file d)).Nodup := by
    rw [h.tracks.files]
    exact nodup_eraseDups _
  rw [hparts, List.map_append, List.nodup_append] at hnodup
  have hle := length_le_of_isSource hnodup.2.1 fun f hf => by
    obtain ⟨m, hm, rfl⟩ := List.mem_map.mp hf
    obtain ⟨g, hg, rfl⟩ := hsources m hm
    rw [file_importedModule d _ hg.plain]
    exact hg
  rw [List.length_map] at hle
  rw [hparts, List.length_append]
  omega

/-- Following all imports: no module is left waiting. -/
theorem followAll {queue : List SourceModule} (hrooted : IsRooted s₀.directories)
    (hes : es.length ≤ paths.length) {bound : Nat}
    (hbound : paths.length + d.entries.length ≤ done.length + bound)
    (h : Progress d s₀ paths es done (queue, s)) :
    Progress d s₀ paths es (done ++ (followAll d bound queue s).1)
      ([], (followAll d bound queue s).2) := by
  induction bound generalizing done queue s with
  | zero =>
    -- all places for modules are taken, so none waits
    have hle := h.length_le hes
    rw [List.length_append] at hle
    obtain rfl : queue = [] := List.eq_nil_of_length_eq_zero (by dsimp only at hle; omega)
    rw [ModuleSearch.followAll, List.append_nil]
    exact h
  | succ bound ih =>
    cases queue with
    | nil =>
      rw [ModuleSearch.followAll, List.append_nil]
      · exact h
      · exact nofun
    | cons m queue =>
      have hstep := h.step hrooted
      have hrest := ih (by rw [List.length_append, List.length_singleton]; omega) hstep
      rw [List.append_assoc] at hrest
      exact hrest

/-! ### The order -/

section Order

variable {ms : List SourceModule}

/-- Different modules have different files. -/
theorem nodup_files (h : Progress d s₀ paths es ms ([], s)) :
    (ms.map (SourceModule.file d)).Nodup := by
  have hfiles := h.tracks.files
  rw [List.append_nil] at hfiles
  rw [hfiles]
  exact nodup_eraseDups _

/-- Files that the search starts with are those of its first modules. -/
theorem mem_take_iff (h : Progress d s₀ paths es ms ([], s)) {xs ys : List Text}
    (hxs : askedFor d paths ++ (ms.flatMap fun m => targets d s₀ m.path) = xs ++ ys)
    {m : SourceModule} (hm : m ∈ ms) : m ∈ ms.take xs.eraseDups.length ↔ m.file d ∈ xs := by
  have hfiles := h.tracks.files
  rw [List.append_nil, hxs] at hfiles
  have htake : (ms.take xs.eraseDups.length).map (SourceModule.file d) = xs.eraseDups := by
    rw [List.map_take, hfiles]
    exact (List.prefix_iff_eq_take.mp (eraseDups_mono xs ys)).symm
  constructor
  · intro hmem
    have hfile := List.mem_map_of_mem (f := SourceModule.file d) hmem
    rw [htake] at hfile
    exact List.mem_eraseDups.mp hfile
  · intro hfile
    rw [← List.mem_eraseDups, ← htake] at hfile
    obtain ⟨m', hm', hsame⟩ := List.mem_map.mp hfile
    have hinj := List.inj_on_of_nodup_map h.nodup_files (List.mem_of_mem_take hm') hm hsame
    exact hinj ▸ hm'

theorem file_mem_askedFor_iff (h : Progress d s₀ paths es ms ([], s))
    (hes : es.map (SourceModule.file d) = (askedFor d paths).eraseDups)
    (hasked : ∀ m ∈ es, IsAsked paths m) {m : SourceModule} (hm : m ∈ ms) :
    m.file d ∈ askedFor d paths ↔ m.isEntry = true := by
  obtain ⟨imported, hparts, hsources⟩ := h.parts
  rw [List.append_nil] at hparts
  rw [← List.mem_eraseDups, ← hes]
  constructor
  · intro hfile
    obtain ⟨e, he, hsame⟩ := List.mem_map.mp hfile
    have hmem : e ∈ ms := by
      rw [hparts]
      exact List.mem_append_left _ he
    obtain rfl := List.inj_on_of_nodup_map h.nodup_files hmem hm hsame
    exact (hasked e he).isEntry
  · intro hentry
    rw [hparts, List.mem_append] at hm
    rcases hm with hm | hm
    · exact List.mem_map_of_mem hm
    · obtain ⟨f, -, rfl⟩ := hsources m hm
      cases hentry

/-- The modules that are at most so many imports away are the first ones. -/
theorem exists_take (h : Progress d s₀ paths es ms ([], s))
    (hes : es.map (SourceModule.file d) = (askedFor d paths).eraseDups)
    (hasked : ∀ m ∈ es, IsAsked paths m) (n : Nat) :
    ∃ k, ∀ m ∈ ms, m ∈ ms.take k ↔ ∃ j ≤ n, Reached d s₀ ms j m := by
  induction n with
  | zero =>
    refine ⟨_, fun m hm => (h.mem_take_iff rfl hm).trans ?_⟩
    rw [h.file_mem_askedFor_iff hes hasked hm]
    constructor
    · intro hentry
      exact ⟨0, Nat.le_refl 0, .asked hm hentry⟩
    · rintro ⟨j, hj, hreached⟩
      obtain rfl := Nat.le_zero.mp hj
      cases hreached with
      | asked _ hentry => exact hentry
  | succ n ih =>
    obtain ⟨k, hk⟩ := ih
    -- the files of the next modules are imported by the first `k` ones
    have hcut : askedFor d paths ++ (ms.flatMap fun m => targets d s₀ m.path) =
        (askedFor d paths ++ (ms.take k).flatMap fun m => targets d s₀ m.path) ++
          (ms.drop k).flatMap fun m => targets d s₀ m.path := by
      rw [List.append_assoc, ← List.flatMap_append, List.take_append_drop]
    refine ⟨_, fun m hm => (h.mem_take_iff hcut hm).trans ?_⟩
    rw [List.mem_append, h.file_mem_askedFor_iff hes hasked hm, List.mem_flatMap]
    constructor
    · rintro (hentry | ⟨m', hm', htarget⟩)
      · exact ⟨0, Nat.zero_le _, .asked hm hentry⟩
      · obtain ⟨j, hj, hreached⟩ := (hk m' (List.mem_of_mem_take hm')).mp hm'
        exact ⟨j + 1, Nat.succ_le_succ hj, .imported hreached hm (mem_targets_iff.mp htarget)⟩
    · rintro ⟨j, hj, hreached⟩
      cases hreached with
      | asked _ hentry => exact .inl hentry
      | @imported j m' _ hreached _ himports =>
        have hm' := (hk m' hreached.mem).mpr ⟨j, Nat.le_of_succ_le_succ hj, hreached⟩
        exact .inr ⟨m', hm', mem_targets_iff.mpr himports⟩

/-- No module comes before one that is fewer imports away. -/
theorem pairwise_reached (h : Progress d s₀ paths es ms ([], s))
    (hes : es.map (SourceModule.file d) = (askedFor d paths).eraseDups)
    (hasked : ∀ m ∈ es, IsAsked paths m) :
    ms.Pairwise fun a b => ∀ n, Reached d s₀ ms n b → ∃ j ≤ n, Reached d s₀ ms j a := by
  rw [List.pairwise_iff_getElem]
  intro i j hi hj hij n hb
  obtain ⟨k, hk⟩ := h.exists_take hes hasked n
  have hmem := (hk ms[j] (List.getElem_mem hj)).mpr ⟨n, Nat.le_refl n, hb⟩
  obtain ⟨j', hj', hsame⟩ := List.mem_take_iff_getElem.mp hmem
  obtain rfl := (List.Nodup.getElem_inj_iff h.nodup_files.of_map).mp hsame
  apply (hk ms[i] (List.getElem_mem hi)).mp
  exact List.mem_take_iff_getElem.mpr ⟨i, by omega, rfl⟩

end Order

end Progress

/-! ## All modules -/

theorem isRooted_foldl_addDirectory {directories : List Text} (hs : IsRooted s.directories) :
    IsRooted (directories.foldl (addDirectory d) s).directories ∧
      (directories.foldl (addDirectory d) s).found = s.found := by
  induction directories generalizing s with
  | nil => exact ⟨hs, rfl⟩
  | cons directory directories ih =>
    have hnext : IsRooted (addDirectory d s directory).directories ∧
        (addDirectory d s directory).found = s.found := by
      unfold addDirectory
      dsimp only
      split
      · exact ⟨hs, rfl⟩
      · refine ⟨fun a ha => ?_, rfl⟩
        rcases List.mem_append.mp ha with ha | ha
        · exact hs a ha
        · rw [List.mem_singleton.mp ha]
          exact (Path.isPlain_absolute d.isAbsolute_currentPath directory).rooted
    obtain ⟨hrooted, hfound⟩ := ih hnext.1
    exact ⟨hrooted, hfound.trans hnext.2⟩

theorem isRooted_start (d : Disk) (root searchPath : Text) :
    IsRooted (start d root searchPath).directories ∧ (start d root searchPath).found = [] :=
  isRooted_foldl_addDirectory (s := {}) nofun

/-- The directories that are searched: those of the files that were asked for come first. -/
def allDirectories (d : Disk) (s : ModuleSearch) (paths : List Text) : List Text :=
  (paths.reverse.map fun p => Path.absolute d.currentPath (Path.parent p)) ++ s.directories

theorem isRooted_allDirectories (h : IsRooted s.directories) (paths : List Text) :
    IsRooted (allDirectories d s paths) := by
  intro directory hdirectory
  rcases List.mem_append.mp hdirectory with hown | hdirectory
  · obtain ⟨p, -, rfl⟩ := List.mem_map.mp hown
    exact (Path.isPlain_absolute d.isAbsolute_currentPath _).rooted
  · exact h directory hdirectory

/-- What holds of all modules; `s₀` may be any search in the same directories. -/
theorem progress_collect {s₀ : ModuleSearch} (hfound : s.found = [])
    (hrooted : IsRooted s.directories) (paths : List Text)
    (hs₀ : s₀.directories = allDirectories d s paths) :
    ∃ es, es.map (SourceModule.file d) = (askedFor d paths).eraseDups ∧
      (∀ m ∈ es, IsAsked paths m) ∧
      Progress d s₀ paths es (s.collect d paths).1 ([], (s.collect d paths).2) := by
  set first : ModuleSearch := { s with directories := allDirectories d s paths } with hfirst
  obtain ⟨htracks, hasked⟩ := tracks_entries (d := d) (s := first) hfound paths
  refine ⟨(first.entries d paths).1, htracks.files, hasked, ?_⟩
  have hlength : (first.entries d paths).1.length ≤ paths.length := by
    have hle := length_eraseDups_le (askedFor d paths)
    rwa [← htracks.files, List.length_map, askedFor, List.length_map] at hle
  have hbegin : Progress d s₀ paths (first.entries d paths).1 []
      ((first.entries d paths).1, (first.entries d paths).2) := by
    constructor
    · rw [List.flatMap_nil, List.append_nil, hs₀]
      exact htracks
    · exact ⟨[], by simp, nofun⟩
    · intro m hm
      exact ⟨0, .asked hm (hasked m hm).isEntry⟩
  have hrooted₀ : IsRooted s₀.directories := by
    rw [hs₀]
    exact isRooted_allDirectories hrooted paths
  have hbound : paths.length + d.entries.length ≤
      ([] : List SourceModule).length + (paths.length + d.entries.length) := by
    omega
  have hend := hbegin.followAll hrooted₀ hlength hbound
  exact ⟨⟨hend.tracks.directories, hend.tracks.files, hend.tracks.found⟩, hend.parts, hend.reached⟩

/-- All imports are followed when the search ends. -/
theorem exists_progress (d : Disk) (root searchPath : Text) (paths : List Text) :
    ∃ es, es.map (SourceModule.file d) = (askedFor d paths).eraseDups ∧
      (∀ m ∈ es, IsAsked paths m) ∧
      Progress d ((start d root searchPath).collect d paths).2 paths es
        ((start d root searchPath).collect d paths).1
        ([], ((start d root searchPath).collect d paths).2) := by
  obtain ⟨hrooted, hfound⟩ := isRooted_start d root searchPath
  -- the search ends in the directories that it began with
  have hfirst : ModuleSearch.directories
      { directories := allDirectories d (start d root searchPath) paths } =
        allDirectories d (start d root searchPath) paths := rfl
  obtain ⟨_, -, -, hsame⟩ := progress_collect hfound hrooted paths hfirst
  exact progress_collect hfound hrooted paths hsame.tracks.directories

/-- **What is collected.** For any files that are asked for, the modules have different files; each
file that was asked for is the file of one, and no other module counts as asked for; whatever the
imports anywhere in a module that can be parsed lead to is the file of one; each module is some
number of imports away from one that was asked for, and no module comes before one that is fewer
imports away. Modules that are equally far away come in the order of the files and of the imports
that lead to them first. -/
theorem collect_breadthFirst (d : Disk) (root searchPath : Text) (paths : List Text) :
    let (ms, s) := (start d root searchPath).collect d paths
    (ms.map (SourceModule.file d)).Nodup ∧
    (∀ path ∈ paths, ∃ m ∈ ms, m.isEntry = true ∧ m.file d = Path.absolute d.currentPath path) ∧
    (∀ m ∈ ms, m.isEntry = true → m.path ∈ paths) ∧
    (∀ m ∈ ms, ∀ f, m.Imports d s f → ∃ m' ∈ ms, m'.file d = f) ∧
    (∀ m ∈ ms, ∃ n, Reached d s ms n m) ∧
    (ms.Pairwise fun a b => ∀ n, Reached d s ms n b → ∃ j ≤ n, Reached d s ms j a) ∧
    ms.map (SourceModule.file d) = (paths.map (Path.absolute d.currentPath) ++ ms.flatMap fun m =>
      (importsOf d m.path).flatMap fun i => (s.resolve d m.path i).1).eraseDups := by
  obtain ⟨es, hes, hasked, h⟩ := exists_progress d root searchPath paths
  generalize (start d root searchPath).collect d paths = found at h ⊢
  obtain ⟨ms, s⟩ := found
  dsimp only at h ⊢
  have hfiles := h.tracks.files
  have hparts := h.parts
  have hreached := h.reached
  rw [List.append_nil] at hfiles hparts hreached
  refine ⟨h.nodup_files, ?_, ?_, ?_, hreached, h.pairwise_reached hes hasked, hfiles⟩
  · intro path hpath
    have hmem : Path.absolute d.currentPath path ∈ ms.map (SourceModule.file d) := by
      rw [hfiles, List.mem_eraseDups]
      exact List.mem_append_left _ (List.mem_map_of_mem hpath)
    obtain ⟨m, hm, hfile⟩ := List.mem_map.mp hmem
    refine ⟨m, hm, (h.file_mem_askedFor_iff hes hasked hm).mp ?_, hfile⟩
    rw [hfile]
    exact List.mem_map_of_mem hpath
  · intro m hm hentry
    obtain ⟨imported, hparts, hsources⟩ := hparts
    rw [hparts, List.mem_append] at hm
    rcases hm with hm | hm
    · exact (hasked m hm).path
    · obtain ⟨f, -, rfl⟩ := hsources m hm
      cases hentry
  · intro m hm f himports
    have hmem : f ∈ ms.map (SourceModule.file d) := by
      rw [hfiles, List.mem_eraseDups]
      exact List.mem_append_right _ (List.mem_flatMap.mpr ⟨m, hm, mem_targets_iff.mpr himports⟩)
    exact List.mem_map.mp hmem

/-- Two files that import each other, one of them inside a function. -/
def mutualImports : Disk where
  entries := [(["p"], .directory), (["p", "main.py"], .file "def f():\n    import util\n"),
    (["p", "util.py"], .file "import main\n")]
  current := ["p"]

/-- Of two files that import each other both are found, the one that was asked for first. -/
theorem collect_breadthFirst_mutualImports :
    let (ms, s) := (start mutualImports "." "").collect mutualImports ["main.py"]
    let main : SourceModule := { path := "main.py" }
    let util : SourceModule := { name := "util", path := "util.py", isEntry := false }
    ms = [main, util] ∧ main.Imports mutualImports s "/p/util.py" ∧
      (∃ m ∈ ms, m.file mutualImports = "/p/util.py") ∧ (∃ n, Reached mutualImports s ms n util) ∧
      ∀ n, Reached mutualImports s ms n util → ∃ j ≤ n, Reached mutualImports s ms j main := by
  have hms : ((start mutualImports "." "").collect mutualImports ["main.py"]).1 =
      [{ path := "main.py" }, { name := "util", path := "util.py", isEntry := false }] := by
    decide +kernel
  have hmem : Text.ofString "/p/util.py" ∈ targets mutualImports
      ((start mutualImports "." "").collect mutualImports ["main.py"]).2 "main.py" := by
    decide +kernel
  have hall := collect_breadthFirst mutualImports "." "" ["main.py"]
  generalize (start mutualImports "." "").collect mutualImports ["main.py"] = found at *
  obtain ⟨ms, s⟩ := found
  obtain ⟨-, -, -, hclosed, hreached, horder, -⟩ := hall
  dsimp only at hms hmem ⊢
  have himports := mem_targets_iff (m := { path := "main.py" }) |>.mp hmem
  rw [hms] at hclosed hreached horder ⊢
  refine ⟨rfl, himports, hclosed _ List.mem_cons_self _ himports, hreached _ ?_, ?_⟩
  · exact List.mem_cons_of_mem _ List.mem_cons_self
  · exact List.rel_of_pairwise_cons horder List.mem_cons_self

end ModuleSearch

end Toolchain

import Toolchain.Proofs.Disk.Place

/-!
# Paths from the root

Many texts name the same file. The shortest path from the root is the one that is made of names
only; what the current directory makes of any path is of this form, and a path of this form, shown
from the current directory, leads back to itself. Two files are different if and only if their paths
of this form are.

## Main definitions

* `Path.IsPlain`: a path from the root that is made of names

## Main results

* `Path.isPlain_absolute`, `Path.IsPlain.absolute_eq`: what is made of a path, and that it stays
* `Path.IsPlain.absolute_relative`: the path from a directory leads back
* `Disk.get?_of_isFile`: where the file of a path stands
-/

namespace Toolchain

open Outcome

namespace Path

variable {p directory : Text} {ps names : List Text}

/-- A path from the root that is made of names. -/
def IsPlain (p : Text) : Prop := ∃ names, (∀ name ∈ names, IsName name) ∧ p = ofParts true names

@[simp] theorem isAbsolute_ofParts (ps : List Text) : isAbsolute (ofParts true ps) = true := by
  simp [isAbsolute, ofParts]

theorem IsPlain.rooted (h : IsPlain p) : isAbsolute p = true := by
  obtain ⟨names, -, rfl⟩ := h
  exact isAbsolute_ofParts names

theorem splitAt_ofParts (hne : names ≠ []) (h : ∀ name ∈ names, IsName name) :
    (ofParts true names).splitAt slash = [] :: names := by
  change Text.splitAt slash (slash :: Text.join [slash] names) = _
  rw [Text.splitAt, if_pos rfl, splitAt_join_names hne h]

theorem parts_ofParts (h : ∀ name ∈ names, IsName name) : parts (ofParts true names) = names := by
  by_cases hne : names = []
  · subst hne
    rfl
  · rw [parts, splitAt_ofParts hne h, List.foldl_cons]
    change (names.foldl _ []).reverse = names
    rw [foldl_push_names h, List.append_nil, List.reverse_reverse]

/-- Below the root there is nothing to go up to, so no step up is kept. -/
theorem isName_of_mem_push {part : Text} (hps : ∀ p ∈ ps, IsName p) (hpart : slash ∉ part) :
    ∀ p ∈ push true ps part, IsName p := by
  unfold push
  split
  · exact hps
  · rename_i hkept
    simp only [Bool.or_eq_true, List.isEmpty_iff, decide_eq_true_eq, not_or] at hkept
    split
    · cases ps with
      | nil => exact hps
      | cons last rest =>
        have hlast := hps last List.mem_cons_self
        dsimp only
        rw [if_neg hlast.ne_up]
        exact fun p hp => hps p (List.mem_cons_of_mem _ hp)
    · rename_i hup
      intro p hp
      rcases List.mem_cons.mp hp with rfl | hp
      · exact ⟨hkept.1, hpart, hkept.2, hup⟩
      · exact hps p hp

theorem isName_of_mem_foldl_push {cut : List Text} (hps : ∀ p ∈ ps, IsName p)
    (hcut : ∀ part ∈ cut, slash ∉ part) : ∀ p ∈ cut.foldl (push true) ps, IsName p := by
  induction cut generalizing ps with
  | nil => exact hps
  | cons part cut ih =>
    exact ih (isName_of_mem_push hps (hcut part List.mem_cons_self))
      fun p hp => hcut p (List.mem_cons_of_mem _ hp)

theorem isName_of_mem_parts (h : isAbsolute p = true) : ∀ name ∈ parts p, IsName name := by
  intro name hname
  have hnone : ∀ p ∈ ([] : List Text), IsName p := by
    intro p hp
    cases hp
  rw [parts, h] at hname
  exact isName_of_mem_foldl_push hnone (fun part hpart => Text.not_mem_of_mem_splitAt hpart) name
    (List.mem_reverse.mp hname)

theorem isPlain_clean (h : isAbsolute p = true) : IsPlain (clean p) := by
  rw [clean, h]
  exact ⟨parts p, isName_of_mem_parts h, rfl⟩

theorem IsPlain.clean_eq (h : IsPlain p) : clean p = p := by
  obtain ⟨names, hnames, rfl⟩ := h
  rw [clean, isAbsolute_ofParts, parts_ofParts hnames]

/-- Paths one after the other start where the first one starts. -/
theorem isPlain_join (h : isAbsolute directory = true) (ps : List Text) :
    IsPlain (join (directory :: ps)) := by
  obtain ⟨b, rest, rfl⟩ : ∃ b rest, directory = b :: rest := by
    cases directory with
    | nil => cases h
    | cons b rest => exact ⟨b, rest, rfl⟩
  have hjoin : join ((b :: rest) :: ps) = clean (Text.join [slash] ((b :: rest) :: ps)) := rfl
  rw [hjoin]
  apply isPlain_clean
  cases ps with
  | nil =>
    rw [Text.join_singleton]
    exact h
  | cons p ps =>
    rw [Text.join_cons_cons, isAbsolute_append (List.cons_ne_nil b rest)]
    exact h

theorem isPlain_absolute (h : isAbsolute directory = true) (p : Text) :
    IsPlain (absolute directory p) := by
  unfold absolute
  split
  · next hp => exact isPlain_clean hp
  · exact isPlain_join h [p]

theorem IsPlain.absolute_eq (h : IsPlain p) (directory : Text) : absolute directory p = p := by
  rw [absolute, if_pos h.rooted, h.clean_eq]

/-- The directory above one on the way from the root is on the way from the root, too. -/
theorem isPlain_parent (h : isAbsolute p = true) : IsPlain (parent p) := by
  apply isPlain_clean
  obtain ⟨b, rest, rfl⟩ : ∃ b rest, p = b :: rest := by
    cases p with
    | nil => cases h
    | cons b rest => exact ⟨b, rest, rfl⟩
  obtain rfl : b = slash := by simpa [isAbsolute] using h
  -- the part behind the last slash is shorter than the path
  have hshort : ((slash :: rest).reverse.takeWhile fun b => b ≠ slash).length ≤ rest.length := by
    have hlength : rest.reverse.length = rest.length := List.length_reverse
    rw [List.reverse_cons, List.takeWhile_append, ← hlength]
    split
    · next hall =>
      rw [List.length_append, ← hall]
      simp
    · exact (List.takeWhile_prefix _).length_le
  have htake : (slash :: rest).length - ((splitLast (slash :: rest)).2).length ≠ 0 := by
    simp only [splitLast, List.length_reverse, List.length_cons]
    omega
  obtain ⟨n, hn⟩ := Nat.exists_eq_succ_of_ne_zero htake
  have hfirst : (splitLast (slash :: rest)).1 = slash :: rest.take n := by
    rw [splitLast] at hn ⊢
    dsimp only at hn ⊢
    rw [hn, List.take_succ_cons]
  rw [hfirst]
  rfl

/-! ## The shortest form -/

/-- Going up from nowhere and then down: the form of a relative path that cannot be made shorter. -/
def UpThenDown (ps : List Text) : Prop :=
  ∃ n names, (∀ name ∈ names, IsName name) ∧ ps = List.replicate n up ++ names

theorem push_up_replicate (n : Nat) :
    push false (List.replicate n up) up = List.replicate (n + 1) up := by
  have hkept : ¬(up.isEmpty || decide (up = Text.ofString ".")) = true := by
    simp [isPart_up.nonempty, isPart_up.ne_here]
  unfold push
  rw [if_neg hkept, if_pos rfl]
  cases n with
  | zero => rfl
  | succ n => exact if_pos rfl

theorem upThenDown_push {part : Text} (hps : UpThenDown ps.reverse) (hpart : slash ∉ part) :
    UpThenDown (push false ps part).reverse := by
  obtain ⟨n, names, hnames, hrev⟩ := hps
  obtain rfl : ps = names.reverse ++ List.replicate n up := by
    rw [← List.reverse_reverse ps, hrev, List.reverse_append, List.reverse_replicate]
  unfold push
  split
  · exact ⟨n, names, hnames, hrev⟩
  · rename_i hkept
    simp only [Bool.or_eq_true, List.isEmpty_iff, decide_eq_true_eq, not_or] at hkept
    split
    · rename_i hup
      cases hrevNames : names.reverse with
      | nil =>
        obtain rfl := List.reverse_eq_nil_iff.mp hrevNames
        -- there is nothing to leave, so the step up is kept
        refine ⟨n + 1, [], nofun, ?_⟩
        have hpush := push_up_replicate n
        unfold push at hpush
        rw [if_neg (by simp [isPart_up.nonempty, isPart_up.ne_here]), if_pos rfl] at hpush
        rw [List.nil_append, List.append_nil]
        exact (congrArg List.reverse hpush).trans List.reverse_replicate
      | cons last rest =>
        have hlast : last ∈ names := List.mem_reverse.mp (hrevNames ▸ List.mem_cons_self)
        rw [List.cons_append]
        dsimp only
        rw [if_neg (hnames last hlast).ne_up]
        refine ⟨n, rest.reverse, fun name hname => hnames name ?_, ?_⟩
        · exact List.mem_reverse.mp (hrevNames ▸ List.mem_cons_of_mem _ (List.mem_reverse.mp hname))
        · rw [List.reverse_append, List.reverse_replicate]
    · rename_i hup
      refine ⟨n, names ++ [part], ?_, ?_⟩
      · exact List.forall_mem_append.mpr
          ⟨hnames, List.forall_mem_singleton.mpr ⟨hkept.1, hpart, hkept.2, hup⟩⟩
      · rw [List.reverse_cons, hrev, List.append_assoc]

theorem upThenDown_parts (h : isAbsolute p = false) : UpThenDown (parts p) := by
  have hfold : ∀ (cut ps : List Text), (∀ part ∈ cut, slash ∉ part) → UpThenDown ps.reverse →
      UpThenDown (cut.foldl (push false) ps).reverse := by
    intro cut
    induction cut with
    | nil => exact fun _ _ hps => hps
    | cons part cut ih =>
      intro ps hcut hps
      exact ih _ (fun q hq => hcut q (List.mem_cons_of_mem _ hq))
        (upThenDown_push hps (hcut part List.mem_cons_self))
  rw [parts, h]
  exact hfold _ [] (fun part hpart => Text.not_mem_of_mem_splitAt hpart) ⟨0, [], by simp, rfl⟩

theorem foldl_push_upThenDown (h : UpThenDown ps) : ps.foldl (push false) [] = ps.reverse := by
  obtain ⟨n, names, hnames, rfl⟩ := h
  have hups : ∀ n, (List.replicate n up).foldl (push false) [] = List.replicate n up := by
    intro n
    induction n with
    | zero => rfl
    | succ n ih =>
      rw [List.replicate_succ', List.foldl_append, ih, List.foldl_cons, List.foldl_nil,
        push_up_replicate, ← List.replicate_succ']
  rw [List.foldl_append, hups, foldl_push_names hnames, List.reverse_append,
    List.reverse_replicate]

/-- A path and its shortest form have the same beginning. -/
theorem isAbsolute_clean (p : Text) : isAbsolute (clean p) = isAbsolute p := by
  cases h : isAbsolute p with
  | true => exact (isPlain_clean h).rooted
  | false =>
    rw [clean, h]
    by_cases hnone : parts p = []
    · rw [hnone]
      with_unfolding_all decide
    · obtain ⟨b, rest, hjoin, hb⟩ := join_eq_cons hnone fun part hpart =>
        ⟨(isPart_of_mem_parts hpart).nonempty, (isPart_of_mem_parts hpart).whole⟩
      simp [ofParts, hjoin, isAbsolute, hb]

/-- A path and its shortest form have the same parts. -/
theorem parts_clean (p : Text) : parts (clean p) = parts p := by
  cases h : isAbsolute p with
  | true => rw [clean, h, parts_ofParts (isName_of_mem_parts h)]
  | false =>
    have hrelative := isAbsolute_clean p
    rw [h] at hrelative
    rw [parts, hrelative, clean, h]
    by_cases hnone : parts p = []
    · rw [hnone]
      with_unfolding_all decide
    · have hwhole : ∀ part ∈ parts p, slash ∉ part :=
        fun part hpart => (isPart_of_mem_parts hpart).whole
      obtain ⟨b, rest, hjoin, -⟩ := join_eq_cons hnone fun part hpart =>
        ⟨(isPart_of_mem_parts hpart).nonempty, (isPart_of_mem_parts hpart).whole⟩
      have hshown : ofParts false (parts p) = Text.join [slash] (parts p) := by
        rw [ofParts, hjoin]
        rfl
      rw [hshown, Text.splitAt_join hnone hwhole, foldl_push_upThenDown (upThenDown_parts h),
        List.reverse_reverse]

/-- Paths have the same shortest form if and only if they begin in the same way and have the same
parts. -/
theorem clean_eq_clean_iff {p q : Text} :
    clean p = clean q ↔ isAbsolute p = isAbsolute q ∧ parts p = parts q := by
  constructor
  · intro h
    rw [← isAbsolute_clean p, ← parts_clean p, h, isAbsolute_clean, parts_clean]
    exact ⟨rfl, rfl⟩
  · rintro ⟨hrooted, hparts⟩
    rw [clean, clean, hrooted, hparts]

theorem clean_join (h : directory ≠ []) (path : Text) :
    clean (join [directory, path]) = join [directory, path] := by
  rw [join_pair h, clean_eq_clean_iff, isAbsolute_clean, parts_clean]
  exact ⟨rfl, rfl⟩

theorem isAbsolute_join (h : directory ≠ []) (path : Text) :
    isAbsolute (join [directory, path]) = isAbsolute directory := by
  rw [join_pair h, isAbsolute_clean, isAbsolute_append h]

theorem parts_join (h : directory ≠ []) (path : Text) :
    parts (join [directory, path]) = ((path.splitAt slash).foldl
      (push (isAbsolute directory)) (parts directory).reverse).reverse := by
  rw [join_pair h, parts_clean, parts_append h]

/-- A path in a directory whose last part is a name names a file of that name. -/
theorem exists_parts_join {path name : Text} {cut : List Text} (h : directory ≠ [])
    (hcut : path.splitAt slash = cut ++ [name]) (hname : IsName name) :
    ∃ above, parts (join [directory, path]) = above ++ [name] := by
  rw [parts_join h, hcut, List.foldl_append, List.foldl_cons, List.foldl_nil, push_of_name hname,
    List.reverse_cons]
  exact ⟨_, rfl⟩

/-! ## Paths as they are shown -/

theorem dropCommon_eq (as bs : List Text) : ∃ common,
    as = common ++ (dropCommon as bs).1 ∧ bs = common ++ (dropCommon as bs).2 := by
  fun_induction dropCommon as bs with
  | case1 as b bs ih =>
    obtain ⟨common, has, hbs⟩ := ih
    exact ⟨b :: common, congrArg _ has, congrArg _ hbs⟩
  | case2 a as b bs hne => exact ⟨[], rfl, rfl⟩
  | case3 as bs _ => exact ⟨[], rfl, rfl⟩

/-- What goes up from a directory starts so. -/
theorem startsWith_up {above : List Text} (h : above ≠ []) (below : List Text) :
    (ofParts false (above.map (fun _ => up) ++ below)).startsWith up = true := by
  obtain ⟨last, above, rfl⟩ := List.exists_cons_of_ne_nil h
  obtain ⟨rest, hrest⟩ : ∃ rest,
      Text.join [slash] (up :: (above.map (fun _ => up) ++ below)) = up ++ rest := by
    cases above.map (fun _ => up) ++ below with
    | nil => exact ⟨[], by rw [Text.join_singleton, List.append_nil]⟩
    | cons p ps => exact ⟨_, Text.join_cons_cons _ _ _ _⟩
  have hne : (up ++ rest).isEmpty = false := by
    have hup : up ≠ [] := by with_unfolding_all decide
    simp [hup]
  rw [List.map_cons, List.cons_append, ofParts]
  simp only [hrest, hne, Bool.false_eq_true, if_false]
  exact List.isPrefixOf_iff_prefix.mpr (List.prefix_append up rest)

/-- The path from a directory to a file that it shows without a step up leads back to the file. -/
theorem IsPlain.absolute_relative (h : IsPlain p) (hd : isAbsolute directory = true)
    (hdown : (relative directory p).startsWith up = false) :
    absolute directory (relative directory p) = p := by
  have hne : directory ≠ [] := by
    rintro rfl
    cases hd
  obtain ⟨names, hnames, rfl⟩ := h
  obtain ⟨common, habove, hbelow⟩ := dropCommon_eq (parts directory) (parts (ofParts true names))
  rw [parts_ofParts hnames] at habove hbelow
  unfold relative at hdown ⊢
  rw [parts_ofParts hnames] at hdown ⊢
  generalize dropCommon (parts directory) names = cut at habove hbelow hdown
  obtain ⟨above, below⟩ := cut
  dsimp only at habove hbelow hdown ⊢
  -- without a step up, the file is below the directory
  obtain rfl : above = [] := by
    by_contra hup
    rw [startsWith_up hup] at hdown
    cases hdown
  rw [List.append_nil] at habove
  rw [List.map_nil, List.nil_append]
  subst habove
  by_cases hsame : below = []
  · subst hsame
    rw [List.append_nil] at hbelow
    have hhere : (Text.ofString ".").splitAt slash = [Text.ofString "."] := by
      with_unfolding_all decide
    change absolute directory (Text.ofString ".") = _
    rw [absolute, if_neg (by with_unfolding_all decide), join_pair hne, clean,
      isAbsolute_append hne,
      parts_append hne, hhere, hd]
    have hskip : push true (parts directory).reverse (Text.ofString ".") =
        (parts directory).reverse := by
      simp [push]
    rw [List.foldl_cons, List.foldl_nil, hskip, List.reverse_reverse, hbelow]
  · have hnext : ∀ name ∈ below, IsName name := by
      intro name hname
      apply hnames
      rw [hbelow]
      exact List.mem_append_right _ hname
    obtain ⟨b, rest, hjoin, hb⟩ := join_eq_cons hsame fun name hname =>
      ⟨(hnext name hname).nonempty, (hnext name hname).whole⟩
    have hrelative : isAbsolute (Text.join [slash] below) = false := by
      rw [hjoin]
      simp [isAbsolute, hb]
    have hshown : ofParts false below = Text.join [slash] below := by
      rw [ofParts, hjoin]
      rfl
    rw [hshown, absolute, hrelative, if_neg Bool.false_ne_true, join_names hsame hnext, hd, hbelow]

end Path

namespace Disk

variable {d : Disk} {path : Text}

/-- Names that are followed from a place lead below it. -/
theorem eq_of_foldlM_follow {names : List Text} {l dest : Location}
    (h : ∀ name ∈ names, Path.IsName name) (hto : names.foldlM d.follow l = .ok dest) :
    dest = l ++ names := by
  induction names generalizing l with
  | nil =>
    rw [List.append_nil]
    exact (Except.ok.inj hto).symm
  | cons name names ih =>
    rw [List.foldlM_cons] at hto
    obtain ⟨next, hnext, hto⟩ := bind_eq_ok_iff.mp hto
    have hname := h name List.mem_cons_self
    rw [follow_eq_ok_iff, if_neg (by simp [hname.nonempty, hname.ne_here]), if_neg hname.ne_up]
      at hnext
    rw [ih (fun n hn => h n (List.mem_cons_of_mem _ hn)) hto, hnext.2, List.append_assoc]
    rfl

/-- The place of a file is made of the names in its path. -/
theorem locate_ofParts {names : List Text} (h : ∀ name ∈ names, Path.IsName name) {l : Location}
    (hl : d.locate (Path.ofParts true names) = .ok l) : l = names := by
  by_cases hne : names = []
  · subst hne
    exact (Except.ok.inj hl).symm
  · have hrooted : Path.isAbsolute (Path.ofParts true names) = true := Path.isAbsolute_ofParts names
    rw [locate, if_neg (by simp [Path.ofParts]), if_pos hrooted, Path.splitAt_ofParts hne h] at hl
    exact eq_of_foldlM_follow h hl

/-- What stands at a place other than the root is an entry. -/
theorem mem_of_get?_file {l : Location} {content : Text} (h : d.get? l = some (.file content)) :
    l ∈ d.entries.map Prod.fst := by
  unfold get? at h
  split at h
  · cases h
  · obtain ⟨e, hfind, -⟩ := Option.map_eq_some_iff.mp h
    exact List.mem_map.mpr
      ⟨e, List.mem_of_find?_eq_some hfind, by simpa using List.find?_some hfind⟩

/-- What is above a file is a directory. -/
theorem get?_of_isFile_append {names rest : List Text}
    (h : ∀ name ∈ names ++ rest, Path.IsName name)
    (hrest : rest ≠ []) (hfile : d.isFile (Path.ofParts true (names ++ rest)) = true) :
    d.get? names = some .directory := by
  obtain ⟨name, rest, rfl⟩ := List.exists_cons_of_ne_nil hrest
  unfold isFile at hfile
  split at hfile
  · next content hstat =>
    obtain ⟨l, hl, -⟩ := stat_eq_ok_iff.mp hstat
    have hrooted : Path.isAbsolute (Path.ofParts true (names ++ name :: rest)) = true :=
      Path.isAbsolute_ofParts _
    rw [locate, if_neg (by simp [Path.ofParts]), if_pos hrooted,
      Path.splitAt_ofParts (by simp) h] at hl
    change List.foldlM d.follow [] (names ++ name :: rest) = .ok l at hl
    rw [List.foldlM_append] at hl
    obtain ⟨above, habove, hl⟩ := bind_eq_ok_iff.mp hl
    rw [List.foldlM_cons] at hl
    obtain ⟨next, hnext, -⟩ := bind_eq_ok_iff.mp hl
    obtain rfl := eq_of_foldlM_follow (fun n hn => h n (List.mem_append_left _ hn)) habove
    exact (follow_eq_ok_iff.mp hnext).1
  · cases hfile

/-- The names in the path of a file are where the file stands. -/
theorem get?_of_isFile {names : List Text} (h : ∀ name ∈ names, Path.IsName name)
    (hfile : d.isFile (Path.ofParts true names) = true) :
    ∃ content, d.get? names = some (.file content) := by
  unfold isFile at hfile
  split at hfile
  · next content hstat =>
    obtain ⟨l, hl, hget⟩ := stat_eq_ok_iff.mp hstat
    rw [locate_ofParts h hl] at hget
    exact ⟨content, hget⟩
  · cases hfile

end Disk

end Toolchain

import Mathlib.Tactic.Common
import Toolchain.Disk.Basic
import Toolchain.Proofs.Outcome

/-!
# Where paths lead

A file in a directory is named by the path of the directory and its own name. The path is made
shorter first, as text; it still leads to the same place, because what is left out goes into a
directory and back. What a path leads to depends on the directories alone, so that files can be
written and removed without moving others.

## Main definitions

* `Path.IsName`: a text that names a file in a directory
* `Disk.Houses`: a path leads to a directory
* `Disk.home`: where the path of a directory leads, if it leads anywhere
* `Disk.SameDirectories`: two disks have the same directories
* `Disk.Keeps`: a file at a place stood there before, or was written

## Main results

* `Disk.Houses.locate_join`, `Disk.eq_of_locate_join`: where a name in a directory leads
* `Disk.houses_of_locate`: a path to a directory still leads there after it is made shorter
* `Disk.get?_write`, `Disk.get?_discard`: what is read after a file is written, or removed
-/

namespace Toolchain

open Outcome

/-! ## Texts cut at a separator -/

namespace Text

variable {separator : UInt8}

-- The equations are derived once, and not by each of the proofs that rewrite with them.
attribute [local grind =] splitAt

theorem splitAt_ne_nil (separator : UInt8) (t : Text) : splitAt separator t ≠ [] := by
  cases t with
  | nil => exact List.cons_ne_nil _ _
  | cons b rest =>
    rw [splitAt]
    split
    · exact List.cons_ne_nil _ _
    · split <;> exact List.cons_ne_nil _ _

theorem splitAt_of_not_mem : ∀ {t : Text}, separator ∉ t → splitAt separator t = [t]
  | [], _ => rfl
  | b :: rest, h => by
    rw [List.mem_cons, not_or] at h
    rw [splitAt, if_neg (fun hb => h.1 hb.symm), splitAt_of_not_mem h.2]

/-- A text is cut where a separator stands in it, whatever is before and after. -/
theorem splitAt_append (rest : Text) : ∀ t : Text,
    splitAt separator (t ++ separator :: rest) = splitAt separator t ++ splitAt separator rest
  | [] => by simp [splitAt]
  | b :: t => by
    rw [List.cons_append, splitAt, splitAt, splitAt_append rest t]
    split
    · rfl
    · obtain ⟨part, parts, hparts⟩ := List.exists_cons_of_ne_nil (splitAt_ne_nil separator t)
      rw [hparts]
      rfl

/-- What follows a text without a separator in it goes to the last part. -/
theorem splitAt_append_last {rest : Text} (h : separator ∉ rest) : ∀ t : Text,
    splitAt separator (t ++ rest) =
      (splitAt separator t).dropLast ++ [(splitAt separator t).getLastD [] ++ rest]
  | [] => by
    rw [List.nil_append, splitAt_of_not_mem h]
    rfl
  | b :: t => by
    obtain ⟨part, parts, hparts⟩ := List.exists_cons_of_ne_nil (splitAt_ne_nil separator t)
    rw [List.cons_append, splitAt, splitAt, splitAt_append_last h t, hparts]
    split
    · rfl
    · cases parts with
      | nil => rfl
      | cons next parts => rfl

theorem not_mem_of_mem_splitAt {part : Text} : ∀ {t : Text}, part ∈ splitAt separator t →
    separator ∉ part
  | [], h => by
    obtain rfl := List.mem_singleton.mp h
    exact List.not_mem_nil
  | b :: rest, h => by
    rw [splitAt] at h
    split at h
    · rcases List.mem_cons.mp h with rfl | h
      · exact List.not_mem_nil
      · exact not_mem_of_mem_splitAt h
    · rename_i hb
      obtain ⟨first, parts, hparts⟩ := List.exists_cons_of_ne_nil (splitAt_ne_nil separator rest)
      rw [hparts] at h
      rcases List.mem_cons.mp h with rfl | h
      · rw [List.mem_cons, not_or]
        exact ⟨fun h => hb h.symm, not_mem_of_mem_splitAt (hparts ▸ List.mem_cons_self)⟩
      · exact not_mem_of_mem_splitAt (hparts ▸ List.mem_cons_of_mem _ h)

theorem mem_of_mem_splitAt {b : UInt8} {part : Text} : ∀ {t : Text}, part ∈ splitAt separator t →
    b ∈ part → b ∈ t
  | [], h, hb => by
    obtain rfl := List.mem_singleton.mp h
    cases hb
  | a :: rest, h, hb => by
    rw [splitAt] at h
    split at h
    · rcases List.mem_cons.mp h with rfl | h
      · cases hb
      · exact List.mem_cons_of_mem a (mem_of_mem_splitAt h hb)
    · obtain ⟨first, parts, hparts⟩ := List.exists_cons_of_ne_nil (splitAt_ne_nil separator rest)
      rw [hparts] at h
      rcases List.mem_cons.mp h with rfl | h
      · rcases List.mem_cons.mp hb with rfl | hb
        · exact List.mem_cons_self
        · exact List.mem_cons_of_mem a (mem_of_mem_splitAt (hparts ▸ List.mem_cons_self) hb)
      · exact List.mem_cons_of_mem a
          (mem_of_mem_splitAt (hparts ▸ List.mem_cons_of_mem first h) hb)

@[simp] theorem join_singleton (separator part : Text) : join separator [part] = part := by
  simp [join, List.intercalate]

theorem join_cons_cons (separator : UInt8) (part next : Text) (parts : List Text) :
    join [separator] (part :: next :: parts) =
      part ++ separator :: join [separator] (next :: parts) := by
  simp [join, List.intercalate]

theorem mem_join {b : UInt8} : ∀ {parts : List Text}, b ∈ join [separator] parts →
    b = separator ∨ ∃ part ∈ parts, b ∈ part
  | [], h => nomatch h
  | [part], h => by
    rw [join_singleton] at h
    exact .inr ⟨part, List.mem_singleton_self part, h⟩
  | part :: next :: parts, h => by
    rw [join_cons_cons, List.mem_append, List.mem_cons] at h
    rcases h with h | h | h
    · exact .inr ⟨part, List.mem_cons_self, h⟩
    · exact .inl h
    · rcases mem_join h with h | ⟨p, hp, h⟩
      · exact .inl h
      · exact .inr ⟨p, List.mem_cons_of_mem part hp, h⟩

/-- Texts without a separator in them are cut apart again. -/
theorem splitAt_join : ∀ {parts : List Text}, parts ≠ [] → (∀ part ∈ parts, separator ∉ part) →
    splitAt separator (join [separator] parts) = parts
  | [], h, _ => absurd rfl h
  | [part], _, h => by
    rw [join_singleton]
    exact splitAt_of_not_mem (h part (List.mem_singleton_self _))
  | part :: next :: parts, _, h => by
    rw [join_cons_cons, splitAt_append, splitAt_of_not_mem (h part List.mem_cons_self),
      splitAt_join (List.cons_ne_nil _ _) fun p hp => h p (List.mem_cons_of_mem _ hp)]
    rfl

end Text

/-! ## Paths as texts -/

namespace Path

/-- A text that names a file in a directory. -/
structure IsName (name : Text) : Prop where
  nonempty : name ≠ []
  whole : slash ∉ name
  ne_here : name ≠ Text.ofString "."
  ne_up : name ≠ up

/-- A part of a path that cannot be left out. -/
structure IsPart (part : Text) : Prop where
  nonempty : part ≠ []
  whole : slash ∉ part
  ne_here : part ≠ Text.ofString "."

theorem isPart_up : IsPart up := by
  refine ⟨?_, ?_, ?_⟩ <;> with_unfolding_all decide

theorem push_of_name {rooted : Bool} {ps : List Text} {name : Text} (h : IsName name) :
    push rooted ps name = name :: ps := by
  simp [push, h.nonempty, h.ne_here, h.ne_up]

/-- What is added to the parts of a path cannot be left out. -/
theorem isPart_of_mem_push {rooted : Bool} {ps : List Text} {part : Text}
    (hps : ∀ p ∈ ps, IsPart p) (hpart : slash ∉ part) : ∀ p ∈ push rooted ps part, IsPart p := by
  unfold push
  split
  · exact hps
  · rename_i hkept
    simp only [Bool.or_eq_true, List.isEmpty_iff, decide_eq_true_eq, not_or] at hkept
    split
    · cases ps with
      | nil =>
        cases rooted with
        | true => exact fun _ h => nomatch h
        | false =>
          intro p hp
          obtain rfl := List.mem_singleton.mp hp
          exact isPart_up
      | cons last rest =>
        dsimp only
        split
        · intro p hp
          rcases List.mem_cons.mp hp with rfl | hp
          · exact isPart_up
          · exact hps p hp
        · exact fun p hp => hps p (List.mem_cons_of_mem _ hp)
    · intro p hp
      rcases List.mem_cons.mp hp with rfl | hp
      · exact ⟨hkept.1, hpart, hkept.2⟩
      · exact hps p hp

theorem isPart_of_mem_foldl_push {rooted : Bool} {cut ps : List Text} (hps : ∀ p ∈ ps, IsPart p)
    (hcut : ∀ part ∈ cut, slash ∉ part) : ∀ p ∈ cut.foldl (push rooted) ps, IsPart p := by
  induction cut generalizing ps with
  | nil => exact hps
  | cons part cut ih =>
    exact ih (isPart_of_mem_push hps (hcut part List.mem_cons_self))
      fun p hp => hcut p (List.mem_cons_of_mem _ hp)

theorem isPart_of_mem_parts {path part : Text} (h : part ∈ parts path) : IsPart part := by
  have hnone : ∀ p ∈ ([] : List Text), IsPart p := by
    intro p hp
    cases hp
  have hcut : ∀ p ∈ path.splitAt slash, slash ∉ p := fun p hp => Text.not_mem_of_mem_splitAt hp
  exact isPart_of_mem_foldl_push hnone hcut part (List.mem_reverse.mp h)

theorem isAbsolute_append {path rest : Text} (h : path ≠ []) :
    isAbsolute (path ++ rest) = isAbsolute path := by
  cases path with
  | nil => exact absurd rfl h
  | cons b path => rfl

theorem foldl_push_names {rooted : Bool} {names ps : List Text} (h : ∀ name ∈ names, IsName name) :
    names.foldl (push rooted) ps = names.reverse ++ ps := by
  induction names generalizing ps with
  | nil => rfl
  | cons name names ih =>
    rw [List.foldl_cons, push_of_name (h name List.mem_cons_self),
      ih fun n hn => h n (List.mem_cons_of_mem _ hn), List.reverse_cons, List.append_assoc]
    rfl

theorem splitAt_join_names {names : List Text} (hne : names ≠ [])
    (h : ∀ name ∈ names, IsName name) :
    (Text.join [slash] names).splitAt slash = names :=
  Text.splitAt_join hne fun name hname => (h name hname).whole

/-- Parts one after the other start with the first byte of a part. -/
theorem join_eq_cons {ps : List Text} (hne : ps ≠ []) (h : ∀ p ∈ ps, p ≠ [] ∧ slash ∉ p) :
    ∃ b rest, Text.join [slash] ps = b :: rest ∧ b ≠ slash := by
  obtain ⟨first, others, rfl⟩ := List.exists_cons_of_ne_nil hne
  obtain ⟨hfirst, hwhole⟩ := h first List.mem_cons_self
  obtain ⟨b, tail, rfl⟩ := List.exists_cons_of_ne_nil hfirst
  have hb : b ≠ slash := fun hb => hwhole (hb ▸ List.mem_cons_self)
  cases others with
  | nil => exact ⟨b, tail, Text.join_singleton _ _, hb⟩
  | cons next others => exact ⟨b, _, Text.join_cons_cons _ _ _ _, hb⟩

/-- Several paths in a directory are one path in it. -/
theorem join_cons {directory : Text} {ps : List Text} (h : directory ≠ []) (hps : ps ≠ []) :
    join (directory :: ps) = join [directory, Text.join [slash] ps] := by
  obtain ⟨b, rest, rfl⟩ := List.exists_cons_of_ne_nil h
  obtain ⟨p, ps, rfl⟩ := List.exists_cons_of_ne_nil hps
  have hdrop (qs : List Text) : List.dropWhile List.isEmpty ((b :: rest) :: qs) =
      (b :: rest) :: qs := rfl
  simp only [join, hdrop, Text.join_cons_cons, Text.join_singleton]

theorem join_pair {directory : Text} (h : directory ≠ []) (path : Text) :
    join [directory, path] = clean (directory ++ slash :: path) := by
  obtain ⟨b, rest, rfl⟩ := List.exists_cons_of_ne_nil h
  have hdrop : List.dropWhile List.isEmpty [b :: rest, path] = [b :: rest, path] := rfl
  simp only [join, hdrop, Text.join_cons_cons, Text.join_singleton]

/-- A path in a directory adds its parts to those of the directory. -/
theorem parts_append {directory : Text} (h : directory ≠ []) (path : Text) :
    parts (directory ++ slash :: path) = ((path.splitAt slash).foldl
      (push (isAbsolute directory)) (parts directory).reverse).reverse := by
  rw [parts, parts, Text.splitAt_append, List.foldl_append, isAbsolute_append h,
    List.reverse_reverse]

/-- The path of names in a directory. -/
theorem join_names {directory : Text} {names : List Text} (hne : names ≠ [])
    (h : ∀ name ∈ names, IsName name) :
    join [directory, Text.join [slash] names] =
      ofParts (isAbsolute directory) (parts directory ++ names) := by
  obtain ⟨first, tail, hjoin, hfirst⟩ := join_eq_cons hne fun name hname =>
    ⟨(h name hname).nonempty, (h name hname).whole⟩
  have hsplit := splitAt_join_names hne h
  rw [hjoin] at hsplit ⊢
  cases directory with
  | nil =>
    have habsolute : isAbsolute (first :: tail) = false := by simp [isAbsolute, hfirst]
    have hdrop : List.dropWhile List.isEmpty [[], first :: tail] = [first :: tail] := rfl
    simp only [join, hdrop, clean, Text.join_singleton, habsolute, parts, hsplit,
      foldl_push_names h,
      List.append_nil, List.reverse_reverse]
    rfl
  | cons b rest =>
    rw [join_pair (List.cons_ne_nil b rest), clean, isAbsolute_append (List.cons_ne_nil b rest),
      parts_append (List.cons_ne_nil b rest), hsplit, foldl_push_names h, List.reverse_append,
      List.reverse_reverse, List.reverse_reverse]

/-- The path of a name in a directory. -/
theorem join_name {directory name : Text} (h : IsName name) :
    join [directory, name] = ofParts (isAbsolute directory) (parts directory ++ [name]) := by
  have hname : ∀ n ∈ [name], IsName n := by
    intro n hn
    rw [List.mem_singleton.mp hn]
    exact h
  rw [← join_names (List.cons_ne_nil _ _) hname, Text.join_singleton]

end Path

namespace Disk

variable {d d' : Disk} {l : Location} {path name directory : Text} {place : Location}

/-! ## Places -/

@[simp] theorem get?_nil (d : Disk) : d.get? [] = some .directory := rfl

theorem get?_put (hl : l ≠ []) (entry : DiskEntry) (l' : Location) :
    (d.put l entry).get? l' = if l' = l then some entry else d.get? l' := by
  by_cases hnil : l' = []
  · subst hnil
    rw [if_neg fun h => hl h.symm]
    rfl
  · simp only [get?, put, List.isEmpty_iff, hnil, if_false, List.find?_cons]
    by_cases hsame : l' = l
    · subst hsame
      simp
    · have hne : (l == l') = false := beq_eq_false_iff_ne.mpr fun h => hsame h.symm
      rw [if_neg hsame, hne]
      simp only [List.find?_filter]
      congr 2
      funext e
      by_cases he : e.1 = l'
      · simp [he, hsame]
      · simp [he]

theorem get?_erase (hl : l ≠ []) (l' : Location) :
    (d.erase l).get? l' = if l' = l then none else d.get? l' := by
  by_cases hnil : l' = []
  · subst hnil
    rw [if_neg fun h => hl h.symm]
    rfl
  · simp only [get?, erase, List.isEmpty_iff, hnil, if_false, List.find?_filter]
    by_cases hsame : l' = l
    · subst hsame
      simp
    · rw [if_neg hsame]
      congr 2
      funext e
      by_cases he : e.1 = l'
      · simp [he, hsame]
      · simp [he]

/-- The place that the parts of a path start from. -/
def start (d : Disk) (path : Text) : Location := if Path.isAbsolute path then [] else d.current

theorem follow_eq_ok_iff {part : Text} {dest : Location} :
    d.follow l part = .ok dest ↔ d.get? l = some .directory ∧
      dest = (if part.isEmpty || part = Text.ofString "." then l
        else if part = Path.up then l.dropLast else l ++ [part]) := by
  unfold follow
  split
  · rename_i h
    simp [h]
  · rename_i h
    simp [h]
  · rename_i h
    simp only [h, true_and]
    split
    · simp [eq_comm]
    · split <;> simp [eq_comm]

theorem follow_name (h : d.get? l = some .directory) (hname : Path.IsName name) :
    d.follow l name = .ok (l ++ [name]) := by
  rw [follow_eq_ok_iff]
  refine ⟨h, ?_⟩
  simp [hname.nonempty, hname.ne_here, hname.ne_up]

/-- A path leads to a directory, after it is made shorter. -/
structure Houses (d : Disk) (directory : Text) (place : Location) : Prop where
  leads : (Path.parts directory).foldlM d.follow (d.start directory) = .ok place
  isDirectory : d.get? place = some .directory

theorem Houses.unique (h : d.Houses directory place) (h' : d.Houses directory l) : place = l :=
  Except.ok.inj (h.leads.symm.trans h'.leads)

/-- The path of a name in a directory is followed part by part, whatever is left out of it. -/
theorem locate_join_eq (d : Disk) (directory : Text) (hname : Path.IsName name) :
    d.locate (Path.join [directory, name]) =
      (Path.parts directory ++ [name]).foldlM d.follow (d.start directory) := by
  have hparts : ∀ part ∈ Path.parts directory ++ [name], Path.slash ∉ part := by
    intro part hpart
    rcases List.mem_append.mp hpart with hpart | hpart
    · exact (Path.isPart_of_mem_parts hpart).whole
    · obtain rfl := List.mem_singleton.mp hpart
      exact hname.whole
  have hsplit := Text.splitAt_join (List.append_ne_nil_of_right_ne_nil (Path.parts directory)
    (List.cons_ne_nil name [])) hparts
  rw [Path.join_name hname, start]
  cases hrooted : Path.isAbsolute directory with
  | true =>
    have hcut : Text.splitAt Path.slash (Path.slash ::
        Text.join [Path.slash] (Path.parts directory ++ [name])) =
        [] :: (Path.parts directory ++ [name]) := by
      rw [Text.splitAt, if_pos rfl, hsplit]
    simp only [Path.ofParts, locate, List.isEmpty_cons, Bool.false_eq_true, if_false, if_true,
      Path.isAbsolute, List.head?_cons, decide_true, hcut, List.foldlM_cons]
    have hroot : d.follow [] [] = .ok [] := rfl
    rw [hroot]
    rfl
  | false =>
    -- the first byte belongs to a part, so it is no slash
    obtain ⟨b, rest, hjoined, hb⟩ := Path.join_eq_cons
      (List.append_ne_nil_of_right_ne_nil (Path.parts directory) (List.cons_ne_nil name []))
      fun part hpart => by
        rcases List.mem_append.mp hpart with hpart | hpart
        · exact ⟨(Path.isPart_of_mem_parts hpart).nonempty, (Path.isPart_of_mem_parts hpart).whole⟩
        · obtain rfl := List.mem_singleton.mp hpart
          exact ⟨hname.nonempty, hname.whole⟩
    simp only [Path.ofParts, hjoined, List.isEmpty_cons, Bool.false_eq_true, if_false, locate,
      Path.isAbsolute, List.head?_cons, Option.some.injEq, hb, decide_false]
    rw [← hjoined, hsplit]

/-- A name in a directory leads to a place in the place of the directory. -/
theorem Houses.locate_join (h : d.Houses directory place) (hname : Path.IsName name) :
    d.locate (Path.join [directory, name]) = .ok (place ++ [name]) := by
  rw [locate_join_eq d directory hname, List.foldlM_append, h.leads]
  change List.foldlM d.follow place [name] = _
  rw [List.foldlM_cons, follow_name h.isDirectory hname]
  rfl

/-! ### Where paths lead if there are directories on the way -/

/-- The place that a part of a path leads to from a directory. -/
def step (l : Location) (part : Text) : Location :=
  if part.isEmpty || part = Text.ofString "." then l
  else if part = Path.up then l.dropLast else l ++ [part]

theorem eq_foldl_step : ∀ {parts : List Text} {l dest : Location},
    parts.foldlM d.follow l = .ok dest → dest = parts.foldl step l
  | [], _, _, h => (Except.ok.inj h).symm
  | part :: parts, l, dest, h => by
    rw [List.foldlM_cons] at h
    obtain ⟨next, hnext, h⟩ := bind_eq_ok_iff.mp h
    rw [List.foldl_cons, ← show next = step l part from (follow_eq_ok_iff.mp hnext).2]
    exact eq_foldl_step h

/-- The place that the path of a directory leads to, if it leads anywhere. -/
def home (d : Disk) (directory : Text) : Location :=
  (Path.parts directory).foldl step (d.start directory)

theorem home_congr (h : d'.current = d.current) (directory : Text) :
    d'.home directory = d.home directory := by
  unfold home start
  rw [h]

theorem Houses.home_eq (h : d.Houses directory place) : d.home directory = place :=
  (eq_foldl_step h.leads).symm

/-- A name in a directory leads nowhere else. -/
theorem eq_of_locate_join (hname : Path.IsName name)
    (h : d.locate (Path.join [directory, name]) = .ok l) : l = d.home directory ++ [name] := by
  rw [locate_join_eq d directory hname] at h
  rw [eq_foldl_step h, List.foldl_append]
  show step (d.home directory) name = _
  simp [step, hname.nonempty, hname.ne_here, hname.ne_up]

/-- Parts that are pushed one by one lead to where the parts that are left lead. -/
theorem foldlM_follow_push {rooted : Bool} {origin : Location}
    (hrooted : rooted = true → origin = [])
    {part : Text} {ps : List Text} {l dest : Location}
    (hps : ps.reverse.foldlM d.follow origin = .ok l) (hparts : ∀ p ∈ ps, Path.IsPart p)
    (hto : d.follow l part = .ok dest) :
    (Path.push rooted ps part).reverse.foldlM d.follow origin = .ok dest := by
  have happend (part : Text) (hto : d.follow l part = .ok dest) :
      (part :: ps).reverse.foldlM d.follow origin = .ok dest := by
    rw [List.reverse_cons, List.foldlM_append, hps]
    change List.foldlM d.follow l [part] = _
    rw [List.foldlM_cons, hto]
    rfl
  unfold Path.push
  split
  · rename_i hskip
    rw [follow_eq_ok_iff, if_pos hskip] at hto
    rw [hto.2, hps]
  · rename_i hskip
    split
    · rename_i hup
      subst hup
      cases ps with
      | nil =>
        cases hr : rooted with
        | true =>
          -- above the root is the root
          have hl : l = [] := by
            rw [← hrooted hr]
            exact (Except.ok.inj hps).symm
          rw [follow_eq_ok_iff, if_neg hskip, if_pos rfl, hl] at hto
          rw [hto.2]
          exact congrArg Except.ok (hrooted hr)
        | false => exact happend _ hto
      | cons last rest =>
        dsimp only
        split
        · exact happend _ hto
        · rename_i hlast
          -- a name that is left again
          rw [List.reverse_cons, List.foldlM_append] at hps
          obtain ⟨l₀, hl₀, hps⟩ := bind_eq_ok_iff.mp hps
          have hstep : d.follow l₀ last = .ok l := by
            rw [List.foldlM_cons] at hps
            obtain ⟨l₁, hl₁, hend⟩ := bind_eq_ok_iff.mp hps
            rw [hl₁]
            exact hend
          have hname := hparts last List.mem_cons_self
          rw [follow_eq_ok_iff, if_neg (by simp [hname.nonempty, hname.ne_here]), if_neg hlast]
            at hstep
          rw [follow_eq_ok_iff, if_neg hskip, if_pos rfl, hstep.2, List.dropLast_concat] at hto
          rw [hto.2]
          exact hl₀
    · exact happend _ hto

/-- A path to a directory still leads there after it is made shorter. -/
theorem houses_of_locate (hplace : d.locate directory = .ok place)
    (hdirectory : d.get? place = some .directory) : d.Houses directory place := by
  refine ⟨?_, hdirectory⟩
  -- the parts that are left lead where the parts that are read so far lead
  have hfold : ∀ (cut : List Text) (ps : List Text) (l : Location),
      (∀ p ∈ ps, Path.IsPart p) → (∀ part ∈ cut, Path.slash ∉ part) →
      ps.reverse.foldlM d.follow (d.start directory) = .ok l →
      cut.foldlM d.follow l = .ok place →
      (cut.foldl (Path.push (Path.isAbsolute directory)) ps).reverse.foldlM d.follow
        (d.start directory) = .ok place := by
    intro cut
    induction cut with
    | nil =>
      intro ps l _ _ hps hend
      rw [← hend]
      exact hps
    | cons part cut ih =>
      intro ps l hparts hcut hps hend
      rw [List.foldlM_cons] at hend
      obtain ⟨dest, hto, hend⟩ := bind_eq_ok_iff.mp hend
      refine ih _ dest (Path.isPart_of_mem_push hparts (hcut part List.mem_cons_self))
        (fun p hp => hcut p (List.mem_cons_of_mem _ hp)) ?_ hend
      refine foldlM_follow_push (fun hr => ?_) hps hparts hto
      rw [start, if_pos hr]
  unfold locate at hplace
  split at hplace
  · cases hplace
  · exact hfold _ [] _ (fun _ h => nomatch h) (fun _ h => Text.not_mem_of_mem_splitAt h) rfl hplace

theorem stat_eq_ok_iff {entry : DiskEntry} :
    d.stat path = .ok entry ↔ ∃ l, d.locate path = .ok l ∧ d.get? l = some entry := by
  unfold stat
  cases d.locate path with
  | error cause => simp [bind, Except.bind]
  | ok l =>
    simp only [bind, Except.bind, Except.ok.injEq, exists_eq_left']
    cases d.get? l with
    | none => simp
    | some entry' => simp

theorem isDirectory_iff :
    d.isDirectory path = true ↔ ∃ l, d.locate path = .ok l ∧ d.get? l = some .directory := by
  rw [← stat_eq_ok_iff]
  unfold isDirectory
  split
  · rename_i h
    simp [h]
  · rename_i h
    simpa using h

/-! ## Directories -/

/-- Two disks with the same directories. -/
structure SameDirectories (d d' : Disk) : Prop where
  current : d'.current = d.current
  iff : ∀ l, d'.get? l = some .directory ↔ d.get? l = some .directory

namespace SameDirectories

theorem refl (d : Disk) : d.SameDirectories d := ⟨rfl, fun _ => Iff.rfl⟩

theorem trans {d'' : Disk} (h : d.SameDirectories d') (h' : d'.SameDirectories d'') :
    d.SameDirectories d'' :=
  ⟨h'.current.trans h.current, fun l => (h'.iff l).trans (h.iff l)⟩

theorem symm (h : d.SameDirectories d') : d'.SameDirectories d :=
  ⟨h.current.symm, fun l => (h.iff l).symm⟩

theorem foldlM_follow (h : d.SameDirectories d') : ∀ {parts : List Text} {l dest : Location},
    parts.foldlM d.follow l = .ok dest → parts.foldlM d'.follow l = .ok dest
  | [], _, _, hto => hto
  | part :: parts, l, dest, hto => by
    rw [List.foldlM_cons] at hto ⊢
    obtain ⟨next, hnext, hto⟩ := bind_eq_ok_iff.mp hto
    rw [follow_eq_ok_iff] at hnext
    refine bind_eq_ok_iff.mpr ⟨next, ?_, h.foldlM_follow hto⟩
    rw [follow_eq_ok_iff]
    exact ⟨(h.iff l).mpr hnext.1, hnext.2⟩

/-- A path leads to the same place. -/
theorem locate (h : d.SameDirectories d') {dest : Location} (hto : d.locate path = .ok dest) :
    d'.locate path = .ok dest := by
  unfold Disk.locate at hto ⊢
  split at hto
  · cases hto
  · rename_i hpath
    rw [if_neg hpath, h.current]
    exact h.foldlM_follow hto

theorem houses (h : d.SameDirectories d') (hd : d.Houses directory place) :
    d'.Houses directory place := by
  refine ⟨?_, (h.iff place).mpr hd.isDirectory⟩
  have hleads := hd.leads
  unfold start at hleads ⊢
  rw [h.current]
  exact h.foldlM_follow hleads

end SameDirectories

theorem sameDirectories_put_file {content : Text} (hl : d.get? l ≠ some .directory) :
    d.SameDirectories (d.put l (.file content)) := by
  have hne : l ≠ [] := fun h => hl (h ▸ get?_nil d)
  refine ⟨rfl, fun l' => ?_⟩
  rw [get?_put hne]
  split
  · rename_i h
    subst h
    simp [hl]
  · exact Iff.rfl

theorem sameDirectories_erase (hl : d.get? l ≠ some .directory) :
    d.SameDirectories (d.erase l) := by
  have hne : l ≠ [] := fun h => hl (h ▸ get?_nil d)
  refine ⟨rfl, fun l' => ?_⟩
  rw [get?_erase hne]
  split
  · rename_i h
    subst h
    simp [hl]
  · exact Iff.rfl

theorem SameDirectories.isDirectory (h : d.SameDirectories d') (hd : d.isDirectory path = true) :
    d'.isDirectory path = true := by
  rw [isDirectory_iff] at hd ⊢
  obtain ⟨l, hl, hget⟩ := hd
  exact ⟨l, h.locate hl, (h.iff l).mpr hget⟩

/-- What stands in a directory has a name there. -/
theorem mem_names {entry : DiskEntry} (h : d.get? (place ++ [name]) = some entry) :
    name ∈ d.names place := by
  have hne : (place ++ [name]).isEmpty = false := by simp
  simp only [get?, hne, Bool.false_eq_true, if_false] at h
  obtain ⟨e, hfind, -⟩ := Option.map_eq_some_iff.mp h
  have hkey : e.1 = place ++ [name] := by simpa using List.find?_some hfind
  refine List.mem_filterMap.mpr ⟨e, List.mem_of_find?_eq_some hfind, ?_⟩
  simp [hkey]

/-- Nothing is made if a directory is there. -/
theorem makeDirectories_of_isDirectory (h : d.isDirectory path = true) :
    d.makeDirectories path = .ok d := by
  have hstat : d.stat path = .ok .directory := by
    rw [stat_eq_ok_iff]
    exact isDirectory_iff.mp h
  unfold makeDirectories makeWithin
  rw [hstat]

/-! ## Files -/

theorem read?_eq_some_iff {content : Text} :
    d.read? path = some content ↔ ∃ l, d.locate path = .ok l ∧ d.get? l = some (.file content) := by
  unfold read? read stat
  cases hlocate : d.locate path with
  | error cause => simp [bind, Except.bind, Except.toOption]
  | ok l =>
    simp only [bind, Except.bind, Except.ok.injEq, exists_eq_left']
    cases hget : d.get? l with
    | none => simp [Except.toOption]
    | some entry =>
      cases entry with
      | directory => simp [Except.toOption]
      | file content' => simp [Except.toOption]

theorem read_eq_ok_iff {content : Text} :
    d.read path = .ok content ↔ d.read? path = some content := by
  unfold read?
  cases d.read path with
  | error e => simp [Except.toOption]
  | ok c => simp [Except.toOption]

theorem write_eq_ok_iff {content : Text} :
    d.write path content = .ok d' ↔ ∃ l, d.locate path = .ok l ∧ d.get? l ≠ some .directory ∧
      d' = d.put l (.file content) := by
  unfold write
  split
  · rename_i hlocate
    simp [hlocate]
  · rename_i l hlocate
    simp only [hlocate, Except.ok.injEq, exists_eq_left']
    split
    · rename_i hget
      simp [hget]
    · rename_i hget
      have hfile : d.get? l ≠ some .directory := hget
      simp [hfile, eq_comm]

/-- What is removed is a file, if the path does not name a directory. -/
theorem discard_cases (h : ∀ l, d.locate path = .ok l → d.get? l ≠ some .directory) :
    d.discard path = d ∨ ∃ l, d.locate path = .ok l ∧ d.discard path = d.erase l := by
  unfold discard remove
  cases hlocate : d.locate path with
  | error cause => exact .inl rfl
  | ok l =>
    dsimp only
    cases hget : d.get? l with
    | none => exact .inl rfl
    | some entry =>
      cases entry with
      | directory => exact absurd hget (h l hlocate)
      | file content => exact .inr ⟨l, rfl, rfl⟩

theorem sameDirectories_write {content : Text} (h : d.write path content = .ok d') :
    d.SameDirectories d' := by
  obtain ⟨l, -, hl, rfl⟩ := write_eq_ok_iff.mp h
  exact sameDirectories_put_file hl

theorem sameDirectories_discard (h : ∀ l, d.locate path = .ok l → d.get? l ≠ some .directory) :
    d.SameDirectories (d.discard path) := by
  rcases discard_cases h with hsame | ⟨l, hl, herase⟩
  · rw [hsame]
    exact .refl d
  · rw [herase]
    exact sameDirectories_erase (h l hl)

/-- What stands at a place after a file is written. -/
theorem get?_write {content : Text} (h : d.write path content = .ok d') (hl : d.locate path = .ok l)
    (l' : Location) : d'.get? l' = if l' = l then some (.file content) else d.get? l' := by
  obtain ⟨l₀, hl₀, hget, rfl⟩ := write_eq_ok_iff.mp h
  obtain rfl := Except.ok.inj (hl₀.symm.trans hl)
  have hne : l₀ ≠ [] := fun h => hget (h ▸ get?_nil d)
  exact get?_put hne _ l'

/-- What stands at a place after a file is removed. -/
theorem get?_discard (hl : d.locate path = .ok l) (hfile : d.get? l ≠ some .directory)
    (l' : Location) : (d.discard path).get? l' = if l' = l then none else d.get? l' := by
  have hne : l ≠ [] := fun h => hfile (h ▸ get?_nil d)
  unfold discard remove
  rw [hl]
  dsimp only
  cases hget : d.get? l with
  | none =>
    dsimp only
    split
    · rename_i h
      rw [h, hget]
    · rfl
  | some entry =>
    cases entry with
    | directory => exact absurd hget hfile
    | file content => exact get?_erase hne l'

/-- Files were removed, and nothing else. -/
structure Loses (d d' : Disk) : Prop where
  directories : d.SameDirectories d'
  left : ∀ l, d'.get? l = none ∨ d'.get? l = d.get? l

theorem Loses.refl (d : Disk) : d.Loses d := ⟨.refl d, fun _ => .inr rfl⟩

theorem Loses.trans {d'' : Disk} (h : d.Loses d') (h' : d'.Loses d'') : d.Loses d'' := by
  refine ⟨h.directories.trans h'.directories, fun l => ?_⟩
  rcases h'.left l with hnone | hsame
  · exact .inl hnone
  · rw [hsame]
    exact h.left l

theorem loses_discard (h : d.isFile path = true) : d.Loses (d.discard path) := by
  obtain ⟨content, hstat⟩ : ∃ content, d.stat path = .ok (.file content) := by
    unfold isFile at h
    split at h
    · exact ⟨_, by assumption⟩
    · cases h
  obtain ⟨l, hl, hget⟩ := stat_eq_ok_iff.mp hstat
  have hfile : d.get? l ≠ some .directory := by
    rw [hget]
    exact nofun
  refine ⟨sameDirectories_discard fun l' hl' => ?_, fun l' => ?_⟩
  · obtain rfl := Except.ok.inj (hl.symm.trans hl')
    exact hfile
  · rw [get?_discard hl hfile]
    split
    · exact .inl rfl
    · exact .inr rfl

/-! ## Files at one place -/

/-- A file at a place stood there before, or was written. Directories may have come and gone. -/
structure Keeps (l : Location) (written : Text → Prop) (d d' : Disk) : Prop where
  current : d'.current = d.current
  file : ∀ content, d'.get? l = some (.file content) →
    d.get? l = some (.file content) ∨ written content

section Keeps

variable {written : Text → Prop} {d'' : Disk}

theorem Keeps.refl (l : Location) (written : Text → Prop) (d : Disk) : Keeps l written d d :=
  ⟨rfl, fun _ => .inl⟩

theorem Keeps.trans (h : Keeps l written d d') (h' : Keeps l written d' d'') :
    Keeps l written d d'' := by
  refine ⟨h'.current.trans h.current, fun content hcontent => ?_⟩
  rcases h'.file content hcontent with hbefore | hwritten
  · exact h.file content hbefore
  · exact .inr hwritten

theorem Loses.keeps (h : d.Loses d') : Keeps l written d d' := by
  refine ⟨h.directories.current, fun content hcontent => .inl ?_⟩
  rcases h.left l with hnone | hsame
  · rw [hnone] at hcontent
    cases hcontent
  · rw [← hsame, hcontent]

theorem keeps_write {content : Text} (h : d.write path content = .ok d')
    (hl : d.locate path = .ok l → written content) : Keeps l written d d' := by
  obtain ⟨l₀, hl₀, hget, rfl⟩ := write_eq_ok_iff.mp h
  have hne : l₀ ≠ [] := fun h => hget (h ▸ get?_nil d)
  refine ⟨rfl, fun content' hcontent => ?_⟩
  rw [get?_put hne] at hcontent
  split at hcontent
  · rename_i hsame
    subst hsame
    cases hcontent
    exact .inr (hl hl₀)
  · exact .inl hcontent

theorem keeps_erase (l₀ : Location) (d : Disk) : Keeps l written d (d.erase l₀) := by
  refine ⟨rfl, fun content hcontent => .inl ?_⟩
  by_cases hnil : l₀ = []
  · -- the root is still a directory, and every other place is as it was
    subst hnil
    by_cases hl : l = []
    · subst hl
      cases hcontent
    · rw [← hcontent]
      simp only [get?, erase, List.isEmpty_iff, hl, if_false, List.find?_filter]
      congr 2
      funext e
      by_cases he : e.1 = l <;> simp [he, hl]
  · rw [get?_erase hnil] at hcontent
    split at hcontent
    · cases hcontent
    · exact hcontent

theorem keeps_discard (path : Text) (d : Disk) : Keeps l written d (d.discard path) := by
  unfold discard remove
  cases d.locate path with
  | error cause => exact .refl l written d
  | ok l₀ =>
    dsimp only
    cases d.get? l₀ with
    | none => exact .refl l written d
    | some entry =>
      cases entry with
      | file content => exact keeps_erase l₀ d
      | directory =>
        cases (d.names l₀).isEmpty with
        | true => exact keeps_erase l₀ d
        | false => exact .refl l written d

theorem keeps_makeDirectory (h : d.makeDirectory path = .ok d') : Keeps l written d d' := by
  unfold makeDirectory at h
  split at h
  · cases h
  · rename_i l₀ _
    split at h
    · cases h
    · rename_i hnone
      have hne : l₀ ≠ [] := by
        rintro rfl
        cases hnone
      cases h
      refine ⟨rfl, fun content hcontent => .inl ?_⟩
      rw [get?_put hne] at hcontent
      split at hcontent
      · cases hcontent
      · exact hcontent

theorem keeps_makeWithin : ∀ {bound : Nat} {d d' : Disk} {path : Text},
    makeWithin bound d path = .ok d' → Keeps l written d d'
  | 0, d, d', path, h => by
    cases h
    exact .refl l written d
  | bound + 1, d, d', path, h => by
    unfold makeWithin at h
    split at h
    · cases h
      exact .refl l written d
    · cases h
    · -- the directories above are made first
      obtain ⟨above, hfirst, h⟩ : ∃ above : Disk, Keeps l written d above ∧
          (above.makeDirectory path = .ok d' ∨ above = d') := by
        dsimp only at h
        split at h
        all_goals
          obtain ⟨above, habove, h⟩ := bind_eq_ok_iff.mp h
          have hmade : above.makeDirectory path = .ok d' ∨ above = d' := by
            split at h
            · rename_i hmade
              cases h
              exact .inl hmade
            · split at h
              · exact .inr (Except.ok.inj h)
              · cases h
        · cases habove
          exact ⟨_, .refl l written d, hmade⟩
        · exact ⟨above, keeps_makeWithin habove, hmade⟩
      rcases h with hmade | rfl
      · exact hfirst.trans (keeps_makeDirectory hmade)
      · exact hfirst

theorem keeps_makeDirectories (h : d.makeDirectories path = .ok d') : Keeps l written d d' :=
  keeps_makeWithin h

end Keeps

end Disk

end Toolchain

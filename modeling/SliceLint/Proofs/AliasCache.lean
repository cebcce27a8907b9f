import Mathlib.Data.Finset.Card
import Mathlib.Data.List.Defs
import SliceLint.AliasCache
import SliceLint.Proofs.AliasSource

set_option autoImplicit false

/-! # What a cache remembers

A cache is asked for the aliases of files while the files change around it and it is cleared now and
then. What it answers is told by a log of the lookups since the last clearing, each with the files
as they were: the aliases of the asked file's directory at the time of the first lookup with the same
key (`AliasCache.get_after`). The log is kept without any cache.

The cache keeps one entry for each key of the log (`Remembers`). An entry is found from a key that
only has the same components, and it was made from the key and not from the directory; both are
sound because neither changes the aliases of a directory. -/

namespace SliceLint

/-! ## Keys -/

namespace AliasCache

/-- The directory of a file. -/
def directory (file : String) : String :=
  (Path.parent? file).getD ""

end AliasCache

open AliasCache (directory)

/-- What the aliases of a file depend on, the files apart: nothing if the options determine them,
else the directory of the file. -/
def AliasOptions.keyOf (o : AliasOptions) (file : String) : Option (List Path.Component) :=
  if o.aliases ≠ [] ∨ o.document.isSome = true then none
  else some (Path.components (directory file))

namespace AliasCache

variable {c : AliasCache}

theorem key_of_explicit (h : c.options.aliases ≠ [] ∨ c.options.document.isSome = true)
    (f g : String) : c.key f = c.key g := by
  unfold key
  by_cases haliases : c.options.aliases ≠ []
  · rw [if_pos haliases, if_pos haliases]
  · obtain ⟨path, hpath⟩ := Option.isSome_iff_exists.1 (h.resolve_left haliases)
    simp only [hpath]

theorem key_of_search (h : ¬ (c.options.aliases ≠ [] ∨ c.options.document.isSome = true))
    (file : String) : c.key file = directory file := by
  rw [not_or] at h
  have hnone : c.options.document = none := by simpa using h.2
  simp only [key, if_neg h.1, hnone]
  rfl

/-- Two files share an entry exactly if their aliases depend on the same. -/
theorem equal_key_iff (f g : String) :
    Path.equal (c.key f) (c.key g) = true ↔ c.options.keyOf f = c.options.keyOf g := by
  unfold Path.equal AliasOptions.keyOf
  by_cases h : c.options.aliases ≠ [] ∨ c.options.document.isSome = true
  · rw [if_pos h, if_pos h, key_of_explicit h f g]
    simp
  · rw [if_neg h, if_neg h, key_of_search h, key_of_search h]
    simp

/-- What is looked for under a key is what the directory of the file has. -/
theorem resolve_start? (w : Workspace) (file : String) :
    c.options.resolve w (start? (c.key file)) = c.options.resolve w (some (directory file)) := by
  by_cases h : c.options.aliases ≠ [] ∨ c.options.document.isSome = true
  · exact c.options.resolve_of_explicit w h _ _
  · rw [key_of_search h, start?]
    split
    · next hempty =>
        rw [String.isEmpty_iff.1 hempty, AliasOptions.resolve_empty]
    · rfl

theorem resolve_eq_of_keyOf {o : AliasOptions} (w : Workspace) {f g : String}
    (h : o.keyOf f = o.keyOf g) :
    o.resolve w (some (directory f)) = o.resolve w (some (directory g)) := by
  unfold AliasOptions.keyOf at h
  by_cases hexplicit : o.aliases ≠ [] ∨ o.document.isSome = true
  · exact o.resolve_of_explicit w hexplicit _ _
  · rw [if_neg hexplicit, if_neg hexplicit] at h
    exact o.resolve_congr w (Option.some.inj h)

/-! ## One lookup -/

@[simp] theorem get_options (w : Workspace) (c : AliasCache) (file : String) :
    (c.get w file).2.options = c.options := by
  unfold get
  simp only
  split <;> rfl

theorem key_congr {c c' : AliasCache} (h : c.options = c'.options) (file : String) :
    c.key file = c'.key file := by
  rw [key, key, h]

/-- What a lookup finds, and what is found afterwards. -/
theorem get_cases (w : Workspace) (c : AliasCache) (file : String) :
    (∃ set, c.find? (c.key file) = some set ∧ c.get w file = (set, c)) ∨
      (c.find? (c.key file) = none ∧
        ∃ set, set = c.options.resolve w (some (directory file)) ∧ (c.get w file).1 = set ∧
          (c.get w file).2 = ⟨c.options, c.entries ++ [(c.key file, set)]⟩) := by
  unfold get
  cases hfound : c.find? (c.key file) with
  | some set => exact Or.inl ⟨set, rfl, by simp [hfound]⟩
  | none => exact Or.inr ⟨rfl, _, rfl, by simp [hfound, resolve_start?]⟩

theorem find?_append (c : AliasCache) (key other : String) (set : AliasSet) :
    find? ⟨c.options, c.entries ++ [(key, set)]⟩ other
      = (c.find? other).or (if Path.equal key other = true then some set else none) := by
  unfold find?
  rw [List.find?_append]
  cases h : c.entries.find? fun e => Path.equal e.1 other with
  | some e => simp
  | none =>
      by_cases hkey : Path.equal key other = true
      · simp [hkey]
      · simp [hkey]

/-- A second lookup of a file gives what the first one gave. -/
theorem get_get (w w' : Workspace) (c : AliasCache) (file : String) :
    ((c.get w file).2.get w' file).1 = (c.get w file).1 := by
  have hkey : (c.get w file).2.key file = c.key file := key_congr (get_options w c file) file
  have hfound : (c.get w file).2.find? (c.key file) = some (c.get w file).1 := by
    rcases get_cases w c file with ⟨set, hset, hget⟩ | ⟨hnone, set, -, hfirst, hsecond⟩
    · rw [hget, hset]
    · have hself : Path.equal (c.key file) (c.key file) = true := (equal_key_iff file file).2 rfl
      rw [hsecond, hfirst, find?_append, hnone, if_pos hself]
      rfl
  rcases get_cases w' (c.get w file).2 file with ⟨set, hset, hget⟩ | ⟨hnone, -⟩
  · rw [hkey, hfound] at hset
    rw [hget, Option.some.inj hset]
  · rw [hkey, hfound] at hnone
    cases hnone

end AliasCache

/-! ## Many lookups -/

/-- What can happen around a cache. -/
inductive CacheEvent where
  /-- The files become others. -/
  | change (tree : FileTree)
  /-- The aliases of a file are asked for. -/
  | lookup (file : String)
  /-- The cache is cleared. -/
  | clear

/-- A cache, and the files as they are. -/
structure CacheState where
  workspace : Workspace
  cache : AliasCache

namespace CacheState

/-- What an event does to the cache and the files. -/
def step (s : CacheState) : CacheEvent → CacheState
  | .change tree => { s with workspace := { s.workspace with tree := tree } }
  | .lookup file => { s with cache := (s.cache.get s.workspace file).2 }
  | .clear => { s with cache := s.cache.clear }

/-- The state after some events, from a new cache on. -/
def after (o : AliasOptions) (w : Workspace) (events : List CacheEvent) : CacheState :=
  events.foldl step ⟨w, .ofOptions o⟩

end CacheState

/-- The files as they are, and the lookups since the last clearing, each with the files as they were
then. -/
structure LookupLog where
  workspace : Workspace
  lookups : List (String × Workspace)

namespace LookupLog

/-- What an event adds to the log. -/
def step (log : LookupLog) : CacheEvent → LookupLog
  | .change tree => { log with workspace := { log.workspace with tree := tree } }
  | .lookup file => { log with lookups := log.lookups ++ [(file, log.workspace)] }
  | .clear => { log with lookups := [] }

/-- The log of some events. -/
def of (w : Workspace) (events : List CacheEvent) : LookupLog :=
  events.foldl step ⟨w, []⟩

/-- The first lookup with the key of a file. -/
def first? (log : LookupLog) (o : AliasOptions) (file : String) : Option (String × Workspace) :=
  log.lookups.find? fun l => o.keyOf l.1 = o.keyOf file

/-- The files as they were at the first lookup with the key of a file, and as they are if there was
none. -/
def snapshot (log : LookupLog) (o : AliasOptions) (file : String) : Workspace :=
  ((log.first? o file).map (·.2)).getD log.workspace

/-- The different keys that were looked up. -/
def keys (log : LookupLog) (o : AliasOptions) : Finset (Option (List Path.Component)) :=
  (log.lookups.map fun l => o.keyOf l.1).toFinset

theorem first?_eq_none_iff {log : LookupLog} {o : AliasOptions} {file : String} :
    log.first? o file = none ↔ o.keyOf file ∉ log.keys o := by
  simp [first?, keys, List.find?_eq_none]

theorem first?_lookup (log : LookupLog) (o : AliasOptions) (file other : String) :
    (log.step (.lookup file)).first? o other
      = (log.first? o other).or
        (if o.keyOf file = o.keyOf other then some (file, log.workspace) else none) := by
  unfold first? step
  rw [List.find?_append]
  congr 1
  by_cases hkey : o.keyOf file = o.keyOf other <;> simp [hkey]

theorem keys_lookup (log : LookupLog) (o : AliasOptions) (file : String) :
    (log.step (.lookup file)).keys o = insert (o.keyOf file) (log.keys o) := by
  ext key
  simp [keys, step]

end LookupLog

/-! ## What is remembered -/

/-- A cache remembers, for each key of the log, what the first lookup with that key found, and
nothing else. -/
structure Remembers (o : AliasOptions) (log : LookupLog) (s : CacheState) : Prop where
  workspace : s.workspace = log.workspace
  options : s.cache.options = o
  find? : ∀ file, s.cache.find? (s.cache.key file)
    = (log.first? o file).map fun l => o.resolve l.2 (some (directory l.1))
  size : s.cache.size = (log.keys o).card

namespace Remembers

variable {o : AliasOptions} {log : LookupLog} {s : CacheState}

theorem start (o : AliasOptions) (w : Workspace) :
    Remembers o ⟨w, []⟩ ⟨w, .ofOptions o⟩ :=
  ⟨rfl, rfl, fun _ => rfl, rfl⟩

/-- A lookup adds an entry exactly if it adds a key to the log. -/
theorem lookup (h : Remembers o log s) (file : String) :
    Remembers o (log.step (.lookup file)) (s.step (.lookup file)) := by
  have hoptions : (s.step (.lookup file)).cache.options = o :=
    (AliasCache.get_options _ _ _).trans h.options
  have hkey : ∀ other, (s.step (.lookup file)).cache.key other = s.cache.key other :=
    fun other => AliasCache.key_congr (hoptions.trans h.options.symm) other
  have hcache : (s.step (.lookup file)).cache = (s.cache.get s.workspace file).2 := rfl
  rcases AliasCache.get_cases s.workspace s.cache file with
    ⟨set, hset, hget⟩ | ⟨hnone, set, hresolve, -, hget⟩
  · -- The key is in the log already: neither the first lookups nor the keys change.
    rw [hget] at hcache
    have hmem : o.keyOf file ∈ log.keys o := by
      by_contra hnot
      rw [h.find?, LookupLog.first?_eq_none_iff.2 hnot] at hset
      cases hset
    refine ⟨h.workspace, hoptions, fun other => ?_, ?_⟩
    · rw [hkey, hcache, h.find?, LookupLog.first?_lookup]
      cases hfirst : log.first? o other with
      | some l => rfl
      | none =>
          rw [if_neg]
          · rfl
          · intro hsame
            exact LookupLog.first?_eq_none_iff.1 hfirst (hsame ▸ hmem)
    · rw [hcache, LookupLog.keys_lookup, Finset.insert_eq_of_mem hmem, h.size]
  · -- The key is new, and so is the entry for it.
    rw [hget] at hcache
    have hnew : o.keyOf file ∉ log.keys o := by
      rw [h.find?, Option.map_eq_none_iff] at hnone
      exact LookupLog.first?_eq_none_iff.1 hnone
    refine ⟨h.workspace, hoptions, fun other => ?_, ?_⟩
    · rw [hkey, hcache, AliasCache.find?_append, h.find?, LookupLog.first?_lookup,
        Option.map_or]
      simp only [AliasCache.equal_key_iff, h.options]
      by_cases hsame : o.keyOf file = o.keyOf other
      · rw [if_pos hsame, if_pos hsame, hresolve, h.options, h.workspace]
        rfl
      · rw [if_neg hsame, if_neg hsame]
        rfl
    · rw [hcache, LookupLog.keys_lookup, Finset.card_insert_of_notMem hnew, ← h.size]
      simp [AliasCache.size]

theorem step (h : Remembers o log s) : ∀ event, Remembers o (log.step event) (s.step event)
  | .change tree => by
      refine ⟨?_, h.options, h.find?, h.size⟩
      simp only [CacheState.step, LookupLog.step, h.workspace]
  | .lookup file => h.lookup file
  | .clear => ⟨h.workspace, h.options, fun _ => rfl, rfl⟩

theorem foldl (h : Remembers o log s) (events : List CacheEvent) :
    Remembers o (events.foldl LookupLog.step log) (events.foldl CacheState.step s) := by
  induction events generalizing log s with
  | nil => exact h
  | cons event events ih => exact ih (h.step event)

theorem after (o : AliasOptions) (w : Workspace) (events : List CacheEvent) :
    Remembers o (LookupLog.of w events) (CacheState.after o w events) :=
  (start o w).foldl events

/-- The answer to a lookup is that of the first lookup with its key. -/
theorem get_eq (h : Remembers o log s) (file : String) :
    (s.cache.get s.workspace file).1
      = o.resolve (log.snapshot o file) (some (directory file)) := by
  unfold LookupLog.snapshot
  rcases AliasCache.get_cases s.workspace s.cache file with
    ⟨set, hset, hget⟩ | ⟨hnone, set, hresolve, hget, -⟩
  · rw [h.find?, Option.map_eq_some_iff] at hset
    obtain ⟨l, hfirst, hl⟩ := hset
    have hkey : o.keyOf l.1 = o.keyOf file := by simpa using List.find?_some hfirst
    rw [hget, hfirst, ← hl]
    exact AliasCache.resolve_eq_of_keyOf l.2 hkey
  · rw [h.find?, Option.map_eq_none_iff] at hnone
    rw [hget, hresolve, hnone, h.options, h.workspace]
    rfl

end Remembers

/-- If the files are as they were at every lookup since the last clearing, so is the snapshot. -/
theorem LookupLog.snapshot_eq {log : LookupLog} (h : ∀ l ∈ log.lookups, l.2 = log.workspace)
    (o : AliasOptions) (file : String) : log.snapshot o file = log.workspace := by
  unfold snapshot
  cases hfirst : log.first? o file with
  | none => rfl
  | some l => exact h l (List.mem_of_find?_eq_some hfirst)

/-- After any events, a lookup gives the aliases that the directory of the file had at the first
lookup with the same key since the last clearing, which are those it has now if the files are as
they were at every lookup since; and the cache has an entry for each key. -/
theorem AliasCache.get_after (o : AliasOptions) (w : Workspace) (events : List CacheEvent)
    (file : String) :
    let log := LookupLog.of w events
    let s := CacheState.after o w events
    (s.cache.get s.workspace file).1 = o.resolve (log.snapshot o file) (some (directory file))
      ∧ ((∀ l ∈ log.lookups, l.2 = s.workspace) →
          (s.cache.get s.workspace file).1 = o.resolve s.workspace (some (directory file)))
      ∧ s.cache.size = (log.keys o).card := by
  intro log s
  have h : Remembers o log s := Remembers.after o w events
  refine ⟨h.get_eq file, fun hsame => ?_, h.size⟩
  rw [h.get_eq, h.workspace]
  rw [h.workspace] at hsame
  rw [LookupLog.snapshot_eq hsame]

/-- A directory with a document that gives an alias. -/
def configured : Workspace where
  tree.files :=
    [(["src", "tsconfig.json"],
      "\x7b\"compilerOptions\":\x7b\"paths\":\x7b\"~/*\":[\"./*\"]\x7d\x7d\x7d".toUTF8)]
  tree.directories := [["src"]]
  cwd := []

/-- A document that is gone is remembered until the cache is cleared, also for a directory that is
written in another way. -/
theorem AliasCache.get_after_change :
    let events := [CacheEvent.lookup "src/a.ts", .change .empty]
    let s := CacheState.after .empty configured events
    let t := CacheState.after .empty configured (events ++ [.clear, .lookup "src/c.ts"])
    ((s.cache.get s.workspace "src/./b.ts").1 = ⟨["~/"]⟩ ∧ s.cache.size = 1)
      ∧ ((t.cache.get t.workspace "src/./b.ts").1 = .fallback ∧ t.cache.size = 1) := by
  intro events s t
  obtain ⟨hs, -, hsize⟩ := get_after .empty configured events "src/./b.ts"
  obtain ⟨-, ht, htsize⟩ :=
    get_after .empty configured (events ++ [.clear, .lookup "src/c.ts"]) "src/./b.ts"
  have hsame : ∀ l ∈ (LookupLog.of configured (events ++ [.clear, .lookup "src/c.ts"])).lookups,
      l.2 = t.workspace := by
    intro l hl
    rw [List.mem_singleton.1 hl]
    rfl
  exact ⟨⟨hs.trans (by decide +kernel), hsize.trans (by decide +kernel)⟩,
    (ht hsame).trans (by decide +kernel), htsize.trans (by decide +kernel)⟩

end SliceLint

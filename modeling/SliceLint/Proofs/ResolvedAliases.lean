import Mathlib.Data.List.Basic
import SliceLint.AliasOptions
import SliceLint.Proofs.AliasSet
import SliceLint.Proofs.Edge
import SliceLint.Proofs.Inheritance

set_option autoImplicit false

/-! # Aliases end in a slash

Aliases are given explicitly, read off the path patterns of a document, or assumed. Each way has its
own treatment of wildcards, but all of them make aliases that end in a slash, and at least one. So
an import is cut between two segments only. On a pattern that ends in a wildcard segment both
treatments agree, and a document has the aliases of its patterns given explicitly
(`AliasOptions.resolve_usable`). -/

namespace SliceLint

theorem Text.dropSuffix?_eq_some_iff {tail s front : String} :
    dropSuffix? tail s = some front ↔ s = front ++ tail := by
  constructor
  · intro h
    obtain ⟨cs, hcs, rfl⟩ := Option.map_eq_some_iff.1 h
    apply String.toList_injective
    simpa using (List.isSuffixOf?_eq_some_iff_append_eq.1 hcs).symm
  · rintro rfl
    exact Option.map_eq_some_iff.2
      ⟨front.toList, List.isSuffixOf?_eq_some_iff_append_eq.2 (by simp), by simp⟩

/-! ## Repetitions -/

namespace AliasSet

theorem nodup_firstOccurrences (xs : List String) : (firstOccurrences xs).Nodup := by
  have hordered := pairwise_firstOccurrences (fun _ => true) xs
  rw [List.filter_true] at hordered
  refine hordered.imp fun {a b} hlt heq => ?_
  rw [heq] at hlt
  exact Nat.lt_irrefl _ hlt

theorem firstOccurrences_of_nodup {xs : List String} (h : xs.Nodup) : firstOccurrences xs = xs := by
  induction xs using List.reverseRecOn with
  | nil => rfl
  | append_singleton xs x ih =>
      rw [List.nodup_append] at h
      have hnew : x ∉ xs := fun hx => h.2.2 x hx x (by simp) rfl
      rw [firstOccurrences_concat, ih h.1, if_neg hnew]

/-- Repetitions may be left out before a set is made. -/
theorem ofList_firstOccurrences {xs : List String} (h : "" ∉ xs) :
    ofList (firstOccurrences xs) = ofList xs := by
  have hkeep : ∀ ys : List String, (∀ a ∈ ys, a ∈ xs) → ys.filter (· ≠ "") = ys := by
    intro ys hys
    refine List.filter_eq_self.2 fun a ha => ?_
    have hne : a ≠ "" := fun he => h (he ▸ hys a ha)
    simpa using hne
  rw [ofList, ofList, hkeep xs fun a => id, hkeep _ fun a => mem_firstOccurrences.1,
    firstOccurrences_of_nodup (nodup_firstOccurrences xs)]

end AliasSet

/-! ## Wildcards -/

theorem ne_empty_of_endsWith_slash {s : String} (h : Text.endsWith "/" s = true) : s ≠ "" := by
  rintro rfl
  exact absurd h (by decide)

theorem endsWith_normalizeAlias (s : String) : Text.endsWith "/" (normalizeAlias s) = true := by
  simp only [normalizeAlias]
  split
  · assumption
  · exact Text.endsWith_iff.2 ⟨_, rfl⟩

namespace Document

/-- The path patterns of a document that end in a wildcard segment, in order. -/
def wildcardKeys (d : Document) : List String :=
  d.keys.filter (Text.endsWith "/*")

/-- Both treatments of wildcards make the same of a pattern that ends in a wildcard segment. -/
theorem aliasOfKey?_eq (key : String) :
    aliasOfKey? key = if Text.endsWith "/*" key then some (normalizeAlias key) else none := by
  by_cases h : Text.endsWith "/*" key = true
  · obtain ⟨stem, rfl⟩ := Text.endsWith_iff.1 h
    have hsegment : Text.dropSuffix? "/*" (stem ++ "/*") = some stem :=
      Text.dropSuffix?_eq_some_iff.2 rfl
    have hstar : Text.dropSuffix? "*" (stem ++ "/*") = some (stem ++ "/") :=
      Text.dropSuffix?_eq_some_iff.2 (by rw [String.append_assoc]; rfl)
    have hslash : Text.endsWith "/" (stem ++ "/") = true := Text.endsWith_iff.2 ⟨stem, rfl⟩
    simp [aliasOfKey?, normalizeAlias, h, hsegment, hstar, hslash]
  · rw [if_neg h, aliasOfKey?, Option.map_eq_none_iff, Option.eq_none_iff_forall_ne_some]
    intro stem hstem
    exact h (Text.endsWith_iff.2 ⟨stem, Text.dropSuffix?_eq_some_iff.1 hstem⟩)

theorem aliases_eq (d : Document) :
    d.aliases = AliasSet.firstOccurrences (d.wildcardKeys.map normalizeAlias) := by
  have hkeys : (d.paths.filterMap fun entry => aliasOfKey? entry.1)
      = d.wildcardKeys.map normalizeAlias := by
    rw [wildcardKeys, keys, ← List.filterMap_eq_map, List.filterMap_filter, List.filterMap_map]
    simp only [aliasOfKey?_eq]
    rfl
  rw [aliases, hkeys]
  rfl

end Document

/-! ## Where aliases come from -/

namespace AliasOptions

theorem endsWith_of_mem_map {keys : List String} {a : String} (h : a ∈ keys.map normalizeAlias) :
    Text.endsWith "/" a = true := by
  obtain ⟨key, -, rfl⟩ := List.mem_map.1 h
  exact endsWith_normalizeAlias key

theorem endsWith_of_mem_documentAliases {w : Workspace} {document start : Option String}
    {a : String} (h : a ∈ documentAliases w document start) : Text.endsWith "/" a = true := by
  unfold documentAliases at h
  split at h
  · next d _ =>
      rw [d.aliases_eq, AliasSet.mem_firstOccurrences] at h
      exact endsWith_of_mem_map h
  · cases h

/-- However aliases are found, the set is made from some that end in a slash. -/
theorem exists_resolve_eq (w : Workspace) (o : AliasOptions) (start : Option String) :
    ∃ xs, xs ≠ [] ∧ (∀ a ∈ xs, Text.endsWith "/" a = true) ∧
      o.resolve w start = AliasSet.ofList xs := by
  unfold resolve
  by_cases hexplicit : o.aliases ≠ []
  · rw [if_pos hexplicit]
    exact ⟨_, by simpa using hexplicit, fun a ha => endsWith_of_mem_map ha, rfl⟩
  · rw [if_neg hexplicit]
    cases hfound : documentAliases w o.document start with
    | nil => exact ⟨[AliasSet.defaultAlias], by simp, by decide +kernel, rfl⟩
    | cons a found =>
        refine ⟨a :: found, by simp, fun b hb => ?_, rfl⟩
        rw [← hfound] at hb
        exact endsWith_of_mem_documentAliases hb

/-- A document that has aliases has those of its wildcard patterns. -/
theorem resolve_of_document {w : Workspace} {o : AliasOptions} {start : Option String}
    {path : String} {d : Document} (hexplicit : o.aliases = [])
    (hsource : source? w o.document start = some path)
    (hload : Document.loadMerged? w path = some d) (hkeys : d.wildcardKeys ≠ []) :
    o.resolve w start = AliasSet.ofList (d.wildcardKeys.map normalizeAlias) := by
  have hfound : documentAliases w o.document start = d.aliases := by
    simp [documentAliases, hsource, hload]
  have hsome : d.aliases ≠ [] := by
    obtain ⟨key, hkey⟩ := List.exists_mem_of_ne_nil _ hkeys
    refine List.ne_nil_of_mem (a := normalizeAlias key) ?_
    rw [d.aliases_eq, AliasSet.mem_firstOccurrences]
    exact List.mem_map_of_mem hkey
  have hresolve : o.resolve w start = AliasSet.ofList d.aliases := by
    rw [resolve, if_neg (by simp [hexplicit]), hfound]
    cases haliases : d.aliases with
    | nil => exact absurd haliases hsome
    | cons a found => rfl
  rw [hresolve, d.aliases_eq, AliasSet.ofList_firstOccurrences]
  exact fun hempty => ne_empty_of_endsWith_slash (endsWith_of_mem_map hempty) rfl

end AliasOptions

/-- What is cut off an import is an alias of the set, and it stands in front of the target. -/
theorem Edge.slashed_eq_of_stripped {fromPath specifier a : String} {aliases : AliasSet} {e : Edge}
    (he : classify fromPath specifier aliases = e) (h : e.stripped = some a) :
    a ∈ aliases.aliases ∧ Text.slashed specifier = a ++ e.target := by
  have hrel : Specifier.isRelative specifier = false := by
    rw [← classify_relative fromPath specifier aliases, he, Bool.eq_false_iff]
    intro hrel
    rw [stripped_of_relative he hrel] at h
    cases h
  obtain ⟨htarget, hstripped⟩ := classify_of_absolute hrel fromPath aliases
  rw [he] at htarget hstripped
  rw [h] at hstripped
  have hcut := aliases.slashed_eq_strip specifier
  rw [← hstripped, ← htarget, Option.getD_some] at hcut
  rw [AliasSet.strip_snd] at hstripped
  exact ⟨List.mem_of_find?_eq_some hstripped.symm, hcut⟩

namespace AliasOptions

/-- Whatever the options and the files are, there is an alias, and all aliases end in a slash. So
what is cut off an import ends with a slash of its normalised specifier. The aliases of a document
with wildcard patterns are those of the patterns, in the document's order, given explicitly. -/
theorem resolve_usable (w : Workspace) (o : AliasOptions) (start : Option String) :
    (o.resolve w start).aliases ≠ [] ∧
      (∀ a ∈ (o.resolve w start).aliases, Text.endsWith "/" a = true) ∧
      (∀ (fromPath specifier : String) (e : Edge),
        Edge.classify fromPath specifier (o.resolve w start) = e → ∀ a, e.stripped = some a →
          ∃ front, a = front ++ "/" ∧ Text.slashed specifier = front ++ "/" ++ e.target) ∧
      ∀ (path : String) (d : Document), o.aliases = [] → source? w o.document start = some path →
        Document.loadMerged? w path = some d → d.wildcardKeys ≠ [] →
          ∀ document start',
            o.resolve w start = resolve w ⟨d.wildcardKeys, document⟩ start' := by
  obtain ⟨xs, hsome, hslash, hset⟩ := exists_resolve_eq w o start
  have hends : ∀ a ∈ (o.resolve w start).aliases, Text.endsWith "/" a = true := by
    intro a ha
    rw [hset, AliasSet.mem_aliases_ofList] at ha
    exact hslash a ha.1
  refine ⟨?_, hends, fun fromPath specifier e he a ha => ?_,
    fun path d hexplicit hsource hload hkeys document start' => ?_⟩
  · obtain ⟨a, ha⟩ := List.exists_mem_of_ne_nil xs hsome
    refine List.ne_nil_of_mem (a := a) ?_
    rw [hset, AliasSet.mem_aliases_ofList]
    exact ⟨ha, ne_empty_of_endsWith_slash (hslash a ha)⟩
  · obtain ⟨hmem, hcut⟩ := Edge.slashed_eq_of_stripped he ha
    obtain ⟨front, rfl⟩ := Text.endsWith_iff.1 (hends a hmem)
    exact ⟨front, rfl, hcut⟩
  · rw [resolve_of_document hexplicit hsource hload hkeys, resolve, if_pos hkeys]

/-- A document that extends another one, each with a wildcard pattern among others. -/
def extending : Workspace where
  tree.files :=
    [(["src", "tsconfig.json"],
      ("\x7b\"extends\":\"./base\",\"compilerOptions\":"
        ++ "\x7b\"paths\":\x7b\"@/*\":[],\"~/**\":[],\"ui\":[]\x7d\x7d\x7d").toUTF8),
     (["src", "base.json"],
      "\x7b\"compilerOptions\":\x7b\"paths\":\x7b\"*\":[],\"@base/*\":[]\x7d\x7d\x7d".toUTF8)]
  tree.directories := [["src"]]
  cwd := []

/-- The patterns that the document inherits come first, and those that end in no wildcard segment do
not count. -/
theorem resolve_usable_extending :
    let set := empty.resolve extending (some "src/ui")
    let e := Edge.classify "src/ui/a.ts" "@base\\entities/user" set
    (set.aliases ≠ [] ∧ ∀ a ∈ set.aliases, Text.endsWith "/" a = true) ∧
      set = resolve extending ⟨["@base/*", "@/*"], none⟩ none ∧
      e.stripped = some "@base/" ∧
      ∃ front, "@base/" = front ++ "/" ∧ "@base/entities/user" = front ++ "/" ++ e.target := by
  intro set e
  obtain ⟨hsome, hends, hcut, hsame⟩ := resolve_usable extending empty (some "src/ui")
  have hload : Document.loadMerged? extending "/src/tsconfig.json"
      = some ⟨[("*", []), ("@base/*", []), ("@/*", []), ("~/**", []), ("ui", [])], none,
          ["./base"]⟩ := by
    decide +kernel
  have hexplicit : set = resolve extending ⟨["@base/*", "@/*"], none⟩ none :=
    hsame "/src/tsconfig.json" _ rfl (by decide +kernel) hload (by decide +kernel) none none
  have hset : set = ⟨["@base/", "@/"]⟩ := by
    have hnormalized : ["@base/*", "@/*"].map normalizeAlias = ["@base/", "@/"] := by
      decide +kernel
    rw [hexplicit, resolve, if_pos (by simp), hnormalized]
    exact AliasSet.ofList_of_pairwise (by decide +kernel) (by decide +kernel)
  have hstripped : e.stripped = some "@base/" := by
    simp only [e, hset]
    decide +kernel
  exact ⟨⟨hsome, hends⟩, hexplicit, hstripped,
    hcut "src/ui/a.ts" "@base\\entities/user" e rfl _ hstripped⟩

end AliasOptions

end SliceLint

import Mathlib.Data.Finset.Max
import SliceLint.Proofs.AliasSet
import SliceLint.Proofs.Edge

set_option autoImplicit false

/-! # Normalising twice

An alias is cut off once, so what is left may begin with an alias again. Normalising it a second
time changes it exactly then (`AliasSet.normalize_idempotent_iff`). An alias with a back slash in it
never begins a normalised path; any other alias of a set leads to a path that is not left alone,
namely the longest such alias written twice. -/

namespace SliceLint

namespace Text

/-- What stands in front of a text that stays the same is empty. -/
theorem eq_empty_of_append_eq {front s : String} (h : s = front ++ s) : front = "" := by
  have hsize := congrArg String.utf8ByteSize h
  rw [String.utf8ByteSize_append] at hsize
  exact String.utf8ByteSize_eq_zero_iff.1 (by omega)

theorem no_backslash_of_startsWith {start s : String} (h : startsWith start s = true)
    (hs : '\\' ∉ s.toList) : '\\' ∉ start.toList := by
  obtain ⟨rest, rfl⟩ := startsWith_iff.1 h
  rw [String.toList_append, List.mem_append, not_or] at hs
  exact hs.1

end Text

namespace AliasSet

/-! ## Normalised paths -/

/-- The alias of a path without back slashes and what is left of it make up the path. -/
theorem eq_append_normalize (set : AliasSet) {path : String} (h : '\\' ∉ path.toList) :
    path = (set.match? path).getD "" ++ set.normalize path := by
  have hstrip := set.slashed_eq_strip path
  rw [strip_snd, Text.slashed_eq_self h] at hstrip
  exact hstrip

theorem no_backslash_normalize (set : AliasSet) (path : String) :
    '\\' ∉ (set.normalize path).toList := by
  have hslashed := Text.no_backslash_slashed path
  rw [set.slashed_eq_strip path, String.toList_append, List.mem_append, not_or] at hslashed
  exact hslashed.2

/-- A path without back slashes is left alone exactly if it begins with no alias. -/
theorem normalize_eq_self_iff {xs : List String} {path : String} (h : '\\' ∉ path.toList) :
    (ofList xs).normalize path = path ↔
      ∀ a ∈ (ofList xs).aliases, Text.startsWith a path = false := by
  have hparts := (ofList xs).eq_append_normalize h
  rw [← match?_eq_none_iff]
  constructor
  · intro hself
    cases hmatch : (ofList xs).match? path with
    | none => rfl
    | some a =>
        rw [hmatch, Option.getD_some, hself] at hparts
        have hmem := (isLongestMatch_of_match? hmatch).mem
        exact absurd (Text.eq_empty_of_append_eq hparts) (mem_aliases_ofList.1 hmem).2
  · intro hnone
    rw [hnone, Option.getD_none, String.empty_append] at hparts
    exact hparts.symm

/-! ## An alias written twice -/

/-- Of the aliases without back slashes, some alias is the longest. -/
theorem exists_longest_plain {set : AliasSet} {a : String} (ha : a ∈ set.aliases)
    (hplain : '\\' ∉ a.toList) :
    ∃ b ∈ set.aliases, '\\' ∉ b.toList ∧
      ∀ c ∈ set.aliases, '\\' ∉ c.toList → c.utf8ByteSize ≤ b.utf8ByteSize := by
  have hnonempty : {c ∈ set.aliases.toFinset | '\\' ∉ c.toList}.Nonempty :=
    ⟨a, by simp [ha, hplain]⟩
  obtain ⟨b, hb, hmax⟩ := Finset.exists_max_image _ String.utf8ByteSize hnonempty
  simp only [Finset.mem_filter, List.mem_toFinset] at hb hmax
  exact ⟨b, hb.1, hb.2, fun c hc hcplain => hmax c ⟨hc, hcplain⟩⟩

/-- Of the longest alias without back slashes, written twice, one is left. -/
theorem normalize_twice {xs : List String} {a : String} (ha : a ∈ (ofList xs).aliases)
    (hplain : '\\' ∉ a.toList)
    (hlongest : ∀ b ∈ (ofList xs).aliases, '\\' ∉ b.toList → b.utf8ByteSize ≤ a.utf8ByteSize) :
    (ofList xs).normalize (a ++ a) = a := by
  have hpath : '\\' ∉ (a ++ a).toList := by simp [hplain]
  have hmatch : (ofList xs).match? (a ++ a) = some a := by
    refine match?_ofList_eq_some_iff.2 ⟨ha, Text.startsWith_iff.2 ⟨a, rfl⟩, fun b hb hstarts => ?_⟩
    exact hlongest b hb (Text.no_backslash_of_startsWith hstarts hpath)
  have hparts := (ofList xs).eq_append_normalize hpath
  rw [hmatch, Option.getD_some, String.append_right_inj] at hparts
  exact hparts.symm

/-! ## Idempotence -/

theorem normalize_normalize_iff (xs : List String) (path : String) :
    (ofList xs).normalize ((ofList xs).normalize path) = (ofList xs).normalize path ↔
      ∀ a ∈ (ofList xs).aliases, Text.startsWith a ((ofList xs).normalize path) = false :=
  normalize_eq_self_iff ((ofList xs).no_backslash_normalize path)

theorem exists_normalize_ne {xs : List String} {a : String} (ha : a ∈ (ofList xs).aliases)
    (hplain : '\\' ∉ a.toList) :
    ∃ path, (ofList xs).normalize ((ofList xs).normalize path) ≠ (ofList xs).normalize path := by
  obtain ⟨b, hb, hbplain, hlongest⟩ := exists_longest_plain ha hplain
  refine ⟨b ++ b, fun hsame => ?_⟩
  have hstarts := (normalize_normalize_iff xs (b ++ b)).1 hsame b hb
  rw [normalize_twice hb hbplain hlongest, Bool.eq_false_iff] at hstarts
  exact hstarts (Text.startsWith_iff.2 ⟨"", by simp⟩)

/-- Normalising twice is normalising once exactly for the paths that begin with no alias after they
are normalised. This holds for all paths exactly if every alias has a back slash, in particular if
there is none: one alias without back slashes is enough for a path that is not left alone. -/
theorem normalize_idempotent_iff (xs : List String) :
    (∀ path, (ofList xs).normalize ((ofList xs).normalize path) = (ofList xs).normalize path ↔
        ∀ a ∈ (ofList xs).aliases, Text.startsWith a ((ofList xs).normalize path) = false) ∧
      ((∀ path, (ofList xs).normalize ((ofList xs).normalize path) = (ofList xs).normalize path) ↔
        ∀ a ∈ (ofList xs).aliases, '\\' ∈ a.toList) ∧
      ∀ a ∈ (ofList xs).aliases, '\\' ∉ a.toList → ∃ path,
        (ofList xs).normalize ((ofList xs).normalize path) ≠ (ofList xs).normalize path := by
  refine ⟨normalize_normalize_iff xs, ⟨fun hall a ha => ?_, fun hback path => ?_⟩,
    fun a => exists_normalize_ne⟩
  · by_contra hplain
    obtain ⟨path, hpath⟩ := exists_normalize_ne ha hplain
    exact hpath (hall path)
  · rw [normalize_normalize_iff]
    intro a ha
    rw [Bool.eq_false_iff]
    intro hstarts
    exact Text.no_backslash_of_startsWith hstarts ((ofList xs).no_backslash_normalize path)
      (hback a ha)

/-- Two nested aliases, and one that never matches. The longer of the two is cut off in front of the
shorter one, which is cut off the second time. -/
theorem normalize_idempotent_iff_nested :
    let set := ofList ["@\\@\\@/", "@/@/", "@/"]
    (set.normalize "@\\@/ui" = "ui" ∧ set.normalize (set.normalize "@\\@/ui") = "ui") ∧
      set.normalize "@/@/@/ui" = "@/ui" ∧
      set.normalize (set.normalize "@/@/@/ui") ≠ set.normalize "@/@/@/ui" ∧
      ¬ ∀ path, set.normalize (set.normalize path) = set.normalize path := by
  intro set
  have hset : set = ⟨["@\\@\\@/", "@/@/", "@/"]⟩ :=
    ofList_of_pairwise (by decide +kernel) (by decide +kernel)
  have hcut : set.normalize "@\\@/ui" = "ui" ∧ set.normalize "@/@/@/ui" = "@/ui" := by
    rw [hset]
    decide +kernel
  obtain ⟨hone, -, hfails⟩ := normalize_idempotent_iff ["@\\@\\@/", "@/@/", "@/"]
  have hmem : "@/" ∈ set.aliases := by simp [hset]
  have hclear : ∀ a ∈ set.aliases, Text.startsWith a (set.normalize "@\\@/ui") = false := by
    rw [hcut.1, hset]
    decide +kernel
  have hsecond := ((hone "@\\@/ui").2 hclear).trans hcut.1
  refine ⟨⟨hcut.1, hsecond⟩, hcut.2, fun hsame => ?_, fun hsame => ?_⟩
  · have hstarts := (hone "@/@/@/ui").1 hsame "@/" hmem
    rw [hcut.2] at hstarts
    exact absurd hstarts (by decide +kernel)
  · obtain ⟨path, hpath⟩ := hfails "@/" hmem (by decide +kernel)
    exact hpath (hsame path)

end AliasSet

end SliceLint

import SliceLint.Proofs.AliasSet
import SliceLint.Proofs.Verdict

set_option autoImplicit false

/-! # Slices are known by their paths

The paths in a slice are written `layer/name`, alone or with a slash and more behind it, and
classification accepts exactly these (`Slice.classify?_eq_some_iff_holds`). So a path lies in one
slice at most. No two slices have one full path, whatever their names, and it makes no difference
whether a rule compares slices, their full paths, or their layers and names.

An alias in front of such a path is cut off before the path is classified. What stays is the path
of the slice again, as long as no longer alias reaches into it
(`Slice.classify?_normalize_append`). -/

namespace SliceLint

namespace Slice

/-- The paths in a slice: layer and name with a slash between them, and then nothing or a slash and
more. The name is one segment. -/
structure Holds (s : Slice) (path : String) : Prop where
  named : s.name ≠ ""
  single : '/' ∉ s.name.toList
  below : ∃ rest, path = s.layer.name ++ "/" ++ s.name ++ rest ∧
    (rest = "" ∨ Text.startsWith "/" rest = true)

/-! ## The grammar of paths in slices -/

/-- Behind the full path of a slice, a slash starts a new segment. -/
theorem segments_fullPath_append {s : Slice} {rest : String} (hname : '/' ∉ s.name.toList)
    (hrest : rest = "" ∨ Text.startsWith "/" rest = true) :
    ∃ more, Text.segments (s.fullPath ++ rest) = s.layer.name :: s.name :: more := by
  rcases hrest with rfl | hslash
  · exact ⟨[], by rw [String.append_empty, segments_fullPath hname]⟩
  · obtain ⟨tail, rfl⟩ := Text.startsWith_iff.1 hslash
    refine ⟨Text.segments tail, ?_⟩
    rw [← String.append_assoc, Text.segments_append_slash, segments_fullPath hname]
    rfl

theorem classify?_eq_some_iff_holds {path : String} {s : Slice} :
    classify? path = some s ↔ s.Holds path := by
  constructor
  · intro h
    obtain ⟨hnamed, rest, hsegs⟩ := classify?_eq_some_iff.1 h
    refine ⟨hnamed, no_slash_name h, ?_⟩
    show ∃ tail, path = s.fullPath ++ tail ∧ _
    rw [eq_fullPath_of_segments hsegs]
    split
    · exact ⟨"", by simp⟩
    · refine ⟨"/" ++ Text.joinSegments rest, by rw [String.append_assoc], Or.inr ?_⟩
      exact Text.startsWith_iff.2 ⟨_, rfl⟩
  · rintro ⟨hnamed, hsingle, rest, rfl, hrest⟩
    exact classify?_eq_some_iff.2 ⟨hnamed, segments_fullPath_append hsingle hrest⟩

theorem Holds.unique {path : String} {s t : Slice} (hs : s.Holds path) (ht : t.Holds path) :
    s = t := by
  have hsame : some s = some t := by
    rw [← classify?_eq_some_iff_holds.2 hs, classify?_eq_some_iff_holds.2 ht]
  exact Option.some.inj hsame

/-! ## Aliases in front -/

theorem no_backslash_fullPath {s : Slice} (h : '\\' ∉ s.name.toList) :
    '\\' ∉ s.fullPath.toList := by
  have hlayer : '\\' ∉ s.layer.name.toList := by
    cases s.layer <;> decide
  simp [fullPath, hlayer, h]

/-- Behind the longest alias that a path begins with, the path is classified as it stands. -/
theorem classify?_normalize_append {xs : List String} {a suffix : String} {s : Slice}
    (ha : a ∈ (AliasSet.ofList xs).aliases) (hplain : '\\' ∉ a.toList)
    (hlongest : ∀ b ∈ (AliasSet.ofList xs).aliases,
      Text.startsWith b (Text.slashed (a ++ s.fullPath ++ suffix)) = true →
        b.utf8ByteSize ≤ a.utf8ByteSize)
    (hnamed : s.name ≠ "") (hsingle : '/' ∉ s.name.toList) (hback : '\\' ∉ s.name.toList)
    (hsuffix : suffix = "" ∨ Text.startsWith "/" suffix = true) :
    classify? ((AliasSet.ofList xs).normalize (a ++ s.fullPath ++ suffix)) = some s := by
  have hslashed : Text.slashed (a ++ s.fullPath ++ suffix)
      = a ++ (s.fullPath ++ Text.slashed suffix) := by
    rw [Text.slashed_append, Text.slashed_append, Text.slashed_eq_self hplain,
      Text.slashed_eq_self (no_backslash_fullPath hback), String.append_assoc]
  have hmatch : (AliasSet.ofList xs).match? (Text.slashed (a ++ s.fullPath ++ suffix)) = some a :=
    AliasSet.match?_ofList_eq_some_iff.2
      ⟨ha, Text.startsWith_iff.2 ⟨_, hslashed⟩, hlongest⟩
  have hleft : (AliasSet.ofList xs).normalize (a ++ s.fullPath ++ suffix)
      = s.fullPath ++ Text.slashed suffix := by
    have hparts := (AliasSet.ofList xs).slashed_eq_strip (a ++ s.fullPath ++ suffix)
    rw [AliasSet.strip_snd, hmatch, Option.getD_some, hslashed, String.append_right_inj] at hparts
    exact hparts.symm
  have hrest : Text.slashed suffix = "" ∨ Text.startsWith "/" (Text.slashed suffix) = true := by
    rcases hsuffix with rfl | hslash
    · exact Or.inl rfl
    · obtain ⟨tail, rfl⟩ := Text.startsWith_iff.1 hslash
      exact Or.inr (Text.startsWith_iff.2 ⟨Text.slashed tail, Text.slashed_append _ _⟩)
  rw [hleft]
  exact classify?_eq_some_iff.2 ⟨hnamed, segments_fullPath_append hsingle hrest⟩

end Slice

/-! ## Comparisons -/

theorem Edge.sameSlice_iff {e : Edge} {a b : Slice} (ha : e.source = some a)
    (hb : e.dest = some b) : e.sameSlice = true ↔ a = b := by
  rw [sameSlice, ha, hb]
  exact beq_iff_eq

namespace Verdict

/-- The rule about entry points looks at another slice only. -/
theorem exists_publicApi_iff {a b : Slice} :
    (∃ target, publicApi a target b ≠ none) ↔ a ≠ b := by
  constructor
  · rintro ⟨target, hreported⟩ rfl
    exact hreported (by simp [publicApi])
  · intro hne
    refine ⟨b.fullPath ++ "/lib", ?_⟩
    have hdrop : Text.dropPrefix? b.fullPath (b.fullPath ++ "/lib") = some "/lib" :=
      Text.dropPrefix?_eq_some_iff.2 rfl
    have hinner : ¬ ("/lib" = "" ∨ "/lib" = "/index" ∨ Text.startsWith "/@x/" "/lib" = true) := by
      decide
    rw [publicApi, if_neg (fun h => hne (Slice.fullPath_injective h)), hdrop]
    simp only [Option.getD_some, if_neg hinner]
    exact Option.some_ne_none _

/-- The rule about siblings looks at another slice of one layer only. -/
theorem exists_crossImport_iff {a b : Slice} :
    (∃ specifier, crossImport a specifier b ≠ none) ↔ a.layer = b.layer ∧ a ≠ b := by
  constructor
  · rintro ⟨specifier, hreported⟩
    obtain ⟨d, hd⟩ := Option.ne_none_iff_exists'.1 hreported
    obtain ⟨hlayer, hname, -⟩ := crossImport_eq_some_iff.1 hd
    exact ⟨hlayer, fun h => hname (congrArg Slice.name h)⟩
  · rintro ⟨hlayer, hne⟩
    have hname : a.name ≠ b.name := by
      intro h
      exact hne (Slice.fullPath_injective (by rw [Slice.fullPath, Slice.fullPath, hlayer, h]))
    have hplain : ¬ HasEscape (Text.segments (Text.slashed "")) :=
      not_hasEscape_of_length (by decide)
    have hreported := crossImport_eq_some_iff.2 ⟨hlayer, hname, Or.inl ⟨hplain, rfl⟩⟩
    exact ⟨"", Option.ne_none_iff_exists'.2 ⟨_, hreported⟩⟩

end Verdict

namespace Slice

/-- Classification accepts exactly the paths that are written `layer/name`, alone or with a slash
and more behind it, and a path has one such reading at most. Slices are known by their full paths,
so every comparison of two slices says the same: of the slices themselves, of their full paths in
the rules about path style and entry points, and of layer and name in the rule about siblings. A
path of a slice is classified the same behind the longest alias that it begins with. -/
theorem identified_by_path :
    (∀ path s, classify? path = some s ↔ s.Holds path) ∧
    (∀ path s t, Holds s path → Holds t path → s = t) ∧
    Function.Injective fullPath ∧
    (∀ (e : Edge) (a b : Slice), e.source = some a → e.dest = some b →
      (e.sameSlice = true ↔ a = b) ∧
      (Verdict.pathStyle false e.source e.dest = some .pathViolation ↔ a = b) ∧
      ((∃ target, Verdict.publicApi a target b ≠ none) ↔ a ≠ b) ∧
      ((∃ specifier, Verdict.crossImport a specifier b ≠ none) ↔ a.layer = b.layer ∧ a ≠ b)) ∧
    ∀ (xs : List String) (a suffix : String) (s : Slice),
      a ∈ (AliasSet.ofList xs).aliases → '\\' ∉ a.toList →
      (∀ b ∈ (AliasSet.ofList xs).aliases,
        Text.startsWith b (Text.slashed (a ++ s.fullPath ++ suffix)) = true →
          b.utf8ByteSize ≤ a.utf8ByteSize) →
      s.name ≠ "" → '/' ∉ s.name.toList → '\\' ∉ s.name.toList →
      suffix = "" ∨ Text.startsWith "/" suffix = true →
      classify? ((AliasSet.ofList xs).normalize (a ++ s.fullPath ++ suffix)) = some s := by
  refine ⟨fun path s => classify?_eq_some_iff_holds, fun path s t => Holds.unique,
    fun a b => fullPath_injective, fun e a b ha hb => ⟨Edge.sameSlice_iff ha hb, ?_,
      Verdict.exists_publicApi_iff, Verdict.exists_crossImport_iff⟩,
    fun xs a suffix s => classify?_normalize_append⟩
  rw [Verdict.pathStyle_eq_some_iff, ha, hb]
  simp [eq_comm]

/-- A slice that has the name of a layer, imported from inside through the shorter of two aliases.
The longer one reaches into another slice. -/
theorem identified_by_path_layer_name :
    let set := AliasSet.ofList ["@/entities/apples/", "@/"]
    let s : Slice := ⟨.entities, "app"⟩
    let e := Edge.classify "entities/app/model.ts" "@/entities/app/ui\\Card" set
    (e.source = some s ∧ e.dest = some s) ∧ s.Holds "entities/app//ui" ∧
      (∀ t : Slice, t.Holds "entities/app//ui" → t = s) ∧
      classify? (set.normalize ("@/" ++ s.fullPath ++ "/ui\\Card")) = some s ∧
      e.sameSlice = true ∧
      Verdict.pathStyle false e.source e.dest = some .pathViolation := by
  intro set s e
  have hset : set = ⟨["@/entities/apples/", "@/"]⟩ :=
    AliasSet.ofList_of_pairwise (by decide +kernel) (by decide +kernel)
  have hends : e.source = some s ∧ e.dest = some s := by
    simp only [e, hset]
    decide +kernel
  obtain ⟨hgrammar, hunique, -, hcompared, hbehind⟩ := identified_by_path
  have hholds : s.Holds "entities/app//ui" := (hgrammar "entities/app//ui" s).1 (by decide +kernel)
  have hlongest : ∀ b ∈ set.aliases,
      Text.startsWith b (Text.slashed ("@/" ++ s.fullPath ++ "/ui\\Card")) = true →
        b.utf8ByteSize ≤ "@/".utf8ByteSize := by
    rw [hset]
    decide +kernel
  obtain ⟨hsame, hstyle, -, -⟩ := hcompared e s s hends.1 hends.2
  refine ⟨hends, hholds, fun t ht => hunique _ t s ht hholds, ?_, hsame.2 rfl, hstyle.2 rfl⟩
  exact hbehind _ "@/" "/ui\\Card" s (by show "@/" ∈ set.aliases; simp [hset]) (by decide) hlongest
    (by decide) (by decide) (by decide) (Or.inr (by decide))

end Slice

end SliceLint

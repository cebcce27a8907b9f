import SliceLint.Proofs.EscapeSoundness
import SliceLint.Proofs.PathFix

set_option autoImplicit false

/-! # Spellings of one target

A path of the tree can be imported behind an alias, bare, or relative to the importing file. The
first two cut a prefix off the specifier, the third follows its segments, and all arrive at the same
target (`Edge.Spells.classify`, `Edge.classify_relativeTo`).

The rules on layers and entry points look at nothing else. The rule on siblings reads the specifier
as written, of which a relative spelling drops the part that the two paths have in common. Siblings
have exactly their layer in common, so everything from the name of the imported slice on is still
there, and what stands in front of it is never an `@x`. Hence no escape appears or disappears
(`Edge.verdict_of_spelling`). -/

namespace SliceLint

open Verdict (escapeSegment escapeName?)

/-! ## Two ways to one target -/

namespace Edge

/-- The specifiers that mean a path of the tree without being relative: the path behind the alias
that is cut off there, and the path itself where no alias is cut off. -/
inductive Spells (aliases : AliasSet) (target : String) : String → Prop where
  | aliased {a : String} (slashes : '\\' ∉ a.toList)
      (matched : aliases.match? (a ++ target) = some a)
      (unescaped : escapeSegment ∉ Text.segments a)
      (absolute : Specifier.isRelative (a ++ target) = false) : Spells aliases target (a ++ target)
  | bare (unmatched : aliases.match? target = none) : Spells aliases target target

theorem Spells.exists_alias {aliases : AliasSet} {target specifier : String}
    (h : Spells aliases target specifier) (ht : Specifier.IsPlain target) :
    ∃ a, Text.slashed specifier = a ++ target ∧ escapeSegment ∉ Text.segments a ∧
      Specifier.isRelative specifier = false ∧ (aliases.strip specifier).1 = target := by
  cases h with
  | @aliased a hslashes hmatched hunescaped habsolute =>
      have hslashed : Text.slashed (a ++ target) = a ++ target := by
        apply Text.slashed_eq_self
        simp [hslashes, ht.no_backslash]
      have hdrop : Text.dropPrefix? a (a ++ target) = some target :=
        Text.dropPrefix?_eq_some_iff.2 rfl
      refine ⟨a, hslashed, hunescaped, habsolute, ?_⟩
      simp only [AliasSet.strip, hslashed, hmatched, hdrop, Option.getD_some]
  | bare hunmatched =>
      have hslashed := Text.slashed_eq_self ht.no_backslash
      refine ⟨"", by rw [hslashed, String.empty_append], by decide,
        ht.isRelative_eq_false, ?_⟩
      simp only [AliasSet.strip, hslashed, hunmatched]

variable {target specifier : String} {aliases : AliasSet}

/-- A spelling behind an alias, or bare, leads to the path that it spells. -/
theorem Spells.classify (h : Spells aliases target specifier) (ht : Specifier.IsPlain target)
    (fromPath : String) :
    (Edge.classify fromPath specifier aliases).target = target ∧
      (Edge.classify fromPath specifier aliases).dest = Slice.classify? target := by
  obtain ⟨a, -, -, habsolute, hstrip⟩ := h.exists_alias ht
  refine classify_eq_of_target ?_ ht.isRelative_eq_false
  simp [targetOf, habsolute, hstrip]

/-- So does the relative spelling. -/
theorem classify_relativeTo {fromPath : String} (ht : Specifier.IsPlain target)
    (hfrom : '\\' ∉ fromPath.toList) (aliases : AliasSet) :
    (classify fromPath (Specifier.relativeTo fromPath target) aliases).target = target ∧
      (classify fromPath (Specifier.relativeTo fromPath target) aliases).dest
        = Slice.classify? target := by
  refine classify_eq_of_target ?_ ht.isRelative_eq_false
  rw [Text.slashed_eq_self hfrom]
  simp [targetOf, Specifier.isRelative_relativeTo, ht.resolve?_relativeTo]

end Edge

/-! ## The escape in both spellings -/

/-- A file and a path in sibling slices have their layer in common and nothing more. -/
theorem Slice.commonLength_sibling {file : String} {source dest : Slice}
    (hsource : classify? file = some source) (hlayer : source.layer = dest.layer)
    (hname : source.name ≠ dest.name) (rest : List String) :
    Specifier.commonLength (Specifier.directory file) (dest.layer.name :: dest.name :: rest)
      = 1 := by
  obtain ⟨more, hdir⟩ := exists_directory_eq hsource
  rw [hdir, hlayer, Specifier.commonLength, if_pos rfl]
  -- the directory may end with the layer, or go on with the name of the importer's slice
  cases more with
  | nil => rfl
  | cons part more => simp [Specifier.commonLength, hname]

theorem Specifier.escapeName?_relativeTo {file target : String} {source dest : Slice}
    {rest : List String} (ht : IsPlain target) (hsource : Slice.classify? file = some source)
    (hsegs : Text.segments target = dest.layer.name :: dest.name :: rest)
    (hlayer : source.layer = dest.layer) (hname : source.name ≠ dest.name) :
    escapeName? (Text.segments (Text.slashed (relativeTo file target)))
      = escapeName? (dest.name :: rest) := by
  have hcommon := Slice.commonLength_sibling hsource hlayer hname rest
  rw [← parts_eq, parts_relativeTo file ht.no_backslash, ht.filter_segments, hsegs, hcommon,
    List.drop_succ_cons, List.drop_zero]
  refine Verdict.escapeName?_append (fun hmem => ?_) _
  rcases eq_of_mem_climb hmem with h | h <;> exact absurd h (by decide)

theorem Edge.Spells.escapeName? {aliases : AliasSet} {target specifier : String} {dest : Slice}
    {rest : List String} (h : Spells aliases target specifier) (ht : Specifier.IsPlain target)
    (hsegs : Text.segments target = dest.layer.name :: dest.name :: rest) :
    Verdict.escapeName? (Text.segments (Text.slashed specifier))
      = Verdict.escapeName? (dest.name :: rest) := by
  obtain ⟨a, hslashed, hunescaped, -, -⟩ := h.exists_alias ht
  obtain ⟨front, hfront, hwhole⟩ := exists_segments_of_alias hunescaped hsegs
  rw [hslashed, hwhole, Verdict.escapeName?_append hfront]

/-- The kind of diagnostic about a sibling depends on the specifier only through its escape. -/
theorem Verdict.crossImport_id_congr {source dest : Slice} {s t : String}
    (h : source.layer = dest.layer → source.name ≠ dest.name →
      escapeName? (Text.segments (Text.slashed s)) = escapeName? (Text.segments (Text.slashed t))) :
    (crossImport source s dest).map (·.id) = (crossImport source t dest).map (·.id) := by
  unfold crossImport
  by_cases hother : source.layer ≠ dest.layer ∨ source.name = dest.name
  · rw [if_pos hother, if_pos hother]
  · rw [if_neg hother, if_neg hother]
    rw [not_or, not_not] at hother
    have hsame := h hother.1 hother.2
    cases hname : escapeName? (Text.segments (Text.slashed t)) with
    | none =>
        rw [hname] at hsame
        simp only [hsame, hname, Option.map_some, Diagnostic.id]
    | some name =>
        rw [hname] at hsame
        by_cases hown : name = source.name
        · simp [hsame, hname, hown]
        · simp [hsame, hname, hown, Diagnostic.id]

/-! ## The verdict -/

namespace Edge

/-- A path that is imported behind an alias or bare, and the same path imported by the relative
specifier that leads to it, have the same slices at both ends and the same target. The rules on
layers, siblings and entry points say the same about both. -/
theorem verdict_of_spelling (fromPath target specifier : String) (aliases : AliasSet)
    (hfrom : '\\' ∉ fromPath.toList) (htarget : Specifier.IsPlain target)
    (hspells : Edge.Spells aliases target specifier) :
    let other := Specifier.relativeTo fromPath target
    let written := Edge.classify fromPath specifier aliases
    let relative := Edge.classify fromPath other aliases
    written.source = relative.source ∧ written.dest = relative.dest ∧
      written.target = target ∧ relative.target = target ∧
      ∀ kind ∈ [RuleKind.layerImports, .crossImport, .publicApiImports],
        (kind.evaluate specifier written).map (·.id) = (kind.evaluate other relative).map (·.id) := by
  intro other written relative
  obtain ⟨hwritten, hdest⟩ := hspells.classify htarget fromPath
  obtain ⟨hrelative, hdest'⟩ := classify_relativeTo htarget hfrom aliases
  have hsource : written.source = relative.source := by
    rw [Edge.classify_source, Edge.classify_source]
  have hends : written.dest = relative.dest := hdest.trans hdest'.symm
  have htargets : written.target = relative.target := hwritten.trans hrelative.symm
  refine ⟨hsource, hends, hwritten, hrelative, ?_⟩
  have hsibling : ∀ a b, relative.source = some a → relative.dest = some b →
      (Verdict.crossImport a specifier b).map (·.id) = (Verdict.crossImport a other b).map (·.id) := by
    intro a b ha hb
    rw [Edge.classify_source, Text.slashed_eq_self hfrom] at ha
    rw [hdest'] at hb
    obtain ⟨-, rest, hsegs⟩ := Slice.classify?_eq_some_iff.1 hb
    refine Verdict.crossImport_id_congr fun hlayer hname => ?_
    rw [hspells.escapeName? htarget hsegs,
      Specifier.escapeName?_relativeTo htarget ha hsegs hlayer hname]
  intro kind hkind
  simp only [List.mem_cons, List.not_mem_nil, or_false] at hkind
  rcases hkind with rfl | rfl | rfl
  · simp only [RuleKind.evaluate, hsource, hends]
  · simp only [RuleKind.evaluate, hsource, hends]
    split
    · next a b ha hb => exact hsibling a b ha hb
    · rfl
  · simp only [RuleKind.evaluate, hsource, hends, htargets]

/-- Three spellings of a path below an escape that names the wrong slice. -/
theorem verdict_of_spelling_wrong_escape :
    let file := "entities/profile/ui/Card.tsx"
    let target := "entities/user/@x/order/lib"
    let aliases := AliasSet.fallback
    let relative := Specifier.relativeTo file target
    Specifier.IsPlain target ∧ Edge.Spells aliases target ("@/" ++ target) ∧
      Edge.Spells aliases target target ∧ relative = "../../user/@x/order/lib" ∧
      ∀ specifier ∈ ["@/" ++ target, target, relative],
        (RuleKind.crossImport.evaluate specifier (Edge.classify file specifier aliases)).map (·.id)
          = some "invalidCrossNotation" := by
  intro file target aliases relative
  have hplain : Specifier.IsPlain target := by decide +kernel
  have haliased : Edge.Spells aliases target ("@/" ++ target) :=
    .aliased (by decide) (by decide +kernel) (by decide +kernel) (by decide +kernel)
  have hbare : Edge.Spells aliases target target := .bare (by decide +kernel)
  have hfound : (RuleKind.crossImport.evaluate relative
      (Edge.classify file relative aliases)).map (·.id) = some "invalidCrossNotation" := by
    decide +kernel
  have hsame := fun specifier hspells =>
    (verdict_of_spelling file target specifier aliases (by decide) hplain hspells).2.2.2.2
      .crossImport (by decide)
  refine ⟨hplain, haliased, hbare, by decide +kernel, ?_⟩
  simp only [List.forall_mem_cons]
  exact ⟨(hsame _ haliased).trans hfound, (hsame _ hbare).trans hfound, hfound, by simp⟩

end Edge

end SliceLint

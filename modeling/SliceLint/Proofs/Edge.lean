import SliceLint.Edge
import SliceLint.Proofs.Slice
import SliceLint.Proofs.Specifier

set_option autoImplicit false

/-! # Targets of imports

Where the target of a classified import comes from: it is what an alias stands before, or what a
relative specifier leads to (`Edge.target_cases`).

Slashes of both kinds are read alike, with one exception: dots make a specifier relative only in
front of a slash. Where they stand in front of a back slash, an alias is cut off or the whole
specifier is the target, and only there does the style of the slashes matter
(`Edge.classify_slashed_eq_iff`). -/

namespace SliceLint

theorem AliasSet.startsWith_of_match? {set : AliasSet} {path known : String}
    (h : set.match? path = some known) : Text.startsWith known path = true := by
  simpa using List.find?_some h

/-- The alias that is cut off and what is left make up the normalised path. -/
theorem AliasSet.slashed_eq_strip (set : AliasSet) (path : String) :
    Text.slashed path = (set.strip path).2.getD "" ++ (set.strip path).1 := by
  unfold strip
  cases hmatch : set.match? (Text.slashed path) with
  | none => simp [hmatch]
  | some a =>
      obtain ⟨rest, hrest⟩ := Text.startsWith_iff.1 (startsWith_of_match? hmatch)
      have hdrop : Text.dropPrefix? a (Text.slashed path) = some rest :=
        Text.dropPrefix?_eq_some_iff.2 hrest
      simp only [hmatch, hdrop, Option.getD_some]
      exact hrest

theorem AliasSet.strip_snd (set : AliasSet) (path : String) :
    (set.strip path).2 = set.match? (Text.slashed path) := by
  unfold strip
  cases hmatch : set.match? (Text.slashed path) <;> simp [hmatch]

theorem AliasSet.strip_slashed (set : AliasSet) (path : String) :
    set.strip (Text.slashed path) = set.strip path := by
  rw [strip, strip, Text.slashed_slashed]

/-- A walk that ends in a slice ends in the segments of its path. -/
theorem Slice.segments_of_walk {file specifier : String} {path : List String} {s : Slice}
    (hwalk : Specifier.follow (Specifier.directory file) (Text.segments specifier) = some path)
    (h : classify? (Text.joinSegments path) = some s) :
    Text.segments (Text.joinSegments path) = path := by
  refine Specifier.segments_joinSegments_follow hwalk ?_
  rintro rfl
  cases h

namespace Edge

/-- The slice at the start of a classified import is the one that the importing file lies in. -/
@[simp] theorem classify_source (fromPath specifier : String) (aliases : AliasSet) :
    (classify fromPath specifier aliases).source = Slice.classify? (Text.slashed fromPath) := by
  simp only [classify]

@[simp] theorem classify_fromPath (fromPath specifier : String) (aliases : AliasSet) :
    (classify fromPath specifier aliases).fromPath = Text.slashed fromPath := by
  simp only [classify]

@[simp] theorem classify_relative (fromPath specifier : String) (aliases : AliasSet) :
    (classify fromPath specifier aliases).relative = Specifier.isRelative specifier := by
  simp only [classify]

theorem classify_eq_of_target {fromPath specifier target : String} {aliases : AliasSet}
    (htarget : (targetOf (Text.slashed fromPath) specifier aliases).1 = target)
    (hrel : Specifier.isRelative target = false) :
    (classify fromPath specifier aliases).target = target ∧
      (classify fromPath specifier aliases).dest = Slice.classify? target := by
  simp [classify, htarget, hrel]

/-- Off a specifier that is not relative, an alias is cut. -/
theorem classify_of_absolute {specifier : String} (h : Specifier.isRelative specifier = false)
    (fromPath : String) (aliases : AliasSet) :
    (classify fromPath specifier aliases).target = (aliases.strip specifier).1 ∧
      (classify fromPath specifier aliases).stripped = (aliases.strip specifier).2 := by
  simp [classify, targetOf, h]

/-- Off a relative specifier, no alias is cut. -/
theorem stripped_of_relative {fromPath specifier : String} {aliases : AliasSet} {e : Edge}
    (he : classify fromPath specifier aliases = e) (hrel : e.relative = true) :
    e.stripped = none := by
  subst he
  rw [classify_relative] at hrel
  simp [classify, targetOf, hrel]

/-- The slice at the end of a classified import is the one that its target lies in. -/
theorem classify?_target_of_dest {fromPath specifier : String} {aliases : AliasSet} {e : Edge}
    {s : Slice} (he : classify fromPath specifier aliases = e) (h : e.dest = some s) :
    Slice.classify? e.target = some s := by
  subst he
  simp only [classify] at h ⊢
  split at h
  · cases h
  · exact h

/-- The target of an import into a slice: a relative specifier was followed inside the tree, or
the target stands behind the alias in the specifier. -/
theorem target_cases {fromPath specifier : String} {aliases : AliasSet} {e : Edge} {s : Slice}
    (he : classify fromPath specifier aliases = e) (h : e.dest = some s) :
    (e.relative = true ∧ ∃ path, Specifier.follow (Specifier.directory e.fromPath)
        (Text.segments (Text.slashed specifier)) = some path ∧ e.target = Text.joinSegments path) ∨
      (e.relative = false ∧ Text.slashed specifier = e.stripped.getD "" ++ e.target) := by
  subst he
  simp only [classify, targetOf] at h ⊢
  by_cases hrel : Specifier.isRelative specifier = true
  · simp only [hrel, if_true] at h ⊢
    unfold Specifier.resolve? at h ⊢
    rw [Specifier.parts_eq] at h ⊢
    cases hwalk : Specifier.follow (Specifier.directory (Text.slashed fromPath))
        (Text.segments (Text.slashed specifier)) with
    | none =>
        -- a walk out of the tree leaves a relative target, which has no slice
        simp [hwalk, Specifier.isRelative_slashed hrel] at h
    | some path => exact Or.inl ⟨trivial, path, rfl, rfl⟩
  · rw [Bool.not_eq_true] at hrel
    simp only [hrel, Bool.false_eq_true, if_false]
    exact Or.inr ⟨trivial, aliases.slashed_eq_strip specifier⟩

/-! ## Slashes of both kinds -/

/-- As long as a specifier is still relative or not, normalising its slashes keeps the target and the
alias cut off. -/
theorem targetOf_slashed {specifier : String}
    (h : Specifier.isRelative (Text.slashed specifier) = Specifier.isRelative specifier)
    (fromPath : String) (aliases : AliasSet) :
    targetOf fromPath (Text.slashed specifier) aliases = targetOf fromPath specifier aliases := by
  rw [targetOf, targetOf, h, Specifier.resolve?_slashed, Text.slashed_slashed,
    AliasSet.strip_slashed]

/-- Slashes of both kinds are alike for the importing file, always, and for the specifier unless it
starts with dots and a back slash. -/
theorem classify_slashed_eq_iff (fromPath specifier : String) (aliases : AliasSet) :
    classify (Text.slashed fromPath) specifier aliases = classify fromPath specifier aliases ∧
      (classify (Text.slashed fromPath) (Text.slashed specifier) aliases
          = classify fromPath specifier aliases ↔
        Text.startsWith ".\\" specifier = false ∧ Text.startsWith "..\\" specifier = false) := by
  have hfrom : ∀ specifier, classify (Text.slashed fromPath) specifier aliases
      = classify fromPath specifier aliases := by
    intro specifier
    rw [classify, classify, Text.slashed_slashed]
  refine ⟨hfrom specifier, ?_⟩
  rw [hfrom, ← Specifier.isRelative_slashed_eq_iff]
  constructor
  · intro h
    simpa using congrArg relative h
  · intro h
    rw [classify, classify, targetOf_slashed h, h]

/-- Behind dots, a slash leads to a slice that a back slash does not lead to. -/
theorem classify_slashed_ne :
    let file := "entities/profile/model.ts"
    let specifier := "..\\user"
    let written := classify file specifier AliasSet.fallback
    let slashed := classify (Text.slashed file) (Text.slashed specifier) AliasSet.fallback
    (written.relative = false ∧ written.dest = none ∧ written.target = "../user") ∧
      slashed.relative = true ∧ slashed.dest = some ⟨.entities, "user"⟩ ∧
      slashed.target = "entities/user" := by
  decide +kernel

end Edge

end SliceLint

import SliceLint.Proofs.Verdict

set_option autoImplicit false

/-! # What an accepted escape leads to

A sibling import is accepted on two views of one specifier: the first escape of the specifier as
written names the importer, and the target is an entry point. The views can differ, so the target
of an accepted import need not go through the escape (`Analyzer.accepted_past_escape`). It does if
the specifier goes `Straight` through its escape (`Analyzer.check_sibling`): then the first `@x` of
the specifier is also the one behind the sibling's root in the target. -/

namespace SliceLint

open Verdict (escapeSegment EscapeAt HasEscape)

/-- The target goes through the escape of the imported slice that names the importer. -/
def Edge.PassesEscape (e : Edge) (source dest : Slice) : Prop :=
  [dest.layer.name, dest.name, escapeSegment, source.name] <+: Text.segments e.target

instance (e : Edge) (source dest : Slice) : Decidable (e.PassesEscape source dest) :=
  inferInstanceAs (Decidable (_ <+: _))

/-- The specifier goes straight through its first escape: what is written there is not undone on
the way to the target. -/
structure Edge.Straight (e : Edge) (specifier : String) (source dest : Slice) : Prop where
  /-- No segment `@x` is followed by an empty segment. -/
  named : ¬ [escapeSegment, ""] <:+: Text.segments (Text.slashed specifier)
  /-- From the escape's name on, a relative specifier stays below the `@x` and goes through the
  name. -/
  stays : e.relative = true → ∃ before name after more,
    EscapeAt (Text.segments (Text.slashed specifier)) before name after ∧
      Specifier.follow [] (name :: after) = some (name :: more)
  /-- The alias that is cut off has no segment `@x`. -/
  unaliased : escapeSegment ∉ Text.segments (e.stripped.getD "")
  /-- The `index` of a slice `@x` is not mistaken for an escape to a slice `index`. -/
  distinct : ¬ (source.name = "index" ∧ dest.name = escapeSegment)

/-! ## The place of the escape in the target -/

/-- Where every `@x` is followed by something, none stands before the first escape. -/
theorem Verdict.EscapeAt.not_mem_before {parts before after : List String} {name : String}
    (h : EscapeAt parts before name after) (hnamed : ¬ [escapeSegment, ""] <:+: parts) :
    escapeSegment ∉ before := by
  intro hmem
  obtain ⟨front, back, rfl⟩ := List.append_of_mem hmem
  obtain ⟨next, more, hnext⟩ : ∃ next more, back ++ [escapeSegment] = next :: more :=
    List.exists_cons_of_ne_nil (by simp)
  have hpair : ∀ tail, front ++ escapeSegment :: back ++ escapeSegment :: tail
      = front ++ [escapeSegment, next] ++ (more ++ tail) := by
    intro tail
    have htail : back ++ escapeSegment :: tail = next :: (more ++ tail) := by
      rw [← List.cons_append, ← hnext, List.append_assoc, List.singleton_append]
    simp [htail]
  by_cases hempty : next = ""
  · subst hempty
    exact hnamed ⟨front, more ++ name :: after, by rw [h.parts_eq, hpair]⟩
  · exact h.first ⟨next, hempty, front, more ++ [], by rw [hpair]⟩

theorem exists_eq_append_of_not_mem {front tail before after : List String} {x : String}
    (h : front ++ tail = before ++ x :: after) (hx : x ∉ front) :
    ∃ middle, before = front ++ middle ∧ tail = middle ++ x :: after := by
  rcases List.append_eq_append_iff.1 h with ⟨middle, hbefore, htail⟩ | ⟨middle, hfront, htail⟩
  · exact ⟨middle, hbefore, htail⟩
  · cases middle with
    | nil => exact ⟨[], by simpa using hfront.symm, by simpa using htail.symm⟩
    | cons y middle =>
        obtain ⟨rfl, -⟩ := List.cons.inj htail
        exact absurd (by simp [hfront]) hx

/-- Behind the root of a slice, an entry point has nothing, `index`, or the escape segment. -/
theorem Slice.IsEntry.rest {s : Slice} {target : String} {rest : List String}
    (h : s.IsEntry target) (hsegs : Text.segments target = s.layer.name :: s.name :: rest) :
    rest = [] ∨ rest = ["index"] ∨ ∃ more, rest = escapeSegment :: more := by
  have hname : '/' ∉ s.name.toList := Text.no_slash_of_mem_segments (s := target) (by simp [hsegs])
  have hroot := segments_fullPath hname
  rcases h with rfl | rfl | ⟨more, rfl⟩
  · exact Or.inl (by simpa [hroot] using hsegs.symm)
  · rw [show s.fullPath ++ "/index" = s.fullPath ++ "/" ++ "index" by rw [String.append_assoc]; rfl,
      Text.segments_append_slash, hroot] at hsegs
    have hindex : Text.segments "index" = ["index"] := by decide
    exact Or.inr (Or.inl (by simpa [hindex] using hsegs.symm))
  · rw [show s.fullPath ++ "/@x/" ++ more = s.fullPath ++ "/" ++ ("@x" ++ "/" ++ more) by
        simp only [String.append_assoc]; rfl,
      Text.segments_append_slash, Text.segments_append_slash, hroot] at hsegs
    have hescape : Text.segments "@x" = [escapeSegment] := by decide
    exact Or.inr (Or.inr ⟨Text.segments more, by simpa [hescape] using hsegs.symm⟩)

/-- If the first `@x` behind the layer of an entry point is followed by the importer's name, then
it stands directly behind the slice's root. -/
theorem Slice.IsEntry.escape_next {source dest : Slice} {target : String}
    {rest middle after : List String} (h : dest.IsEntry target)
    (hsegs : Text.segments target = dest.layer.name :: dest.name :: rest)
    (hplace : dest.name :: rest = middle ++ escapeSegment :: source.name :: after)
    (hfirst : escapeSegment ∉ middle) (hne : source.name ≠ dest.name)
    (hindex : ¬ (source.name = "index" ∧ dest.name = escapeSegment)) :
    rest = escapeSegment :: source.name :: after := by
  cases middle with
  | nil =>
      -- the slice itself is called `@x`, and its entry points do not name the importer
      obtain ⟨hdest, rfl⟩ := List.cons.inj hplace
      rcases h.rest hsegs with hnil | hind | ⟨more, hmore⟩
      · cases hnil
      · exact absurd ⟨(List.cons.inj hind).1, hdest⟩ hindex
      · exact absurd ((List.cons.inj hmore).1.trans hdest.symm) hne
  | cons name middle =>
      obtain ⟨-, hrest⟩ := List.cons.inj hplace
      cases middle with
      | nil => exact hrest
      | cons other middle =>
          rcases h.rest hsegs with hnil | hind | ⟨more, hmore⟩
          · simp [hnil] at hrest
          · simp [hind] at hrest
          · rw [hmore] at hrest
            obtain ⟨rfl, -⟩ := List.cons.inj hrest
            exact absurd (by simp) hfirst

theorem isName_escapeSegment : Specifier.IsName escapeSegment := by
  refine ⟨?_, ?_, ?_⟩ <;> decide

theorem Layer.append_name_ne_escapeSegment (s : String) (layer : Layer) :
    s ++ layer.name ≠ escapeSegment := by
  intro h
  have hlen := congrArg String.length h
  have hname : 3 ≤ layer.name.length := by cases layer <;> decide
  have hescape : escapeSegment.length = 2 := by decide
  rw [String.length_append, hescape] at hlen
  omega

/-- Behind an alias without `@x`, what follows the layer stands in the specifier behind segments
that are not `@x` either. -/
theorem exists_segments_of_alias {stripped target : String} {layer : Layer} {rest : List String}
    (hstripped : escapeSegment ∉ Text.segments stripped)
    (hsegs : Text.segments target = layer.name :: rest) :
    ∃ front, escapeSegment ∉ front ∧ Text.segments (stripped ++ target) = front ++ rest := by
  obtain ⟨init, last, root, tail, halias, htarget, hwhole⟩ := Text.segments_append stripped target
  rw [htarget] at hsegs
  obtain ⟨rfl, rfl⟩ := List.cons.inj hsegs
  refine ⟨init ++ [last ++ layer.name], fun hmem => ?_, by rw [hwhole]; simp⟩
  rcases List.mem_append.1 hmem with hmem | hmem
  · exact hstripped (by simp [halias, hmem])
  · exact Layer.append_name_ne_escapeSegment last layer (List.mem_singleton.1 hmem).symm

/-- Behind an alias without `@x`, the target has the first `@x` of the specifier. -/
theorem escape_place_of_alias {specifier stripped target : String} {layer : Layer}
    {rest before after : List String} (hraw : Text.slashed specifier = stripped ++ target)
    (hstripped : escapeSegment ∉ Text.segments stripped)
    (hsegs : Text.segments target = layer.name :: rest)
    (hplace : Text.segments (Text.slashed specifier) = before ++ escapeSegment :: after)
    (hfirst : escapeSegment ∉ before) :
    ∃ middle, rest = middle ++ escapeSegment :: after ∧ escapeSegment ∉ middle := by
  obtain ⟨front, hfront, hwhole⟩ := exists_segments_of_alias hstripped hsegs
  rw [hraw, hwhole] at hplace
  obtain ⟨middle, rfl, htail⟩ := exists_eq_append_of_not_mem hplace hfront
  exact ⟨middle, htail, fun hmem => hfirst (by simp [hmem])⟩

/-- The directory of a file in a slice: its layer, and its name unless the slice is the file. -/
theorem Slice.exists_directory_eq {path : String} {s : Slice} (h : classify? path = some s) :
    ∃ rest, Specifier.directory path = s.layer.name :: (s.name :: rest).dropLast := by
  obtain ⟨-, rest, hsegs⟩ := classify?_eq_some_iff.1 h
  exact ⟨rest, by rw [Specifier.directory, hsegs]; rfl⟩

/-- The start of a file's directory has nothing of the file's slice, its layer, or all of it. -/
theorem Slice.take_directory {path : String} {s : Slice} (h : classify? path = some s) (n : Nat) :
    (Specifier.directory path).take n = [] ∨
      (Specifier.directory path).take n = [s.layer.name] ∨
      ∃ more, (Specifier.directory path).take n = s.layer.name :: s.name :: more := by
  obtain ⟨rest, hdir⟩ := exists_directory_eq h
  rw [hdir]
  match n, rest with
  | 0, _ => exact Or.inl rfl
  | 1, _ => exact Or.inr (Or.inl rfl)
  | _ + 2, [] => exact Or.inr (Or.inl rfl)
  | n + 2, part :: rest => exact Or.inr (Or.inr ⟨(part :: rest).dropLast.take n, rfl⟩)

/-- A walk that ends in another slice than it starts from, and stays below the first `@x` on its
way, has this `@x` as the first one behind the layer. -/
theorem escape_place_of_walk {fromPath : String} {source dest : Slice}
    {path rest before after more : List String} (hsource : Slice.classify? fromPath = some source)
    (hwalk : Specifier.follow (Specifier.directory fromPath)
      (before ++ escapeSegment :: source.name :: after) = some path)
    (hmore : Specifier.follow [] (source.name :: after) = some (source.name :: more))
    (hpath : path = dest.layer.name :: dest.name :: rest) (hne : source.name ≠ dest.name)
    (hfirst : escapeSegment ∉ before) :
    ∃ middle, dest.name :: rest = middle ++ escapeSegment :: source.name :: more ∧
      escapeSegment ∉ middle := by
  rw [Specifier.follow_append] at hwalk
  obtain ⟨top, htop, hdown⟩ := Option.bind_eq_some_iff.1 hwalk
  have hbelow := Specifier.follow_below (top ++ [escapeSegment]) hmore
  rw [List.append_nil] at hbelow
  rw [Specifier.follow_name isName_escapeSegment, hbelow, Option.some.injEq, hpath, List.append_assoc,
    List.singleton_append] at hdown
  cases top with
  | nil =>
      obtain ⟨hlayer, -⟩ := List.cons.inj hdown
      exact absurd (by simpa using hlayer.symm) (Layer.append_name_ne_escapeSegment "" dest.layer)
  | cons layer middle =>
      rw [List.cons_append, List.cons.injEq] at hdown
      obtain ⟨-, hmiddle⟩ := hdown
      refine ⟨middle, hmiddle.symm, fun hmem => ?_⟩
      obtain ⟨kept, down, hkept, hwritten⟩ := Specifier.follow_eq_some htop
      have hfresh : ∀ part ∈ down, part ≠ escapeSegment :=
        fun part hpart he => hfirst (he ▸ hwritten part hpart)
      rcases Slice.take_directory hsource kept with hown | hown | ⟨own, hown⟩
      · rw [hown, List.nil_append] at hkept
        exact hfresh escapeSegment (by rw [← hkept]; simp [hmem]) rfl
      · rw [hown, List.singleton_append] at hkept
        obtain ⟨-, rfl⟩ := List.cons.inj hkept
        exact hfresh escapeSegment hmem rfl
      · -- a walk that never leaves the importer's slice does not end in another one
        rw [hown, List.cons_append, List.cons_append] at hkept
        obtain ⟨-, rfl⟩ := List.cons.inj hkept
        exact hne (List.cons.inj hmiddle).1

/-- Straight through an escape that names the importer, an entry point of a sibling is reached
through the escape. -/
theorem Edge.passesEscape {fromPath specifier : String} {aliases : AliasSet} {e : Edge}
    {source dest : Slice} {before after : List String}
    (he : Edge.classify fromPath specifier aliases = e) (hsource : e.source = some source)
    (hdest : e.dest = some dest) (hne : source.name ≠ dest.name)
    (hat : EscapeAt (Text.segments (Text.slashed specifier)) before source.name after)
    (hentry : dest.IsEntry e.target) (hstraight : e.Straight specifier source dest) :
    e.PassesEscape source dest := by
  have hclass := Edge.classify?_target_of_dest he hdest
  obtain ⟨-, rest, hsegs⟩ := Slice.classify?_eq_some_iff.1 hclass
  obtain ⟨middle, tail, hplace, hmiddle⟩ : ∃ middle tail,
      dest.name :: rest = middle ++ escapeSegment :: source.name :: tail ∧
        escapeSegment ∉ middle := by
    rcases Edge.target_cases he hdest with ⟨hrel, path, hwalk, htarget⟩ | ⟨-, hraw⟩
    · obtain ⟨before', name, after', more, hat', hmore⟩ := hstraight.stays hrel
      obtain rfl : name = source.name := by
        have hsame := hat'.spec.1
        rw [hat.spec.1] at hsame
        exact (Option.some.inj hsame).symm
      have hpath : path = dest.layer.name :: dest.name :: rest := by
        rw [← hsegs, htarget, Slice.segments_of_walk hwalk (htarget ▸ hclass)]
      have hfrom : Slice.classify? e.fromPath = some source := by
        subst he
        rw [Edge.classify_source] at hsource
        exact hsource
      rw [hat'.parts_eq] at hwalk
      obtain ⟨middle, hplace⟩ := escape_place_of_walk hfrom hwalk hmore hpath hne
        (hat'.not_mem_before hstraight.named)
      exact ⟨middle, more, hplace⟩
    · obtain ⟨middle, hplace⟩ := escape_place_of_alias hraw hstraight.unaliased hsegs hat.parts_eq
        (hat.not_mem_before hstraight.named)
      exact ⟨middle, after, hplace⟩
  have hrest := hentry.escape_next hsegs hplace hmiddle hne hstraight.distinct
  exact ⟨tail, by rw [hsegs, hrest]; rfl⟩

/-! ## Accepted siblings -/

section Siblings

variable {specifier : String} {e : Edge} {source dest : Slice}

theorem not_violates_layerImports (hsource : e.source = some source) (hdest : e.dest = some dest)
    (hlayer : source.layer = dest.layer) (d : Diagnostic) :
    ¬ Violates specifier e .layerImports d := by
  intro h
  cases h with
  | upward ha hb hlt =>
      rw [hsource] at ha
      rw [hdest] at hb
      obtain rfl := Option.some.inj ha
      obtain rfl := Option.some.inj hb
      rw [hlayer] at hlt
      exact absurd hlt (lt_irrefl _)

theorem not_violates_pathChecker {ownAlias : Option String} (hsource : e.source = some source)
    (hdest : e.dest = some dest) (hne : source ≠ dest) (d : Diagnostic) :
    ¬ Violates specifier e (.pathChecker ownAlias) d := by
  intro h
  cases h with
  | absolute _ ha hb =>
      rw [hsource] at ha
      rw [hdest, ← ha] at hb
      exact hne (Option.some.inj hb).symm
  | aliased _ _ hb _ _ =>
      rw [hdest] at hb
      cases hb

/-- Where the first escape names the importer, no import of a sibling is wrong. -/
theorem not_violates_crossImport {before after : List String} (hsource : e.source = some source)
    (hat : EscapeAt (Text.segments (Text.slashed specifier)) before source.name after)
    (d : Diagnostic) : ¬ Violates specifier e .crossImport d := by
  intro h
  have hfound := hat.spec.1
  cases h with
  | sibling _ _ _ _ hplain =>
      rw [Verdict.escapeName?_eq_none_iff.2 hplain] at hfound
      cases hfound
  | misnamed ha _ _ _ hother hwrong =>
      rw [hsource] at ha
      obtain rfl := Option.some.inj ha
      rw [hother.spec.1] at hfound
      exact hwrong (Option.some.inj hfound)

/-- A sibling is imported lawfully exactly if the first escape as written names the importer. -/
theorem forall_not_violates_crossImport_iff (hsource : e.source = some source)
    (hdest : e.dest = some dest) (hlayer : source.layer = dest.layer)
    (hname : source.name ≠ dest.name) :
    (∀ d, ¬ Violates specifier e .crossImport d) ↔ ∃ before after,
      EscapeAt (Text.segments (Text.slashed specifier)) before source.name after := by
  constructor
  · intro h
    by_cases hesc : HasEscape (Text.segments (Text.slashed specifier))
    · obtain ⟨name, hfound⟩ := Option.ne_none_iff_exists'.1
        fun hnone => Verdict.escapeName?_eq_none_iff.1 hnone hesc
      obtain ⟨before, after, hat⟩ := Verdict.exists_escapeAt hfound
      have hown : name = source.name := by
        by_contra hother
        exact h _ (.misnamed hsource hdest hlayer hname hat hother)
      exact ⟨before, after, hown ▸ hat⟩
    · exact absurd (.sibling hsource hdest hlayer hname hesc) (h _)
  · rintro ⟨before, after, hat⟩ d
    exact not_violates_crossImport hsource hat d

theorem forall_not_violates_publicApiImports_iff (hsource : e.source = some source)
    (hdest : e.dest = some dest) (hne : source ≠ dest) :
    (∀ d, ¬ Violates specifier e .publicApiImports d) ↔ dest.IsEntry e.target := by
  constructor
  · intro h
    by_contra hpast
    exact h _ (.internal hsource hdest hne hpast)
  · intro hentry d h
    cases h with
    | internal _ hb _ hpast =>
        rw [hdest] at hb
        obtain rfl := Option.some.inj hb
        exact hpast hentry

end Siblings

namespace Analyzer

/-- An analyzer with all four rules finds nothing wrong with an import of a sibling exactly if the
first escape as written names the importer and the target is an entry point. The target then goes
through this escape, provided that the specifier goes straight through it. -/
theorem check_sibling (w : Workspace) (a : Analyzer) (file specifier : String)
    (ownAlias : Option String) (e : Edge) (source dest : Slice)
    (hrules : a.rules.map (·.kind) =
      [.layerImports, .crossImport, .publicApiImports, .pathChecker ownAlias])
    (hignored : a.ignored = []) (he : (a.classify w file specifier).1 = e)
    (hsource : e.source = some source) (hdest : e.dest = some dest)
    (hlayer : source.layer = dest.layer) (hne : source ≠ dest) :
    ((a.check w file specifier).1.findings = [] ↔
      (∃ before after,
        EscapeAt (Text.segments (Text.slashed specifier)) before source.name after) ∧
      dest.IsEntry e.target) ∧
    ((a.check w file specifier).1.findings = [] → e.Straight specifier source dest →
      e.PassesEscape source dest) := by
  have hname : source.name ≠ dest.name := by
    intro h
    obtain ⟨layer, name⟩ := source
    obtain ⟨layer', name'⟩ := dest
    exact hne (by rw [Slice.mk.injEq]; exact ⟨hlayer, h⟩)
  have hkept : a.ignores e.target = false := by simp [ignores, hignored]
  have hclass : ∀ b, e.dest = some b → Slice.classify? e.target = some b :=
    fun b => Edge.classify?_target_of_dest he
  have hempty : (a.check w file specifier).1.findings = [] ↔
      (∃ before after,
        EscapeAt (Text.segments (Text.slashed specifier)) before source.name after) ∧
      dest.IsEntry e.target := by
    rw [check_findings he, ← List.map_eq_nil_iff, judge_diagnostics hkept, hrules,
      List.filterMap_eq_nil_iff]
    simp only [List.forall_mem_cons, RuleKind.evaluate_eq_none_iff hclass,
      not_violates_layerImports hsource hdest hlayer, not_violates_pathChecker hsource hdest hne,
      forall_not_violates_crossImport_iff hsource hdest hlayer hname,
      forall_not_violates_publicApiImports_iff hsource hdest hne]
    simp
  refine ⟨hempty, fun hsilent hstraight => ?_⟩
  obtain ⟨⟨before, after, hat⟩, hentry⟩ := hempty.1 hsilent
  exact Edge.passesEscape he hsource hdest hname hat hentry hstraight

/-- Steps up behind the escape do no harm as long as they do not lead out of it. -/
theorem check_sibling_turning_back :
    let a : Analyzer := ⟨some "src", Rule.all, .ofOptions ⟨["@"], none⟩, []⟩
    let report := (a.check ⟨.empty, []⟩ "src/entities/profile/ui/Card.tsx"
      "../../user/@x/profile/lib/../types").1
    report.findings = [] ∧ report.edge.PassesEscape ⟨.entities, "profile"⟩ ⟨.entities, "user"⟩ := by
  intro a report
  have hsilent : report.findings = [] := by decide +kernel
  have hsibling := check_sibling ⟨.empty, []⟩ a "src/entities/profile/ui/Card.tsx"
    "../../user/@x/profile/lib/../types" none report.edge ⟨.entities, "profile"⟩
    ⟨.entities, "user"⟩ rfl rfl rfl (by decide +kernel) (by decide +kernel) rfl (by decide)
  refine ⟨hsilent, hsibling.2 hsilent ⟨by decide +kernel, ?_, by decide +kernel, by decide⟩⟩
  have hat : EscapeAt (Text.segments (Text.slashed "../../user/@x/profile/lib/../types"))
      ["..", "..", "user"] "profile" ["lib", "..", "types"] :=
    ⟨by decide +kernel, by decide, Verdict.escapeName?_eq_none_iff.1 (by decide +kernel)⟩
  exact fun _ => ⟨_, _, _, ["types"], hat, by decide +kernel⟩

/-- Without going straight, an import of a sibling may be accepted although its target does not go
through the escape: the specifier climbs out of the escape again, the escape is part of an alias,
an empty segment hides another `@x`, or the `index` of a slice `@x` looks like an escape. -/
theorem accepted_past_escape :
    let report := fun known file specifier : String =>
      (check ⟨.empty, []⟩ ⟨none, Rule.all, .ofOptions ⟨[known], none⟩, []⟩ file specifier).1
    let acceptedPast := fun (r : EdgeReport) (source dest : Slice) =>
      r.edge.source = some source ∧ r.edge.dest = some dest ∧ source.layer = dest.layer ∧
        source ≠ dest ∧ r.findings = [] ∧ ¬ r.edge.PassesEscape source dest
    acceptedPast (report "@/" "entities/profile/model.ts" "../user/@x/profile/../..")
        ⟨.entities, "profile"⟩ ⟨.entities, "user"⟩ ∧
      acceptedPast (report "@x/profile/" "entities/profile/model.ts" "@x/profile/entities/user")
        ⟨.entities, "profile"⟩ ⟨.entities, "user"⟩ ∧
      acceptedPast (report "@/" "entities/profile/model.ts" "@/entities/user/@x//@x/profile")
        ⟨.entities, "profile"⟩ ⟨.entities, "user"⟩ ∧
      acceptedPast (report "@/" "entities/index/model.ts" "@/entities/@x/index")
        ⟨.entities, "index"⟩ ⟨.entities, "@x"⟩ := by
  decide +kernel

end Analyzer

end SliceLint

import SliceLint.Proofs.AliasCache
import SliceLint.Proofs.EscapeSoundness
import SliceLint.Proofs.PathFix

set_option autoImplicit false

/-! # The fix for an escape

An escape that names another slice than the importer is fixed by writing the importer's name in its
place. The first escape of the fixed specifier is the same one, so nothing is left to be said about
it. The import leads to the same slice as before, provided that the name is apart from what leads
to the slice (`Edge.NameApart`, `Analyzer.check_escape_fix`): the specifier is still read in the same
way, a walk goes through a directory of this name, and no alias reaches into it. Then the name stands
in the target behind the slice's own, if it is still there, because an `@x` stands in front of it and
no layer is called so. -/

namespace SliceLint

open Verdict (escapeSegment EscapeAt)

/-! ## The fixed specifier -/

namespace Verdict.EscapeAt

variable {specifier other name : String} {before after : List String}

/-- With the name of a path's segment in its first escape, a specifier has no back slashes, and the
escape is still the first one. -/
theorem renamed {path : String}
    (h : EscapeAt (Text.segments (Text.slashed specifier)) before other after) (hname : name ≠ "")
    (hmem : name ∈ Text.segments (Text.slashed path)) :
    let fixed := Text.joinSegments (before ++ escapeSegment :: name :: after)
    Text.slashed fixed = fixed ∧
      EscapeAt (Text.segments (Text.slashed fixed)) before name after := by
  intro fixed
  have hplain : ∀ {s part}, part ∈ Text.segments (Text.slashed s) →
      '/' ∉ part.toList ∧ '\\' ∉ part.toList := fun hpart =>
    ⟨Text.no_slash_of_mem_segments hpart,
      Text.no_backslash_of_mem_segments (Text.no_backslash_slashed _) hpart⟩
  have hparts : Text.segments (Text.slashed fixed) = before ++ escapeSegment :: name :: after := by
    rw [← Specifier.parts_eq]
    refine Specifier.parts_joinSegments (by simp) fun part hpart => ?_
    by_cases hnew : part = name
    · exact hnew ▸ hplain hmem
    · refine hplain (s := specifier) ?_
      rw [h.parts_eq]
      simp only [List.mem_append, List.mem_cons, hnew, false_or] at hpart ⊢
      rcases hpart with hpart | hpart | hpart
      · exact Or.inl hpart
      · exact Or.inr (Or.inl hpart)
      · exact Or.inr (Or.inr (Or.inr hpart))
  exact ⟨by rw [← Text.joinSegments_segments (Text.slashed fixed), hparts], hparts, hname, h.first⟩

theorem eq_joinSegments {s : String} (h : EscapeAt (Text.segments s) before name after) :
    s = Text.joinSegments (before ++ [escapeSegment]) ++ "/" ++ Text.joinSegments (name :: after) := by
  rw [← Text.joinSegments_append (by simp) (by simp), ← Text.joinSegments_segments s, h.parts_eq,
    List.append_assoc]
  rfl

theorem startsWith_of_eq {s known tail : String}
    (h : EscapeAt (Text.segments s) before name after)
    (heq : Text.joinSegments (before ++ [escapeSegment]) = known ++ tail) :
    Text.startsWith known s = true := by
  rw [Text.startsWith_iff, h.eq_joinSegments, heq, String.append_assoc, String.append_assoc]
  exact ⟨_, rfl⟩

/-- Two specifiers that are the same up to their first escape are both relative or both not. -/
theorem isRelative_eq {s t : String} {after' : List String}
    (hs : EscapeAt (Text.segments s) before other after)
    (ht : EscapeAt (Text.segments t) before name after') :
    Specifier.isRelative s = Specifier.isRelative t := by
  rw [Bool.eq_iff_iff, Specifier.isRelative_iff_head, Specifier.isRelative_iff_head, hs.parts_eq,
    ht.parts_eq]
  cases before <;> rfl

end Verdict.EscapeAt

/-! ## Walks through the escape -/

/-- A walk into a slice leads into the same slice if the directory below an `@x` has another
name. -/
theorem Specifier.follow_escape {dir before after rest : List String} {other name : String}
    {dest : Slice} (hother : IsName other) (hname : IsName name)
    (h : follow dir (before ++ escapeSegment :: other :: after)
      = some (dest.layer.name :: dest.name :: rest)) :
    ∃ rest', follow dir (before ++ escapeSegment :: name :: after)
      = some (dest.layer.name :: dest.name :: rest') := by
  rw [follow_append] at h ⊢
  obtain ⟨top, htop, hdown⟩ := Option.bind_eq_some_iff.1 h
  rw [follow_name isName_escapeSegment, follow_name hother] at hdown
  rw [htop, Option.bind_some, follow_name isName_escapeSegment, follow_name hname]
  rcases follow_rename hdown with ⟨down, hpath, hwalk⟩ | hwalk
  · rw [hwalk]
    -- the layer stands in front of the `@x`, so the slice's name is at most the `@x` itself
    match top with
    | [] =>
        obtain ⟨hlayer, -⟩ := List.cons.inj hpath
        exact absurd (by simpa using hlayer) (Layer.append_name_ne_escapeSegment "" dest.layer)
    | [layer] =>
        obtain ⟨hlayer, hpath⟩ := List.cons.inj hpath
        obtain ⟨hdest, -⟩ := List.cons.inj hpath
        exact ⟨name :: down, by rw [hlayer, hdest]; rfl⟩
    | layer :: slice :: more =>
        obtain ⟨hlayer, hpath⟩ := List.cons.inj hpath
        obtain ⟨hdest, -⟩ := List.cons.inj hpath
        exact ⟨more ++ [escapeSegment] ++ name :: down, by rw [hlayer, hdest]; rfl⟩
  · exact ⟨rest, hwalk name⟩

/-! ## Aliases in front of the escape -/

/-- The part of a specifier that stands before the name in its first escape. -/
def upToName (before : List String) : String :=
  Text.joinSegments (before ++ [escapeSegment]) ++ "/"

/-- Two texts match the same alias if each starts with what the other one matches. -/
theorem AliasSet.match?_eq_of_startsWith {set : AliasSet} {s t : String}
    (hs : ∀ known, set.match? s = some known → Text.startsWith known t = true)
    (ht : ∀ known, set.match? t = some known → Text.startsWith known s = true) :
    set.match? s = set.match? t := by
  obtain ⟨aliases⟩ := set
  simp only [match?] at hs ht ⊢
  induction aliases with
  | nil => rfl
  | cons known aliases ih =>
      simp only [List.find?_cons] at hs ht ⊢
      cases hknown : Text.startsWith known s <;> cases hknown' : Text.startsWith known t
      · simp only [hknown, hknown'] at hs ht ⊢
        exact ih hs ht
      · rw [hknown'] at ht
        exact absurd (ht known rfl) (by simp [hknown])
      · rw [hknown] at hs
        exact absurd (hs known rfl) (by simp [hknown'])
      · rfl

/-- A cut in front of the name in the first escape. -/
theorem AliasSet.exists_strip_eq {set : AliasSet} {s name : String} {before after : List String}
    (hat : EscapeAt (Text.segments (Text.slashed s)) before name after)
    (hends : Text.startsWith (upToName before) ((set.strip s).2.getD "") = false) :
    ∃ tail, Text.joinSegments (before ++ [escapeSegment]) = (set.strip s).2.getD "" ++ tail ∧
      (set.strip s).1 = tail ++ "/" ++ Text.joinSegments (name :: after) := by
  have heq := (set.slashed_eq_strip s).symm.trans hat.eq_joinSegments
  obtain ⟨tail, htail⟩ := (Text.startsWith_or_of_append_eq heq).resolve_left
    (fun h => by rw [upToName, h] at hends; cases hends)
  refine ⟨tail, htail, ?_⟩
  rw [htail, String.append_assoc, String.append_assoc, String.append_right_inj] at heq
  rw [heq, String.append_assoc]

/-- What stands behind an `@x` in the target does not matter for the slice. -/
theorem Slice.classify?_escape {known tail back : String} {before : List String} {s : Slice}
    (hplace : Text.segments (known ++ tail) = before ++ [escapeSegment])
    (h : classify? (tail ++ "/" ++ back) = some s) (back' : String) :
    classify? (tail ++ "/" ++ back') = some s := by
  obtain ⟨hname, rest, hsegs⟩ := classify?_eq_some_iff.1 h
  rw [Text.segments_append_slash] at hsegs
  obtain ⟨init, last, root, more, -, htail, hwhole⟩ := Text.segments_append known tail
  rw [htail, List.cons_append, List.cons.injEq] at hsegs
  obtain ⟨rfl, hsegs⟩ := hsegs
  cases more with
  | nil =>
      -- the `@x` would end with the name of the layer
      rw [hplace] at hwhole
      have hlast := (List.append_inj' hwhole rfl).2
      exact absurd (List.cons.inj hlast).1.symm (Layer.append_name_ne_escapeSegment last s.layer)
  | cons name more =>
      obtain ⟨rfl, -⟩ := List.cons.inj hsegs
      refine classify?_eq_some_iff.2 ⟨hname, more ++ Text.segments back', ?_⟩
      rw [Text.segments_append_slash, htail]
      rfl

/-! ## The same slice -/

/-- The name in an escape has no say in where the import leads, neither the one that is written nor
the one that is to take its place. -/
structure Edge.NameApart (specifier : String) (before : List String) (other name : String)
    (first fixed : Edge) : Prop where
  /-- The specifier does not turn relative when its slashes are normalised. -/
  written : first.relative = Specifier.isRelative (Text.slashed specifier)
  /-- A relative specifier goes through a directory of the name. -/
  walked : first.relative = true → Specifier.IsName other ∧ Specifier.IsName name
  /-- The aliases that are cut off end before the name. -/
  unaliased : Text.startsWith (upToName before) (first.stripped.getD "") = false ∧
    Text.startsWith (upToName before) (fixed.stripped.getD "") = false

namespace Edge

variable {fromPath specifier fixed other name : String} {aliases : AliasSet}
  {before after : List String} {dest : Slice}

/-- A relative import leads to the same slice with another name in its escape. -/
theorem dest_of_walk (hat : EscapeAt (Text.segments (Text.slashed specifier)) before other after)
    (hfixed : EscapeAt (Text.segments (Text.slashed fixed)) before name after)
    (hrel : Specifier.isRelative fixed = true) (hother : Specifier.IsName other)
    (hname : Specifier.IsName name) {path : List String}
    (hwalk : Specifier.follow (Specifier.directory (Text.slashed fromPath))
      (Text.segments (Text.slashed specifier)) = some path)
    (hdest : Slice.classify? (Text.joinSegments path) = some dest) :
    (classify fromPath fixed aliases).dest = some dest := by
  obtain ⟨hne, rest, hsegs⟩ := Slice.classify?_eq_some_iff.1 hdest
  rw [Slice.segments_of_walk hwalk hdest] at hsegs
  rw [hat.parts_eq, hsegs] at hwalk
  obtain ⟨rest', hwalk'⟩ := Specifier.follow_escape hother hname hwalk
  rw [← hfixed.parts_eq] at hwalk'
  have hdest' : Slice.classify?
      (Text.joinSegments (dest.layer.name :: dest.name :: rest')) = some dest := by
    rw [Slice.classify?_eq_some_iff, Specifier.segments_joinSegments_follow hwalk' (by simp)]
    exact ⟨hne, rest', rfl⟩
  rw [classify_of_resolve? aliases hrel ?_ hdest']
  rw [Specifier.resolve?, Specifier.parts_eq, hwalk']
  rfl

/-- An import that is not relative leads to the same slice with another name in its escape. -/
theorem dest_of_alias (hat : EscapeAt (Text.segments (Text.slashed specifier)) before other after)
    (hfixed : EscapeAt (Text.segments (Text.slashed fixed)) before name after)
    (hrel : Specifier.isRelative fixed = false)
    (hends : Text.startsWith (upToName before) ((aliases.strip specifier).2.getD "") = false)
    (hends' : Text.startsWith (upToName before) ((aliases.strip fixed).2.getD "") = false)
    (hdest : Slice.classify? (aliases.strip specifier).1 = some dest) :
    (classify fromPath fixed aliases).dest = some dest := by
  obtain ⟨tail, htail, htarget⟩ := AliasSet.exists_strip_eq hat hends
  obtain ⟨tail', htail', htarget'⟩ := AliasSet.exists_strip_eq hfixed hends'
  have hsame : (aliases.strip specifier).2 = (aliases.strip fixed).2 := by
    rw [aliases.strip_snd, aliases.strip_snd]
    refine AliasSet.match?_eq_of_startsWith (fun known hknown => ?_) fun known hknown => ?_
    · rw [aliases.strip_snd, hknown, Option.getD_some] at htail
      exact hfixed.startsWith_of_eq htail
    · rw [aliases.strip_snd, hknown, Option.getD_some] at htail'
      exact hat.startsWith_of_eq htail'
  obtain rfl : tail = tail' := by
    rw [htail, hsame, String.append_right_inj] at htail'
    exact htail'
  have hplace : Text.segments ((aliases.strip specifier).2.getD "" ++ tail)
      = before ++ [escapeSegment] := by
    rw [← htail]
    refine Text.segments_joinSegments (by simp) fun part hpart => ?_
    refine Text.no_slash_of_mem_segments (s := Text.slashed specifier) ?_
    rw [hat.parts_eq]
    simp only [List.mem_append, List.mem_singleton] at hpart
    rcases hpart with hpart | rfl <;> simp [*]
  rw [htarget] at hdest
  have hdest' := Slice.classify?_escape hplace hdest (Text.joinSegments (name :: after))
  rw [← htarget'] at hdest'
  rw [(classify_eq_of_target ?_ (Slice.isRelative_eq_false hdest')).2, hdest']
  simp [targetOf, hrel]

/-- With another name in its escape, an import leads to the same slice if both names are apart from
what leads there. -/
theorem dest_of_nameApart
    (hat : EscapeAt (Text.segments (Text.slashed specifier)) before other after)
    (hfixed : EscapeAt (Text.segments (Text.slashed fixed)) before name after)
    (hslashed : Text.slashed fixed = fixed)
    (hapart : NameApart specifier before other name (classify fromPath specifier aliases)
      (classify fromPath fixed aliases))
    (hdest : (classify fromPath specifier aliases).dest = some dest) :
    (classify fromPath fixed aliases).dest = some dest := by
  have hclass := classify?_target_of_dest rfl hdest
  have hrel : Specifier.isRelative fixed = Specifier.isRelative specifier := by
    rw [← classify_relative fromPath specifier aliases, hapart.written, hat.isRelative_eq hfixed,
      hslashed]
  rcases target_cases rfl hdest with ⟨hwritten, path, hwalk, htarget⟩ | ⟨hwritten, -⟩
  · obtain ⟨hother, hname⟩ := hapart.walked hwritten
    rw [classify_relative] at hwritten
    rw [classify_fromPath] at hwalk
    rw [htarget] at hclass
    exact dest_of_walk hat hfixed (hrel.trans hwritten) hother hname hwalk hclass
  · rw [classify_relative] at hwritten
    obtain ⟨htarget, hstripped⟩ := classify_of_absolute hwritten fromPath aliases
    obtain ⟨-, hstripped'⟩ := classify_of_absolute (hrel.trans hwritten) fromPath aliases
    obtain ⟨hends, hends'⟩ := hapart.unaliased
    rw [hstripped] at hends
    rw [hstripped'] at hends'
    rw [htarget] at hclass
    exact dest_of_alias hat hfixed (hrel.trans hwritten) hends hends' hclass

end Edge

namespace Analyzer

/-- Both checks of a file use the same aliases. -/
theorem check_edge_twice (w : Workspace) (a : Analyzer) (file first second : String) :
    ((a.check w file first).2.check w file second).1.edge
      = Edge.classify (treePath file a.root) second (a.aliases.get w file).1 := by
  have hedge : ((a.check w file first).2.check w file second).1.edge
      = Edge.classify (treePath file a.root) second
        ((a.aliases.get w file).2.get w file).1 := rfl
  rw [hedge, AliasCache.get_get]

/-- What a finding about the name in an escape tells of the import. -/
theorem of_invalidCrossNotation {a : Analyzer} {fromPath specifier fromSlice written expected : String}
    {aliases : AliasSet} {e : Edge} {f : Finding}
    (he : Edge.classify fromPath specifier aliases = e) (hf : f ∈ a.judge specifier e)
    (hmisnamed : f.diagnostic = .invalidCrossNotation fromSlice written expected) :
    ∃ source dest, e.source = some source ∧ e.dest = some dest ∧
      (∃ before other after,
        EscapeAt (Text.segments (Text.slashed specifier)) before other after) ∧
      expected = Text.joinSegments
        (Verdict.correctEscape source.name (Text.segments (Text.slashed specifier))) := by
  obtain ⟨heval, -⟩ := of_mem_judge hf
  rw [RuleKind.evaluate_eq_some_iff fun b => Edge.classify?_target_of_dest he, hmisnamed] at heval
  generalize f.rule.kind = kind at heval
  cases heval with
  | misnamed hsource hdest _ _ hat _ =>
      exact ⟨_, _, hsource, hdest, ⟨_, _, _, hat⟩, by rw [hat.spec.2]⟩

/-- After the fix for the name in an escape, the import has the same start, and the rule about
siblings finds nothing. It has the same end too, provided that both names are apart from what leads
there. -/
theorem check_escape_fix (w : Workspace) (a : Analyzer) (file specifier : String) (f : Finding)
    (location : Location) (e : Edge) (fromSlice written expected : String)
    (he : (a.check w file specifier).1.edge = e)
    (hf : f ∈ (a.check w file specifier).1.findings)
    (hmisnamed : f.diagnostic = .invalidCrossNotation fromSlice written expected) :
    let second := ((a.check w file specifier).2.check w file expected).1
    (f.violation location e).suggestion.bind (·.replacement) = some ⟨location, expected⟩ ∧
      ∃ source dest, e.source = some source ∧ e.dest = some dest ∧
        second.edge.source = some source ∧
        (∀ g ∈ second.findings, g.rule.kind ≠ .crossImport) ∧
        ∀ before other after,
          EscapeAt (Text.segments (Text.slashed specifier)) before other after →
          Edge.NameApart specifier before other source.name e second.edge →
          second.edge.dest = some dest := by
  intro second
  have hclassify : Edge.classify (treePath file a.root) specifier (a.aliases.get w file).1 = e := he
  have hsecond : second.edge
      = Edge.classify (treePath file a.root) expected (a.aliases.get w file).1 :=
    check_edge_twice w a file specifier expected
  rw [check_findings hclassify] at hf
  obtain ⟨source, dest, hsource, hdest, ⟨before, other, after, hat⟩, hexpected⟩ :=
    of_invalidCrossNotation hclassify hf hmisnamed
  have hfrom : Slice.classify? (Text.slashed (treePath file a.root)) = some source := by
    rw [← hsource, ← hclassify, Edge.classify_source]
  have hsource' : second.edge.source = some source := by
    rw [hsecond, Edge.classify_source, hfrom]
  obtain ⟨hname, rest, hsegs⟩ := Slice.classify?_eq_some_iff.1 hfrom
  have hmem : source.name ∈ Text.segments (Text.slashed (treePath file a.root)) := by simp [hsegs]
  -- the fixed specifier has its first escape at the same place
  have hfixed : ∀ {before other after},
      EscapeAt (Text.segments (Text.slashed specifier)) before other after →
      Text.slashed expected = expected ∧
        EscapeAt (Text.segments (Text.slashed expected)) before source.name after := by
    intro before other after hat
    rw [hexpected, hat.spec.2]
    exact hat.renamed hname hmem
  refine ⟨?_, source, dest, hsource, hdest, hsource', ?_, ?_⟩
  · simp [Finding.violation, Finding.suggestion?, Finding.advice?, Finding.fix?, hmisnamed]
  · intro g hg hkind
    obtain ⟨heval, -⟩ := of_mem_judge (a := (a.check w file specifier).2) (e := second.edge) hg
    rw [hkind] at heval
    exact not_violates_crossImport hsource' (hfixed hat).2 _
      (RuleKind.evaluate_crossImport.1 heval)
  · intro before other after hat hapart
    obtain ⟨hslashed, hat'⟩ := hfixed hat
    rw [← hclassify] at hapart hdest
    rw [hsecond] at hapart ⊢
    exact Edge.dest_of_nameApart hat hat' hslashed hapart hdest

/-- The fix for an escape that a relative import climbs out of. -/
theorem check_escape_fix_climbing :
    let a : Analyzer := ⟨some "src", Rule.all, .ofOptions ⟨["@"], none⟩, []⟩
    let file := "src/entities/profile/ui/Card.tsx"
    let first := a.check ⟨.empty, []⟩ file "../../user/@x/order/../../lib"
    let second := (first.2.check ⟨.empty, []⟩ file "../../user/@x/profile/../../lib").1
    ∃ f ∈ first.1.findings,
      (f.violation ⟨"Card.tsx", 1, 1, 0, 0⟩ first.1.edge).suggestion.bind (·.replacement) =
        some ⟨⟨"Card.tsx", 1, 1, 0, 0⟩, "../../user/@x/profile/../../lib"⟩ ∧
      second.edge.dest = first.1.edge.dest ∧ second.edge.dest = some ⟨.entities, "user"⟩ := by
  intro a file first second
  let f : Finding := ⟨⟨.crossImport, .error⟩, .invalidCrossNotation "entities/profile"
    "../../user/@x/order/../../lib" "../../user/@x/profile/../../lib", none⟩
  have hf : f ∈ first.1.findings := by decide +kernel
  obtain ⟨hfix, source, dest, hsource, hdest, -, -, hkept⟩ :=
    check_escape_fix ⟨.empty, []⟩ a file "../../user/@x/order/../../lib" f
      ⟨"Card.tsx", 1, 1, 0, 0⟩ first.1.edge _ _ _ rfl hf rfl
  have hat : EscapeAt (Text.segments (Text.slashed "../../user/@x/order/../../lib"))
      ["..", "..", "user"] "order" ["..", "..", "lib"] :=
    ⟨by decide +kernel, by decide, Verdict.escapeName?_eq_none_iff.1 (by decide +kernel)⟩
  have hprofile : first.1.edge.source = some ⟨.entities, "profile"⟩ := by decide +kernel
  have huser : first.1.edge.dest = some ⟨.entities, "user"⟩ := by decide +kernel
  obtain rfl := Option.some.inj (hsource.symm.trans hprofile)
  have hsame := hkept _ _ _ hat ⟨by decide +kernel,
    fun _ => ⟨⟨by decide, by decide, by decide⟩, by decide, by decide, by decide⟩,
    by decide +kernel, by decide +kernel⟩
  exact ⟨f, hf, hfix, hsame.trans hdest.symm, hsame.trans (hdest.symm.trans huser)⟩

/-- Otherwise the fix may lead elsewhere: an alias holds one of the names, one of them is a dot
segment, or the back slashes of the specifier were all that kept it from being relative. -/
theorem check_escape_fix_elsewhere :
    let misled := fun known importer specifier fixed : String =>
      let file := "entities/" ++ importer ++ "/model.ts"
      let first := check ⟨.empty, []⟩ ⟨none, Rule.all, .ofOptions ⟨[known], none⟩, []⟩ file specifier
      let second := (first.2.check ⟨.empty, []⟩ file fixed).1
      .invalidCrossNotation ("entities/" ++ importer) specifier fixed
          ∈ first.1.findings.map (·.diagnostic) ∧
        first.1.edge.dest = some ⟨.entities, "user"⟩ ∧
        second.edge.dest ≠ some ⟨.entities, "user"⟩
    misled "@x/order" "profile" "@x/order/entities/user" "@x/profile/entities/user" ∧
      misled "entities/user/@x/profile" "profile" "entities/user/@x/order/api"
        "entities/user/@x/profile/api" ∧
      misled "@" "profile" "../@x/../user" "../@x/profile/user" ∧
      misled "@" ".." "../@x/order/../../user" "../@x/../../../user" ∧
      misled "./" "profile" ".\\entities\\user\\@x\\order" "./entities/user/@x/profile" := by
  decide +kernel

end Analyzer

end SliceLint

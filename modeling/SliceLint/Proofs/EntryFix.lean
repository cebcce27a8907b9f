import SliceLint.Proofs.EscapeFix

set_option autoImplicit false

/-! # The fix for an import past the entry points

An import that reaches into another slice is fixed by an import of the slice's root. The fixed
specifier is written in the style of the first one and is the same import but for its target
(`Analyzer.check_entry_fix`).

Behind an alias, the fixed specifier is the start of the first one. It still starts with the alias,
and with no longer one, since that would have matched before. A relative specifier is found anew. It
leads to the root because the name of another slice is never one of the importer's own directories:
the first specifier spells it out, as a plain name. -/

namespace SliceLint

/-! ## The root of a slice -/

namespace Slice

variable {path : String} {s : Slice}

/-- The root of a slice lies in the slice. -/
theorem classify?_fullPath (h : classify? path = some s) : classify? s.fullPath = some s :=
  classify?_eq_some_iff.2 ⟨(classify?_eq_some_iff.1 h).1, [], segments_fullPath (no_slash_name h)⟩

theorem isPlain_fullPath (h : classify? path = some s) (hname : Specifier.IsName s.name)
    (hback : '\\' ∉ s.name.toList) : Specifier.IsPlain s.fullPath := by
  have hlayer : Specifier.IsName s.layer.name ∧ '\\' ∉ s.layer.name.toList := by
    cases s.layer <;> exact ⟨⟨by decide, by decide, by decide⟩, by decide⟩
  unfold Specifier.IsPlain
  rw [segments_fullPath (no_slash_name h), List.forall_mem_cons, List.forall_mem_singleton]
  exact ⟨hlayer, hname, hback⟩

/-- A walk into another slice goes through the slice's name. -/
theorem name_mem_of_walk {fromPath : String} {source dest : Slice} {parts rest : List String}
    (hsource : classify? fromPath = some source) (hne : source ≠ dest)
    (h : Specifier.follow (Specifier.directory fromPath) parts
      = some (dest.layer.name :: dest.name :: rest)) :
    dest.name ∈ parts ∧ Specifier.IsName dest.name := by
  obtain ⟨kept, down, hpath, -, hsub, hdown⟩ := Specifier.follow_eq_append h
  have hmem : dest.name ∈ down := by
    rcases take_directory hsource kept with hown | hown | ⟨more, hown⟩
    · rw [hown, List.nil_append] at hpath
      simp [← hpath]
    · rw [hown, List.singleton_append, List.cons.injEq] at hpath
      simp [← hpath.2]
    · -- keeping two directories means to stay in the importer's slice
      rw [hown, List.cons_append, List.cons_append, List.cons.injEq, List.cons.injEq] at hpath
      obtain ⟨hlayer, hname, -⟩ := hpath
      refine absurd ?_ hne
      rw [← fullPath_inj, fullPath, fullPath, hlayer, hname]
  exact ⟨hsub.subset hmem, hdown _ hmem⟩

end Slice

/-! ## The fixed specifier -/

/-- A shorter text matches the same alias as long as it starts with it. -/
theorem AliasSet.match?_of_append {set : AliasSet} {s t : String}
    (h : ∀ known, set.match? (s ++ t) = some known → Text.startsWith known s = true) :
    set.match? s = set.match? (s ++ t) := by
  refine match?_eq_of_startsWith (fun known hknown => ?_) h
  obtain ⟨rest, hrest⟩ := Text.startsWith_iff.1 (startsWith_of_match? hknown)
  exact Text.startsWith_iff.2 ⟨rest ++ t, by rw [hrest, String.append_assoc]⟩

/-- Cutting the alias off the start of a specifier. -/
theorem AliasSet.strip_of_append {set : AliasSet} {specifier path rest : String}
    (h : (set.strip specifier).1 = path ++ rest) :
    let short := (set.strip specifier).2.getD "" ++ path
    Text.slashed short = short ∧ set.strip short = (path, (set.strip specifier).2) := by
  intro short
  have hwhole : Text.slashed specifier = short ++ rest := by
    rw [set.slashed_eq_strip specifier, h, String.append_assoc]
  have hslashed : Text.slashed short = short := by
    refine Text.slashed_eq_self fun hback => Text.no_backslash_slashed specifier ?_
    simp [hwhole, hback]
  have hsame : (set.strip short).2 = (set.strip specifier).2 := by
    rw [strip_snd, strip_snd, hslashed, hwhole]
    refine match?_of_append fun known hknown => ?_
    rw [← hwhole, ← strip_snd] at hknown
    exact Text.startsWith_iff.2 ⟨path, by rw [← Option.getD_some (a := known), ← hknown]⟩
  refine ⟨hslashed, Prod.ext ?_ hsame⟩
  have hcut := set.slashed_eq_strip short
  rw [hslashed, hsame, String.append_right_inj] at hcut
  exact hcut.symm

namespace Edge

variable {fromPath specifier : String} {aliases : AliasSet} {e : Edge} {source dest : Slice}

/-- The specifier of a slice's root in the style of an import into the slice. -/
def rootSpecifier (e : Edge) (dest : Slice) : String :=
  if e.relative then Specifier.relativeTo e.fromPath dest.fullPath
  else e.stripped.getD "" ++ dest.fullPath

/-- The classification of an import that is not relative and leads into a slice. -/
theorem classify_of_strip {target : String} {stripped : Option String}
    (hrel : Specifier.isRelative specifier = false)
    (hstrip : aliases.strip specifier = (target, stripped)) (fromPath : String)
    (hdest : Slice.classify? target = some dest) :
    classify fromPath specifier aliases =
      { fromPath := Text.slashed fromPath
        source := Slice.classify? (Text.slashed fromPath)
        dest := some dest
        target := target
        stripped := stripped
        relative := false } := by
  simp only [classify, targetOf, hrel, Bool.false_eq_true, if_false, hstrip,
    Slice.isRelative_eq_false hdest, hdest]

theorem classify_root_of_alias (he : classify fromPath specifier aliases = e)
    (hdest : e.dest = some dest) (hrel : e.relative = false)
    (hback : Text.startsWith ".\\" specifier = false ∧ Text.startsWith "..\\" specifier = false) :
    classify fromPath (e.rootSpecifier dest) aliases = { e with target := dest.fullPath } := by
  have hclass := classify?_target_of_dest he hdest
  obtain ⟨rest, hrest⟩ := Slice.exists_eq_fullPath_append hclass
  have hwritten : Specifier.isRelative specifier = false := by
    rw [← classify_relative fromPath specifier aliases, he, hrel]
  obtain ⟨htarget, hstripped⟩ := classify_of_absolute hwritten fromPath aliases
  rw [he] at htarget hstripped
  obtain ⟨hslashed, hstrip⟩ := AliasSet.strip_of_append (htarget.symm.trans hrest)
  rw [← hstripped] at hslashed hstrip
  have hstyle : Specifier.isRelative (e.stripped.getD "" ++ dest.fullPath) = false := by
    by_contra hshort
    rw [Bool.not_eq_false] at hshort
    -- the whole specifier would be relative as well
    have hlong := Specifier.isRelative_append hshort (by simp [Slice.fullPath]) rest
    rw [String.append_assoc, ← hrest, htarget, hstripped, ← aliases.slashed_eq_strip] at hlong
    rcases Specifier.isRelative_of_slashed hlong with hrelative | hdot | hup
    · rw [hwritten] at hrelative
      cases hrelative
    · rw [hback.1] at hdot
      cases hdot
    · rw [hback.2] at hup
      cases hup
  have hroot := classify_of_strip hstyle hstrip fromPath (Slice.classify?_fullPath hclass)
  rw [rootSpecifier, if_neg (by simp [hrel]), hroot, ← hdest, ← hrel, ← he]
  simp

theorem classify_root_of_walk (he : classify fromPath specifier aliases = e)
    (hsource : e.source = some source) (hdest : e.dest = some dest) (hne : source ≠ dest)
    (hrel : e.relative = true) :
    classify fromPath (e.rootSpecifier dest) aliases = { e with target := dest.fullPath } := by
  have hclass := classify?_target_of_dest he hdest
  have hfrom : e.fromPath = Text.slashed fromPath := by rw [← he, classify_fromPath]
  rcases target_cases he hdest with ⟨-, path, hwalk, htarget⟩ | ⟨habsolute, -⟩
  · have howner : Slice.classify? e.fromPath = some source := by
      rw [hfrom, ← hsource, ← he, classify_source]
    obtain ⟨-, rest, hsegs⟩ := Slice.classify?_eq_some_iff.1 hclass
    rw [htarget, Slice.segments_of_walk hwalk (htarget ▸ hclass)] at hsegs
    rw [hsegs] at hwalk
    obtain ⟨hmem, hname⟩ := Slice.name_mem_of_walk howner hne hwalk
    have hplain := Slice.isPlain_fullPath hclass hname
      (Text.no_backslash_of_mem_segments (Text.no_backslash_slashed specifier) hmem)
    have hroot := classify_of_resolve? aliases (Specifier.isRelative_relativeTo _ _)
      (hplain.resolve?_relativeTo (Text.slashed fromPath)) (Slice.classify?_fullPath hclass)
    rw [hfrom] at howner
    rw [rootSpecifier, if_pos hrel, hfrom, hroot, howner, ← hsource, ← hdest, ← hrel,
      ← stripped_of_relative he hrel]
  · rw [hrel] at habsolute
    cases habsolute

/-- The root of another slice is imported just as something in the slice was. -/
theorem classify_root (he : classify fromPath specifier aliases = e)
    (hsource : e.source = some source) (hdest : e.dest = some dest) (hne : source ≠ dest)
    (hback : Text.startsWith ".\\" specifier = false ∧ Text.startsWith "..\\" specifier = false) :
    classify fromPath (e.rootSpecifier dest) aliases = { e with target := dest.fullPath } := by
  by_cases hrel : e.relative = true
  · exact classify_root_of_walk he hsource hdest hne hrel
  · exact classify_root_of_alias he hdest (by simpa using hrel) hback

end Edge

namespace Analyzer

/-- What a finding about an entry point tells of the import. -/
theorem of_publicApiViolation {a : Analyzer} {fromPath specifier slice entry : String}
    {aliases : AliasSet} {e : Edge} {f : Finding}
    (he : Edge.classify fromPath specifier aliases = e) (hf : f ∈ a.judge specifier e)
    (hpast : f.diagnostic = .publicApiViolation slice entry) :
    ∃ source dest, e.source = some source ∧ e.dest = some dest ∧ source ≠ dest ∧
      entry = dest.fullPath := by
  obtain ⟨heval, -⟩ := of_mem_judge hf
  rw [RuleKind.evaluate_eq_some_iff fun b => Edge.classify?_target_of_dest he, hpast] at heval
  generalize f.rule.kind = kind at heval
  cases heval with
  | internal hsource hdest hne _ => exact ⟨_, _, hsource, hdest, hne, rfl⟩

/-- After the fix for an import past the entry points, the import differs from the first one in its
target only, which is now the root of the slice. Neither the rule about entry points nor that about
path style finds anything. -/
theorem check_entry_fix (w : Workspace) (a : Analyzer) (file specifier : String) (f : Finding)
    (location : Location) (e : Edge) (slice entry : String)
    (he : (a.check w file specifier).1.edge = e)
    (hf : f ∈ (a.check w file specifier).1.findings)
    (hpast : f.diagnostic = .publicApiViolation slice entry)
    (hback : Text.startsWith ".\\" specifier = false ∧ Text.startsWith "..\\" specifier = false) :
    ∃ dest fixed, e.dest = some dest ∧
      (f.violation location e).suggestion.bind (·.replacement) = some ⟨location, fixed⟩ ∧
      let second := ((a.check w file specifier).2.check w file fixed).1
      second.edge = { e with target := dest.fullPath } ∧
        ∀ g ∈ second.findings, g.rule.kind ≠ .publicApiImports ∧
          ∀ ownAlias, g.rule.kind ≠ .pathChecker ownAlias := by
  have hclassify : Edge.classify (treePath file a.root) specifier (a.aliases.get w file).1 = e := he
  rw [check_findings hclassify] at hf
  obtain ⟨source, dest, hsource, hdest, hne, rfl⟩ := of_publicApiViolation hclassify hf hpast
  refine ⟨dest, e.rootSpecifier dest, hdest, ?_, ?_⟩
  · simp [Finding.violation, Finding.suggestion?, Finding.advice?, Finding.fix?, hpast,
      Edge.rootSpecifier]
  · intro second
    have hedge : second.edge = { e with target := dest.fullPath } :=
      (check_edge_twice w a file specifier _).trans
        (Edge.classify_root hclassify hsource hdest hne hback)
    have hsource' : second.edge.source = some source := by rw [hedge, hsource]
    have hdest' : second.edge.dest = some dest := by rw [hedge, hdest]
    have hentry : dest.IsEntry second.edge.target := Or.inl (by rw [hedge])
    refine ⟨hedge, fun g hg => ?_⟩
    obtain ⟨heval, -⟩ := of_mem_judge (a := (a.check w file specifier).2) (e := second.edge) hg
    constructor
    · intro hkind
      rw [hkind] at heval
      refine (forall_not_violates_publicApiImports_iff hsource' hdest' hne).2 hentry _
        ((RuleKind.evaluate_publicApiImports fun b => ?_).1 heval)
      exact Edge.classify?_target_of_dest (check_edge_twice w a file specifier _).symm
    · intro ownAlias hkind
      rw [hkind] at heval
      exact not_violates_pathChecker hsource' hdest' hne _ (RuleKind.evaluate_pathChecker.1 heval)

/-- The fix for a relative import of a sibling. -/
theorem check_entry_fix_sibling :
    let a : Analyzer := ⟨some "src", Rule.all, .ofOptions ⟨["@"], none⟩, []⟩
    let file := "src/entities/profile/ui/Card.tsx"
    let first := a.check ⟨.empty, []⟩ file "../../user/./model/types"
    let second := (first.2.check ⟨.empty, []⟩ file "../../user").1
    ∃ f ∈ first.1.findings,
      (f.violation ⟨"Card.tsx", 1, 1, 0, 0⟩ first.1.edge).suggestion.bind (·.replacement) =
        some ⟨⟨"Card.tsx", 1, 1, 0, 0⟩, "../../user"⟩ ∧
      second.edge = { first.1.edge with target := "entities/user" } ∧
      ∀ g ∈ second.findings, g.rule.kind ≠ .publicApiImports := by
  intro a file first second
  let f : Finding :=
    ⟨⟨.publicApiImports, .error⟩, .publicApiViolation "entities/user" "entities/user", none⟩
  have hf : f ∈ first.1.findings := by decide +kernel
  obtain ⟨dest, fixed, hdest, hfix, hedge, hsilent⟩ :=
    check_entry_fix ⟨.empty, []⟩ a file "../../user/./model/types" f ⟨"Card.tsx", 1, 1, 0, 0⟩
      first.1.edge _ _ rfl hf rfl (by decide)
  have huser : first.1.edge.dest = some ⟨.entities, "user"⟩ := by decide +kernel
  have htext : (f.violation ⟨"Card.tsx", 1, 1, 0, 0⟩ first.1.edge).suggestion.bind (·.replacement) =
      some ⟨⟨"Card.tsx", 1, 1, 0, 0⟩, "../../user"⟩ := by decide +kernel
  obtain rfl := Option.some.inj (hdest.symm.trans huser)
  obtain rfl : fixed = "../../user" := by
    rw [htext, Option.some.injEq, Replacement.mk.injEq] at hfix
    exact hfix.2.symm
  exact ⟨f, hf, htext, hedge, fun g hg => (hsilent g hg).1⟩

-- A back slash behind the dots hides that the specifier looks relative, and the fix turns it so.
example :
    let a : Analyzer := ⟨none, Rule.all, .ofOptions ⟨["./"], none⟩, []⟩
    let first := a.check ⟨.empty, []⟩ "features/auth/ui/Form.tsx" ".\\entities\\user\\model"
    let second := (first.2.check ⟨.empty, []⟩ "features/auth/ui/Form.tsx" "./entities/user").1
    first.1.edge.dest = some ⟨.entities, "user"⟩ ∧
      first.1.edge.rootSpecifier ⟨.entities, "user"⟩ = "./entities/user" ∧
      second.edge.dest = some ⟨.features, "auth"⟩ := by
  decide +kernel

end Analyzer

end SliceLint

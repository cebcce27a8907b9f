import SliceLint.Proofs.Verdict

set_option autoImplicit false

/-! # The fix for an absolute path

An import of the importer's own slice that is not relative can be replaced by a relative one. The
target of the finding lies in the importer's slice, whether the project's aliases or the rule's own
alias led there, and `Specifier.relativeTo` finds a specifier that resolves to it. A relative import
within one slice breaks no rule, so nothing is found after the fix (`Analyzer.check_path_fix`). -/

namespace SliceLint

/-! ## Relative imports within a slice -/

/-- A path in a slice does not look relative. -/
theorem Slice.isRelative_eq_false {path : String} {s : Slice} (h : classify? path = some s) :
    Specifier.isRelative path = false := by
  by_contra hrel
  rw [Bool.not_eq_false] at hrel
  obtain ⟨-, rest, hsegs⟩ := classify?_eq_some_iff.1 h
  have hdot : s.layer.name ≠ "." ∧ s.layer.name ≠ ".." := by
    cases s.layer <;> decide
  obtain ⟨rest', hrest | hrest⟩ := Specifier.head_segments_of_isRelative hrel
  · rw [hsegs] at hrest
    exact hdot.1 (List.cons.inj hrest).1
  · rw [hsegs] at hrest
    exact hdot.2 (List.cons.inj hrest).1

/-- Dropping empty segments does not lead out of a slice. -/
theorem Slice.classify?_filter {path : String} {s : Slice} (h : classify? path = some s) :
    classify? (Text.joinSegments ((Text.segments path).filter (· ≠ ""))) = some s := by
  obtain ⟨hname, rest, hsegs⟩ := classify?_eq_some_iff.1 h
  have hlayer : s.layer.name ≠ "" := by
    cases s.layer <;> decide
  have hfilter : (Text.segments path).filter (· ≠ "")
      = s.layer.name :: s.name :: rest.filter (· ≠ "") := by
    simp [hsegs, hlayer, hname]
  refine classify?_eq_some_iff.2 ⟨hname, rest.filter (· ≠ ""), ?_⟩
  rw [Text.segments_joinSegments, hfilter]
  · rw [hfilter]
    simp
  · intro part hpart
    exact Text.no_slash_of_mem_segments (List.mem_filter.1 hpart).1

/-- The classification of a relative import that leads into a slice. -/
theorem Edge.classify_of_resolve? {fromPath specifier target : String} {s : Slice}
    (aliases : AliasSet) (hrel : Specifier.isRelative specifier = true)
    (hresolve : Specifier.resolve? (Text.slashed fromPath) specifier = some target)
    (hdest : Slice.classify? target = some s) :
    Edge.classify fromPath specifier aliases =
      { fromPath := Text.slashed fromPath
        source := Slice.classify? (Text.slashed fromPath)
        dest := some s
        target := target
        stripped := none
        relative := true } := by
  simp only [Edge.classify, Edge.targetOf, hrel, if_true, hresolve, Option.getD_some,
    Slice.isRelative_eq_false hdest, Bool.false_eq_true, if_false, hdest]

/-- A relative import within one slice breaks no rule. -/
theorem not_violates_of_relative {specifier : String} {e : Edge} {s : Slice}
    (hrel : Specifier.isRelative specifier = true) (hsource : e.source = some s)
    (hdest : e.dest = some s) (kind : RuleKind) (d : Diagnostic) :
    ¬ Violates specifier e kind d := by
  have hsame : ∀ {a b : Slice}, e.source = some a → e.dest = some b → a = b := by
    intro a b ha hb
    rw [hsource] at ha
    rw [hdest] at hb
    exact (Option.some.inj ha).symm.trans (Option.some.inj hb)
  intro h
  cases h with
  | upward ha hb hlt =>
      rw [hsame ha hb] at hlt
      exact absurd hlt (lt_irrefl _)
  | sibling ha hb _ hname _ => exact hname (by rw [hsame ha hb])
  | misnamed ha hb _ hname _ _ => exact hname (by rw [hsame ha hb])
  | internal ha hb hne _ => exact hne (hsame ha hb)
  | absolute hwritten _ _ => exact absurd hrel (by simp [hwritten])
  | aliased hwritten _ _ _ _ => exact absurd hrel (by simp [hwritten])

namespace Analyzer

theorem judge_eq_nil {specifier : String} {e : Edge} (a : Analyzer)
    (hdest : ∀ b, e.dest = some b → Slice.classify? e.target = some b)
    (h : ∀ kind d, ¬ Violates specifier e kind d) : a.judge specifier e = [] := by
  unfold judge
  split
  · rfl
  · refine List.filterMap_eq_nil_iff.2 fun rule _ => ?_
    have hnone := (RuleKind.evaluate_eq_none_iff hdest).2 (h rule.kind)
    simp [apply, hnone]

/-- Checking remembers aliases and changes nothing else. -/
theorem check_root (w : Workspace) (a : Analyzer) (file specifier : String) :
    (a.check w file specifier).2.root = a.root := rfl

/-- The report on a relative import within one slice. -/
theorem check_of_relative {a : Analyzer} {file specifier target : String} {s : Slice}
    (w : Workspace) (hrel : Specifier.isRelative specifier = true)
    (hsource : Slice.classify? (Text.slashed (treePath file a.root)) = some s)
    (hresolve : Specifier.resolve? (Text.slashed (treePath file a.root)) specifier = some target)
    (hdest : Slice.classify? target = some s) :
    (a.check w file specifier).1 =
      { edge :=
          { fromPath := Text.slashed (treePath file a.root)
            source := some s
            dest := some s
            target := target
            stripped := none
            relative := true }
        findings := [] } := by
  have hedge := Edge.classify_of_resolve? (a.aliases.get w file).1 hrel hresolve hdest
  rw [hsource] at hedge
  have hreport : (a.check w file specifier).1 =
      ⟨Edge.classify (treePath file a.root) specifier (a.aliases.get w file).1,
        (a.check w file specifier).2.judge specifier
          (Edge.classify (treePath file a.root) specifier (a.aliases.get w file).1)⟩ := rfl
  rw [hreport, hedge]
  refine congrArg (EdgeReport.mk _) ?_
  refine judge_eq_nil _ (fun b hb => ?_) (not_violates_of_relative hrel rfl rfl)
  obtain rfl := Option.some.inj hb
  exact hdest

/-! ## The target of a finding -/

/-- What a finding is made of. -/
theorem of_mem_judge {a : Analyzer} {specifier : String} {e : Edge} {f : Finding}
    (h : f ∈ a.judge specifier e) :
    f.rule.kind.evaluate specifier e = some f.diagnostic ∧
      f.target = f.rule.kind.ownTarget? specifier e := by
  unfold judge at h
  split at h
  · cases h
  · obtain ⟨rule, -, hrule⟩ := List.mem_filterMap.1 h
    obtain ⟨d, hd, rfl⟩ := Option.map_eq_some_iff.1 hrule
    exact ⟨hd, rfl⟩

/-- The target of a finding about path style lies in the importer's slice and is written with
slashes only. -/
theorem target_of_pathViolation {a : Analyzer} {fromPath specifier : String} {aliases : AliasSet}
    {e : Edge} {f : Finding} (he : Edge.classify fromPath specifier aliases = e)
    (hf : f ∈ a.judge specifier e) (hpath : f.diagnostic = .pathViolation) :
    ∃ s, e.source = some s ∧ Slice.classify? (f.target.getD e.target) = some s ∧
      '\\' ∉ (f.target.getD e.target).toList := by
  have hdest : ∀ b, e.dest = some b → Slice.classify? e.target = some b :=
    fun b => Edge.classify?_target_of_dest he
  obtain ⟨heval, htarget⟩ := of_mem_judge hf
  rw [RuleKind.evaluate_eq_some_iff hdest, hpath] at heval
  have hback := Text.no_backslash_slashed specifier
  -- two ways of violating a rule have this diagnostic, one for each origin of the target
  generalize hkind : f.rule.kind = kind at heval htarget
  cases heval with
  | @absolute s ownAlias hwritten hsource hown =>
      have hnone : f.target = none := by simp [htarget, RuleKind.ownTarget?, hown]
      rw [hnone, Option.getD_none]
      refine ⟨s, hsource, hdest s hown, fun hc => ?_⟩
      rcases Edge.target_cases he hown with ⟨hrel, -⟩ | ⟨-, hraw⟩
      · rw [← he, Edge.classify_relative, hwritten] at hrel
        cases hrel
      · exact hback (by simp [hraw, hc])
  | @aliased s ownAlias rest hwritten hsource hown hstarts hclass =>
      have hstrip := RuleKind.stripOwnAlias?_eq_some_iff.2 ⟨ownAlias, rfl, hstarts⟩
      have hsome : f.target = some rest := by
        simp [htarget, RuleKind.ownTarget?, hown, hwritten, hstrip]
      rw [hsome, Option.getD_some]
      exact ⟨s, hsource, hclass, fun hc => hback (by simp [hstarts, hc])⟩

/-- The effective target of a finding about path style lies in the importer's slice. If it has no
dot segments, then the import with the suggested specifier leads to it from the same file, less its
empty segments, and nothing is found about that import. -/
theorem check_path_fix (w : Workspace) (a : Analyzer) (file specifier : String) (f : Finding)
    (location : Location) (e : Edge) (target : String)
    (he : (a.check w file specifier).1.edge = e)
    (hf : f ∈ (a.check w file specifier).1.findings) (hpath : f.diagnostic = .pathViolation)
    (htarget : f.target.getD e.target = target) :
    ∃ s, e.source = some s ∧ Slice.classify? target = some s ∧
      ((∀ part ∈ Text.segments target, part ≠ "." ∧ part ≠ "..") →
        ∃ fixed,
          (f.violation location e).suggestion.bind (·.replacement) = some ⟨location, fixed⟩ ∧
          ((a.check w file specifier).2.check w file fixed).1 =
            { edge :=
                { fromPath := e.fromPath
                  source := some s
                  dest := some s
                  target := Text.joinSegments ((Text.segments target).filter (· ≠ ""))
                  stripped := none
                  relative := true }
              findings := [] }) := by
  have hclassify : Edge.classify (treePath file a.root) specifier (a.aliases.get w file).1 = e := he
  rw [check_findings hclassify] at hf
  obtain ⟨s, hsource, hslice, hback⟩ := target_of_pathViolation hclassify hf hpath
  rw [htarget] at hslice hback
  refine ⟨s, hsource, hslice, fun hnames => ?_⟩
  have hfrom : e.fromPath = Text.slashed (treePath file a.root) := by
    rw [← hclassify, Edge.classify_fromPath]
  have howner : Slice.classify? (Text.slashed (treePath file a.root)) = some s := by
    rw [← hsource, ← hclassify, Edge.classify_source]
  have hfix : (f.violation location e).suggestion.bind (·.replacement)
      = some ⟨location, Specifier.relativeTo e.fromPath target⟩ := by
    simp [Finding.violation, Finding.suggestion?, Finding.advice?, Finding.fix?, hpath, htarget]
  refine ⟨Specifier.relativeTo e.fromPath target, hfix, ?_⟩
  have hrel := Specifier.isRelative_relativeTo e.fromPath target
  have hresolve : Specifier.resolve? (Text.slashed (treePath file a.root))
      (Specifier.relativeTo e.fromPath target)
        = some (Text.joinSegments ((Text.segments target).filter (· ≠ ""))) := by
    rw [← hfrom]
    exact Specifier.resolve?_relativeTo hback hnames
  -- the second check is made by the analyzer that the first one left behind
  rw [← check_root w a file specifier] at howner hresolve hfrom
  rw [check_of_relative w hrel howner hresolve (Slice.classify?_filter hslice), hfrom]

/-- The fix for an import by the rule's own alias, with an empty segment in it. -/
theorem check_path_fix_own_alias :
    let a : Analyzer := ⟨some "src", [⟨RuleKind.pathCheckerWith "#app", .error⟩],
      .ofOptions ⟨["@"], none⟩, []⟩
    let first := a.check ⟨.empty, []⟩ "src/entities/user/ui/Card.tsx" "#app/entities/user//lib"
    ∃ f ∈ first.1.findings, ∃ fixed,
      (f.violation ⟨"Card.tsx", 1, 1, 0, 0⟩ first.1.edge).suggestion.bind (·.replacement) =
        some ⟨⟨"Card.tsx", 1, 1, 0, 0⟩, fixed⟩ ∧
      let second := (first.2.check ⟨.empty, []⟩ "src/entities/user/ui/Card.tsx" fixed).1
      second.edge.target = "entities/user/lib" ∧ second.findings = [] := by
  intro a first
  let f : Finding :=
    ⟨⟨.pathChecker (some "#app/"), .error⟩, .pathViolation, some "entities/user//lib"⟩
  have hf : f ∈ first.1.findings := by decide +kernel
  obtain ⟨s, -, -, hfix⟩ := check_path_fix ⟨.empty, []⟩ a "src/entities/user/ui/Card.tsx"
    "#app/entities/user//lib" f ⟨"Card.tsx", 1, 1, 0, 0⟩ first.1.edge "entities/user//lib" rfl hf
    rfl rfl
  obtain ⟨fixed, hreplacement, hsecond⟩ := hfix (by decide +kernel)
  refine ⟨f, hf, fixed, hreplacement, ?_⟩
  intro second
  have htarget : Text.joinSegments ((Text.segments "entities/user//lib").filter (· ≠ ""))
      = "entities/user/lib" := by decide +kernel
  rw [show second = _ from hsecond]
  exact ⟨htarget, rfl⟩

end Analyzer

end SliceLint

import SliceLint.Analyzer
import SliceLint.Proofs.Edge
import SliceLint.Proofs.Escape

set_option autoImplicit false

/-! # The exact verdict of the rules

`Violates` says what is wrong with an import, one constructor for each way in which it can be
wrong. A rule gives a diagnostic exactly where its part of `Violates` holds
(`RuleKind.evaluate_eq_some_iff`), so the findings of an analyzer with the rules of some settings
are known from the classified import and the specifier alone (`Analyzer.check_diagnostics`).

The entry-point rule cuts the full path of the imported slice off the target. This is exact because
the target of a classified import always begins with that path. -/

namespace SliceLint

/-- The targets through which a slice may be imported from outside: its root, its `index`, and
everything below the escape segment. -/
def Slice.IsEntry (s : Slice) (target : String) : Prop :=
  target = s.fullPath ∨ target = s.fullPath ++ "/index" ∨
    ∃ more, target = s.fullPath ++ "/@x/" ++ more

/-- What is wrong with an import, by the rule that demands otherwise. -/
inductive Violates (specifier : String) (e : Edge) : RuleKind → Diagnostic → Prop where
  /-- The imported layer is higher. -/
  | upward {a b : Slice} (source : e.source = some a) (dest : e.dest = some b)
      (higher : a.layer.rank < b.layer.rank) :
      Violates specifier e .layerImports (.layerViolation a.layer b.layer)
  /-- A sibling is imported, and the specifier has no escape. -/
  | sibling {a b : Slice} (source : e.source = some a) (dest : e.dest = some b)
      (layer : a.layer = b.layer) (name : a.name ≠ b.name)
      (plain : ¬ Verdict.HasEscape (Text.segments (Text.slashed specifier))) :
      Violates specifier e .crossImport (.crossImportViolation a.fullPath b.fullPath)
  /-- A sibling is imported, and the first escape of the specifier names another slice than the
  importer. -/
  | misnamed {a b : Slice} {before after : List String} {other : String}
      (source : e.source = some a) (dest : e.dest = some b)
      (layer : a.layer = b.layer) (name : a.name ≠ b.name)
      (escape : Verdict.EscapeAt (Text.segments (Text.slashed specifier)) before other after)
      (wrong : other ≠ a.name) :
      Violates specifier e .crossImport (.invalidCrossNotation a.fullPath specifier
        (Text.joinSegments (before ++ Verdict.escapeSegment :: a.name :: after)))
  /-- Another slice is imported past its entry points. -/
  | internal {a b : Slice} (source : e.source = some a) (dest : e.dest = some b) (other : a ≠ b)
      (past : ¬ b.IsEntry e.target) :
      Violates specifier e .publicApiImports (.publicApiViolation b.fullPath b.fullPath)
  /-- The importer's own slice is imported by a specifier that is not relative. -/
  | absolute {a : Slice} {ownAlias : Option String}
      (written : Specifier.isRelative specifier = false)
      (source : e.source = some a) (dest : e.dest = some a) :
      Violates specifier e (.pathChecker ownAlias) .pathViolation
  /-- The same, where only the rule's own alias leads to a slice. -/
  | aliased {a : Slice} {ownAlias rest : String} (written : Specifier.isRelative specifier = false)
      (source : e.source = some a) (dest : e.dest = none)
      (starts : Text.slashed specifier = ownAlias ++ rest) (own : Slice.classify? rest = some a) :
      Violates specifier e (.pathChecker (some ownAlias)) .pathViolation

/-! ## The four rules -/

namespace Verdict

theorem layering_eq_some_iff {a b : Slice} {d : Diagnostic} :
    layering a b = some d ↔
      a.layer.rank < b.layer.rank ∧ d = .layerViolation a.layer b.layer := by
  unfold layering
  by_cases hlt : a.layer.rank < b.layer.rank
  · simp [hlt, eq_comm]
  · simp [hlt]

theorem crossImport_eq_some_iff {a b : Slice} {specifier : String} {d : Diagnostic} :
    crossImport a specifier b = some d ↔ a.layer = b.layer ∧ a.name ≠ b.name ∧
      ((¬ HasEscape (Text.segments (Text.slashed specifier)) ∧
          d = .crossImportViolation a.fullPath b.fullPath) ∨
        ∃ before other after,
          EscapeAt (Text.segments (Text.slashed specifier)) before other after ∧ other ≠ a.name ∧
            d = .invalidCrossNotation a.fullPath specifier
              (Text.joinSegments (before ++ escapeSegment :: a.name :: after))) := by
  unfold crossImport
  by_cases hsibling : a.layer ≠ b.layer ∨ a.name = b.name
  · rw [if_pos hsibling]
    constructor
    · intro h
      cases h
    · rintro ⟨hlayer, hname, -⟩
      exact absurd hsibling (by simp [hlayer, hname])
  · rw [if_neg hsibling]
    rw [not_or, not_not] at hsibling
    obtain ⟨hlayer, hname⟩ := hsibling
    simp only [hlayer, hname, ne_eq, not_false_eq_true, true_and]
    cases hesc : escapeName? (Text.segments (Text.slashed specifier)) with
    | none =>
        have hplain := escapeName?_eq_none_iff.1 hesc
        constructor
        · intro h
          exact Or.inl ⟨hplain, (Option.some.inj h).symm⟩
        · rintro (⟨-, rfl⟩ | ⟨before, other, after, hat, -⟩)
          · rfl
          · rw [hat.spec.1] at hesc
            cases hesc
    | some other =>
        obtain ⟨before, after, hat⟩ := exists_escapeAt hesc
        have hcorrect := hat.spec.2 a.name
        constructor
        · intro h
          by_cases hother : other = a.name
          · simp [hother] at h
          · simp only [hother, if_false, hcorrect] at h
            exact Or.inr ⟨before, other, after, hat, hother, (Option.some.inj h).symm⟩
        · rintro (⟨hplain, -⟩ | ⟨before', other', after', hat', hother, rfl⟩)
          · rw [escapeName?_eq_none_iff.2 hplain] at hesc
            cases hesc
          · -- the first escape is found in one way only
            have hsame : other' = other := by
              rw [hat'.spec.1] at hesc
              exact Option.some.inj hesc
            subst hsame
            simp only [hother, if_false, hat'.spec.2]

theorem publicApi_eq_some_iff {a b : Slice} {target : String} {d : Diagnostic}
    (htarget : Slice.classify? target = some b) :
    publicApi a target b = some d ↔
      a ≠ b ∧ ¬ b.IsEntry target ∧ d = .publicApiViolation b.fullPath b.fullPath := by
  obtain ⟨rest, rfl⟩ := Slice.exists_eq_fullPath_append htarget
  have hdrop : Text.dropPrefix? b.fullPath (b.fullPath ++ rest) = some rest :=
    Text.dropPrefix?_eq_some_iff.2 rfl
  have hentry : b.IsEntry (b.fullPath ++ rest) ↔
      rest = "" ∨ rest = "/index" ∨ Text.startsWith "/@x/" rest = true := by
    simp only [Slice.IsEntry, Text.startsWith_iff, String.append_assoc, String.append_right_inj,
      String.append_eq_left_iff]
  unfold publicApi
  -- the path of the slice is really there, so the fallback for a missing one plays no part
  rw [hdrop, Option.getD_some, hentry]
  by_cases hab : a = b
  · simp [hab]
  · rw [if_neg (fun h => hab (Slice.fullPath_injective h))]
    by_cases hpublic : rest = "" ∨ rest = "/index" ∨ Text.startsWith "/@x/" rest = true
    · simp [hpublic]
    · rw [if_neg hpublic]
      constructor
      · intro h
        exact ⟨hab, hpublic, (Option.some.inj h).symm⟩
      · rintro ⟨-, -, rfl⟩
        rfl

theorem pathStyle_eq_some_iff {relative : Bool} {source dest : Option Slice} {d : Diagnostic} :
    pathStyle relative source dest = some d ↔
      relative = false ∧ (∃ a, source = some a ∧ dest = some a) ∧ d = .pathViolation := by
  unfold pathStyle
  cases relative with
  | true => simp
  | false =>
      rcases source with _ | a <;> rcases dest with _ | b
      · simp
      · simp
      · simp
      · by_cases hab : a = b
        · simp [hab, eq_comm]
        · simp [hab, Ne.symm hab]

end Verdict

namespace RuleKind

theorem evaluate_layerImports {specifier : String} {e : Edge} {d : Diagnostic} :
    layerImports.evaluate specifier e = some d ↔ Violates specifier e .layerImports d := by
  constructor
  · intro h
    simp only [evaluate] at h
    split at h
    · next a b ha hb =>
        obtain ⟨hlt, rfl⟩ := Verdict.layering_eq_some_iff.1 h
        exact .upward ha hb hlt
    · cases h
  · intro h
    cases h with
    | upward ha hb hlt =>
        simp only [evaluate, ha, hb]
        exact Verdict.layering_eq_some_iff.2 ⟨hlt, rfl⟩

theorem evaluate_crossImport {specifier : String} {e : Edge} {d : Diagnostic} :
    crossImport.evaluate specifier e = some d ↔ Violates specifier e .crossImport d := by
  constructor
  · intro h
    simp only [evaluate] at h
    split at h
    · next a b ha hb =>
        obtain ⟨hlayer, hname, ⟨hplain, rfl⟩ | ⟨before, other, after, hat, hother, rfl⟩⟩ :=
          Verdict.crossImport_eq_some_iff.1 h
        · exact .sibling ha hb hlayer hname hplain
        · exact .misnamed ha hb hlayer hname hat hother
    · cases h
  · intro h
    cases h with
    | sibling ha hb hlayer hname hplain =>
        simp only [evaluate, ha, hb]
        exact Verdict.crossImport_eq_some_iff.2 ⟨hlayer, hname, Or.inl ⟨hplain, rfl⟩⟩
    | misnamed ha hb hlayer hname hat hother =>
        simp only [evaluate, ha, hb]
        exact Verdict.crossImport_eq_some_iff.2
          ⟨hlayer, hname, Or.inr ⟨_, _, _, hat, hother, rfl⟩⟩

theorem evaluate_publicApiImports {specifier : String} {e : Edge} {d : Diagnostic}
    (hdest : ∀ b, e.dest = some b → Slice.classify? e.target = some b) :
    publicApiImports.evaluate specifier e = some d ↔ Violates specifier e .publicApiImports d := by
  constructor
  · intro h
    simp only [evaluate] at h
    split at h
    · next a b ha hb =>
        obtain ⟨hab, hentry, rfl⟩ := (Verdict.publicApi_eq_some_iff (hdest b hb)).1 h
        exact .internal ha hb hab hentry
    · cases h
  · intro h
    cases h with
    | internal ha hb hab hentry =>
        simp only [evaluate, ha, hb]
        exact (Verdict.publicApi_eq_some_iff (hdest _ hb)).2 ⟨hab, hentry, rfl⟩

theorem stripOwnAlias?_eq_some_iff {ownAlias : Option String} {specifier rest : String} :
    (pathChecker ownAlias).stripOwnAlias? specifier = some rest ↔
      ∃ a, ownAlias = some a ∧ Text.slashed specifier = a ++ rest := by
  cases ownAlias with
  | none => simp [stripOwnAlias?]
  | some a => simp [stripOwnAlias?, Text.dropPrefix?_eq_some_iff]

theorem evaluate_pathChecker {ownAlias : Option String} {specifier : String} {e : Edge}
    {d : Diagnostic} :
    (pathChecker ownAlias).evaluate specifier e = some d ↔
      Violates specifier e (.pathChecker ownAlias) d := by
  constructor
  · intro h
    simp only [evaluate] at h
    split at h
    · obtain ⟨hrel, ⟨a, ha, hb⟩, rfl⟩ := Verdict.pathStyle_eq_some_iff.1 h
      exact .absolute hrel ha hb
    · next hnone =>
        obtain ⟨hrel, ⟨a, ha, hown⟩, rfl⟩ := Verdict.pathStyle_eq_some_iff.1 h
        obtain ⟨rest, hrest, hclass⟩ := Option.bind_eq_some_iff.1 hown
        obtain ⟨own, rfl, hstarts⟩ := stripOwnAlias?_eq_some_iff.1 hrest
        exact .aliased hrel ha (by simp_all) hstarts hclass
  · intro h
    cases h with
    | absolute hrel ha hb =>
        simp only [evaluate, hb, Option.isSome_some, Bool.true_or, if_true]
        exact Verdict.pathStyle_eq_some_iff.2 ⟨hrel, ⟨_, ha, rfl⟩, rfl⟩
    | aliased hrel ha hb hstarts hclass =>
        have hstrip := stripOwnAlias?_eq_some_iff.2 ⟨_, rfl, hstarts⟩
        simp only [evaluate, hb, hrel, hstrip, Option.isSome_none, Bool.or_self, Bool.false_eq_true,
          if_false, Option.bind_some]
        exact Verdict.pathStyle_eq_some_iff.2 ⟨rfl, ⟨_, ha, hclass⟩, rfl⟩

/-- A rule gives a diagnostic for a classified import exactly if the import violates the rule in
the way that the diagnostic tells. -/
theorem evaluate_eq_some_iff {kind : RuleKind} {specifier : String} {e : Edge} {d : Diagnostic}
    (hdest : ∀ b, e.dest = some b → Slice.classify? e.target = some b) :
    kind.evaluate specifier e = some d ↔ Violates specifier e kind d := by
  cases kind with
  | layerImports => exact evaluate_layerImports
  | crossImport => exact evaluate_crossImport
  | publicApiImports => exact evaluate_publicApiImports hdest
  | pathChecker ownAlias => exact evaluate_pathChecker

theorem evaluate_eq_none_iff {kind : RuleKind} {specifier : String} {e : Edge}
    (hdest : ∀ b, e.dest = some b → Slice.classify? e.target = some b) :
    kind.evaluate specifier e = none ↔ ∀ d, ¬ Violates specifier e kind d := by
  simp only [Option.eq_none_iff_forall_ne_some, ne_eq, evaluate_eq_some_iff hdest]

end RuleKind

/-! ## The rules of some settings -/

namespace Settings

/-- The alias of the path-checker's own, in the form in which aliases are compared. -/
def ownAlias? (s : Settings) : Option String :=
  (((s.rule? "path-checker").bind (·.text? "alias")).filter (· ≠ "")).map normalizeAlias

/-- The four rules in the order in which they run, whether enabled or not. -/
def ruleKinds (s : Settings) : List RuleKind :=
  [.layerImports, .crossImport, .publicApiImports, .pathChecker s.ownAlias?]

theorem ofName_pathChecker (s : Settings) :
    RuleKind.ofName "path-checker" ((s.rule? "path-checker").bind (·.text? "alias")) =
      .pathChecker s.ownAlias? := by
  unfold ownAlias?
  cases (s.rule? "path-checker").bind (·.text? "alias") with
  | none => rfl
  | some text =>
      by_cases htext : text = ""
      · subst htext
        rfl
      · simp [RuleKind.ofName, RuleKind.name, RuleKind.pathCheckerWith, htext, Option.filter]

/-- The active rules are the enabled ones of the four. -/
theorem activeRules_kinds (s : Settings) :
    s.activeRules.map (·.kind) = s.ruleKinds.filter fun kind => s.isEnabled kind.name := by
  let configured := fun kind : RuleKind =>
    RuleKind.ofName kind.name ((s.rule? kind.name).bind (·.text? "alias"))
  have hall : RuleKind.all.map configured = s.ruleKinds := by
    simp only [RuleKind.all, ruleKinds, List.map_cons, List.map_nil, configured]
    rw [← ofName_pathChecker]
    rfl
  -- an alias does not change a rule's name, so filtering by name may come before or after
  have hname : ∀ kind ∈ RuleKind.all, (configured kind).name = kind.name := by
    simp only [RuleKind.all, List.forall_mem_cons, configured]
    refine ⟨rfl, rfl, rfl, ?_, by simp⟩
    rw [show (RuleKind.pathChecker none).name = "path-checker" from rfl, ofName_pathChecker]
    rfl
  rw [← hall, List.filter_map, activeRules, List.map_map]
  refine congrArg (List.map configured) (List.filter_congr fun kind hkind => ?_)
  simp only [Function.comp_apply, hname kind hkind]

end Settings

/-! ## The findings of an analyzer -/

namespace Analyzer

theorem check_findings {w : Workspace} {a : Analyzer} {file specifier : String} {e : Edge}
    (he : (a.classify w file specifier).1 = e) :
    (a.check w file specifier).1.findings = a.judge specifier e := by
  rw [← he]
  rfl

/-- Where the target is not ignored, the diagnostics are those of the rules in order. -/
theorem judge_diagnostics {a : Analyzer} {specifier : String} {e : Edge}
    (hkept : a.ignores e.target = false) :
    (a.judge specifier e).map (·.diagnostic) =
      (a.rules.map (·.kind)).filterMap fun kind => kind.evaluate specifier e := by
  simp only [judge, hkept, Bool.false_eq_true, if_false, List.map_filterMap, List.filterMap_map]
  refine List.filterMap_congr fun rule _ => ?_
  simp only [apply, Function.comp_apply, Option.map_map, Function.comp_def, Option.map_id']

/-- The diagnostics of an import that is not ignored are exactly the violations of the enabled
rules: at most one of each rule, in the order layers, siblings, entry points, path style. -/
theorem check_diagnostics (s : Settings) (w : Workspace) (a : Analyzer) (file specifier : String)
    (e : Edge) (hrules : a.rules = s.activeRules) (he : (a.classify w file specifier).1 = e)
    (hkept : a.ignores e.target = false) :
    (a.check w file specifier).1.edge = e ∧
      ∃ layering sibling entry style : Option Diagnostic,
        (a.check w file specifier).1.findings.map (·.diagnostic) =
          layering.toList ++ sibling.toList ++ entry.toList ++ style.toList ∧
        (∀ d, layering = some d ↔
          s.isEnabled "layer-imports" = true ∧ Violates specifier e .layerImports d) ∧
        (∀ d, sibling = some d ↔
          s.isEnabled "cross-import" = true ∧ Violates specifier e .crossImport d) ∧
        (∀ d, entry = some d ↔
          s.isEnabled "public-api-imports" = true ∧ Violates specifier e .publicApiImports d) ∧
        (∀ d, style = some d ↔
          s.isEnabled "path-checker" = true ∧
            Violates specifier e (.pathChecker s.ownAlias?) d) := by
  let outcome := fun kind : RuleKind =>
    if s.isEnabled kind.name = true then kind.evaluate specifier e else none
  have houtcome : ∀ kind d, outcome kind = some d ↔
      s.isEnabled kind.name = true ∧ Violates specifier e kind d := by
    intro kind d
    rw [← RuleKind.evaluate_eq_some_iff fun b => Edge.classify?_target_of_dest he]
    by_cases henabled : s.isEnabled kind.name = true <;> simp [outcome, henabled]
  refine ⟨he, outcome .layerImports, outcome .crossImport, outcome .publicApiImports,
    outcome (.pathChecker s.ownAlias?), ?_, houtcome _, houtcome _, houtcome _, houtcome _⟩
  rw [check_findings he, judge_diagnostics hkept, hrules, Settings.activeRules_kinds,
    List.filterMap_filter, List.filterMap_eq_flatMap_toList]
  simp only [Settings.ruleKinds, List.flatMap_cons, List.flatMap_nil, List.append_nil,
    List.append_assoc, outcome]

/-- With `#app` as the path-checker's own alias, an import that no other alias explains is found to
lead back into the importer's slice. -/
theorem check_diagnostics_own_alias :
    let s : Settings :=
      { Settings.default with
        rules := [("path-checker", ⟨none, none, [("alias", .string "#app")]⟩)] }
    let a : Analyzer := ⟨some "src", s.activeRules, .ofOptions ⟨["@"], none⟩, []⟩
    let report := (a.check ⟨.empty, []⟩ "src/entities/user/model.ts" "#app/entities/user/lib").1
    a.ignores report.edge.target = false ∧
      .pathViolation ∈ report.findings.map (·.diagnostic) := by
  intro s a report
  have hkept : a.ignores report.edge.target = false := by decide +kernel
  obtain ⟨-, layering, sibling, entry, style, hall, -, -, -, hstyle⟩ :=
    check_diagnostics s ⟨.empty, []⟩ a "src/entities/user/model.ts" "#app/entities/user/lib"
      report.edge rfl rfl hkept
  have hown : s.ownAlias? = some "#app/" := by decide +kernel
  have hstarts : Text.slashed "#app/entities/user/lib" = "#app/" ++ "entities/user/lib" := by
    decide +kernel
  have hclass : Slice.classify? "entities/user/lib" = some ⟨.entities, "user"⟩ := by decide +kernel
  have hfound : style = some .pathViolation := by
    rw [hstyle, hown]
    exact ⟨by decide +kernel,
      .aliased (by decide +kernel) (by decide +kernel) (by decide +kernel) hstarts hclass⟩
  refine ⟨hkept, ?_⟩
  rw [hall, hfound]
  simp

end Analyzer

end SliceLint

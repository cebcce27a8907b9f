import SliceLint.Proofs.ReportOrder
import SliceLint.Proofs.Text
import SliceLint.Run

set_option autoImplicit false

/-! # Rules do not know of each other

To run fewer rules, or to give them other severities, does to the report of a run what it does to
the rules (`Run.lint_revised`). What happens to a rule is told by a `Revision`; each part of a run,
from one rule at one import up to the whole run, commutes with it.

A rule filter, a disabled rule and a rule of another severity are three revisions. -/

namespace SliceLint

/-! ## Revisions -/

/-- What happens to the rules of a run: those with a name, a code and a severity get a severity, or
are left out. -/
def Revision : Type := String → String → Severity → Option Severity

namespace Revision

variable (σ : Revision)

/-- The rule after a revision. -/
def rule? (r : Rule) : Option Rule :=
  (σ r.kind.name r.kind.code r.severity).map fun severity => { r with severity := severity }

/-- The violation after a revision of its rule. -/
def violation? (v : Violation) : Option Violation :=
  (σ v.rule v.code v.severity).map fun severity => { v with severity := severity }

/-- The analyzer with revised rules. -/
def analyzer (a : Analyzer) : Analyzer :=
  { a with rules := a.rules.filterMap σ.rule? }

/-- The report with revised violations. -/
def report (r : Report) : Report :=
  { r with violations := r.violations.filterMap σ.violation? }

/-- The outcome with revised violations. -/
def outcome : FileOutcome → FileOutcome
  | .unsupported => .unsupported
  | .unreadable => .unreadable
  | .checked violations => .checked (violations.filterMap σ.violation?)

/-! ## One import -/

variable {σ}

theorem kind_of_rule? {r r' : Rule} (h : σ.rule? r = some r') : r'.kind = r.kind := by
  obtain ⟨severity, -, rfl⟩ := Option.map_eq_some_iff.1 h
  rfl

theorem location_of_violation? {v v' : Violation} (h : σ.violation? v = some v') :
    v'.location = v.location := by
  obtain ⟨severity, -, rfl⟩ := Option.map_eq_some_iff.1 h
  rfl

variable (σ)

/-- What a revised rule reports is what the rule reported, revised. -/
theorem map_apply (r : Rule) (specifier : String) (e : Edge) (l : Location) :
    ((σ.rule? r).bind fun r' => Analyzer.apply r' specifier e).map (fun f => f.violation l e)
      = ((Analyzer.apply r specifier e).map fun f => f.violation l e).bind σ.violation? := by
  cases hrule : σ.rule? r with
  | none =>
      have hnone : σ r.kind.name r.kind.code r.severity = none := by simpa [rule?] using hrule
      cases hfound : r.kind.evaluate specifier e <;>
        simp [Analyzer.apply, hfound, violation?, Finding.violation, hnone]
  | some r' =>
      obtain ⟨severity, hseverity, rfl⟩ := Option.map_eq_some_iff.1 hrule
      cases hfound : r.kind.evaluate specifier e <;>
        simp [Analyzer.apply, hfound, violation?, Finding.violation, hseverity]
      rfl

theorem map_judge (a : Analyzer) (specifier : String) (e : Edge) (l : Location) :
    ((σ.analyzer a).judge specifier e).map (fun f => f.violation l e)
      = ((a.judge specifier e).map fun f => f.violation l e).filterMap σ.violation? := by
  have hignores : (σ.analyzer a).ignores e.target = a.ignores e.target := rfl
  unfold Analyzer.judge
  rw [hignores]
  split
  · rfl
  · simp only [analyzer, List.filterMap_filterMap, List.map_filterMap]
    exact List.filterMap_congr fun r _ => σ.map_apply r specifier e l

/-- Classification does not look at the rules. -/
theorem check_analyzer (w : Workspace) (a : Analyzer) (file specifier : String) :
    ((σ.analyzer a).check w file specifier).2 = σ.analyzer (a.check w file specifier).2 :=
  rfl

theorem check_violations (w : Workspace) (a : Analyzer) (file specifier : String) (l : Location) :
    ((σ.analyzer a).check w file specifier).1.violations l
      = ((a.check w file specifier).1.violations l).filterMap σ.violation? :=
  σ.map_judge (a.classify w file specifier).2 specifier (a.classify w file specifier).1 l

/-! ## Whole runs -/

theorem checkImports (w : Workspace) (file : String) (a : Analyzer) (imports : List Import) :
    (σ.analyzer a).checkImports w file imports
      = ((a.checkImports w file imports).1.filterMap σ.violation?,
        σ.analyzer (a.checkImports w file imports).2) := by
  induction imports generalizing a with
  | nil => rfl
  | cons i imports ih =>
      simp only [Analyzer.checkImports, σ.check_violations, σ.check_analyzer, ih,
        List.filterMap_append]

theorem checkFile (w : Workspace) (a : Analyzer) (path : String) :
    (σ.analyzer a).checkFile w path
      = { outcome := σ.outcome (a.checkFile w path).outcome
          analyzer := σ.analyzer (a.checkFile w path).analyzer
          unreadableDocument := (a.checkFile w path).unreadableDocument } := by
  unfold Analyzer.checkFile
  cases Language.ofPath? path with
  | none => rfl
  | some language =>
      cases w.readText? path with
      | none => rfl
      | some source =>
          simp only [σ.checkImports]
          rfl

theorem checkFiles (w : Workspace) (a : Analyzer) (r : Report) (files : List String) :
    (Run.checkFiles w (σ.analyzer a) (σ.report r) files).value
      = (Run.checkFiles w a r files).value.map σ.report := by
  induction files generalizing a r with
  | nil => rfl
  | cons file files ih =>
      simp only [Run.checkFiles, σ.checkFile]
      cases (a.checkFile w file).outcome with
      | unsupported => exact ih _ _
      | unreadable => rfl
      | checked violations =>
          have hextend : (σ.report r).extend ⟨violations.filterMap σ.violation?, 1⟩
              = σ.report (r.extend ⟨violations, 1⟩) := by
            simp [report, Report.extend]
          simp only [outcome, hextend]
          exact ih _ _

theorem report_sort (r : Report) : (σ.report r).sort = σ.report r.sort := by
  have hsort := Report.filterMap_mergeSort
    (fun _ _ => location_of_violation? (σ := σ)) r.violations
  exact congrArg (Report.mk · r.filesChecked) hsort.symm

end Revision

namespace Run

theorem analyzer_revised (σ : Revision) (root : String) (options : RunOptions) (s : Settings)
    (filter : Option String) (rules : List (String × RuleSettings)) (selected : List Rule) :
    analyzer root { options with ruleFilter := filter } { s with rules := rules }
        (selected.filterMap σ.rule?)
      = (analyzer root options s selected).map σ.analyzer := by
  unfold analyzer AnalyzerOptions.build AnalyzerOptions.withSettings
  cases List.mapM AnalyzerOptions.ignorePattern ([] ++ s.resolve.ignoredImports) <;> rfl

/-- Two runs whose rules differ by a revision have reports that differ by it, or the same error. -/
theorem lint_revised (σ : Revision) (w : Workspace) (project : String) (options : RunOptions)
    (s : Settings) (filter : Option String) (rules : List (String × RuleSettings))
    (h : (selectRules { s with rules := rules }.activeRules filter).value
      = (selectRules s.activeRules options.ruleFilter).value.filterMap σ.rule?) :
    (lint w project { options with ruleFilter := filter } { s with rules := rules }).value
      = (lint w project options s).value.map σ.report := by
  have hanchor : anchorDocument project { s with rules := rules }
      = { anchorDocument project s with rules := rules } := rfl
  have hroot : sourceRoot w project { s with rules := rules } = sourceRoot w project s := rfl
  simp only [lint, hroot, h, hanchor, analyzer_revised]
  cases analyzer (sourceRoot w project s).value options (anchorDocument project s)
      (selectRules s.activeRules options.ruleFilter).value with
  | error cause => rfl
  | ok a =>
      simp only [Except.map]
      cases filesToCheck w (sourceRoot w project s).value s.source.respectIgnored
          (s.source.exclude ++ options.exclude) with
      | error cause => rfl
      | ok files =>
          have hfiles := σ.checkFiles w a .empty files
          have hempty : σ.report .empty = .empty := rfl
          rw [hempty] at hfiles
          simp only [hfiles]
          cases (checkFiles w a .empty files).value with
          | error cause => rfl
          | ok report => simp only [Except.map, σ.report_sort]

/-- Selection looks at names and codes, which no revision changes. -/
theorem selectRules_revised (σ : Revision) (rules : List Rule) (filter : Option String) :
    (selectRules (rules.filterMap σ.rule?) filter).value
      = (selectRules rules filter).value.filterMap σ.rule? := by
  cases filter with
  | none => rfl
  | some filter =>
      simp only [selectRules, List.filter_filterMap, List.filterMap_filter]
      refine List.filterMap_congr fun r _ => ?_
      cases hrule : σ.rule? r with
      | none => simp
      | some r' => simp [Option.filter, isMeant, Revision.kind_of_rule? hrule]

theorem lint_of_activeRules {σ : Revision} (w : Workspace) (project : String) (options : RunOptions)
    {s : Settings} {rules : List (String × RuleSettings)}
    (h : { s with rules := rules }.activeRules = s.activeRules.filterMap σ.rule?) :
    (lint w project options { s with rules := rules }).value
      = (lint w project options s).value.map σ.report := by
  refine lint_revised σ w project options s options.ruleFilter rules ?_
  rw [h, selectRules_revised]

end Run

/-! ## Rule filters -/

namespace Report

/-- The report of some of the violations. -/
def restrict (r : Report) (p : Violation → Bool) : Report :=
  { r with violations := r.violations.filter p }

/-- The report with each violation changed. -/
def mapViolations (r : Report) (f : Violation → Violation) : Report :=
  { r with violations := r.violations.map f }

end Report

namespace Run

/-- The entries of a filter: what stands between its commas, without the blank ends, unless nothing
is left. -/
def IsEntry (filter entry : String) : Prop :=
  entry ≠ "" ∧
    ∃ parts : List (List Char), parts ≠ [] ∧ Text.join ',' parts = filter.toList ∧
      (∀ part ∈ parts, ',' ∉ part) ∧ ∃ part ∈ parts, Text.trim (String.ofList part) = entry

theorem mem_wantedRules {filter entry : String} :
    entry ∈ wantedRules filter ↔ IsEntry filter entry := by
  simp only [wantedRules, List.mem_filter, List.mem_map, decide_eq_true_eq]
  constructor
  · rintro ⟨⟨part, hpart, rfl⟩, hentry⟩
    refine ⟨hentry, _, Text.split_ne_nil _ _, Text.join_split ',' filter.toList, ?_, part, hpart,
      rfl⟩
    intro other hother hcomma
    simpa using Text.not_sep_of_mem_split _ _ other hother ',' hcomma
  · rintro ⟨hentry, parts, hne, hjoin, hcommas, part, hpart, rfl⟩
    have hsplit : Text.split (· == ',') (Text.join ',' parts) = parts := by
      refine Text.split_join ',' parts hne fun other hother c hc => beq_false_of_ne ?_
      rintro rfl
      exact hcommas other hother hc
    rw [hjoin] at hsplit
    exact ⟨⟨part, hsplit ▸ hpart, rfl⟩, hentry⟩

instance (filter entry : String) : Decidable (IsEntry filter entry) :=
  decidable_of_iff _ mem_wantedRules

theorem any_isMeant (filter : String) (r : Rule) :
    (wantedRules filter).any (isMeant r)
      = decide (IsEntry filter r.kind.name ∨ IsEntry filter r.kind.code) := by
  rw [Bool.eq_iff_iff, decide_eq_true_eq, List.any_eq_true, ← mem_wantedRules, ← mem_wantedRules]
  simp only [isMeant, Bool.or_eq_true, beq_iff_eq]
  constructor
  · rintro ⟨wanted, hwanted, rfl | rfl⟩
    · exact Or.inl hwanted
    · exact Or.inr hwanted
  · rintro (hname | hcode)
    · exact ⟨_, hname, Or.inl rfl⟩
    · exact ⟨_, hcode, Or.inr rfl⟩

end Run

namespace Revision

/-- Leave out all rules but those whose name and code satisfy `p`. -/
def keep (p : String → String → Bool) : Revision := fun name code severity =>
  if p name code then some severity else none

theorem rule?_keep (p : String → String → Bool) (r : Rule) :
    (keep p).rule? r = if p r.kind.name r.kind.code then some r else none := by
  unfold rule? keep
  split <;> rfl

theorem report_keep (p : String → String → Bool) (r : Report) :
    (keep p).report r = r.restrict fun v => p v.rule v.code := by
  unfold report Report.restrict
  rw [← List.filterMap_eq_filter]
  refine congrArg (Report.mk · r.filesChecked) (List.filterMap_congr fun v _ => ?_)
  unfold violation? keep Option.guard
  split <;> rfl

end Revision

theorem Run.selectRules_some (rules : List Rule) (filter : String) :
    (selectRules rules (some filter)).value = rules.filterMap
      (Revision.keep fun name code => IsEntry filter name ∨ IsEntry filter code).rule? := by
  simp only [selectRules, ← List.filterMap_eq_filter, any_isMeant]
  refine List.filterMap_congr fun r _ => ?_
  rw [Revision.rule?_keep]
  rfl

/-! ## Disabled rules and severities -/

namespace Settings

/-- The settings with the entry of one rule changed. A rule without an entry gets one. -/
def updateRule (s : Settings) (name : String) (change : RuleSettings → RuleSettings) : Settings :=
  { s with
    rules := (name, change ((s.rule? name).getD ⟨none, none, []⟩)) ::
      s.rules.filter fun r => r.1 ≠ name }

/-- The settings with a rule disabled. -/
def disable (s : Settings) (name : String) : Settings :=
  s.updateRule name fun r => { r with enabled := some false }

/-- The settings with a severity for a rule. -/
def setSeverity (s : Settings) (name : String) (severity : Severity) : Settings :=
  s.updateRule name fun r => { r with severity := some severity }

theorem rule?_updateRule (s : Settings) (name : String) (change : RuleSettings → RuleSettings)
    (other : String) :
    (s.updateRule name change).rule? other
      = if other = name then some (change ((s.rule? name).getD ⟨none, none, []⟩))
        else s.rule? other := by
  unfold updateRule rule?
  by_cases hother : other = name
  · simp [hother]
  · rw [if_neg hother, List.find?_cons_of_neg (by simpa using Ne.symm hother), List.find?_filter]
    congr 2
    funext r
    by_cases hr : r.1 = other
    · simp [hr, hother]
    · simp [hr]

end Settings

/-- The rule of a kind with its settings, if it is enabled. -/
def RuleKind.activeRule? (kind : RuleKind) (settings : Option RuleSettings) : Option Rule :=
  if (settings.bind (·.enabled)).getD true then
    some
      { kind := ofName kind.name (settings.bind (·.text? "alias"))
        severity := (settings.bind (·.severity)).getD .error }
  else none

namespace Settings

theorem activeRules_eq (s : Settings) :
    s.activeRules = RuleKind.all.filterMap fun kind => kind.activeRule? (s.rule? kind.name) := by
  rw [activeRules, ← List.filterMap_eq_map, List.filterMap_filter]
  rfl

theorem name_of_activeRule? {kind : RuleKind} {settings : Option RuleSettings} {r : Rule}
    (h : kind.activeRule? settings = some r) : r.kind.name = kind.name := by
  unfold RuleKind.activeRule? at h
  split at h
  · obtain rfl := Option.some.inj h
    cases kind <;> cases settings.bind (·.text? "alias") <;> rfl
  · cases h

/-- A change of the settings of one rule is a revision if it is one of the rule itself and the
revision leaves the other rules alone. -/
theorem activeRules_updateRule (s : Settings) {name : String} {change : RuleSettings → RuleSettings}
    {σ : Revision}
    (hchange : ∀ (kind : RuleKind) (settings : Option RuleSettings), kind.name = name →
      kind.activeRule? (some (change (settings.getD ⟨none, none, []⟩)))
        = (kind.activeRule? settings).bind σ.rule?)
    (hother : ∀ r : Rule, r.kind.name ≠ name → σ.rule? r = some r) :
    (s.updateRule name change).activeRules = s.activeRules.filterMap σ.rule? := by
  rw [activeRules_eq, activeRules_eq, List.filterMap_filterMap]
  refine List.filterMap_congr fun kind _ => ?_
  rw [rule?_updateRule]
  by_cases hname : kind.name = name
  · rw [if_pos hname, hchange kind _ hname, ← hname]
  · rw [if_neg hname]
    cases hrule : kind.activeRule? (s.rule? kind.name) with
    | none => rfl
    | some r => exact (hother r (name_of_activeRule? hrule ▸ hname)).symm

end Settings

namespace Revision

/-- Give the rules of a name a severity. -/
def assign (name : String) (severity : Severity) : Revision := fun other _ current =>
  some (if other = name then severity else current)

theorem report_assign (name : String) (severity : Severity) (r : Report) :
    (assign name severity).report r
      = r.mapViolations fun v => if v.rule = name then { v with severity := severity } else v := by
  unfold report Report.mapViolations
  rw [← List.filterMap_eq_map]
  refine congrArg (Report.mk · r.filesChecked) (List.filterMap_congr fun v _ => ?_)
  by_cases hv : v.rule = name
  · simp [violation?, assign, hv]
  · simp [violation?, assign, hv]

end Revision

namespace Settings

theorem activeRules_disable (s : Settings) (name : String) :
    (s.disable name).activeRules
      = s.activeRules.filterMap (Revision.keep fun other _ => other ≠ name).rule? := by
  refine s.activeRules_updateRule ?_ ?_
  · rintro kind settings rfl
    cases hrule : kind.activeRule? settings with
    | none => simp [RuleKind.activeRule?]
    | some r => simp [RuleKind.activeRule?, Revision.rule?_keep, name_of_activeRule? hrule]
  · intro r hr
    simp [Revision.rule?_keep, hr]

theorem activeRules_setSeverity (s : Settings) (name : String) (severity : Severity) :
    (s.setSeverity name severity).activeRules
      = s.activeRules.filterMap (Revision.assign name severity).rule? := by
  refine s.activeRules_updateRule ?_ ?_
  · rintro kind settings rfl
    have hmap : kind.activeRule?
          (some { settings.getD ⟨none, none, []⟩ with severity := some severity })
        = (kind.activeRule? settings).map fun r => { r with severity := severity } := by
      cases settings with
      | none => rfl
      | some r =>
          by_cases henabled : r.enabled.getD true = true
          · simp [RuleKind.activeRule?, henabled]
            rfl
          · simp [RuleKind.activeRule?, henabled]
    cases hrule : kind.activeRule? settings with
    | none => simp [hmap, hrule]
    | some r =>
        simp [hmap, hrule, Revision.rule?, Revision.assign, name_of_activeRule? hrule]
  · intro r hr
    simp [Revision.rule?, Revision.assign, hr]

end Settings

/-! ## The report of a run -/

/-- Rules do not know of each other, over a whole run. A rule filter leaves exactly the violations
whose rule it names or whose code it gives. To disable a rule removes exactly its violations. To set
the severity of a rule changes the severity of its violations and nothing else. In each case all
other violations stay as they are and in their order, the same files are checked, and a run without
a report has the same error. -/
theorem Run.lint_isolation (w : Workspace) (project : String) (options : RunOptions)
    (s : Settings) :
    (∀ filter : String,
      (lint w project { options with ruleFilter := some filter } s).value
        = (lint w project { options with ruleFilter := none } s).value.map fun r =>
            r.restrict fun v => IsEntry filter v.rule ∨ IsEntry filter v.code) ∧
      (∀ name : String,
        (lint w project options (s.disable name)).value
          = (lint w project options s).value.map fun r => r.restrict fun v => v.rule ≠ name) ∧
      ∀ (name : String) (severity : Severity),
        (lint w project options (s.setSeverity name severity)).value
          = (lint w project options s).value.map fun r =>
              r.mapViolations fun v =>
                if v.rule = name then { v with severity := severity } else v := by
  refine ⟨fun filter => ?_, fun name => ?_, fun name severity => ?_⟩
  · rw [← funext (Revision.report_keep fun name code => IsEntry filter name ∨ IsEntry filter code)]
    exact lint_revised _ w project { options with ruleFilter := none } s (some filter) s.rules
      (selectRules_some s.activeRules filter)
  · rw [← funext (Revision.report_keep fun other _ => other ≠ name)]
    exact lint_of_activeRules w project options (s.activeRules_disable name)
  · rw [← funext (Revision.report_assign name severity)]
    exact lint_of_activeRules w project options (s.activeRules_setSeverity name severity)

/-- One import breaks two rules. Whatever is done to one of them, the other one reports the same. -/
example :
    let w : Workspace :=
      ⟨⟨[(["src", "entities", "a", "x.ts"], "import '@/entities/c/model'".toUTF8)],
        [["src"], ["src", "entities"], ["src", "entities", "a"]]⟩, []⟩
    let found (filter : Option String) (s : Settings) :=
      (Run.lint w "." ⟨filter, [], none, []⟩ s).value.toOption.map fun r =>
        r.violations.map fun v => (v.code, v.severity)
    let s : Settings := ⟨none, ⟨"src", [], false⟩, .default, []⟩
    let other := s.disable "cross-import"
    found (some " cross-import, ,FSD004") s = some [("FSD002", .error)] ∧
      found none other = some [("FSD003", .error)] ∧
      found none (other.setSeverity "public-api-imports" .warning)
        = some [("FSD003", .warning)] := by
  decide +kernel

end SliceLint

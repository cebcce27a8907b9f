import Mathlib.Data.List.Basic
import SliceLint.Proofs.AliasCache
import SliceLint.Proofs.ReportOrder
import SliceLint.Run

set_option autoImplicit false

/-! # The order of files

Files are checked one after the other, and what is found is sorted at the end. The order of the
files is then lost (`Report.sort_collect_perm`). Sorted violations are determined by those at each
location, in their order (`Report.eq_of_filter_isAt`). Sorting is stable, so these are in the order
in which they were found, and all of them were found in one file, where the order of the files has
no say.

What is found in a file depends on what was checked before it only through the cache of aliases. As
long as no file changes, a cache gives what it would give if it was empty, so it makes no difference
either (`Analyzer.Agree`). -/

namespace SliceLint

/-! ## Locations in order -/

namespace Location

/-- A location that does not come after another one: files are compared component by component, then
lines, then columns. -/
def NotAfter (l m : Location) : Prop :=
  Path.compare l.file m.file = .lt ∨
    Path.compare l.file m.file = .eq ∧ (l.line < m.line ∨ l.line = m.line ∧ l.column ≤ m.column)

/-- Two locations that do not differ in file, line and column. -/
def SamePlace (l m : Location) : Prop :=
  Path.compare l.file m.file = .eq ∧ l.line = m.line ∧ l.column = m.column

instance (l m : Location) : Decidable (SamePlace l m) :=
  inferInstanceAs (Decidable (_ ∧ _ ∧ _))

end Location

namespace Report

theorem compareLocations_eq_iff {l m : Location} :
    compareLocations l m = .eq ↔ l.SamePlace m := by
  rw [compareLocations, Ordering.then_eq_eq, Ordering.then_eq_eq, Nat.compare_eq_eq,
    Nat.compare_eq_eq, Location.SamePlace]

theorem isLE_compareLocations_iff {l m : Location} :
    (compareLocations l m).isLE = true ↔ l.NotAfter m := by
  unfold compareLocations Location.NotAfter
  cases Path.compare l.file m.file with
  | lt => simp
  | gt => simp
  | eq =>
      rcases Nat.lt_trichotomy l.line m.line with hline | hline | hline
      · simp [Nat.compare_eq_lt.2 hline, hline]
      · simp [hline, Nat.isLE_compare]
      · simp [Nat.compare_eq_gt.2 hline, Nat.not_lt_of_gt hline, Nat.ne_of_gt hline]

/-! ## Violations at one location -/

/-- Whether a violation is at the same place as a location. -/
def isAt (l : Location) (v : Violation) : Bool :=
  l.SamePlace v.location

theorem isAt_iff {l : Location} {v : Violation} :
    isAt l v = true ↔ compareLocations l v.location = .eq := by
  rw [isAt, decide_eq_true_eq, compareLocations_eq_iff]

theorem isAt_self (v : Violation) : isAt v.location v = true :=
  isAt_iff.2 Std.ReflCmp.compare_self

theorem inOrder_of_isAt {l : Location} {u v : Violation} (hu : isAt l u = true)
    (hv : isAt l v = true) : inOrder u v = true := by
  have hsame : compareLocations u.location v.location = .eq :=
    Std.TransCmp.eq_trans (Std.OrientedCmp.eq_symm (isAt_iff.1 hu)) (isAt_iff.1 hv)
  simp [inOrder, hsame]

theorem isAt_of_inOrder {u v : Violation} (huv : inOrder u v = true) (hvu : inOrder v u = true) :
    isAt u.location v = true :=
  isAt_iff.2 (Std.OrientedCmp.isLE_antisymm huv hvu)

/-- Sorting keeps the order of the violations at one location. -/
theorem filter_isAt_mergeSort (l : Location) (vs : List Violation) :
    (vs.mergeSort inOrder).filter (isAt l) = vs.filter (isAt l) := by
  have hsame : (vs.filter (isAt l)).Pairwise fun u v => inOrder u v = true :=
    List.pairwise_of_forall_mem_list fun u hu v hv =>
      inOrder_of_isAt (List.mem_filter.1 hu).2 (List.mem_filter.1 hv).2
  have hkept : ∀ v v', Option.guard (isAt l) v = some v' → v'.location = v.location := by
    intro v v' h
    rw [(Option.guard_eq_some_iff.1 h).1]
  rw [← List.filterMap_eq_filter, filterMap_mergeSort hkept, List.filterMap_eq_filter,
    List.mergeSort_of_pairwise hsame]

theorem mem_of_filter_isAt {us vs : List Violation}
    (h : ∀ l, us.filter (isAt l) = vs.filter (isAt l)) {u : Violation} (hu : u ∈ us) : u ∈ vs := by
  have hfilter : u ∈ us.filter (isAt u.location) := List.mem_filter.2 ⟨hu, isAt_self u⟩
  rw [h] at hfilter
  exact (List.mem_filter.1 hfilter).1

/-- Sorted violations are determined by those at each location, in their order. -/
theorem eq_of_filter_isAt {us vs : List Violation}
    (hus : us.Pairwise fun u v => inOrder u v = true)
    (hvs : vs.Pairwise fun u v => inOrder u v = true)
    (h : ∀ l, us.filter (isAt l) = vs.filter (isAt l)) : us = vs := by
  induction us generalizing vs with
  | nil =>
      refine (List.eq_nil_iff_forall_not_mem.2 fun v hv => ?_).symm
      exact List.not_mem_nil (mem_of_filter_isAt (fun l => (h l).symm) hv)
  | cons u us ih =>
      cases vs with
      | nil => exact absurd (mem_of_filter_isAt h List.mem_cons_self) List.not_mem_nil
      | cons v vs =>
          rw [List.pairwise_cons] at hus hvs
          -- each of the two first violations may stand in front of the other
          have huv : inOrder u v = true := by
            have hmem : v ∈ u :: us := mem_of_filter_isAt (fun l => (h l).symm) List.mem_cons_self
            rcases List.mem_cons.1 hmem with rfl | hv
            · exact inOrder_of_isAt (isAt_self v) (isAt_self v)
            · exact hus.1 v hv
          have hvu : inOrder v u = true := by
            have hmem : u ∈ v :: vs := mem_of_filter_isAt h List.mem_cons_self
            rcases List.mem_cons.1 hmem with rfl | hu
            · exact inOrder_of_isAt (isAt_self u) (isAt_self u)
            · exact hvs.1 u hu
          have hhere := h u.location
          rw [List.filter_cons_of_pos (isAt_self u),
            List.filter_cons_of_pos (isAt_of_inOrder huv hvu), List.cons.injEq] at hhere
          obtain ⟨rfl, -⟩ := hhere
          refine congrArg (u :: ·) (ih hus.2 hvs.2 fun l => ?_)
          have hl := h l
          by_cases hu : isAt l u = true
          · rw [List.filter_cons_of_pos hu, List.filter_cons_of_pos hu] at hl
            exact (List.cons.inj hl).2
          · rw [List.filter_cons_of_neg hu, List.filter_cons_of_neg hu] at hl
            exact hl

end Report

/-! ## Files -/

/-- What was found in one file. -/
structure FileResult where
  file : String
  violations : List Violation
  located : ∀ v ∈ violations, v.location.file = file

namespace Report

/-- Add one more file. -/
def addFile (report : Report) (r : FileResult) : Report :=
  report.extend ⟨r.violations, 1⟩

/-- The report of some files, collected in order. -/
def collect (results : List FileResult) : Report :=
  results.foldl addFile .empty

theorem foldl_addFile (report : Report) (results : List FileResult) :
    results.foldl addFile report
      = ⟨report.violations ++ results.flatMap (·.violations),
        report.filesChecked + results.length⟩ := by
  induction results generalizing report with
  | nil => simp
  | cons r results ih =>
      rw [List.foldl_cons, ih]
      simp [addFile, extend, Nat.add_comm, Nat.add_left_comm]

theorem collect_eq (results : List FileResult) :
    collect results = ⟨results.flatMap (·.violations), results.length⟩ := by
  rw [collect, foldl_addFile]
  simp [empty]

/-- No two files have paths that are the same component by component. -/
def DistinctFiles (results : List FileResult) : Prop :=
  results.Pairwise fun r s => Path.compare r.file s.file ≠ .eq

theorem filter_isAt_eq_nil {l : Location} {r : FileResult}
    (h : Path.compare l.file r.file ≠ .eq) : r.violations.filter (isAt l) = [] := by
  refine List.filter_eq_nil_iff.2 fun v hv hat => h ?_
  rw [← r.located v hv]
  exact (of_decide_eq_true hat).1

theorem flatMap_isAt_eq_nil {l : Location} {results : List FileResult}
    (h : ∀ r ∈ results, Path.compare l.file r.file ≠ .eq) :
    (results.flatMap (·.violations)).filter (isAt l) = [] := by
  rw [List.filter_flatMap, List.flatMap_eq_nil_iff]
  exact fun r hr => filter_isAt_eq_nil (h r hr)

/-- All violations at a location come from the one file that it is in. -/
theorem flatMap_isAt {results : List FileResult} (hdistinct : DistinctFiles results)
    {r : FileResult} (hr : r ∈ results) {l : Location} (hl : Path.compare l.file r.file = .eq) :
    (results.flatMap (·.violations)).filter (isAt l) = r.violations.filter (isAt l) := by
  obtain ⟨before, after, rfl⟩ := List.mem_iff_append.1 hr
  rw [DistinctFiles, List.pairwise_append, List.pairwise_cons] at hdistinct
  obtain ⟨-, ⟨hafter, -⟩, hbefore⟩ := hdistinct
  have hbefore' : ∀ s ∈ before, Path.compare l.file s.file ≠ .eq := by
    intro s hs hsame
    exact hbefore s hs r List.mem_cons_self
      (Std.TransCmp.eq_trans (Std.OrientedCmp.eq_symm hsame) hl)
  have hafter' : ∀ s ∈ after, Path.compare l.file s.file ≠ .eq := by
    intro s hs hsame
    exact hafter s hs (Std.TransCmp.eq_trans (Std.OrientedCmp.eq_symm hl) hsame)
  rw [List.flatMap_append, List.flatMap_cons, List.filter_append, List.filter_append,
    flatMap_isAt_eq_nil hbefore', flatMap_isAt_eq_nil hafter', List.nil_append, List.append_nil]

theorem distinctFiles_of_perm {results results' : List FileResult} (h : results'.Perm results)
    (hdistinct : DistinctFiles results) : DistinctFiles results' :=
  (h.pairwise_iff fun hne heq => hne (Std.OrientedCmp.eq_symm heq)).2 hdistinct

theorem sort_violations (r : Report) : r.sort.violations = r.violations.mergeSort inOrder :=
  rfl

theorem sort_pairwise (r : Report) :
    r.sort.violations.Pairwise fun u v => inOrder u v = true :=
  List.pairwise_mergeSort inOrder_trans inOrder_total r.violations

theorem sort_eq_self {r : Report} (h : r.violations.Pairwise fun u v => inOrder u v = true) :
    r.sort = r :=
  congrArg (Report.mk · r.filesChecked) (List.mergeSort_of_pairwise h)

/-- The order of the files is lost in sorting. -/
theorem sort_collect_of_perm {results results' : List FileResult} (hperm : results'.Perm results)
    (hdistinct : DistinctFiles results) : (collect results').sort = (collect results).sort := by
  have hfilter : ∀ l, (results'.flatMap (·.violations)).filter (isAt l)
      = (results.flatMap (·.violations)).filter (isAt l) := by
    intro l
    by_cases hl : ∃ r ∈ results, Path.compare l.file r.file = .eq
    · obtain ⟨r, hr, hfile⟩ := hl
      rw [flatMap_isAt hdistinct hr hfile,
        flatMap_isAt (distinctFiles_of_perm hperm hdistinct) (hperm.mem_iff.2 hr) hfile]
    · have hnone : ∀ r ∈ results, Path.compare l.file r.file ≠ .eq :=
        fun r hr heq => hl ⟨r, hr, heq⟩
      rw [flatMap_isAt_eq_nil hnone, flatMap_isAt_eq_nil fun r hr => hnone r (hperm.mem_iff.1 hr)]
  have hsorted : (results'.flatMap (·.violations)).mergeSort inOrder
      = (results.flatMap (·.violations)).mergeSort inOrder := by
    refine eq_of_filter_isAt (List.pairwise_mergeSort inOrder_trans inOrder_total _)
      (List.pairwise_mergeSort inOrder_trans inOrder_total _) fun l => ?_
    rw [filter_isAt_mergeSort, filter_isAt_mergeSort, hfilter]
  rw [collect_eq, collect_eq]
  show Report.mk _ _ = Report.mk _ _
  rw [hperm.length_eq]
  exact congrArg (Report.mk · results.length) hsorted

end Report

/-! ## Imports of a file -/

namespace Analyzer

theorem check_fst (w : Workspace) (a : Analyzer) (file specifier : String) :
    (a.check w file specifier).1
      = ⟨Edge.classify (treePath file a.root) specifier (a.aliases.get w file).1,
        a.judge specifier
          (Edge.classify (treePath file a.root) specifier (a.aliases.get w file).1)⟩ :=
  rfl

theorem checkImports_cons (w : Workspace) (file : String) (a : Analyzer) (i : Import)
    (imports : List Import) :
    a.checkImports w file (i :: imports)
      = ((a.check w file i.specifier).1.violations (i.location file)
          ++ ((a.check w file i.specifier).2.checkImports w file imports).1,
        ((a.check w file i.specifier).2.checkImports w file imports).2) :=
  rfl

/-- What a rule reports about an import of a file. -/
def violation? (w : Workspace) (a : Analyzer) (file : String) (i : Import) (rule : Rule) :
    Option Violation :=
  let e := (a.check w file i.specifier).1.edge
  if a.ignores e.target then none
  else (apply rule i.specifier e).map fun f => f.violation (i.location file) e

theorem violations_check (w : Workspace) (a : Analyzer) (file : String) (i : Import) :
    (a.check w file i.specifier).1.violations (i.location file)
      = a.rules.filterMap (a.violation? w file i) := by
  unfold violation?
  rw [check_fst, EdgeReport.violations, judge]
  split
  · next hignored => simp [hignored]
  · next hignored => simp [hignored, List.map_filterMap]

/-- The aliases of a file do not change while its imports are checked. -/
theorem violation?_check (w : Workspace) (a : Analyzer) (file specifier : String) :
    (a.check w file specifier).2.violation? w file = a.violation? w file := by
  have hedge : ∀ other, ((a.check w file specifier).2.check w file other).1.edge
      = (a.check w file other).1.edge := by
    intro other
    have haliases := AliasCache.get_get w w a.aliases file
    exact congrArg (Edge.classify (treePath file a.root) other) haliases
  funext i rule
  unfold violation?
  rw [hedge]
  rfl

/-- The violations of a file come import by import, and those of an import rule by rule. -/
theorem checkImports_eq_flatMap (w : Workspace) (file : String) (a : Analyzer)
    (imports : List Import) :
    (a.checkImports w file imports).1
      = imports.flatMap fun i => a.rules.filterMap (a.violation? w file i) := by
  induction imports generalizing a with
  | nil => rfl
  | cons i imports ih =>
      have hrest := ih (a.check w file i.specifier).2
      rw [violation?_check] at hrest
      rw [checkImports_cons, List.flatMap_cons, ← violations_check, hrest]
      rfl

theorem file_of_mem_checkImports {w : Workspace} {a : Analyzer} {file : String}
    {imports : List Import} {v : Violation} (h : v ∈ (a.checkImports w file imports).1) :
    v.location.file = file := by
  rw [checkImports_eq_flatMap, List.mem_flatMap] at h
  obtain ⟨i, -, hi⟩ := h
  rw [← violations_check] at hi
  obtain ⟨f, -, rfl⟩ := List.mem_map.1 hi
  rfl

end Analyzer

/-! ## Caches of unchanged files -/

/-- A cache that was empty once, and since then the files have not changed. -/
def AliasCache.IsCurrent (w : Workspace) (c : AliasCache) : Prop :=
  ∃ log, Remembers c.options log ⟨w, c⟩ ∧ ∀ l ∈ log.lookups, l.2 = w

namespace AliasCache.IsCurrent

variable {w : Workspace} {c : AliasCache}

theorem of_empty (w : Workspace) (h : c.entries = []) : c.IsCurrent w := by
  obtain ⟨options, entries⟩ := c
  obtain rfl : entries = [] := h
  exact ⟨⟨w, []⟩, .start options w, fun l hl => absurd hl List.not_mem_nil⟩

theorem get (h : c.IsCurrent w) (file : String) : (c.get w file).2.IsCurrent w := by
  obtain ⟨log, hlog, hlookups⟩ := h
  refine ⟨log.step (.lookup file), ?_, fun l hl => ?_⟩
  · rw [AliasCache.get_options]
    exact hlog.lookup file
  · rcases List.mem_append.1 hl with hl | hl
    · exact hlookups l hl
    · rw [List.mem_singleton.1 hl]
      exact hlog.workspace.symm

theorem get_eq (h : c.IsCurrent w) (file : String) :
    (c.get w file).1 = c.options.resolve w (some (AliasCache.directory file)) := by
  obtain ⟨log, hlog, hlookups⟩ := h
  have hsame : log.workspace = w := hlog.workspace.symm
  rw [hlog.get_eq file, LookupLog.snapshot_eq fun l hl => (hlookups l hl).trans hsame.symm, hsame]

end AliasCache.IsCurrent

/-- Analyzers that differ in what their caches remember, and neither remembers anything outdated. -/
structure Analyzer.Agree (w : Workspace) (a b : Analyzer) : Prop where
  root : a.root = b.root
  rules : a.rules = b.rules
  ignored : a.ignored = b.ignored
  options : a.aliases.options = b.aliases.options
  left : a.aliases.IsCurrent w
  right : b.aliases.IsCurrent w

namespace Analyzer.Agree

variable {w : Workspace} {a b : Analyzer}

theorem refl (h : a.aliases.IsCurrent w) : Agree w a a :=
  ⟨rfl, rfl, rfl, rfl, h, h⟩

theorem check_eq (h : Agree w a b) (file specifier : String) :
    (a.check w file specifier).1 = (b.check w file specifier).1 := by
  have hedge : Edge.classify (treePath file a.root) specifier (a.aliases.get w file).1
      = Edge.classify (treePath file b.root) specifier (b.aliases.get w file).1 := by
    rw [h.left.get_eq, h.right.get_eq, h.root, h.options]
  have hjudge : ∀ e, a.judge specifier e = b.judge specifier e := by
    intro e
    rw [judge, judge, ignores, ignores, h.ignored, h.rules]
  rw [check_fst, check_fst, hedge, hjudge]

/-- A check only adds to the cache. -/
theorem check (h : Agree w a b) (file specifier : String) :
    Agree w a (b.check w file specifier).2 :=
  ⟨h.root, h.rules, h.ignored, h.options.trans (AliasCache.get_options w b.aliases file).symm,
    h.left, h.right.get file⟩

theorem symm (h : Agree w a b) : Agree w b a :=
  ⟨h.root.symm, h.rules.symm, h.ignored.symm, h.options.symm, h.right, h.left⟩

theorem checkImports (file : String) (imports : List Import) :
    ∀ {a b : Analyzer}, Agree w a b →
      (a.checkImports w file imports).1 = (b.checkImports w file imports).1 ∧
        Agree w a (b.checkImports w file imports).2 := by
  induction imports with
  | nil =>
      intro a b h
      exact ⟨rfl, h⟩
  | cons i imports ih =>
      intro a b h
      have hboth : Agree w (a.check w file i.specifier).2 (b.check w file i.specifier).2 :=
        ((h.check file i.specifier).symm.check file i.specifier).symm
      rw [checkImports_cons, checkImports_cons]
      refine ⟨?_, (ih (h.check file i.specifier)).2⟩
      simp only [h.check_eq, (ih hboth).1]

/-- What comes of a file does not depend on the files that were checked before. -/
theorem checkFile (h : Agree w a b) (file : String) :
    (a.checkFile w file).outcome = (b.checkFile w file).outcome ∧
      Agree w a (b.checkFile w file).analyzer := by
  unfold Analyzer.checkFile
  cases Language.ofPath? file with
  | none => exact ⟨rfl, h⟩
  | some language =>
      cases w.readText? file with
      | none => exact ⟨rfl, h⟩
      | some source =>
          obtain ⟨hviolations, hafter⟩ := h.checkImports file (language.imports source)
          exact ⟨congrArg FileOutcome.checked hviolations, hafter⟩

end Analyzer.Agree

/-! ## Runs -/

/-- Whether a run goes on after a file. -/
def FileOutcome.goesOn : FileOutcome → Bool
  | unsupported => true
  | unreadable => false
  | checked _ => true

namespace Analyzer

theorem file_of_mem_checkFile {w : Workspace} {a : Analyzer} {file : String}
    {violations : List Violation} (h : (a.checkFile w file).outcome = .checked violations) :
    ∀ v ∈ violations, v.location.file = file := by
  unfold checkFile at h
  intro v hv
  split at h
  · cases h
  · split at h
    · cases h
    · cases h
      exact file_of_mem_checkImports hv

/-- What is found in a file that is checked first. -/
def result? (w : Workspace) (a : Analyzer) (file : String) : Option FileResult :=
  match h : (a.checkFile w file).outcome with
  | .checked violations => some ⟨file, violations, file_of_mem_checkFile h⟩
  | .unsupported => none
  | .unreadable => none

theorem result?_of_checked {w : Workspace} {a : Analyzer} {file : String}
    {violations : List Violation} (h : (a.checkFile w file).outcome = .checked violations) :
    a.result? w file = some ⟨file, violations, file_of_mem_checkFile h⟩ := by
  unfold result?
  split
  · next other hother =>
      obtain rfl := FileOutcome.checked.inj (hother.symm.trans h)
      rfl
  · next hother => exact absurd (hother.symm.trans h) (by simp)
  · next hother => exact absurd (hother.symm.trans h) (by simp)

theorem result?_of_unsupported {w : Workspace} {a : Analyzer} {file : String}
    (h : (a.checkFile w file).outcome = .unsupported) : a.result? w file = none := by
  unfold result?
  split
  · next other hother => exact absurd (hother.symm.trans h) (by simp)
  · rfl
  · rfl

theorem file_of_result? {w : Workspace} {a : Analyzer} {file : String} {r : FileResult}
    (h : a.result? w file = some r) : r.file = file := by
  unfold result? at h
  split at h
  · cases h
    rfl
  · cases h
  · cases h

end Analyzer

namespace Run

/-- A run collects what is found in each file that is checked first, or fails at an unreadable
file. -/
theorem toOption_checkFiles {w : Workspace} {a : Analyzer} (files : List String) :
    ∀ {b : Analyzer} (report : Report), Analyzer.Agree w a b →
      (checkFiles w b report files).value.toOption
        = if (files.all fun file => (a.checkFile w file).outcome.goesOn) then
            some ((files.filterMap (a.result? w)).foldl Report.addFile report)
          else none := by
  induction files with
  | nil =>
      intro b report h
      rfl
  | cons file files ih =>
      intro b report h
      obtain ⟨houtcome, hafter⟩ := h.checkFile file
      rw [List.all_cons]
      cases hb : (b.checkFile w file).outcome with
      | unreadable =>
          have hstops : (a.checkFile w file).outcome.goesOn = false := by rw [houtcome, hb]; rfl
          simp only [checkFiles, hb, hstops, Bool.false_and]
          rfl
      | unsupported =>
          have hgoesOn : (a.checkFile w file).outcome.goesOn = true := by rw [houtcome, hb]; rfl
          rw [List.filterMap_cons_none (Analyzer.result?_of_unsupported (houtcome.trans hb))]
          simp only [checkFiles, hb, ih report hafter, hgoesOn, Bool.true_and]
      | checked violations =>
          have hgoesOn : (a.checkFile w file).outcome.goesOn = true := by rw [houtcome, hb]; rfl
          rw [List.filterMap_cons_some (Analyzer.result?_of_checked (houtcome.trans hb)),
            List.foldl_cons]
          simp only [checkFiles, hb, ih _ hafter, hgoesOn, Bool.true_and, Report.addFile]

/-- A run on the same files in another order has the same sorted report, or also none. -/
theorem sort_checkFiles_of_perm {w : Workspace} {a : Analyzer} {files files' : List String}
    (hempty : a.aliases.entries = [])
    (hdistinct : files.Pairwise fun p q => Path.compare p q ≠ .eq) (hperm : files'.Perm files) :
    (checkFiles w a .empty files').value.toOption.map Report.sort
      = (checkFiles w a .empty files).value.toOption.map Report.sort := by
  have hagree : Analyzer.Agree w a a := .refl (.of_empty w hempty)
  have hgoesOn : (files'.all fun file => (a.checkFile w file).outcome.goesOn)
      = files.all fun file => (a.checkFile w file).outcome.goesOn := hperm.all_eq
  have hfiles : Report.DistinctFiles (files.filterMap (a.result? w)) := by
    refine hdistinct.filterMap _ fun p q hpq r hr s hs => ?_
    rw [Analyzer.file_of_result? hr, Analyzer.file_of_result? hs]
    exact hpq
  rw [toOption_checkFiles files' .empty hagree, toOption_checkFiles files .empty hagree, hgoesOn]
  split
  · exact congrArg some (Report.sort_collect_of_perm (hperm.filterMap _) hfiles)
  · rfl

end Run

namespace Report

/-- The order in which files are checked does not show in the sorted report. It has all violations,
by file, line and column, and those at one location in the order in which they were found: import by
import, and rule by rule. A run collects what is found in each of its files on its own, or fails if
one of them cannot be read. So the order of its files does not show either. -/
theorem sort_collect_perm :
    (∀ results results' : List FileResult, DistinctFiles results → results'.Perm results →
      (collect results').sort = (collect results).sort ∧
      (collect results).sort.violations.Perm (results.flatMap (·.violations)) ∧
      (collect results).sort.violations.Pairwise (fun u v => u.location.NotAfter v.location) ∧
      (∀ r ∈ results, ∀ l : Location, Path.compare l.file r.file = .eq →
        (collect results).sort.violations.filter (isAt l) = r.violations.filter (isAt l)) ∧
      (collect results).sort.sort = (collect results).sort) ∧
    (∀ (w : Workspace) (file : String) (a : Analyzer) (imports : List Import),
      (a.checkImports w file imports).1
        = imports.flatMap fun i => a.rules.filterMap (a.violation? w file i)) ∧
    (∀ (w : Workspace) (a : Analyzer) (files : List String), a.aliases.entries = [] →
      (Run.checkFiles w a .empty files).value.toOption
        = if (files.all fun file => (a.checkFile w file).outcome.goesOn) then
            some (collect (files.filterMap (a.result? w)))
          else none) ∧
    ∀ (w : Workspace) (a : Analyzer) (files files' : List String), a.aliases.entries = [] →
      files.Pairwise (fun p q => Path.compare p q ≠ .eq) → files'.Perm files →
      (Run.checkFiles w a .empty files').value.toOption.map sort
        = (Run.checkFiles w a .empty files).value.toOption.map sort := by
  refine ⟨fun results results' hdistinct hperm => ?_, Analyzer.checkImports_eq_flatMap,
    fun w a files hempty => Run.toOption_checkFiles files .empty (.refl (.of_empty w hempty)),
    fun w a files files' => Run.sort_checkFiles_of_perm⟩
  have hsorted : (collect results).sort.violations
      = (results.flatMap (·.violations)).mergeSort inOrder := by
    rw [sort_violations, collect_eq]
  refine ⟨sort_collect_of_perm hperm hdistinct, ?_, ?_, fun r hr l hl => ?_,
    sort_eq_self (sort_pairwise (collect results))⟩
  · rw [hsorted]
    exact List.mergeSort_perm _ _
  · exact (sort_pairwise (collect results)).imp isLE_compareLocations_iff.1
  · rw [hsorted, filter_isAt_mergeSort, flatMap_isAt hdistinct hr hl]

/-- Two files with paths that compare as texts the other way round than component by component. -/
def neighbours : Workspace where
  tree.files :=
    [(["entities", "a", "x.ts"], "import '@/entities/c/model'".toUTF8),
      (["entities", "a-b", "x.ts"], "import '@/entities/c'".toUTF8)]
  tree.directories := [["entities"], ["entities", "a"], ["entities", "a-b"]]
  cwd := []

/-- Of two neighbours, one has two violations at one location. They come first and in their order,
even if the file is checked last. -/
theorem sort_collect_perm_neighbours :
    let a : Analyzer := ⟨none, Rule.all, .ofOptions .empty, []⟩
    let result (file : String) (i : Import) : FileResult :=
      ⟨file, (a.checkImports neighbours file [i]).1, fun _ => Analyzer.file_of_mem_checkImports⟩
    let r := result "entities/a/x.ts" ⟨1, 8, 8, 18, "@/entities/c/model"⟩
    let s := result "entities/a-b/x.ts" ⟨1, 8, 8, 12, "@/entities/c"⟩
    let run (files : List String) := (Run.checkFiles neighbours a .empty files).value.toOption
    ("entities/a-b/x.ts" < "entities/a/x.ts" ∧ DistinctFiles [r, s]) ∧
      (collect [s, r]).sort.violations = r.violations ++ s.violations ∧
      (r.violations.map (·.code) = ["FSD002", "FSD003"] ∧
        s.violations.map (·.code) = ["FSD002"]) ∧
      (run ["entities/a-b/x.ts", "entities/a/x.ts"]).isSome = true ∧
      (run ["entities/a-b/x.ts", "entities/a/x.ts"]).map sort
        = (run ["entities/a/x.ts", "entities/a-b/x.ts"]).map sort := by
  intro a result r s run
  obtain ⟨hcollect, -, -, hrun⟩ := sort_collect_perm
  have hdistinct : DistinctFiles [r, s] := by
    refine List.pairwise_pair.2 ?_
    decide +kernel
  obtain ⟨hsorted, hcodes⟩ :
      (r.violations ++ s.violations).Pairwise (fun u v => inOrder u v = true) ∧
        r.violations.map (·.code) = ["FSD002", "FSD003"] ∧
        s.violations.map (·.code) = ["FSD002"] := by
    decide +kernel
  clear_value r s
  have hviolations : (collect [r, s]).violations = r.violations ++ s.violations := by
    rw [collect_eq, List.flatMap_cons, List.flatMap_singleton]
  have hswap := (hcollect [r, s] [s, r] hdistinct (.swap r s [])).1
  refine ⟨⟨by decide +kernel, hdistinct⟩, ?_, hcodes, by decide +kernel, ?_⟩
  · rw [hswap, sort_eq_self (hviolations ▸ hsorted), hviolations]
  · exact hrun neighbours a _ _ rfl (List.pairwise_pair.2 (by decide +kernel)) (.swap _ _ [])

end Report

end SliceLint

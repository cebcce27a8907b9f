import SliceLint.Analyzer
import SliceLint.Source.Language

set_option autoImplicit false

/-! # Checking files

All imports of a file go through the analyzer; each finding becomes a violation at the place of
the specifier. -/

namespace SliceLint

namespace Import

/-- The place of an import in a file. Columns of locations count from one. -/
def location (i : Import) (file : String) : Location where
  file := file
  line := i.line
  column := i.column + 1
  offset := i.offset
  length := i.length

end Import

namespace EdgeReport

/-- The violations of a report at a place. -/
def violations (r : EdgeReport) (location : Location) : List Violation :=
  r.findings.map fun f => f.violation location r.edge

end EdgeReport

namespace Analyzer

/-- Check imports of a file, in order. -/
def checkImports (w : Workspace) (file : String) :
    Analyzer → List Import → List Violation × Analyzer
  | a, [] => ([], a)
  | a, i :: rest =>
    let (report, a) := a.check w file i.specifier
    let (violations, a) := checkImports w file a rest
    (report.violations (i.location file) ++ violations, a)

end Analyzer

/-- What came of a file. -/
inductive FileOutcome where
  /-- No language has files of this extension. -/
  | unsupported
  /-- The file is missing, or not text. -/
  | unreadable
  | checked (violations : List Violation)

/-- What came of a file, with the analyzer as it is afterwards, and the document that could not be
read on the way. -/
structure FileCheck where
  outcome : FileOutcome
  analyzer : Analyzer
  unreadableDocument : Option String

namespace Analyzer

/-- Read a file and check its imports. -/
def checkFile (w : Workspace) (a : Analyzer) (path : String) : FileCheck :=
  match Language.ofPath? path with
  | none => ⟨.unsupported, a, none⟩
  | some language =>
    match w.readText? path with
    | none => ⟨.unreadable, a, none⟩
    | some source =>
      let imports := language.imports source
      let (violations, after) := a.checkImports w path imports
      ⟨.checked violations, after, if imports.isEmpty then none else a.unreadable? w path⟩

end Analyzer

end SliceLint

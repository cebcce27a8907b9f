set_option autoImplicit false

/-! # Notices

What a run tells its user beside its results. -/

namespace SliceLint

/-- The weight of a notice. -/
inductive NoticeLevel where
  | info
  | warning
  deriving DecidableEq, Repr

/-- A message to the user. -/
structure Notice where
  level : NoticeLevel
  text : String
  deriving DecidableEq, Repr

namespace Notice

/-- A message for information. -/
def info (text : String) : Notice := ⟨.info, text⟩

/-- A warning. -/
def warning (text : String) : Notice := ⟨.warning, text⟩

/-- The message with its weight in front. -/
def display (n : Notice) : String :=
  match n.level with
  | .info => "INFO " ++ n.text
  | .warning => "WARN " ++ n.text

end Notice

end SliceLint

set_option autoImplicit false

/-! # What a source may go on with

A slash, an angle bracket or a brace means different things at different places. The mode of a row
of pieces tells what the last piece left open, and so what such a character begins. -/

namespace SliceLint

/-- What the grammar expects next. -/
inductive Expect where
  /-- A statement. -/
  | statement
  /-- An operand of an expression, or a type. -/
  | operand
  /-- A statement or a function body; an operand if no brace follows. -/
  | body
  /-- An operator, because an operand has just ended. -/
  | operator
  deriving DecidableEq, Repr

/-- What the pieces of a row so far left open. -/
structure Mode where
  expect : Expect
  /-- The last piece was a dot, so a word names a member. -/
  member : Bool
  /-- The last word needs a condition in parentheses, and a statement follows that. -/
  condition : Bool
  /-- The last word began a statement, so a colon makes it a label. -/
  begins : Bool
  /-- What was expected before the word `async`, if that was the last word. -/
  beforeAsync : Option Expect
  /-- A function or class that is part of an expression has no body yet. -/
  expression : Bool
  /-- A `case` or `default` has no colon yet. -/
  label : Bool
  /-- How many question marks have no colon yet. -/
  questions : Nat
  /-- A line ended after the last piece. -/
  newline : Bool
  deriving DecidableEq, Repr

namespace Mode

/-- The mode at the start of a row. -/
def initial (expect : Expect) : Mode where
  expect := expect
  member := false
  condition := false
  begins := false
  beforeAsync := none
  expression := false
  label := false
  questions := 0
  newline := false

/-- The mode after a piece, with a new expectation. -/
def expecting (m : Mode) (expect : Expect) : Mode :=
  { m with
    expect := expect
    member := false
    condition := false
    begins := false
    beforeAsync := none
    newline := false }

/-- Words after which an operand follows. -/
def operandWords : List String :=
  ["return", "typeof", "instanceof", "in", "delete", "throw", "new", "yield", "extends"]

/-- Words that are operators after an operand, and names elsewhere. -/
def operatorWords : List String :=
  ["of", "as", "satisfies"]

/-- Words that a statement or a body follows. -/
def bodyWords : List String :=
  ["else", "do", "try", "finally", "void"]

/-- Words that a condition in parentheses follows. -/
def conditionWords : List String :=
  ["if", "while", "for", "with", "switch", "catch"]

/-- The mode after a name. -/
def afterName (m : Mode) : Mode :=
  { m.expecting .operator with begins := m.expect = .statement }

/-- The mode after a word. The word `async` is a name by itself, and a function after it stands where
the word does. -/
def afterWord (m : Mode) (w : String) : Mode :=
  if m.member then m.expecting .operator
  else if w ∈ operandWords then m.expecting .operand
  else if w ∈ bodyWords then m.expecting .body
  else if w ∈ conditionWords then { m.expecting .operator with condition := true }
  else if w = "await" then { m.expecting .operand with condition := m.condition }
  else if w = "case" then { m.expecting .operand with label := true }
  else if w = "default" then { m.expecting .body with label := true }
  else if w = "export" then m.expecting .statement
  else if w = "async" then { m.afterName with beforeAsync := m.expect }
  else if w = "function" ∨ w = "class" then
    { m.expecting .operator with expression := m.beforeAsync.getD m.expect = .operand }
  else if w ∈ operatorWords ∧ m.expect = .operator then m.expecting .operand
  else m.afterName

/-- The mode after a punctuation mark. -/
def afterMark (m : Mode) (mark : String) : Mode :=
  if mark = "." ∨ mark = "?." then { m.expecting .operator with member := true }
  else if mark = ";" then initial .statement
  else if mark = "?" then { m.expecting .operand with questions := m.questions + 1 }
  else if mark = ":" then
    if 0 < m.questions then { m.expecting .operand with questions := m.questions - 1 }
    else if m.label then { m.expecting .statement with label := false }
    else if m.begins then m.expecting .statement
    else m.expecting .operand
  else if mark = "=>" ∨ mark = ">" then m.expecting .body
  else if mark = "!" ∨ mark = "++" ∨ mark = "--" then
    if m.expect = .operator ∧ m.newline = false then m.expecting .operator
    else m.expecting .operand
  else m.expecting .operand

/-- The mode inside a bracket that opens. -/
def inside (m : Mode) (opening : Char) : Mode :=
  if opening = '{' ∧ m.expect ≠ .operand then initial .statement else initial .operand

/-- The mode after a pair of brackets, by the mode before it. -/
def afterGroup (m : Mode) (opening : Char) : Mode :=
  if opening = '(' then m.expecting (if m.condition then .statement else .operator)
  else if opening = '{' then
    match m.expect with
    | .statement => m.expecting .statement
    | .operand => m.expecting .operator
    | _ => { m.expecting (if m.expression then .operator else .statement) with expression := false }
  else m.expecting .operator

end Mode

end SliceLint

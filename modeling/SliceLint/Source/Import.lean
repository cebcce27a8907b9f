import SliceLint.Source.Node
import SliceLint.Source.Position

set_option autoImplicit false

/-! # Imports

An import is a module specifier with its place in the source. Specifiers are written in import and
export statements, and as the first argument of `import` and `require` calls. -/

namespace SliceLint

/-- A module specifier. The position is that of the text between the quotes. -/
structure Import where
  /-- The line, from one. -/
  line : Nat
  /-- The bytes of the line before the text. -/
  column : Nat
  /-- The bytes of the source before the text. -/
  offset : Nat
  /-- The bytes of the text. -/
  length : Nat
  /-- The text, escapes as written. -/
  specifier : String
  deriving DecidableEq, Repr

namespace Import

/-- The import of the literal at a span. The quotes around a literal have one byte each; a shorter
span has no room for them. -/
def ofSpan? (source : List Char) (start stop : Nat) : Option Import := do
  let (before, rest) ← Source.splitBytes? start source
  let (text, _) ← Source.splitBytes? (stop - start) rest
  if Source.byteLength text < 2 then none
  else
    let (_, inner) ← Source.splitBytes? 1 text
    let (specifier, _) ← Source.splitBytes? (Source.byteLength text - 2) inner
    some {
      line := Source.lineAfter before
      column := Source.columnAfter before + 1
      offset := start + 1
      length := Source.byteLength specifier
      specifier := String.ofList specifier }

end Import

namespace Node

/-- Whether a node is a text without anything to compute in it. -/
def isLiteral (n : Node) : Bool :=
  match n.kind with
  | .string => true
  | .template => !n.children.any fun c => c.kind = .substitution
  | _ => false

/-- The import whose specifier is a literal node. -/
def literal? (source : List Char) (n : Node) : Option Import :=
  if n.isLiteral then Import.ofSpan? source n.start n.stop else none

/-- The import of a node's specifier. -/
def sourceImport? (source : List Char) (n : Node) : Option Import :=
  (n.child? .source).bind (literal? source)

/-- The name of the function that loads modules. -/
def loaderName : String := "require"

/-- Whether a callee loads modules. -/
def isLoader (source : List Char) (callee : Node) : Bool :=
  match callee.kind with
  | .importKeyword => true
  | .identifier => Source.between? source callee.start callee.stop = some loaderName.toList
  | _ => false

/-- The import of a call: its first argument, if it loads modules. -/
def callImport? (source : List Char) (n : Node) : Option Import := do
  let callee ← n.child? .callee
  let arguments ← n.child? .arguments
  if isLoader source callee then
    (← arguments.children.head?).literal? source
  else none

/-- The import that a node itself stands for. -/
def import? (source : List Char) (n : Node) : Option Import :=
  match n.kind with
  | .importStatement =>
    (n.sourceImport? source).or
      ((n.children.find? fun c => c.kind = .requireClause).bind (sourceImport? source))
  | .exportStatement => n.sourceImport? source
  | .call => n.callImport? source
  | _ => none

/-- The imports of a tree, in the order of its nodes. -/
def imports (source : List Char) (tree : Node) : List Import :=
  (visit [tree]).filterMap (import? source)

end Node

end SliceLint

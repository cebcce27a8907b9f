set_option autoImplicit false

/-! # Syntax nodes

The tree of a source, as far as imports are concerned: each node has a kind, a span of bytes, its
named children, and perhaps a role for its parent. Comments are nodes like all others, wherever
they stand. -/

namespace SliceLint

/-- What a node is. -/
inductive NodeKind where
  | program
  | importStatement
  /-- The right-hand side of `import x = require("m")`. -/
  | requireClause
  | exportStatement
  | call
  /-- The arguments of a call. -/
  | arguments
  /-- The word `import` as the callee of a call. -/
  | importKeyword
  | identifier
  | string
  | template
  /-- An expression inside a template. -/
  | substitution
  | comment
  /-- Anything else. -/
  | other
  deriving DecidableEq, Repr

/-- What a node is for its parent. -/
inductive Role where
  /-- The module specifier of a statement. -/
  | source
  /-- What a call calls. -/
  | callee
  /-- The arguments of a call. -/
  | arguments
  deriving DecidableEq, Repr

/-- A node of a syntax tree. -/
inductive Node where
  | mk (kind : NodeKind) (role : Option Role) (start stop : Nat) (children : List Node)
  deriving Repr

namespace Node

/-- What the node is. -/
def kind : Node → NodeKind
  | mk kind _ _ _ _ => kind

/-- What the node is for its parent. -/
def role : Node → Option Role
  | mk _ role _ _ _ => role

/-- The position of the first byte. -/
def start : Node → Nat
  | mk _ _ start _ _ => start

/-- The position after the last byte. -/
def stop : Node → Nat
  | mk _ _ _ stop _ => stop

/-- The named children, in order. -/
def children : Node → List Node
  | mk _ _ _ _ children => children

/-- The first child with a role. -/
def child? (n : Node) (role : Role) : Option Node :=
  n.children.find? fun c => c.role = some role

/-- The same node in a role. -/
def withRole (n : Node) (role : Role) : Node :=
  mk n.kind (some role) n.start n.stop n.children

/-! ## Traversal -/

mutual

/-- The number of nodes of a tree. -/
def size : Node → Nat
  | mk _ _ _ _ children => 1 + sizeAll children

/-- The number of nodes of some trees. -/
def sizeAll : List Node → Nat
  | [] => 0
  | n :: rest => n.size + sizeAll rest

end

theorem sizeAll_append (ns ms : List Node) : sizeAll (ns ++ ms) = sizeAll ns + sizeAll ms := by
  induction ns with
  | nil => simp [sizeAll]
  | cons n ns ih => simp [sizeAll, ih, Nat.add_assoc]

theorem size_eq (n : Node) : n.size = 1 + sizeAll n.children := by
  cases n
  simp [size, children]

/-- The nodes of the trees on a stack: the top is visited, and its children take its place. -/
def visit : List Node → List Node
  | [] => []
  | n :: stack => n :: visit (n.children ++ stack)
termination_by stack => sizeAll stack
decreasing_by simp [sizeAll, sizeAll_append, size_eq]

mutual

/-- A node, followed by the nodes below it from left to right. -/
def preorder : Node → List Node
  | mk kind role start stop children =>
    mk kind role start stop children :: preorderAll children

/-- The nodes of some trees, tree after tree. -/
def preorderAll : List Node → List Node
  | [] => []
  | n :: rest => n.preorder ++ preorderAll rest

end

end Node

end SliceLint

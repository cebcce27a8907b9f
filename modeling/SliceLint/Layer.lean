set_option autoImplicit false

/-! # Layers

The six layers of a sliced source tree. A layer may import from itself and from the layers below
it; `rank` numbers them from the bottom. -/

namespace SliceLint

/-- A horizontal layer of the source tree. -/
inductive Layer where
  | shared
  | entities
  | features
  | widgets
  | pages
  | app
  deriving DecidableEq, Repr

namespace Layer

/-- All layers, lowest first. -/
def all : List Layer :=
  [shared, entities, features, widgets, pages, app]

/-- The directory name of a layer. -/
def name : Layer → String
  | shared => "shared"
  | entities => "entities"
  | features => "features"
  | widgets => "widgets"
  | pages => "pages"
  | app => "app"

/-- The height of a layer; the lowest has rank `0`. -/
def rank : Layer → Nat
  | shared => 0
  | entities => 1
  | features => 2
  | widgets => 3
  | pages => 4
  | app => 5

/-- The layer with a given directory name. -/
def ofName? (s : String) : Option Layer :=
  all.find? fun layer => layer.name == s

theorem mem_all (layer : Layer) : layer ∈ all := by
  cases layer <;> decide

/-- Reading a layer's own name finds that layer. -/
@[simp] theorem ofName?_name (layer : Layer) : ofName? layer.name = some layer := by
  cases layer <;> decide

theorem name_injective {a b : Layer} (h : a.name = b.name) : a = b := by
  have hab : some a = some b := by rw [← ofName?_name a, h, ofName?_name]
  exact Option.some.inj hab

/-- What is said about a name that is no layer. -/
def unknownMessage (s : String) : String :=
  "unknown layer `" ++ s ++ "`"

end Layer

end SliceLint

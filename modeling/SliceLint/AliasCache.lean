import SliceLint.AliasOptions

set_option autoImplicit false

/-! # Remembered aliases

The aliases of a file depend only on its directory, so they are looked for once per directory and
remembered. What is remembered stays until it is cleared, also if documents change. -/

namespace SliceLint

/-- Options with the alias sets that were found so far. -/
structure AliasCache where
  options : AliasOptions
  entries : List (String × AliasSet)

namespace AliasCache

/-- Nothing remembered yet. -/
def ofOptions (options : AliasOptions) : AliasCache := ⟨options, []⟩

/-- What the aliases of a file are remembered under: its directory, unless the options alone
determine them. -/
def key (c : AliasCache) (file : String) : String :=
  if c.options.aliases ≠ [] then ""
  else match c.options.document with
    | some path => path
    | none => (Path.parent? file).getD ""

/-- The directory that the search for a key starts from. -/
def start? (key : String) : Option String :=
  if key.isEmpty then none else some key

/-- What is remembered for a key. Keys are compared as paths. -/
def find? (c : AliasCache) (key : String) : Option AliasSet :=
  (c.entries.find? fun e => Path.equal e.1 key).map (·.2)

/-- The aliases of a file, and the cache that remembers them. -/
def get (w : Workspace) (c : AliasCache) (file : String) : AliasSet × AliasCache :=
  let key := c.key file
  match c.find? key with
  | some set => (set, c)
  | none =>
    let set := c.options.resolve w (start? key)
    (set, { c with entries := c.entries ++ [(key, set)] })

/-- The document that cannot be read when the aliases of a file are looked for. -/
def unreadable? (w : Workspace) (c : AliasCache) (file : String) : Option String :=
  let key := c.key file
  match c.find? key with
  | some _ => none
  | none => c.options.unreadable? w (start? key)

/-- How many alias sets are remembered. -/
def size (c : AliasCache) : Nat :=
  c.entries.length

/-- Forget everything. -/
def clear (c : AliasCache) : AliasCache :=
  { c with entries := [] }

end AliasCache

end SliceLint

import SliceLint.AliasSet
import SliceLint.Document.Inheritance
import SliceLint.Document.Search

set_option autoImplicit false

/-! # Where aliases come from

Explicit aliases win. Without them the aliases are those of a configuration document: the one that
is named, or else the nearest one. If that gives none, the default alias is assumed. A document
that is missing or cannot be read never stops a run. -/

namespace SliceLint

/-- How to find the aliases of a file. -/
structure AliasOptions where
  /-- Explicit aliases, in any spelling. -/
  aliases : List String
  /-- The configuration document to read, instead of the nearest one. -/
  document : Option String
  deriving DecidableEq, Repr

namespace AliasOptions

/-- No explicit aliases and no named document. -/
def empty : AliasOptions := ⟨[], none⟩

/-- The document to read: the named one, or the nearest one from a directory on. -/
def source? (w : Workspace) (document start : Option String) : Option String :=
  match document with
  | some path => some path
  | none => Document.find? w (start.getD w.cwdPath)

/-- The aliases of the document to read, none if there is no such document. -/
def documentAliases (w : Workspace) (document start : Option String) : List String :=
  match (source? w document start).bind (Document.loadMerged? w) with
  | some d => d.aliases
  | none => []

/-- The aliases that apply to the files of a directory. -/
def resolve (w : Workspace) (o : AliasOptions) (start : Option String) : AliasSet :=
  if o.aliases ≠ [] then AliasSet.ofList (o.aliases.map normalizeAlias)
  else match documentAliases w o.document start with
    | [] => AliasSet.fallback
    | found => AliasSet.ofList found

/-- The document that should be read, but cannot. -/
def unreadable? (w : Workspace) (o : AliasOptions) (start : Option String) : Option String :=
  if o.aliases ≠ [] then none
  else (source? w o.document start).filter fun path => (Document.loadMerged? w path).isNone

/-- The warning about a document that cannot be read. -/
def unreadableMessage (path : String) : String :=
  "could not load " ++ path ++ ", continuing without aliases"

end AliasOptions

end SliceLint

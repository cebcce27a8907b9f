import SliceLint.Session

set_option autoImplicit false

/-! # The program

Reads the files that a command can depend on, runs the command on them, and prints and writes what
comes of it. Everything is decided by `Session.start`. -/

namespace SliceLint

namespace Main

/-- The place of an entry of a directory. -/
def placeOf (e : IO.FS.DirEntry) : Place :=
  (Text.segments e.path.toString).filter (· ≠ "")

/-- Whether the contents of a file can matter. -/
def matters (name : String) : Bool :=
  (Language.ofPath? name).isSome || Text.endsWith ".json" name || Text.endsWith ".toml" name
    || name = ".ignore" || name = ".gitignore" || name = "exclude"

/-- Add a file to a tree. -/
def loadFile (t : FileTree) (e : IO.FS.DirEntry) : IO FileTree := do
  if matters e.fileName then
    try return t.write (placeOf e) (← IO.FS.readBinFile e.path)
    catch _ => return t
  else return t.write (placeOf e) ByteArray.empty

/-- Add everything below an entry to a tree, down to `depth` levels. -/
def loadBelow : Nat → FileTree → IO.FS.DirEntry → IO FileTree
  | 0, t, _ => return t
  | depth + 1, t, e => do
    if ← e.path.isDir then
      let mut tree := t.makeDirectory (placeOf e)
      try
        for inner in ← e.path.readDir do
          tree ← loadBelow depth tree inner
      catch _ => pure ()
      return tree
    else if ← e.path.pathExists then loadFile t e
    else return t

/-- Add the files directly in a directory to a tree. -/
def loadFilesOf (t : FileTree) (place : Place) : IO FileTree := do
  let dir : IO.FS.DirEntry := ⟨"/", Text.joinSegments place⟩
  let mut tree := t
  try
    for inner in ← dir.path.readDir do
      if !(← inner.path.isDir) && matters inner.fileName then tree ← loadFile tree inner
  catch _ => pure ()
  return tree

/-- Add a place with everything below it to a tree, and the files of the directories above it. -/
def loadAround (t : FileTree) (place : Place) : IO FileTree := do
  let mut tree ← loadBelow 64 t ⟨"/", Text.joinSegments place⟩
  for above in Discovery.properPrefixes place do
    tree ← loadFilesOf tree above
  return tree

/-- The value after an equals sign, or the whole word. -/
def wordPath (word : String) : String :=
  String.ofList ((CommandLine.splitEquals word.toList).2.getD word.toList)

/-- Write the files of a tree that differ from those of another. -/
def writeChanges (before after : FileTree) : IO Unit :=
  for f in after.files do
    if (before.contents? f.1).map (·.toList) ≠ some f.2.toList then
      IO.FS.writeBinFile (Discovery.placeText f.1) f.2

end Main

end SliceLint

open SliceLint in
/-- The program `fsd-lint`. -/
def main (args : List String) : IO UInt32 := do
  let cwd := (Text.segments (← IO.currentDir).toString).filter (· ≠ "")
  let env : Environment := {
    home := ← IO.getEnv "HOME"
    settingsDirectory := ← IO.getEnv "FSD_LINT_CONFIG_DIR"
    document := ← IO.getEnv "FSD_LINT_TSCONFIG" }
  let named := (args.map Main.wordPath ++ env.document.toList).filter fun word =>
    word ≠ "" && !CommandLine.looksLikeOption word
  let mut w : Workspace := ⟨← Main.loadAround FileTree.empty cwd, cwd⟩
  for path in named do
    let place := w.placeOf path
    if !cwd.isPrefixOf place then
      w := { w with tree := ← Main.loadAround w.tree place }
  for dir in (Session.sharedDirectory? env).toList do
    w := { w with tree := ← Main.loadFilesOf w.tree (w.placeOf dir) }
  let outcome := Session.start w env args
  for notice in outcome.notices do
    IO.eprintln notice.display
  IO.print outcome.stdout
  if let some e := outcome.error then
    IO.eprintln ("Error: " ++ e.message)
  Main.writeChanges w.tree outcome.tree
  return UInt32.ofNat outcome.status

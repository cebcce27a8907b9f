import SliceLint.FileTree
import SliceLint.Proofs.Path

set_option autoImplicit false

/-! # Files next to a file

One file has many paths. A path that is taken from the textual directory of such a path leads to a
file that depends only on the place of the first file (`Workspace.fileAt?_join`), because the way to
a regular file ends in its own name. -/

namespace SliceLint

namespace FileTree

/-- No regular file is a directory as well, as in every file system. -/
def Proper (t : FileTree) : Prop :=
  ∀ f ∈ t.files, t.hasDirectory f.1 = false

instance (t : FileTree) : Decidable t.Proper :=
  inferInstanceAs (Decidable (∀ f ∈ t.files, _))

theorem hasFile_iff {t : FileTree} {p : Place} : t.hasFile p = true ↔ p ∈ t.files.map (·.1) := by
  simp [hasFile]

theorem Proper.hasDirectory_eq_false {t : FileTree} {p : Place} (h : t.Proper)
    (hp : t.hasFile p = true) : t.hasDirectory p = false := by
  obtain ⟨f, hf, rfl⟩ := List.mem_map.1 (hasFile_iff.1 hp)
  exact h f hf

/-- What lies above a directory is a directory. -/
theorem hasDirectory_dropLast {t : FileTree} {p : Place} (h : t.hasDirectory p = true) :
    t.hasDirectory p.dropLast = true := by
  have hprefix : p.dropLast <+: p := List.dropLast_prefix p
  simp only [hasDirectory, Bool.or_eq_true, List.isEmpty_iff, List.any_eq_true, Bool.and_eq_true,
    List.isPrefixOf_iff_prefix, bne_iff_ne] at h ⊢
  rcases h with (rfl | ⟨d, hd, hpd⟩) | ⟨f, hf, hpf, hne⟩
  · exact Or.inl (Or.inl rfl)
  · exact Or.inl (Or.inr ⟨d, hd, hprefix.trans hpd⟩)
  · by_cases hp : p = []
    · exact Or.inl (Or.inl (by simp [hp]))
    · -- the file is longer than what lies above the directory
      refine Or.inr ⟨f, hf, hprefix.trans hpf, fun heq => ?_⟩
      have hle := hpf.length_le
      have hpos := List.length_pos_of_ne_nil hp
      rw [heq, List.length_dropLast] at hle
      omega

end FileTree

namespace Workspace

/-! ## Walking -/

theorem walk_of_no_directory {t : FileTree} {p : Place} (h : t.hasDirectory p = false)
    (s : String) (rest : List String) :
    walk t p (s :: rest) = .error (if t.hasFile p then .notDirectory else .notFound) := by
  rw [walk, h]
  rfl

theorem walk_append (t : FileTree) (p : Place) (xs ys : List String) :
    walk t p (xs ++ ys) = (walk t p xs).bind fun q => walk t q ys := by
  induction xs generalizing p with
  | nil => rfl
  | cons x xs ih =>
      rw [List.cons_append]
      cases hdir : t.hasDirectory p with
      | true =>
          simp only [walk, hdir, Bool.not_true, Bool.false_eq_true, if_false]
          split
          · exact ih p
          · split
            · exact ih _
            · exact ih _
      | false =>
          rw [walk_of_no_directory hdir, walk_of_no_directory hdir]
          rfl

/-- A blank segment makes no difference where others follow. -/
theorem walk_blank {t : FileTree} {p : Place} {b : String} {rest : List String}
    (hb : Path.segmentComponent? b = none) (hne : rest ≠ []) :
    walk t p (b :: rest) = walk t p rest := by
  obtain ⟨s, more, rfl⟩ := List.exists_cons_of_ne_nil hne
  cases hdir : t.hasDirectory p with
  | true =>
      rw [walk, if_pos (Path.segmentComponent?_eq_none_iff.1 hb), hdir]
      rfl
  | false => rw [walk_of_no_directory hdir, walk_of_no_directory hdir]

theorem walk_blanks {t : FileTree} {p : Place} {blanks rest : List String}
    (hblanks : ∀ b ∈ blanks, Path.segmentComponent? b = none) (hne : rest ≠ []) :
    walk t p (blanks ++ rest) = walk t p rest := by
  induction blanks with
  | nil => rfl
  | cons b blanks ih =>
      rw [List.cons_append, walk_blank (hblanks b (by simp)) (by simp [hne])]
      exact ih fun c hc => hblanks c (by simp [hc])

/-- The way to a regular file ends in its name, below a directory. -/
theorem walk_concat_eq_ok {t : FileTree} {p q : Place} {last : String} (ht : t.Proper)
    (h : walk t p [last] = .ok q) (hq : t.hasFile q = true) :
    Path.segmentComponent? last ≠ none ∧ t.hasDirectory p = true ∧ q.dropLast = p := by
  have hfile := ht.hasDirectory_eq_false hq
  cases hdir : t.hasDirectory p with
  | true =>
      simp only [walk, hdir, Bool.not_true, Bool.false_eq_true, if_false] at h
      split at h
      · -- a blank segment would leave us at a directory
        obtain rfl := Except.ok.inj h
        rw [hdir] at hfile
        cases hfile
      · next hblank =>
          split at h
          · obtain rfl := Except.ok.inj h
            rw [FileTree.hasDirectory_dropLast hdir] at hfile
            cases hfile
          · obtain rfl := Except.ok.inj h
            exact ⟨fun hnone => hblank (Path.segmentComponent?_eq_none_iff.1 hnone), rfl, by simp⟩
  | false =>
      rw [walk_of_no_directory hdir] at h
      cases h

/-! ## Regular files -/

/-- The place that a walk ends at, if a regular file is there. -/
def fileOf? (t : FileTree) : Except LookupError Place → Option Place
  | .ok p => if t.hasFile p then some p else none
  | .error _ => none

/-- The place that the walk along a path starts from. -/
def start (w : Workspace) (path : String) : Place :=
  if Path.isAbsolute path then [] else w.cwd

/-- The place of the regular file that a path denotes. -/
def fileAt? (w : Workspace) (path : String) : Option Place :=
  fileOf? w.tree (w.locate path)

/-- The place of the regular file that a path denotes, seen from a directory. -/
def fileFrom? (w : Workspace) (dir : Place) (path : String) : Option Place :=
  if Path.isAbsolute path then w.fileAt? path
  else fileOf? w.tree (walk w.tree dir (Text.segments path))

theorem fileOf?_eq_some_iff {t : FileTree} {r : Except LookupError Place} {p : Place} :
    fileOf? t r = some p ↔ r = .ok p ∧ t.hasFile p = true := by
  cases r with
  | error e => simp [fileOf?]
  | ok q =>
      simp only [fileOf?, Option.ite_none_right_eq_some, Option.some.injEq, Except.ok.injEq]
      constructor
      · rintro ⟨hq, rfl⟩
        exact ⟨rfl, hq⟩
      · rintro ⟨rfl, hq⟩
        exact ⟨hq, rfl⟩

theorem fileAt?_of_ne_empty {w : Workspace} {path : String} (h : path ≠ "") :
    w.fileAt? path = fileOf? w.tree (walk w.tree (w.start path) (Text.segments path)) := by
  unfold fileAt? locate start
  rw [if_neg (by simpa using h)]
  cases hwalk : walk w.tree (if Path.isAbsolute path then [] else w.cwd) (Text.segments path) with
  | error e => simp [fileOf?]
  | ok p =>
      by_cases hfile : w.tree.hasFile p = true
      · simp [fileOf?, hfile]
      · by_cases hdir : w.tree.hasDirectory p = true <;> simp [fileOf?, hfile, hdir]

theorem isFile_eq (w : Workspace) (path : String) : w.isFile path = (w.fileAt? path).isSome := by
  unfold isFile fileAt?
  cases w.locate path with
  | error e => rfl
  | ok p => by_cases hfile : w.tree.hasFile p = true <;> simp [fileOf?, hfile]

/-- The way to a regular file: a way to the directory above it, and a name. -/
theorem exists_of_fileAt? {w : Workspace} {path : String} {p : Place} (ht : w.tree.Proper)
    (h : w.fileAt? path = some p) :
    ∃ init last, Text.segments path = init ++ [last] ∧ Path.segmentComponent? last ≠ none ∧
      walk w.tree (w.start path) init = .ok p.dropLast ∧
      w.tree.hasDirectory p.dropLast = true := by
  have hne : path ≠ "" := by
    rintro rfl
    cases h
  rw [fileAt?_of_ne_empty hne] at h
  obtain ⟨hwalk, hfile⟩ := fileOf?_eq_some_iff.1 h
  rcases List.eq_nil_or_concat' (Text.segments path) with hnil | ⟨init, last, hsegs⟩
  · exact absurd hnil (Text.segments_ne_nil path)
  · rw [hsegs, walk_append] at hwalk
    cases hinit : walk w.tree (w.start path) init with
    | error e =>
        rw [hinit] at hwalk
        cases hwalk
    | ok dir =>
        rw [hinit] at hwalk
        obtain ⟨hlast, hdir, rfl⟩ := walk_concat_eq_ok ht hwalk hfile
        exact ⟨init, last, hsegs, hlast, hinit, hdir⟩

/-- A path from the directory of a file denotes a file that depends on the place of the first file,
not on its path. -/
theorem fileAt?_join {w : Workspace} {path : String} {p : Place} (ht : w.tree.Proper)
    (h : w.fileAt? path = some p) (rel : String) :
    w.fileAt? (Path.join ((Path.parent? path).getD "") rel) = w.fileFrom? p.dropLast rel := by
  unfold fileFrom?
  by_cases habs : Path.isAbsolute rel = true
  · rw [if_pos habs, Path.join, habs]
    rfl
  · rw [if_neg habs]
    rw [Bool.not_eq_true] at habs
    obtain ⟨init, last, hsegs, hlast, hwalk, hdir⟩ := exists_of_fileAt? ht h
    obtain ⟨hstart, kept, blanks, rfl, hblanks, hjoined⟩ := Path.join_directory hsegs hlast habs
    by_cases hempty : Path.join ((Path.parent? path).getD "") rel = ""
    · -- an empty path leads nowhere, and from the directory only to the directory itself
      rw [hempty] at hjoined ⊢
      have hrel : Text.segments rel = [""] := by
        cases kept with
        | nil => exact hjoined.symm
        | cons k kept =>
            obtain ⟨-, hnil⟩ := List.cons.inj hjoined
            exact absurd (List.append_eq_nil_iff.1 hnil.symm).2 (Text.segments_ne_nil rel)
      have hstay : walk w.tree p.dropLast [""] = .ok p.dropLast := by simp [walk, hdir]
      have hfile : w.tree.hasFile p.dropLast = false := by
        by_contra hfile
        rw [Bool.not_eq_false] at hfile
        rw [ht.hasDirectory_eq_false hfile] at hdir
        cases hdir
      rw [hrel, hstay]
      simp [fileOf?, hfile, fileAt?, locate]
    · have hsame : w.start (Path.join ((Path.parent? path).getD "") rel) = w.start path := by
        rw [start, start, hstart]
      have hway : walk w.tree (w.start path) (kept ++ Text.segments rel)
          = walk w.tree p.dropLast (Text.segments rel) := by
        calc walk w.tree (w.start path) (kept ++ Text.segments rel)
            = (walk w.tree (w.start path) kept).bind fun q =>
                walk w.tree q (blanks ++ Text.segments rel) := by
              rw [walk_append]
              simp only [walk_blanks hblanks (Text.segments_ne_nil rel)]
          _ = (walk w.tree (w.start path) (kept ++ blanks)).bind fun q =>
                walk w.tree q (Text.segments rel) := by
              rw [← walk_append, ← List.append_assoc, walk_append]
          _ = walk w.tree p.dropLast (Text.segments rel) := by
              rw [hwalk]
              rfl
      rw [fileAt?_of_ne_empty hempty, hsame, hjoined, hway]

end Workspace

end SliceLint

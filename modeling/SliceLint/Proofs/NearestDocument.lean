import SliceLint.Proofs.AliasSource
import SliceLint.Proofs.Inheritance

set_option autoImplicit false

/-! # The nearest document

The search for a document climbs the text of a path, so it goes back along the way on which the
directory is reached (`documentAlong?`). Every directory above lies on this way, hence nothing is
missed. But where the way turns back with `..`, it leads through directories that are not above, and
a document in one of them comes first. The search finds the nearest document exactly if what it
finds is in the directory or above it, and always if there is no `..` (`find?_eq_nearest?`). -/

namespace SliceLint

/-! ## Names on the way -/

namespace Workspace

/-- The names of the working directory can be written as segments of a path. -/
def Written (w : Workspace) : Prop :=
  ∀ name ∈ w.cwd, Path.segmentComponent? name = some (.name name) ∧ '/' ∉ name.toList

instance (w : Workspace) : Decidable w.Written :=
  inferInstanceAs (Decidable (∀ name ∈ w.cwd, _))

theorem Written.not_mem_start {w : Workspace} (h : w.Written) {path : String} :
    ".." ∉ w.start path := by
  unfold start
  split
  · exact List.not_mem_nil
  · intro hmem
    exact absurd (h ".." hmem).1 (by decide)

theorem lexicalWalk_append (p : Place) (xs ys : List String) :
    lexicalWalk p (xs ++ ys) = lexicalWalk (lexicalWalk p xs) ys := by
  induction xs generalizing p with
  | nil => rfl
  | cons x xs ih =>
      rw [List.cons_append, lexicalWalk, lexicalWalk]
      split
      · exact ih p
      · split
        · exact ih _
        · exact ih _

theorem lexicalWalk_cons (p : Place) (x : String) (xs : List String) :
    lexicalWalk p (x :: xs) = lexicalWalk (lexicalWalk p [x]) xs :=
  lexicalWalk_append p [x] xs

/-- What one segment does: nothing, a step up, or a step down. -/
theorem lexicalWalk_singleton (p : Place) (x : String) :
    (Path.segmentComponent? x = none ∧ lexicalWalk p [x] = p) ∨
      (x = ".." ∧ lexicalWalk p [x] = p.dropLast) ∨
      (Path.segmentComponent? x = some (.name x) ∧ lexicalWalk p [x] = p ++ [x]) := by
  unfold Path.segmentComponent?
  simp only [lexicalWalk]
  split
  · exact Or.inl ⟨rfl, rfl⟩
  · split
    · next hup => exact Or.inr (Or.inl ⟨hup, rfl⟩)
    · exact Or.inr (Or.inr ⟨rfl, rfl⟩)

/-- From a directory, one segment leads where its name says. -/
theorem walk_cons {t : FileTree} {p : Place} (hdir : t.hasDirectory p = true) (x : String)
    (xs : List String) : walk t p (x :: xs) = walk t (lexicalWalk p [x]) xs := by
  simp only [walk, hdir, Bool.not_true, Bool.false_eq_true, if_false, lexicalWalk]
  split
  · rfl
  · split <;> rfl

/-- A walk that ends somewhere ends where the names say. -/
theorem eq_lexicalWalk_of_walk {t : FileTree} {xs : List String} :
    ∀ {p q : Place}, walk t p xs = .ok q → q = lexicalWalk p xs := by
  induction xs with
  | nil =>
      intro p q h
      exact (Except.ok.inj h).symm
  | cons x xs ih =>
      intro p q h
      cases hdir : t.hasDirectory p with
      | false =>
          rw [walk_of_no_directory hdir] at h
          cases h
      | true =>
          rw [walk_cons hdir] at h
          rw [lexicalWalk_cons]
          exact ih h

/-- Wherever a walk goes on from, there is a directory. -/
theorem walk_start_of_append {t : FileTree} {p q : Place} {xs ys : List String}
    (h : walk t p (xs ++ ys) = .ok q) (hys : ys ≠ []) :
    walk t p xs = .ok (lexicalWalk p xs) ∧ t.hasDirectory (lexicalWalk p xs) = true := by
  rw [walk_append] at h
  cases hxs : walk t p xs with
  | error e =>
      rw [hxs] at h
      cases h
  | ok r =>
      obtain rfl := eq_lexicalWalk_of_walk hxs
      refine ⟨rfl, ?_⟩
      by_contra hdir
      obtain ⟨y, more, rfl⟩ := List.exists_cons_of_ne_nil hys
      rw [Bool.not_eq_true] at hdir
      rw [hxs] at h
      have hstop : walk t (lexicalWalk p xs) (y :: more) = .ok q := h
      rw [walk_of_no_directory hdir] at hstop
      cases hstop

theorem walk_name {t : FileTree} {p : Place} {name : String}
    (hname : Path.segmentComponent? name = some (.name name)) (hdir : t.hasDirectory p = true) :
    walk t p [name] = .ok (p ++ [name]) := by
  rw [walk_cons hdir]
  rcases lexicalWalk_singleton p name with ⟨hblank, -⟩ | ⟨rfl, -⟩ | ⟨-, hdown⟩
  · rw [hname] at hblank
    cases hblank
  · cases hname
  · rw [hdown]
    rfl

/-- The names of a directory lead to it. -/
theorem walk_names {t : FileTree} {names : List String}
    (h : ∀ name ∈ names, Path.segmentComponent? name = some (.name name))
    (hdir : t.hasDirectory names = true) : walk t [] names = .ok names := by
  induction names using List.reverseRecOn with
  | nil => rfl
  | append_singleton names name ih =>
      have habove := FileTree.hasDirectory_dropLast hdir
      rw [List.dropLast_concat] at habove
      rw [walk_append, ih (fun x hx => h x (by simp [hx])) habove]
      exact walk_name (h name (by simp)) habove

theorem walk_of_locate {w : Workspace} {path : String} {p : Place} (h : w.locate path = .ok p) :
    walk w.tree (w.start path) (Text.segments path) = .ok p := by
  unfold locate at h
  split at h
  · cases h
  · split at h
    · cases h
    · next q hwalk =>
        split at h
        · rw [start, hwalk, Except.ok.inj h]
        · cases h

/-- Without `..`, a way only leads down. -/
theorem prefix_lexicalWalk {xs : List String} (h : ".." ∉ xs) (p : Place) :
    p <+: lexicalWalk p xs := by
  induction xs generalizing p with
  | nil => exact List.prefix_rfl
  | cons x xs ih =>
      rw [List.mem_cons, not_or] at h
      rw [lexicalWalk_cons]
      rcases lexicalWalk_singleton p x with ⟨-, hx⟩ | ⟨hup, -⟩ | ⟨-, hx⟩
      · rw [hx]
        exact ih h.2 p
      · exact absurd hup.symm h.1
      · rw [hx]
        exact (List.prefix_append p [x]).trans (ih h.2 _)

/-- A way to a place below a directory comes through the directory, unless it starts below it. -/
theorem exists_lexicalWalk_eq {dir : Place} {xs : List String} :
    ∀ {p : Place}, dir <+: lexicalWalk p xs → (dir <+: p → dir = p) →
      ∃ ys, ys <+: xs ∧ lexicalWalk p ys = dir := by
  induction xs with
  | nil =>
      intro p hdir hstart
      exact ⟨[], List.nil_prefix, (hstart hdir).symm⟩
  | cons x xs ih =>
      intro p hdir hstart
      by_cases hhere : dir = p
      · exact ⟨[], List.nil_prefix, hhere.symm⟩
      · have hoff : ¬ dir <+: p := fun h => hhere (hstart h)
        rw [lexicalWalk_cons] at hdir
        -- one segment leads to the directory at most, not below it
        have hnext : dir <+: lexicalWalk p [x] → dir = lexicalWalk p [x] := by
          rcases lexicalWalk_singleton p x with ⟨-, hx⟩ | ⟨-, hx⟩ | ⟨-, hx⟩
          · rw [hx]
            exact hstart
          · rw [hx]
            exact fun h => absurd (h.trans (List.dropLast_prefix p)) hoff
          · rw [hx, List.prefix_concat_iff]
            exact fun h => h.resolve_right hoff
        obtain ⟨ys, hys, hwalk⟩ := ih hdir hnext
        exact ⟨x :: ys, List.cons_prefix_cons.2 ⟨rfl, hys⟩, by rw [lexicalWalk_cons, hwalk]⟩

end Workspace

/-! ## Searching along a way -/

namespace Document

open SliceLint.Workspace (lexicalWalk)

/-- What a function gives for the longest start of a list that it gives something for. -/
def longest? (f : List String → Option Place) (way : List String) : Option Place :=
  way.inits.reverse.findSome? f

/-- The document in a directory. -/
def documentIn? (t : FileTree) (dir : Place) : Option Place :=
  (fileNames.map fun name => dir ++ [name]).find? t.hasFile

/-- The document in the nearest of a directory and those above it. -/
def nearest? (t : FileTree) (dir : Place) : Option Place :=
  longest? (documentIn? t) dir

/-- The document that is met first on the way back from where a way from the root leads. -/
def documentAlong? (t : FileTree) (way : List String) : Option Place :=
  longest? (fun xs => documentIn? t (lexicalWalk [] xs)) way

section Longest

variable {f : List String → Option Place}

theorem longest?_nil : longest? f [] = f [] := by
  simp [longest?]

theorem longest?_concat (xs : List String) (x : String) :
    longest? f (xs ++ [x]) = (f (xs ++ [x])).or (longest? f xs) := by
  have hinits : (xs ++ [x]).inits.reverse = [xs ++ [x]] ++ xs.inits.reverse := by
    simp [List.inits_append]
  rw [longest?, hinits, List.findSome?_append, List.findSome?_singleton, longest?]

theorem longest?_eq_none_iff {way : List String} :
    longest? f way = none ↔ ∀ xs, xs <+: way → f xs = none := by
  simp [longest?, List.mem_inits]

theorem longest?_eq_some_iff {way : List String} {d : Place} :
    longest? f way = some d ↔ ∃ xs ys, way = xs ++ ys ∧ f xs = some d ∧
      ∀ zs, zs <+: ys → zs ≠ [] → f (xs ++ zs) = none := by
  induction way using List.reverseRecOn with
  | nil =>
      rw [longest?_nil]
      constructor
      · intro h
        exact ⟨[], [], rfl, h, fun zs hzs hne => absurd (List.prefix_nil.1 hzs) hne⟩
      · rintro ⟨xs, ys, hway, h, -⟩
        rwa [(List.append_eq_nil_iff.1 hway.symm).1] at h
  | append_singleton way x ih =>
      rw [longest?_concat]
      cases hx : f (way ++ [x]) with
      | some last =>
          rw [Option.some_or]
          constructor
          · intro h
            exact ⟨way ++ [x], [], by simp, hx.trans h,
              fun zs hzs hne => absurd (List.prefix_nil.1 hzs) hne⟩
          · rintro ⟨xs, ys, hway, h, hlater⟩
            by_cases hys : ys = []
            · rwa [hway, hys, List.append_nil, h, eq_comm] at hx
            · -- the whole list would be one of the longer starts
              have hnone := hlater ys List.prefix_rfl hys
              rw [← hway, hx] at hnone
              cases hnone
      | none =>
          rw [Option.none_or, ih]
          constructor
          · rintro ⟨xs, ys, rfl, h, hlater⟩
            refine ⟨xs, ys ++ [x], by simp, h, fun zs hzs hne => ?_⟩
            rcases List.prefix_concat_iff.1 hzs with rfl | hzs
            · rwa [List.append_assoc] at hx
            · exact hlater zs hzs hne
          · rintro ⟨xs, ys, hway, h, hlater⟩
            rcases List.eq_nil_or_concat' ys with rfl | ⟨ys, y, rfl⟩
            · rw [hway, List.append_nil, h] at hx
              cases hx
            · rw [← List.append_assoc] at hway
              obtain ⟨rfl, -⟩ := List.append_inj' hway rfl
              exact ⟨xs, ys, rfl, h, fun zs hzs hne =>
                hlater zs (hzs.trans (List.prefix_append ys [y])) hne⟩

end Longest

theorem dropLast_of_documentIn? {t : FileTree} {dir d : Place} (h : documentIn? t dir = some d) :
    d.dropLast = dir := by
  obtain ⟨name, -, rfl⟩ := List.mem_map.1 (List.mem_of_find?_eq_some h)
  exact List.dropLast_concat

theorem documentAlong?_concat (t : FileTree) (xs : List String) (x : String) :
    documentAlong? t (xs ++ [x]) =
      (documentIn? t (lexicalWalk [] (xs ++ [x]))).or (documentAlong? t xs) :=
  longest?_concat xs x

/-- What is found where the way ends comes before everything else. -/
theorem documentAlong?_eq_or (t : FileTree) (way : List String) :
    (documentIn? t (lexicalWalk [] way)).or (documentAlong? t way) = documentAlong? t way := by
  rcases List.eq_nil_or_concat' way with rfl | ⟨xs, x, rfl⟩
  · rw [documentAlong?, longest?_nil, Option.or_self]
  · rw [documentAlong?_concat, ← Option.or_assoc, Option.or_self]

/-- Only components count on the way. -/
theorem documentAlong?_components (t : FileTree) (way : List String) :
    documentAlong? t ((way.filterMap Path.segmentComponent?).map (·.text)) =
        documentAlong? t way ∧
      lexicalWalk [] ((way.filterMap Path.segmentComponent?).map (·.text)) =
        lexicalWalk [] way := by
  induction way using List.reverseRecOn with
  | nil => exact ⟨rfl, rfl⟩
  | append_singleton way x ih =>
      obtain ⟨halong, hwalk⟩ := ih
      rw [List.filterMap_append, List.map_append, documentAlong?_concat]
      cases hx : Path.segmentComponent? x with
      | none =>
          have hstay : lexicalWalk [] (way ++ [x]) = lexicalWalk [] way := by
            rw [Workspace.lexicalWalk_append, lexicalWalk,
              if_pos (Path.segmentComponent?_eq_none_iff.1 hx)]
            rfl
          rw [List.filterMap_cons_none hx, List.filterMap_nil, List.map_nil, List.append_nil, hstay,
            documentAlong?_eq_or]
          exact ⟨halong, hwalk⟩
      | some c =>
          rw [List.filterMap_cons_some hx, List.filterMap_nil, List.map_singleton,
            Path.text_of_segmentComponent? hx, documentAlong?_concat, halong,
            Workspace.lexicalWalk_append, hwalk, ← Workspace.lexicalWalk_append]
          exact ⟨rfl, rfl⟩

/-- Going back along a way to a directory, the nearest document is found exactly if what is found
first is in the directory or above it. -/
theorem documentAlong?_eq_nearest?_iff {t : FileTree} {way : List String} :
    documentAlong? t way = nearest? t (lexicalWalk [] way) ↔
      ∀ d, documentAlong? t way = some d → d.dropLast <+: lexicalWalk [] way := by
  constructor
  · intro h d hd
    rw [h] at hd
    obtain ⟨xs, ys, hway, hxs, -⟩ := longest?_eq_some_iff.1 hd
    rw [dropLast_of_documentIn? hxs, hway]
    exact List.prefix_append xs ys
  · intro h
    cases halong : documentAlong? t way with
    | none =>
        -- every directory above is on the way
        symm
        refine longest?_eq_none_iff.2 fun dir hdir => ?_
        obtain ⟨xs, hxs, rfl⟩ := Workspace.exists_lexicalWalk_eq hdir List.prefix_nil.1
        exact longest?_eq_none_iff.1 halong xs hxs
    | some d =>
        obtain ⟨xs, ys, rfl, hxs, hlater⟩ := longest?_eq_some_iff.1 halong
        have habove := h d halong
        rw [dropLast_of_documentIn? hxs] at habove
        obtain ⟨rest, hrest⟩ := habove
        symm
        refine longest?_eq_some_iff.2 ⟨lexicalWalk [] xs, rest, hrest.symm, hxs, ?_⟩
        intro zs hzs hne
        -- what lies between is passed after the document's directory
        have hbelow : lexicalWalk [] xs ++ zs <+: lexicalWalk (lexicalWalk [] xs) ys := by
          rw [← Workspace.lexicalWalk_append, ← hrest]
          exact (List.prefix_append_right_inj _).2 hzs
        have hoff : ¬ lexicalWalk [] xs ++ zs <+: lexicalWalk [] xs := by
          intro hprefix
          have hlength := hprefix.length_le
          have hpos := List.length_pos_of_ne_nil hne
          rw [List.length_append] at hlength
          omega
        obtain ⟨us, hus, hwalk⟩ :=
          Workspace.exists_lexicalWalk_eq hbelow fun hprefix => absurd hprefix hoff
        have hus' : us ≠ [] := by
          rintro rfl
          exact hoff (hwalk ▸ List.prefix_rfl)
        have hnone := hlater us hus hus'
        rwa [Workspace.lexicalWalk_append, hwalk] at hnone

/-! ## The search -/

theorem components_cwdPath {w : Workspace} (hcwd : w.Written) :
    Path.components w.cwdPath = .root :: w.cwd.filterMap Path.segmentComponent? := by
  rw [Path.components, if_pos (isAbsolute_cwdPath w), Workspace.cwdPath, Text.segments_slash_append,
    List.filterMap_cons_none (Path.segmentComponent?_blank (Or.inl rfl)),
    Path.filterMap_joinSegments fun name hname => (hcwd name hname).2]

/-- The search begins at the end of the way that the start names. -/
theorem components_searchStart_eq {w : Workspace} (hcwd : w.Written) (start : String) :
    Path.components (searchStart w start) =
      .root :: (w.start start ++ Text.segments start).filterMap Path.segmentComponent? := by
  unfold searchStart Workspace.start
  by_cases habs : Path.isAbsolute start = true
  · rw [if_pos habs, if_pos habs, Path.components, if_pos habs, List.nil_append]
  · rw [if_neg habs, if_neg habs,
      Path.components_join (cwdPath_ne_empty w) (by simpa using habs), components_cwdPath hcwd,
      List.filterMap_append, List.cons_append]

theorem isName_of_mem_fileNames {name : String} (h : name ∈ fileNames) :
    Path.isAbsolute name = false ∧ Text.segments name = [name] ∧
      Path.segmentComponent? name = some (.name name) := by
  revert name
  decide

/-- A document is looked for in the directory that an absolute path leads to. -/
theorem fileAt?_join_name {w : Workspace} {dir name : String} {cs : List Path.Component} {p : Place}
    (hdir : Path.components dir = .root :: cs)
    (hwalk : Workspace.walk w.tree [] (cs.map (·.text)) = .ok p)
    (hp : w.tree.hasDirectory p = true) (hname : name ∈ fileNames) :
    w.fileAt? (Path.join dir name) = Workspace.fileOf? w.tree (.ok (p ++ [name])) := by
  obtain ⟨hrel, hsegs, hcomp⟩ := isName_of_mem_fileNames hname
  have hne : dir ≠ "" := by
    rintro rfl
    cases hdir
  have habs : Path.isAbsolute dir = true := by
    rw [Path.isAbsolute_eq, hdir]
    rfl
  have hjoin : Path.isAbsolute (Path.join dir name) = true := by
    rw [Path.isAbsolute_join hne hrel, habs]
  have hjoin' : Path.join dir name ≠ "" := by
    intro hempty
    rw [hempty] at hjoin
    cases hjoin
  obtain ⟨kept, hway, -, hkept⟩ := Path.segments_join hne hrel
  have hcs : kept.filterMap Path.segmentComponent? = cs := by
    rw [Path.components, if_pos habs] at hdir
    rw [hkept, (List.cons.inj hdir).2]
  rw [Workspace.fileAt?_of_ne_empty hjoin', Workspace.start, if_pos hjoin, hway, hsegs,
    Workspace.walk_components _ _ kept (by simp), hcs, Workspace.walk_append, hwalk]
  congr 1
  exact Workspace.walk_name hcomp hp

theorem documentIn?_eq_findSome? (t : FileTree) (dir : Place) :
    documentIn? t dir =
      fileNames.findSome? fun name => Workspace.fileOf? t (.ok (dir ++ [name])) := by
  rw [documentIn?, List.find?_eq_findSome?_guard, List.findSome?_map]
  rfl

theorem findSome?_congr {α β : Type} {f g : α → Option β} {xs : List α}
    (h : ∀ x ∈ xs, f x = g x) : xs.findSome? f = xs.findSome? g := by
  induction xs with
  | nil => rfl
  | cons x xs ih =>
      rw [List.findSome?_cons, List.findSome?_cons, h x (by simp)]
      rw [ih fun y hy => h y (by simp [hy])]

section Climbing

-- As for the lemmas about ancestors, what is above a path is known from its components.
seal Path.parent?

/-- Climbing the text of a path is going back along the way that it names. -/
theorem findSome?_candidates {w : Workspace} (n : Nat) :
    ∀ (path : String) (cs : List Path.Component), Path.components path = .root :: cs →
      cs.length < n →
      (∀ xs, xs <+: cs.map (·.text) →
        Workspace.walk w.tree [] xs = .ok (lexicalWalk [] xs) ∧
          w.tree.hasDirectory (lexicalWalk [] xs) = true) →
      ((Path.ancestorsUpTo n path).flatMap fun dir => fileNames.map (Path.join dir)).findSome?
          w.fileAt? =
        documentAlong? w.tree (cs.map (·.text)) := by
  induction n with
  | zero =>
      intro path cs _ hn
      omega
  | succ n ih =>
      intro path cs hpath hn hways
      obtain ⟨hwalk, hdir⟩ := hways _ List.prefix_rfl
      have hhere : (fileNames.map (Path.join path)).findSome? w.fileAt? =
          documentIn? w.tree (lexicalWalk [] (cs.map (·.text))) := by
        rw [documentIn?_eq_findSome?, List.findSome?_map]
        exact findSome?_congr fun name hname => fileAt?_join_name hpath hwalk hdir hname
      rcases Path.parent?_cases path with ⟨hnone, hend⟩ | ⟨above, habove, -, hroot, hcomps⟩
      · obtain rfl : cs = [] := by
          rw [hpath] at hend
          simpa using hend
        simp only [Path.ancestorsUpTo_succ, hnone]
        rw [List.flatMap_singleton, hhere, documentAlong?, List.map_nil, longest?_nil]
      · rcases List.eq_nil_or_concat' cs with rfl | ⟨cs, c, rfl⟩
        · exact absurd hpath hroot
        · rw [hpath, ← List.cons_append, List.dropLast_concat] at hcomps
          rw [List.length_append, List.length_singleton] at hn
          have hstart : cs.map (·.text) <+: (cs ++ [c]).map (·.text) := by simp
          have hrest := ih above cs hcomps (by omega) fun xs hxs => hways xs (hxs.trans hstart)
          simp only [Path.ancestorsUpTo_succ, habove]
          rw [List.flatMap_cons, List.findSome?_append, hhere, hrest, List.map_append,
            List.map_singleton, documentAlong?_concat]

end Climbing

/-- The way from the root to the start of a search leads through directories. -/
theorem walk_way {w : Workspace} {start : String} {dir : Place} (hcwd : w.Written)
    (hstart : w.locate start = .ok dir) :
    Workspace.walk w.tree [] (w.start start ++ Text.segments start) = .ok dir := by
  have hwalk := Workspace.walk_of_locate hstart
  by_cases habs : Path.isAbsolute start = true
  · have hroot : w.start start = [] := by rw [Workspace.start, if_pos habs]
    rw [hroot] at hwalk ⊢
    exact hwalk
  · have hhere : w.start start = w.cwd := by rw [Workspace.start, if_neg habs]
    rw [hhere] at hwalk ⊢
    have hwhole : Workspace.walk w.tree w.cwd ([] ++ Text.segments start) = .ok dir := hwalk
    obtain ⟨-, hdir⟩ := Workspace.walk_start_of_append hwhole (Text.segments_ne_nil start)
    rw [Workspace.walk_append, Workspace.walk_names (fun name hname => (hcwd name hname).1) hdir]
    exact hwalk

theorem bind_find?_isFile (w : Workspace) (paths : List String) :
    (paths.find? w.isFile).bind w.fileAt? = paths.findSome? w.fileAt? := by
  induction paths with
  | nil => rfl
  | cons path paths ih =>
      rw [List.find?_cons, List.findSome?_cons, Workspace.isFile_eq]
      cases hfile : w.fileAt? path with
      | none => exact ih
      | some p => exact hfile

/-- The search finds the document that is met first on the way back from its start. -/
theorem bind_fileAt?_find? {w : Workspace} {start : String} {dir : Place} (hcwd : w.Written)
    (hstart : w.locate start = .ok dir) (hdir : w.tree.hasDirectory dir = true) :
    (find? w start).bind w.fileAt? =
      documentAlong? w.tree (w.start start ++ Text.segments start) := by
  have hcomps := components_searchStart_eq hcwd start
  have hway := walk_way hcwd hstart
  generalize w.start start ++ Text.segments start = way at hcomps hway ⊢
  -- a blank segment at the end asks for the directory that is there
  have hend : Workspace.walk w.tree [] (way ++ [""]) = .ok dir := by
    rw [Workspace.walk_append, hway]
    simp [Except.bind, Workspace.walk, hdir]
  rw [Workspace.walk_components _ _ way (by simp)] at hend
  rw [← (documentAlong?_components w.tree way).1]
  refine (bind_find?_isFile w _).trans (findSome?_candidates _ _ _ hcomps ?_ ?_)
  · have hlength := Path.length_components_le (searchStart w start)
    rw [hcomps, List.length_cons] at hlength
    exact Nat.lt_succ_of_lt hlength
  · rintro xs ⟨ys, hys⟩
    rw [← hys, List.append_assoc] at hend
    exact Workspace.walk_start_of_append hend (by simp)

/-- What is found is a path of the document. -/
theorem map_locate_find? (w : Workspace) (start : String) :
    (find? w start).map w.locate = ((find? w start).bind w.fileAt?).map .ok := by
  cases hfind : find? w start with
  | none => rfl
  | some path =>
      have hfile : w.isFile path = true := List.find?_some hfind
      rw [Workspace.isFile_eq] at hfile
      obtain ⟨p, hp⟩ := Option.isSome_iff_exists.1 hfile
      rw [Option.map_some, Option.bind_some, hp, locate_of_fileAt? hp]
      rfl

/-- From a directory, the search gives a path of the document that is met first on the way back.
This is the nearest document in the directory or above it exactly if it is in one of these
directories, and always if there is no `..` in the path. -/
theorem find?_eq_nearest? (w : Workspace) (start : String) (dir : Place) (hcwd : w.Written)
    (hstart : w.locate start = .ok dir) (hdir : w.tree.hasDirectory dir = true) :
    let found := documentAlong? w.tree (w.start start ++ Text.segments start)
    (find? w start).map w.locate = found.map .ok ∧
      ((find? w start).map w.locate = (nearest? w.tree dir).map .ok ↔
        ∀ d, found = some d → d.dropLast <+: dir) ∧
      (".." ∉ Text.segments start →
        (find? w start).map w.locate = (nearest? w.tree dir).map .ok) := by
  intro found
  have hend : lexicalWalk [] (w.start start ++ Text.segments start) = dir :=
    (Workspace.eq_lexicalWalk_of_walk (walk_way hcwd hstart)).symm
  have hfound : (find? w start).map w.locate = found.map .ok := by
    rw [map_locate_find?, bind_fileAt?_find? hcwd hstart hdir]
  have hnearest : (find? w start).map w.locate = (nearest? w.tree dir).map .ok ↔
      ∀ d, found = some d → d.dropLast <+: dir := by
    rw [hfound, ← hend, ← documentAlong?_eq_nearest?_iff]
    exact (Option.map_injective fun _ _ => Except.ok.inj).eq_iff
  refine ⟨hfound, hnearest, fun hplain => hnearest.2 fun d hd => ?_⟩
  obtain ⟨xs, ys, hway, hxs, -⟩ := longest?_eq_some_iff.1 hd
  have hdown : ".." ∉ ys := by
    intro hup
    have hmem : ".." ∈ w.start start ++ Text.segments start := by simp [hway, hup]
    exact (List.mem_append.1 hmem).elim hcwd.not_mem_start hplain
  rw [dropLast_of_documentIn? hxs, ← hend, hway, Workspace.lexicalWalk_append]
  exact Workspace.prefix_lexicalWalk hdown _

/-- Next to the working directory, a document above both is found from either. -/
theorem find?_eq_nearest?_beside :
    let w : Workspace :=
      ⟨⟨[(["p", "tsconfig.json"], .empty), (["p", "lib", "b.ts"], .empty)], [["p", "src"]]⟩,
        ["p", "src"]⟩
    w.Written ∧ w.locate "../lib" = .ok ["p", "lib"] ∧
      (find? w "../lib").map w.locate = (nearest? w.tree ["p", "lib"]).map .ok ∧
      nearest? w.tree ["p", "lib"] = some ["p", "tsconfig.json"] := by
  intro w
  have hcwd : w.Written := by decide +kernel
  have hstart : w.locate "../lib" = .ok ["p", "lib"] := by decide +kernel
  have hfound : documentAlong? w.tree (w.start "../lib" ++ Text.segments "../lib") =
      some ["p", "tsconfig.json"] := by decide +kernel
  refine ⟨hcwd, hstart, ?_, by decide +kernel⟩
  refine (find?_eq_nearest? w "../lib" ["p", "lib"] hcwd hstart (by decide +kernel)).2.1.2 ?_
  intro d hd
  obtain rfl := Option.some.inj (hfound.symm.trans hd)
  decide +kernel

/-- Where the way turns back, the search finds a document that does not apply to the directory:
instead of none, or instead of the nearest one. -/
theorem find?_aside :
    let tree : FileTree :=
      ⟨[(["app", "tsconfig.json"], .empty), (["proj", "model.ts"], .empty)], []⟩
    let nested : FileTree :=
      ⟨[(["tsconfig.json"], .empty), (["a", "b", "tsconfig.json"], .empty)], [["a", "c"]]⟩
    (Workspace.locate ⟨tree, []⟩ "app/../proj" = .ok ["proj"] ∧
      nearest? tree ["proj"] = none ∧
      find? ⟨tree, []⟩ "app/../proj" = some "/app/tsconfig.json" ∧
      find? ⟨tree, ["app"]⟩ "../proj" = some "/app/tsconfig.json") ∧
    Workspace.locate ⟨nested, []⟩ "a/b/../c" = .ok ["a", "c"] ∧
      nearest? nested ["a", "c"] = some ["tsconfig.json"] ∧
      find? ⟨nested, []⟩ "a/b/../c" = some "/a/b/tsconfig.json" := by
  decide +kernel

end Document

end SliceLint

import SliceLint.AliasOptions
import SliceLint.Proofs.Components
import SliceLint.Proofs.FileTree

set_option autoImplicit false

/-! # Aliases of a directory, however it is written

The search for a document and the documents that it extends go from text to text: a directory is
joined with a name, and the directory of a path is cut out of it. None of this depends on how the
first directory is written, only on its components. Two paths that go the same way (`Path.SameWay`)
denote the same place, and so do the paths that references lead to from them. Hence a directory has
the same aliases in every spelling (`AliasOptions.resolve_congr`), and the empty path has those of
the working directory (`AliasOptions.resolve_empty`). -/

namespace SliceLint

namespace Path

/-- The text of a component that is not a lead. -/
def Component.text : Component → String
  | root => "/"
  | current => "."
  | parent => ".."
  | name s => s

/-- Whether a component can stand at the start of a path only. -/
def Component.isLead : Component → Bool
  | root => true
  | current => true
  | parent => false
  | name _ => false

theorem text_of_segmentComponent? {s : String} {c : Component}
    (h : segmentComponent? s = some c) : c.text = s := by
  unfold segmentComponent? at h
  split at h
  · cases h
  · split at h
    · next hup =>
        obtain rfl := Option.some.inj h
        exact hup.symm
    · obtain rfl := Option.some.inj h
      rfl

theorem filterMap_segments_eq (p : String) :
    (Text.segments p).filterMap segmentComponent? = (components p).filter (!·.isLead) := by
  have hrest : ((Text.segments p).filterMap segmentComponent?).filter (!·.isLead)
      = (Text.segments p).filterMap segmentComponent? := by
    refine List.filter_eq_self.2 fun c hc => ?_
    obtain ⟨s, -, hs⟩ := List.mem_filterMap.1 hc
    obtain ⟨hroot, hcurrent⟩ := segmentComponent?_ne_lead hs
    cases c with
    | root => exact absurd rfl hroot
    | current => exact absurd rfl hcurrent
    | parent => rfl
    | name s => rfl
  have hlead : (leadComponents p).filter (!·.isLead) = [] := by
    rcases lead_cases p with ⟨-, -, h⟩ | ⟨-, -, h, -⟩ | ⟨-, -, h, -⟩ <;> rw [h] <;> rfl
  rw [components_eq_leadComponents, List.filter_append, hlead, hrest, List.nil_append]

theorem isAbsolute_eq (p : String) : isAbsolute p = decide ((components p).head? = some .root) := by
  by_cases habs : isAbsolute p = true
  · simp [components, habs]
  · rw [components_eq_leadComponents]
    rw [Bool.not_eq_true] at habs
    rw [habs, eq_comm, decide_eq_false_iff_not]
    intro hhead
    have hmem : Component.root ∈ leadComponents p ++
        (Text.segments p).filterMap segmentComponent? := List.mem_of_head? hhead
    rcases List.mem_append.1 hmem with hmem | hmem
    · unfold leadComponents at hmem
      rw [habs] at hmem
      split at hmem
      · next h => cases h
      · split at hmem <;> simp at hmem
    · obtain ⟨s, -, hs⟩ := List.mem_filterMap.1 hmem
      exact (segmentComponent?_ne_lead hs).1 rfl

/-- Two paths with the same components that end in the same segments. A blank segment at the end is
no component, but it asks for a directory, so both paths have it or none. -/
structure SameWay (p q : String) : Prop where
  components_eq : components p = components q
  shared : ∃ xs ys tail, tail ≠ [] ∧ Text.segments p = xs ++ tail ∧ Text.segments q = ys ++ tail

theorem SameWay.refl (p : String) : SameWay p p :=
  ⟨rfl, [], [], Text.segments p, Text.segments_ne_nil p, rfl, rfl⟩

/-- From two spellings of a directory, a path goes the same way. -/
theorem SameWay.join {base base' : String} (h : components base = components base')
    (rel : String) : SameWay (join base rel) (join base' rel) := by
  by_cases hrel : isAbsolute rel = true
  · have hself : ∀ b, Path.join b rel = rel := fun b => by simp [Path.join, hrel]
    rw [hself, hself]
    exact .refl rel
  · rw [Bool.not_eq_true] at hrel
    have hempty := eq_empty_iff_of_components h
    by_cases hbase : base = ""
    · rw [hbase, hempty.1 hbase]
      exact .refl _
    · have hbase' : base' ≠ "" := fun he => hbase (hempty.2 he)
      obtain ⟨xs, hxs, -⟩ := segments_join hbase hrel
      obtain ⟨ys, hys, -⟩ := segments_join hbase' hrel
      refine ⟨?_, xs, ys, Text.segments rel, Text.segments_ne_nil rel, hxs, hys⟩
      rw [components_join hbase hrel, components_join hbase' hrel, h]

end Path

/-! ## Places -/

namespace Workspace

open SliceLint.Path (SameWay segmentComponent?)

/-- On the way to further segments, only components count. -/
theorem walk_components (t : FileTree) (p : Place) (xs : List String) {tail : List String}
    (htail : tail ≠ []) :
    walk t p (xs ++ tail) = walk t p ((xs.filterMap segmentComponent?).map (·.text) ++ tail) := by
  induction xs generalizing p with
  | nil => rfl
  | cons x xs ih =>
      cases hx : segmentComponent? x with
      | none =>
          rw [List.filterMap_cons_none hx, List.cons_append, walk_blank hx (by simp [htail]), ih]
      | some c =>
          have hstep : ∀ rest, walk t p (x :: rest)
              = (walk t p [x]).bind fun q => walk t q rest := fun rest => walk_append t p [x] rest
          rw [List.filterMap_cons_some hx, List.map_cons, Path.text_of_segmentComponent? hx,
            List.cons_append, List.cons_append, hstep (xs ++ tail), hstep (_ ++ tail)]
          simp only [ih]

theorem locate_congr (w : Workspace) {p q : String} (h : SameWay p q) :
    w.locate p = w.locate q := by
  obtain ⟨hcomps, xs, ys, tail, htail, hp, hq⟩ := h
  have hboth := Path.eq_empty_iff_of_components hcomps
  by_cases hempty : p = ""
  · rw [hempty, hboth.1 hempty]
  · have hempty' : q ≠ "" := fun he => hempty (hboth.2 he)
    have habs : Path.isAbsolute p = Path.isAbsolute q := by
      rw [Path.isAbsolute_eq, Path.isAbsolute_eq, hcomps]
    have hnames : xs.filterMap segmentComponent? = ys.filterMap segmentComponent? := by
      have hall : (Text.segments p).filterMap segmentComponent?
          = (Text.segments q).filterMap segmentComponent? := by
        rw [Path.filterMap_segments_eq, Path.filterMap_segments_eq, hcomps]
      rw [hp, hq, List.filterMap_append, List.filterMap_append] at hall
      exact List.append_cancel_right hall
    have hp' : p.isEmpty = false := by simpa using hempty
    have hq' : q.isEmpty = false := by simpa using hempty'
    simp only [locate, hp', hq', Bool.false_eq_true, if_false]
    rw [habs, hp, hq, walk_components _ _ xs htail, walk_components _ _ ys htail, hnames]

theorem isFile_congr (w : Workspace) {p q : String} (h : SameWay p q) :
    w.isFile p = w.isFile q := by
  rw [isFile, isFile, w.locate_congr h]

end Workspace

/-! ## Documents -/

namespace Document

open SliceLint.Path (SameWay)

section Related

variable {α β : Type} {R : α → α → Prop}

theorem bind_eq_of_rel {a b : Option α} {f g : α → Option β} (h : Option.Rel R a b)
    (hfg : ∀ x y, R x y → f x = g y) : a.bind f = b.bind g := by
  cases h with
  | none => rfl
  | some hxy => exact hfg _ _ hxy

theorem rel_find? {f : α → Bool} (hf : ∀ x y, R x y → f x = f y) {xs ys : List α}
    (h : List.Forall₂ R xs ys) : Option.Rel R (xs.find? f) (ys.find? f) := by
  induction h with
  | nil => exact .none
  | cons hxy _ ih =>
      rw [List.find?_cons, List.find?_cons, hf _ _ hxy]
      split
      · exact .some hxy
      · exact ih

end Related

theorem load?_congr (w : Workspace) {p q : String} (h : SameWay p q) : load? w p = load? w q := by
  rw [load?, load?, Workspace.readText?, Workspace.readText?, w.locate_congr h]

/-- From two spellings of a directory, a reference leads the same way. -/
theorem locateInherited?_congr (w : Workspace) {dir dir' : String}
    (h : Path.components dir = Path.components dir') (reference : String) :
    Option.Rel SameWay (locateInherited? w dir reference)
      (locateInherited? w dir' reference) := by
  have hplain := SameWay.join h reference
  have hjson := SameWay.join h (reference ++ ".json")
  unfold locateInherited?
  simp only [w.isFile_congr hplain, w.isFile_congr hjson]
  split
  · exact .some hplain
  · split
    · exact .none
    · split
      · exact .some hjson
      · exact .none

theorem loadChain?_congr (w : Workspace) (fuel : Nat) :
    ∀ (chain : List Place) {p q : String}, SameWay p q →
      loadChain? w fuel chain p = loadChain? w fuel chain q := by
  induction fuel with
  | zero =>
      intro chain p q _
      rfl
  | succ fuel ih =>
      intro chain p q h
      have hdir : Path.components (directoryOf p) = Path.components (directoryOf q) := by
        rw [directoryOf, directoryOf, Path.components_directory, Path.components_directory,
          h.components_eq]
      have hbelow : ∀ (place : Place) (reference : String),
          (locateInherited? w (directoryOf p) reference).bind (loadChain? w fuel (place :: chain))
            = (locateInherited? w (directoryOf q) reference).bind
              (loadChain? w fuel (place :: chain)) := by
        intro place reference
        exact bind_eq_of_rel (locateInherited?_congr w hdir reference)
          fun _ _ hway => ih (place :: chain) hway
      simp only [loadChain?, w.locate_congr h, load?_congr w h, hbelow]

theorem loadMerged?_congr (w : Workspace) {p q : String} (h : SameWay p q) :
    loadMerged? w p = loadMerged? w q :=
  loadChain?_congr w _ [] h

/-! ## The search -/

theorem cwdPath_ne_empty (w : Workspace) : w.cwdPath ≠ "" := by
  intro h
  have hlength := congrArg String.length h
  rw [Workspace.cwdPath, String.length_append, show "/".length = 1 from rfl] at hlength
  exact absurd hlength (by simp)

theorem isAbsolute_cwdPath (w : Workspace) : Path.isAbsolute w.cwdPath = true :=
  Path.isAbsolute_iff.2 ⟨_, rfl⟩

/-- The directory that a search begins in, as an absolute path. -/
def searchStart (w : Workspace) (start : String) : String :=
  if Path.isAbsolute start then start else Path.join w.cwdPath start

/-- The search depends on the components of the directory that it begins in. -/
theorem rel_find?_of_searchStart (w : Workspace) {p q : String}
    (h : Path.components (searchStart w p) = Path.components (searchStart w q)) :
    Option.Rel SameWay (find? w p) (find? w q) := by
  have hcandidates : List.Forall₂ SameWay
      ((Path.ancestors (searchStart w p)).flatMap fun dir => fileNames.map (Path.join dir))
      ((Path.ancestors (searchStart w q)).flatMap fun dir => fileNames.map (Path.join dir)) := by
    refine List.rel_flatMap (Path.forall₂_ancestors h) fun dir dir' hdir => ?_
    rw [List.forall₂_map_left_iff, List.forall₂_map_right_iff, List.forall₂_same]
    exact fun name _ => SameWay.join hdir name
  exact rel_find? (fun _ _ hway => w.isFile_congr hway) hcandidates

theorem components_searchStart (w : Workspace) {p q : String}
    (h : Path.components p = Path.components q) :
    Path.components (searchStart w p) = Path.components (searchStart w q) := by
  have habs : Path.isAbsolute p = Path.isAbsolute q := by
    rw [Path.isAbsolute_eq, Path.isAbsolute_eq, h]
  unfold searchStart
  by_cases hp : Path.isAbsolute p = true
  · rw [if_pos hp, if_pos (habs ▸ hp), h]
  · have hq : ¬ Path.isAbsolute q = true := habs ▸ hp
    rw [if_neg hp, if_neg hq, Path.components_join (cwdPath_ne_empty w) (by simpa using hp),
      Path.components_join (cwdPath_ne_empty w) (by simpa using hq), Path.filterMap_segments_eq,
      Path.filterMap_segments_eq, h]

end Document

namespace AliasOptions

theorem documentAliases_congr (w : Workspace) {p q : String}
    (h : Option.Rel Path.SameWay (Document.find? w p) (Document.find? w q))
    (document : Option String) :
    documentAliases w document (some p) = documentAliases w document (some q) := by
  cases document with
  | some path => rfl
  | none =>
      have hloaded := Document.bind_eq_of_rel h fun _ _ hway => Document.loadMerged?_congr w hway
      simp only [documentAliases, source?, Option.getD_some, hloaded]

/-- A directory has the same aliases however it is written. -/
theorem resolve_congr (w : Workspace) (o : AliasOptions) {p q : String}
    (h : Path.components p = Path.components q) :
    o.resolve w (some p) = o.resolve w (some q) := by
  have hfound := Document.rel_find?_of_searchStart w (Document.components_searchStart w h)
  simp only [resolve, documentAliases_congr w hfound]

/-- The empty path stands for the working directory. -/
theorem resolve_empty (w : Workspace) (o : AliasOptions) :
    o.resolve w (some "") = o.resolve w none := by
  have hstart : Path.components (Document.searchStart w "")
      = Path.components (Document.searchStart w w.cwdPath) := by
    have hempty : Path.isAbsolute "" = false := by decide
    rw [Document.searchStart, Document.searchStart, if_neg (by simp [hempty]),
      if_pos (Document.isAbsolute_cwdPath w), Path.components_join (Document.cwdPath_ne_empty w) hempty]
    exact List.append_nil _
  have hfound := Document.rel_find?_of_searchStart w hstart
  have hnone : o.resolve w none = o.resolve w (some w.cwdPath) := rfl
  rw [hnone]
  simp only [resolve, documentAliases_congr w hfound]

/-- Explicit aliases and a named document are independent of the directory. -/
theorem resolve_of_explicit (w : Workspace) (o : AliasOptions)
    (h : o.aliases ≠ [] ∨ o.document.isSome = true) (p q : Option String) :
    o.resolve w p = o.resolve w q := by
  unfold resolve
  by_cases haliases : o.aliases ≠ []
  · rw [if_pos haliases, if_pos haliases]
  · rw [if_neg haliases, if_neg haliases]
    obtain ⟨path, hpath⟩ := Option.isSome_iff_exists.1 (h.resolve_left haliases)
    simp only [documentAliases, source?, hpath]

end AliasOptions

end SliceLint

import SliceLint.Proofs.Specifier

set_option autoImplicit false

/-! # The shortest way up

The relative specifier that `Specifier.relativeTo` finds leads back to the path that it was made
from, and no other specifier does so with fewer steps up (`Specifier.resolve?_relativeTo_least`).

Every `..` of a specifier gives up at most one of the directories that the walk starts from, and
whatever is never given up is shared by the start and the end of the walk. So a walk needs a step up
for each directory below the last common one (`Specifier.length_le_of_follow`), and the specifier
that is found takes no more than these. -/

namespace SliceLint

/-- Segments without slashes are known from the joined text, if none of them is empty. -/
theorem Text.joinSegments_inj {xs ys : List String} (hxs : ∀ x ∈ xs, x ≠ "" ∧ '/' ∉ x.toList)
    (hys : ∀ y ∈ ys, y ≠ "" ∧ '/' ∉ y.toList) (h : joinSegments xs = joinSegments ys) :
    xs = ys := by
  -- nothing and one empty segment have the same text
  have hempty : ∀ {zs : List String}, (∀ z ∈ zs, z ≠ "" ∧ '/' ∉ z.toList) →
      joinSegments zs = joinSegments [] → zs = [] := by
    intro zs hzs hjoin
    by_contra hne
    have hsegs := segments_joinSegments hne fun z hz => (hzs z hz).2
    rw [hjoin, show segments (joinSegments []) = [""] from rfl] at hsegs
    exact (hzs "" (by simp [← hsegs])).1 rfl
  by_cases hx : xs = []
  · rw [hx] at h ⊢
    exact (hempty hys h.symm).symm
  · by_cases hy : ys = []
    · rw [hy] at h ⊢
      exact hempty hxs h
    · rw [← segments_joinSegments hx fun x hmem => (hxs x hmem).2, h,
        segments_joinSegments hy fun y hmem => (hys y hmem).2]

namespace Specifier

/-! ## Steps up -/

/-- What a directory starts with is shared with every path that starts with it, too. -/
theorem le_commonLength {dir path : List String} {n : Nat} (h : dir.take n <+: path) :
    min n dir.length ≤ commonLength dir path := by
  induction dir generalizing n path with
  | nil => simp
  | cons d dir ih =>
      cases n with
      | zero => simp
      | succ n =>
          rw [List.take_succ_cons] at h
          cases path with
          | nil => simp at h
          | cons part path =>
              obtain ⟨rfl, hrest⟩ := List.cons_prefix_cons.1 h
              have hle := ih hrest
              rw [commonLength, if_pos rfl, List.length_cons]
              omega

/-- A walk steps up at least once for each directory that its start does not share with its end. -/
theorem length_le_of_follow {dir parts path : List String} (h : follow dir parts = some path) :
    dir.length ≤ commonLength dir path + parts.count ".." := by
  obtain ⟨kept, down, rfl, hups, -, -⟩ := follow_eq_append h
  have hshared := le_commonLength (List.prefix_append (dir.take kept) down)
  omega

theorem count_climb (levels : Nat) : (climb levels).count ".." = levels := by
  unfold climb
  split
  · next hzero => simp [hzero]
  · exact List.count_replicate_self

/-- The specifier that is found steps up once for each directory that the file does not share with
the target. -/
theorem count_parts_relativeTo (file : String) {target : String} (hback : '\\' ∉ target.toList)
    (hup : ".." ∉ Text.segments target) :
    (parts (relativeTo file target)).count ".." = (directory file).length -
      commonLength (directory file) ((Text.segments target).filter (· ≠ "")) := by
  have hdown : ∀ n, (((Text.segments target).filter (· ≠ "")).drop n).count ".." = 0 := by
    intro n
    refine List.count_eq_zero.2 fun hmem => hup ?_
    exact (List.mem_filter.1 (List.mem_of_mem_drop hmem)).1
  rw [parts_relativeTo file hback, List.count_append, count_climb, hdown, Nat.add_zero]

/-! ## Where a walk ends -/

/-- A walk passes over empty segments. -/
theorem ne_empty_of_follow {dir parts path : List String} (h : follow dir parts = some path)
    (hdir : "" ∉ dir) : "" ∉ path := by
  obtain ⟨kept, down, rfl, -, -, hdown⟩ := follow_eq_append h
  intro hmem
  rcases List.mem_append.1 hmem with hmem | hmem
  · exact hdir (List.mem_of_mem_take hmem)
  · exact (hdown "" hmem).1 rfl

/-- In a file whose path has no empty segment, a specifier that resolves to a path of names was
followed through these names. -/
theorem follow_of_resolve? {file specifier : String} {names : List String}
    (hfile : "" ∉ Text.segments file) (hnames : ∀ name ∈ names, name ≠ "" ∧ '/' ∉ name.toList)
    (h : resolve? file specifier = some (Text.joinSegments names)) :
    follow (directory file) (parts specifier) = some names := by
  obtain ⟨path, hwalk, hjoin⟩ := Option.map_eq_some_iff.1 h
  have hdir : "" ∉ directory file := fun hmem => hfile (List.mem_of_mem_dropLast hmem)
  have hempty := ne_empty_of_follow hwalk hdir
  have hpath : ∀ part ∈ path, part ≠ "" ∧ '/' ∉ part.toList := by
    intro part hpart
    refine ⟨fun he => hempty (he ▸ hpart), ?_⟩
    rw [parts_eq] at hwalk
    have hne : path ≠ [] := List.ne_nil_of_mem hpart
    rw [← segments_joinSegments_follow hwalk hne] at hpart
    exact Text.no_slash_of_mem_segments hpart
  rw [hwalk, Text.joinSegments_inj hpath hnames hjoin]

/-- The relative specifier of a path without dot segments is relative and leads to the path, less
its empty segments. In a file whose path has no empty segment either, no specifier leads there with
fewer steps up. -/
theorem resolve?_relativeTo_least (file target : String) (hback : '\\' ∉ target.toList)
    (hnames : ∀ part ∈ Text.segments target, part ≠ "." ∧ part ≠ "..") :
    let path := Text.joinSegments ((Text.segments target).filter (· ≠ ""))
    isRelative (relativeTo file target) = true ∧
      resolve? file (relativeTo file target) = some path ∧
      ("" ∉ Text.segments file → ∀ specifier, resolve? file specifier = some path →
        (parts (relativeTo file target)).count ".." ≤ (parts specifier).count "..") := by
  intro path
  refine ⟨isRelative_relativeTo file target, resolve?_relativeTo hback hnames, ?_⟩
  intro hfile specifier hresolve
  have hup : ".." ∉ Text.segments target := fun hmem => (hnames ".." hmem).2 rfl
  have hplain : ∀ name ∈ (Text.segments target).filter (· ≠ ""), name ≠ "" ∧ '/' ∉ name.toList := by
    intro name hname
    obtain ⟨hmem, hne⟩ := List.mem_filter.1 hname
    exact ⟨by simpa using hne, Text.no_slash_of_mem_segments hmem⟩
  have hwalk := follow_of_resolve? hfile hplain hresolve
  have hle := length_le_of_follow hwalk
  rw [count_parts_relativeTo file hback hup]
  omega

/-- From one slice to a sibling, past an empty segment. -/
theorem resolve?_relativeTo_least_sibling :
    relativeTo "entities/user/ui/Card.tsx" "entities//profile/model" = "../../profile/model" ∧
      resolve? "entities/user/ui/Card.tsx" "../../profile/model" = some "entities/profile/model" ∧
      ∀ specifier, resolve? "entities/user/ui/Card.tsx" specifier = some "entities/profile/model" →
        2 ≤ (parts specifier).count ".." := by
  have hleast := resolve?_relativeTo_least "entities/user/ui/Card.tsx" "entities//profile/model"
    (by decide) (by decide +kernel)
  have hfound : relativeTo "entities/user/ui/Card.tsx" "entities//profile/model"
      = "../../profile/model" := by decide +kernel
  have hpath : Text.joinSegments ((Text.segments "entities//profile/model").filter (· ≠ ""))
      = "entities/profile/model" := by decide +kernel
  have hcount : (parts "../../profile/model").count ".." = 2 := by decide +kernel
  simp only [hfound, hpath, hcount] at hleast
  exact ⟨hfound, hleast.2.1, hleast.2.2 (by decide +kernel)⟩

-- With an empty segment in front of the file, a step up is taken that no text shows.
example : relativeTo "/index.ts" "" = ".." ∧ resolve? "/index.ts" ".." = some "" ∧
    resolve? "/index.ts" "." = some "" := by decide +kernel

end Specifier

end SliceLint

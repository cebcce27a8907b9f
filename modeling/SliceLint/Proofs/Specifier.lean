import SliceLint.Proofs.Text
import SliceLint.Specifier

set_option autoImplicit false

/-! # Following relative specifiers

Following segments from a directory climbs to one of the directories above it and goes down from
there through segments of the specifier (`follow_eq_append`). Climbing up to the last common
directory and down again leads to any path of plain names, which is why `relativeTo` is a right
inverse of resolving (`resolve?_relativeTo`). A path of names only is its own result. -/

namespace SliceLint

namespace Specifier

/-- A segment that stands for itself, neither for nothing nor for a step up. -/
def IsName (part : String) : Prop :=
  part ≠ "" ∧ part ≠ "." ∧ part ≠ ".."

/-! ## Written segments -/

/-- The segments as written are those of the normalised specifier. -/
theorem parts_eq (s : String) : parts s = Text.segments (Text.slashed s) := by
  have h := Text.split_map (· == '/') isSeparator Text.slash (fun c => ?_) (fun c hc => ?_) s.toList
  · simp [parts, Text.segments, Text.slashed, h]
  · by_cases hc : c = '\\' <;> simp [Text.slash, isSeparator, hc]
  · have hne : c ≠ '\\' := by
      rintro rfl
      simp [isSeparator] at hc
    simp [Text.slash, hne]

theorem resolve?_slashed (file s : String) :
    resolve? file (Text.slashed s) = resolve? file s := by
  rw [resolve?, resolve?, parts_eq, parts_eq, Text.slashed_slashed]

/-- A specifier that is joined from segments without slashes of either kind has these segments. -/
theorem parts_joinSegments {names : List String} (hne : names ≠ [])
    (h : ∀ part ∈ names, '/' ∉ part.toList ∧ '\\' ∉ part.toList) :
    parts (Text.joinSegments names) = names := by
  have hback : '\\' ∉ (Text.joinSegments names).toList := by
    rw [Text.mem_joinSegments (by decide)]
    rintro ⟨part, hpart, hc⟩
    exact (h part hpart).2 hc
  rw [parts_eq, Text.slashed_eq_self hback,
    Text.segments_joinSegments hne fun part hpart => (h part hpart).1]

/-! ## Relative specifiers -/

theorem isRelative_iff {s : String} :
    isRelative s = true ↔
      s = "." ∨ s = ".." ∨ (∃ rest, s = "./" ++ rest) ∨ ∃ rest, s = "../" ++ rest := by
  simp only [isRelative, Bool.or_eq_true, beq_iff_eq, Text.startsWith_iff, or_assoc]

/-- A relative specifier stays relative when its slashes are normalised. -/
theorem isRelative_slashed {s : String} (h : isRelative s = true) :
    isRelative (Text.slashed s) = true := by
  rw [isRelative_iff] at h ⊢
  rcases h with rfl | rfl | ⟨rest, rfl⟩ | ⟨rest, rfl⟩
  · exact Or.inl (by decide)
  · exact Or.inr (Or.inl (by decide))
  · exact Or.inr (Or.inr (Or.inl ⟨Text.slashed rest, by rw [Text.slashed_append]; rfl⟩))
  · exact Or.inr (Or.inr (Or.inr ⟨Text.slashed rest, by rw [Text.slashed_append]; rfl⟩))

/-- A relative specifier starts with a dot segment. -/
theorem head_segments_of_isRelative {s : String} (h : isRelative s = true) :
    ∃ rest, Text.segments s = "." :: rest ∨ Text.segments s = ".." :: rest := by
  rcases isRelative_iff.1 h with rfl | rfl | ⟨rest, rfl⟩ | ⟨rest, rfl⟩
  · exact ⟨[], Or.inl (by decide)⟩
  · exact ⟨[], Or.inr (by decide)⟩
  · exact ⟨Text.segments rest, Or.inl (Text.segments_dot_slash_append rest)⟩
  · exact ⟨Text.segments rest, Or.inr (Text.segments_up_slash_append rest)⟩

theorem isRelative_joinSegments {dots : String} (h : dots = "." ∨ dots = "..")
    (rest : List String) : isRelative (Text.joinSegments (dots :: rest)) = true := by
  rw [isRelative_iff]
  by_cases hrest : rest = []
  · rw [hrest]
    rcases h with rfl | rfl
    · exact Or.inl rfl
    · exact Or.inr (Or.inl rfl)
  · rw [Text.joinSegments_cons _ hrest]
    rcases h with rfl | rfl
    · exact Or.inr (Or.inr (Or.inl ⟨_, rfl⟩))
    · exact Or.inr (Or.inr (Or.inr ⟨_, rfl⟩))

/-- Whether a specifier is relative shows in its first segment. -/
theorem isRelative_iff_head {s : String} :
    isRelative s = true ↔
      (Text.segments s).head? = some "." ∨ (Text.segments s).head? = some ".." := by
  constructor
  · intro h
    obtain ⟨rest, hdot | hup⟩ := head_segments_of_isRelative h
    · exact Or.inl (by rw [hdot]; rfl)
    · exact Or.inr (by rw [hup]; rfl)
  · intro h
    obtain ⟨dots, rest, hsegs⟩ := List.exists_cons_of_ne_nil (Text.segments_ne_nil s)
    rw [hsegs, List.head?_cons, Option.some.injEq, Option.some.injEq] at h
    rw [← Text.joinSegments_segments s, hsegs]
    exact isRelative_joinSegments h rest

/-- Only a back slash behind the dots makes a specifier look relative when it is normalised. -/
theorem isRelative_of_slashed {s : String} (h : isRelative (Text.slashed s) = true) :
    isRelative s = true ∨ Text.startsWith ".\\" s = true ∨ Text.startsWith "..\\" s = true := by
  have hdots : ∀ dots rest : String, '/' ∉ dots.toList → Text.slashed s = dots ++ "/" ++ rest →
      Text.startsWith (dots ++ "/") s = true ∨ Text.startsWith (dots ++ "\\") s = true := by
    intro dots rest hdots hs
    obtain ⟨start, rest, rfl, hstart, -⟩ := Text.slashed_eq_append hs
    obtain ⟨dots', mark, rfl, hdots', hmark⟩ := Text.slashed_eq_append hstart
    obtain rfl := Text.eq_of_slashed_eq hdots' hdots
    rw [Text.startsWith_iff, Text.startsWith_iff]
    rcases Text.eq_of_slashed_eq_slash hmark with rfl | rfl
    · exact Or.inl ⟨rest, rfl⟩
    · exact Or.inr ⟨rest, rfl⟩
  rw [isRelative_iff] at h
  simp only [isRelative, Bool.or_eq_true, beq_iff_eq]
  rcases h with hs | hs | ⟨rest, hs⟩ | ⟨rest, hs⟩
  · simp [Text.eq_of_slashed_eq hs (by decide)]
  · simp [Text.eq_of_slashed_eq hs (by decide)]
  · rcases hdots "." rest (by decide) hs with hs | hs
    · exact Or.inl (by simp [show Text.startsWith "./" s = true from hs])
    · exact Or.inr (Or.inl hs)
  · rcases hdots ".." rest (by decide) hs with hs | hs
    · exact Or.inl (by simp [show Text.startsWith "../" s = true from hs])
    · exact Or.inr (Or.inr hs)

/-- A back slash behind the dots hides that a specifier is relative. -/
theorem isRelative_backslash {dots : String} (h : dots = "." ∨ dots = "..") (rest : String) :
    isRelative (dots ++ "\\" ++ rest) = false ∧
      isRelative (Text.slashed (dots ++ "\\" ++ rest)) = true := by
  constructor
  · rw [← Bool.not_eq_true, isRelative_iff]
    intro hrel
    rcases h with rfl | rfl <;> rcases hrel with hs | hs | ⟨tail, hs⟩ | ⟨tail, hs⟩ <;>
      simpa using congrArg String.toList hs
  · rw [isRelative_iff, Text.slashed_append, Text.slashed_append]
    rcases h with rfl | rfl
    · exact Or.inr (Or.inr (Or.inl ⟨Text.slashed rest, rfl⟩))
    · exact Or.inr (Or.inr (Or.inr ⟨Text.slashed rest, rfl⟩))

/-- Normalising its slashes makes a specifier relative exactly if a back slash stands behind the dots
at its start. -/
theorem isRelative_slashed_eq_iff {s : String} :
    isRelative (Text.slashed s) = isRelative s ↔
      Text.startsWith ".\\" s = false ∧ Text.startsWith "..\\" s = false := by
  constructor
  · intro h
    have hdots : ∀ dots : String, dots = "." ∨ dots = ".." →
        Text.startsWith (dots ++ "\\") s = false := by
      intro dots hdots
      rw [← Bool.not_eq_true, Text.startsWith_iff]
      rintro ⟨rest, rfl⟩
      obtain ⟨hwritten, hslashed⟩ := isRelative_backslash hdots rest
      rw [hwritten, hslashed] at h
      cases h
    exact ⟨hdots "." (Or.inl rfl), hdots ".." (Or.inr rfl)⟩
  · rintro ⟨hdot, hup⟩
    cases hrel : isRelative s with
    | true => exact isRelative_slashed hrel
    | false =>
        by_contra hslashed
        rw [Bool.not_eq_false] at hslashed
        rcases isRelative_of_slashed hslashed with h | h | h
        · rw [hrel] at h
          cases h
        · rw [hdot] at h
          cases h
        · rw [hup] at h
          cases h

/-- From its first slash on, a specifier may go on as it likes and stays relative. -/
theorem isRelative_append {s : String} (h : isRelative s = true) (hslash : '/' ∈ s.toList)
    (t : String) : isRelative (s ++ t) = true := by
  rw [isRelative_iff] at h ⊢
  rcases h with rfl | rfl | ⟨rest, rfl⟩ | ⟨rest, rfl⟩
  · exact absurd hslash (by decide)
  · exact absurd hslash (by decide)
  · exact Or.inr (Or.inr (Or.inl ⟨rest ++ t, by rw [String.append_assoc]⟩))
  · exact Or.inr (Or.inr (Or.inr ⟨rest ++ t, by rw [String.append_assoc]⟩))

/-! ## Following -/

theorem follow_blank {part : String} (h : part = "" ∨ part = ".") (dir rest : List String) :
    follow dir (part :: rest) = follow dir rest := by
  conv_lhs => unfold follow
  rw [if_pos h]

theorem follow_up {dir : List String} (h : dir ≠ []) (rest : List String) :
    follow dir (".." :: rest) = follow dir.dropLast rest := by
  cases dir with
  | nil => exact absurd rfl h
  | cons d dir => simp [follow]

theorem follow_name {part : String} (h : IsName part) (dir rest : List String) :
    follow dir (part :: rest) = follow (dir ++ [part]) rest := by
  obtain ⟨hempty, hdot, hup⟩ := h
  conv_lhs => unfold follow
  rw [if_neg (by simp [hempty, hdot]), if_neg hup]

/-- Every segment is blank, a step up or a name. -/
theorem part_cases (part : String) : (part = "" ∨ part = ".") ∨ part = ".." ∨ IsName part := by
  by_cases hblank : part = "" ∨ part = "."
  · exact Or.inl hblank
  · by_cases hup : part = ".."
    · exact Or.inr (Or.inl hup)
    · rw [not_or] at hblank
      exact Or.inr (Or.inr ⟨hblank.1, hblank.2, hup⟩)

theorem follow_append (dir xs ys : List String) :
    follow dir (xs ++ ys) = (follow dir xs).bind fun d => follow d ys := by
  induction xs generalizing dir with
  | nil => simp [follow]
  | cons x xs ih =>
      rw [List.cons_append]
      rcases part_cases x with hx | rfl | hx
      · rw [follow_blank hx, follow_blank hx, ih]
      · cases dir with
        | nil => simp [follow]
        | cons d dir => rw [follow_up (by simp), follow_up (by simp), ih]
      · rw [follow_name hx, follow_name hx, ih]

/-- Names only go down. -/
theorem follow_names {names : List String} (h : ∀ part ∈ names, IsName part) (dir : List String) :
    follow dir names = some (dir ++ names) := by
  induction names generalizing dir with
  | nil => simp [follow]
  | cons part names ih =>
      rw [follow_name (h part (by simp)), ih fun q hq => h q (by simp [hq])]
      simp

/-- Steps up lead to the directory so many levels above. -/
theorem follow_replicate_up {n : Nat} {dir : List String} (h : n ≤ dir.length) :
    follow dir (List.replicate n "..") = some (dir.take (dir.length - n)) := by
  induction n generalizing dir with
  | zero => simp [follow]
  | succ n ih =>
      have hne : dir ≠ [] := by
        rintro rfl
        simp at h
      rw [List.replicate_succ, follow_up hne, ih (by simp; omega), List.length_dropLast,
        List.dropLast_eq_take, List.take_take]
      congr 2
      omega

/-- Where a walk stays below its start, it goes the same way below any directory. -/
theorem follow_below {parts dir d : List String} (base : List String)
    (h : follow dir parts = some d) : follow (base ++ dir) parts = some (base ++ d) := by
  induction parts generalizing dir with
  | nil =>
      obtain rfl := Option.some.inj h
      rfl
  | cons part parts ih =>
      rcases part_cases part with hp | rfl | hp
      · rw [follow_blank hp] at h ⊢
        exact ih h
      · have hne : dir ≠ [] := by
          rintro rfl
          simp [follow] at h
        rw [follow_up hne] at h
        rw [follow_up (by simp [hne]), List.dropLast_append_of_ne_nil hne]
        exact ih h
      · rw [follow_name hp] at h
        rw [follow_name hp, List.append_assoc]
        exact ih h

/-- A walk that passes below a directory does not depend on the directory's name, unless it ends
below it. -/
theorem follow_rename {parts base tail d : List String} {x : String}
    (h : follow (base ++ x :: tail) parts = some d) :
    (∃ down, d = base ++ x :: down ∧
        ∀ y, follow (base ++ y :: tail) parts = some (base ++ y :: down)) ∨
      ∀ y, follow (base ++ y :: tail) parts = some d := by
  induction parts generalizing tail with
  | nil =>
      obtain rfl := Option.some.inj h
      exact Or.inl ⟨tail, rfl, fun y => rfl⟩
  | cons part parts ih =>
      rcases part_cases part with hblank | rfl | hname
      · simp only [follow_blank hblank] at h ⊢
        exact ih h
      · have hup : ∀ y, follow (base ++ y :: tail) (".." :: parts)
            = follow (base ++ (y :: tail).dropLast) parts := by
          intro y
          rw [follow_up (by simp), List.dropLast_append_of_ne_nil (by simp)]
        simp only [hup] at h ⊢
        cases tail with
        | nil => exact Or.inr fun _ => h
        | cons next tail => exact ih h
      · simp only [follow_name hname, List.append_assoc, List.cons_append] at h ⊢
        exact ih h

/-- A walk keeps all but some of the directories it starts from, and each one that it gives up takes
a step up. Below those that are kept it goes through names that it was given, in order. -/
theorem follow_eq_append {parts dir d : List String} (h : follow dir parts = some d) :
    ∃ kept down, d = dir.take kept ++ down ∧ dir.length ≤ kept + parts.count ".." ∧
      down.Sublist parts ∧ ∀ part ∈ down, IsName part := by
  induction parts generalizing dir with
  | nil =>
      obtain rfl := Option.some.inj h
      exact ⟨dir.length, [], by simp, by simp, List.nil_sublist _, by simp⟩
  | cons part parts ih =>
      rcases part_cases part with hp | rfl | hp
      · rw [follow_blank hp] at h
        obtain ⟨kept, down, rfl, hups, hsub, hdown⟩ := ih h
        refine ⟨kept, down, rfl, ?_, hsub.cons part, hdown⟩
        have hcount := List.count_le_count_cons (a := "..") (b := part) (l := parts)
        omega
      · have hne : dir ≠ [] := by
          rintro rfl
          simp [follow] at h
        rw [follow_up hne] at h
        obtain ⟨kept, down, rfl, hups, hsub, hdown⟩ := ih h
        refine ⟨min kept (dir.length - 1), down, ?_, ?_, hsub.cons "..", hdown⟩
        · rw [List.dropLast_eq_take, List.take_take]
        · rw [List.length_dropLast] at hups
          rw [List.count_cons_self]
          omega
      · rw [follow_name hp] at h
        obtain ⟨kept, down, rfl, hups, hsub, hdown⟩ := ih h
        -- the name itself is kept or climbed out of again
        refine ⟨kept, [part].take (kept - dir.length) ++ down, ?_, ?_, ?_, ?_⟩
        · rw [List.take_append, List.append_assoc]
        · have hcount := List.count_le_count_cons (a := "..") (b := part) (l := parts)
          rw [List.length_append] at hups
          omega
        · exact (List.take_sublist _ _).append hsub
        · intro q hq
          rcases List.mem_append.1 hq with hq | hq
          · obtain rfl := List.mem_singleton.1 (List.mem_of_mem_take hq)
            exact hp
          · exact hdown q hq

theorem follow_eq_some {parts dir d : List String} (h : follow dir parts = some d) :
    ∃ kept down, d = dir.take kept ++ down ∧ ∀ part ∈ down, part ∈ parts := by
  obtain ⟨kept, down, hd, -, hsub, -⟩ := follow_eq_append h
  exact ⟨kept, down, hd, fun part hpart => hsub.subset hpart⟩

/-- The segments of a resolved path are those that the walk led through. -/
theorem segments_joinSegments_follow {file specifier : String} {path : List String}
    (h : follow (directory file) (Text.segments specifier) = some path) (hne : path ≠ []) :
    Text.segments (Text.joinSegments path) = path := by
  refine Text.segments_joinSegments hne fun part hpart => ?_
  obtain ⟨kept, down, rfl, hdown⟩ := follow_eq_some h
  rcases List.mem_append.1 hpart with hpart | hpart
  · exact Text.no_slash_of_mem_segments (List.mem_of_mem_dropLast (List.mem_of_mem_take hpart))
  · exact Text.no_slash_of_mem_segments (hdown part hpart)

/-! ## Finding a relative specifier -/

theorem commonLength_le (as bs : List String) :
    commonLength as bs ≤ as.length ∧ commonLength as bs ≤ bs.length := by
  induction as generalizing bs with
  | nil => simp [commonLength]
  | cons a as ih =>
      cases bs with
      | nil => simp [commonLength]
      | cons b bs =>
          have hrest := ih bs
          rw [commonLength]
          split
          · simp only [List.length_cons]
            omega
          · simp

theorem take_commonLength (as bs : List String) :
    as.take (commonLength as bs) = bs.take (commonLength as bs) := by
  induction as generalizing bs with
  | nil => simp [commonLength]
  | cons a as ih =>
      cases bs with
      | nil => simp [commonLength]
      | cons b bs =>
          rw [commonLength]
          split
          · next hab => rw [List.take_succ_cons, List.take_succ_cons, ih bs, hab]
          · simp

/-- The segments that lead up from a directory by some levels. No level is written as `.`. -/
def climb (levels : Nat) : List String :=
  if levels = 0 then ["."] else List.replicate levels ".."

theorem eq_of_mem_climb {levels : Nat} {part : String} (h : part ∈ climb levels) :
    part = "." ∨ part = ".." := by
  unfold climb at h
  split at h
  · exact Or.inl (List.mem_singleton.1 h)
  · exact Or.inr (List.eq_of_mem_replicate h)

/-- The specifier that is found climbs to the last common directory and goes down from there. -/
theorem relativeTo_eq (file target : String) :
    let dir := directory file
    let path := (Text.segments target).filter (· ≠ "")
    let common := commonLength dir path
    relativeTo file target =
      Text.joinSegments (climb (dir.length - common) ++ path.drop common) := by
  intro dir path common
  have hle := (commonLength_le dir path).1
  unfold relativeTo climb
  by_cases hsame : dir.length = common
  · have hzero : dir.length - common = 0 := by omega
    rw [if_pos hsame, if_pos hzero]
    by_cases hrest : path.drop common = []
    · rw [if_pos hrest, hrest]
      rfl
    · rw [if_neg hrest]
      rfl
  · have hpos : dir.length - common ≠ 0 := by omega
    rw [if_neg hsame, if_neg hpos]

theorem follow_climb {levels : Nat} {dir : List String} (h : levels ≤ dir.length) :
    follow dir (climb levels) = some (dir.take (dir.length - levels)) := by
  unfold climb
  split
  · next hzero =>
      rw [follow_blank (by simp), hzero]
      simp [follow]
  · exact follow_replicate_up h

theorem isRelative_climb (levels : Nat) (names : List String) :
    isRelative (Text.joinSegments (climb levels ++ names)) = true := by
  cases levels with
  | zero => exact isRelative_joinSegments (Or.inl rfl) names
  | succ n =>
      have hclimb : climb (n + 1) = ".." :: List.replicate n ".." := by
        simp [climb, List.replicate_succ]
      rw [hclimb, List.cons_append]
      exact isRelative_joinSegments (Or.inr rfl) _

theorem isRelative_relativeTo (file target : String) :
    isRelative (relativeTo file target) = true := by
  rw [relativeTo_eq]
  exact isRelative_climb _ _

/-- The segments of the specifier that is found, as written. -/
theorem parts_relativeTo (file : String) {target : String} (hback : '\\' ∉ target.toList) :
    let dir := directory file
    let path := (Text.segments target).filter (· ≠ "")
    let common := commonLength dir path
    parts (relativeTo file target) = climb (dir.length - common) ++ path.drop common := by
  intro dir path common
  have hwritten : ∀ part ∈ climb (dir.length - common) ++ path.drop common,
      '/' ∉ part.toList ∧ '\\' ∉ part.toList := by
    intro part hpart
    rcases List.mem_append.1 hpart with hpart | hpart
    · rcases eq_of_mem_climb hpart with rfl | rfl <;> decide
    · have hmem := (List.mem_filter.1 (List.mem_of_mem_drop hpart)).1
      exact ⟨Text.no_slash_of_mem_segments hmem, Text.no_backslash_of_mem_segments hback hmem⟩
  have hne : climb (dir.length - common) ++ path.drop common ≠ [] := by
    unfold climb
    split <;> simp_all
  rw [relativeTo_eq, parts_joinSegments hne hwritten]

/-- The specifier that is found leads from the file to the target, less its empty segments. -/
theorem resolve?_relativeTo {file target : String} (hback : '\\' ∉ target.toList)
    (hnames : ∀ part ∈ Text.segments target, part ≠ "." ∧ part ≠ "..") :
    resolve? file (relativeTo file target) =
      some (Text.joinSegments ((Text.segments target).filter (· ≠ ""))) := by
  set dir := directory file with hdir
  set path := (Text.segments target).filter (· ≠ "") with hpath
  set common := commonLength dir path with hcommon
  have hname : ∀ part ∈ path, IsName part := by
    intro part hpart
    obtain ⟨hmem, hne⟩ := List.mem_filter.1 hpart
    exact ⟨by simpa using hne, hnames part hmem⟩
  have hle := (commonLength_le dir path).1
  have hup : dir.length - (dir.length - common) = common := by omega
  rw [resolve?, parts_relativeTo file hback, ← hdir, ← hpath, ← hcommon, follow_append,
    follow_climb (by omega), hup, Option.bind_some,
    follow_names fun part hpart => hname part (List.mem_of_mem_drop hpart), hcommon,
    take_commonLength, List.take_append_drop]
  rfl

/-! ## Plain paths -/

/-- A path of names only: no empty segments, no dot segments, no back slashes. -/
def IsPlain (path : String) : Prop :=
  ∀ part ∈ Text.segments path, IsName part ∧ '\\' ∉ part.toList

instance (path : String) : Decidable (IsPlain path) :=
  inferInstanceAs (Decidable (∀ part ∈ Text.segments path,
    (part ≠ "" ∧ part ≠ "." ∧ part ≠ "..") ∧ '\\' ∉ part.toList))

namespace IsPlain

variable {path : String}

theorem no_backslash (h : IsPlain path) : '\\' ∉ path.toList := by
  rw [← Text.joinSegments_segments path, Text.mem_joinSegments (by decide)]
  rintro ⟨part, hpart, hc⟩
  exact (h part hpart).2 hc

theorem filter_segments (h : IsPlain path) :
    (Text.segments path).filter (· ≠ "") = Text.segments path := by
  rw [List.filter_eq_self]
  intro part hpart
  simpa using (h part hpart).1.1

theorem isRelative_eq_false (h : IsPlain path) : isRelative path = false := by
  by_contra hrel
  rw [Bool.not_eq_false] at hrel
  obtain ⟨rest, hdot | hup⟩ := head_segments_of_isRelative hrel
  · exact (h "." (by simp [hdot])).1.2.1 rfl
  · exact (h ".." (by simp [hup])).1.2.2 rfl

theorem resolve?_relativeTo (h : IsPlain path) (file : String) :
    resolve? file (relativeTo file path) = some path := by
  rw [Specifier.resolve?_relativeTo h.no_backslash fun part hpart => (h part hpart).1.2,
    h.filter_segments, Text.joinSegments_segments]

end IsPlain

end Specifier

end SliceLint

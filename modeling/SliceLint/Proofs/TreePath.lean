import Mathlib.Data.List.DropRight
import SliceLint.Discovery
import SliceLint.Proofs.Path
import SliceLint.Proofs.PathFix

set_option autoImplicit false

/-! # Files below the source root

The search for files puts a root in front of each path, and `treePath` takes it off again. Both work
on texts: the search adds a slash unless the root ends with one, and `treePath` takes off one `./`,
the root less all slashes at its end, and one slash. These fit together for some spellings of a root
only, the *clean* ones. Below a clean root every file has its own path back (`treePath_of_isClean`).
Below any other root something is left in front of the path, an empty segment or a dot, and then no
file belongs to a slice and nothing is ever found (`Analyzer.check_below_root`). -/

namespace SliceLint

open Specifier (IsPlain)

/-! ## Slashes at the end -/

namespace Text

/-- So many slashes. -/
def slashes (n : Nat) : String :=
  String.ofList (List.replicate n '/')

theorem slashes_succ (n : Nat) : slashes (n + 1) = "/" ++ slashes n := by
  apply String.toList_injective
  simp [slashes, List.replicate_succ]

theorem slashes_succ_last (n : Nat) : slashes (n + 1) = slashes n ++ "/" := by
  apply String.toList_injective
  simp [slashes, List.replicate_succ']

theorem endsWith_slash_iff {s : String} : endsWith "/" s = true ↔ s.toList.getLast? = some '/' := by
  rw [endsWith_iff, List.getLast?_eq_some_iff]
  constructor
  · rintro ⟨front, rfl⟩
    exact ⟨front.toList, by simp⟩
  · rintro ⟨cs, hcs⟩
    exact ⟨String.ofList cs, String.toList_injective (by simpa using hcs)⟩

theorem exists_eq_append_slashes (s : String) :
    ∃ stem n, s = stem ++ slashes n ∧ endsWith "/" stem = false := by
  refine ⟨String.ofList (s.toList.rdropWhile (· == '/')), (s.toList.rtakeWhile (· == '/')).length,
    ?_, ?_⟩
  · have hall : s.toList.rtakeWhile (· == '/')
        = List.replicate (s.toList.rtakeWhile (· == '/')).length '/' :=
      List.eq_replicate_of_mem fun c hc => by simpa using List.mem_rtakeWhile_imp hc
    apply String.toList_injective
    rw [String.toList_append, slashes, ← hall]
    simp
  · rw [Bool.eq_false_iff, ne_eq, endsWith_slash_iff, String.toList_ofList]
    intro hlast
    obtain ⟨cs, hcs⟩ := List.getLast?_eq_some_iff.1 hlast
    have hne : s.toList.rdropWhile (· == '/') ≠ [] := by simp [hcs]
    exact List.rdropWhile_last_not _ _ hne (by simp [hcs])

theorem dropEndWhile_append_slashes {stem : String} (h : endsWith "/" stem = false) (n : Nat) :
    String.ofList (dropEndWhile (· == '/') (stem ++ slashes n).toList) = stem := by
  have hdrop : (stem ++ slashes n).toList.rdropWhile (· == '/') = stem.toList := by
    induction n with
    | zero =>
        have hzero : (stem ++ slashes 0).toList = stem.toList := by simp [slashes]
        rw [hzero, List.rdropWhile_eq_self_iff]
        intro hne hlast
        rw [Bool.eq_false_iff, ne_eq, endsWith_slash_iff, List.getLast?_eq_some_getLast hne] at h
        exact h (by simpa using hlast)
    | succ n ih =>
        have hsucc : (stem ++ slashes (n + 1)).toList = (stem ++ slashes n).toList ++ ['/'] := by
          rw [slashes_succ_last]
          simp
        rw [hsucc, List.rdropWhile_concat_pos _ _ _ (by simp), ih]
  rw [show dropEndWhile (· == '/') (stem ++ slashes n).toList = stem.toList from hdrop,
    String.ofList_toList]

end Text

open Text (slashes)

/-! ## What is taken off -/

/-- A path with slashes only, less one `./` in front of it. -/
def undotted (path : String) : String :=
  (Text.dropPrefix? "./" (Text.slashed path)).getD (Text.slashed path)

theorem treePath_some (file root : String) :
    treePath file (some root) =
      let stem := String.ofList (Text.dropEndWhile (· == '/') (undotted root).toList)
      if stem = "" ∨ stem = "." then undotted file
      else ((Text.dropPrefix? stem (undotted file)).bind (Text.dropPrefix? "/")).getD
        (undotted file) := rfl

theorem undotted_cases (path : String) :
    Text.slashed path = "./" ++ undotted path ∨ undotted path = Text.slashed path := by
  unfold undotted
  cases h : Text.dropPrefix? "./" (Text.slashed path) with
  | none => exact Or.inr rfl
  | some rest => exact Or.inl (Text.dropPrefix?_eq_some_iff.1 h)

theorem undotted_of_slashed {path rest : String} (h : Text.slashed path = "./" ++ rest) :
    undotted path = rest := by
  rw [undotted, Text.dropPrefix?_eq_some_iff.2 h, Option.getD_some]

theorem eq_dot_of_slashed {path : String} (h : Text.slashed path = ".") : path = "." := by
  have hmap : path.toList.map Text.slash = ['.'] := by
    rw [← String.toList_ofList (l := path.toList.map Text.slash)]
    exact congrArg String.toList h
  obtain ⟨c, hc, hdot⟩ := List.map_eq_singleton_iff.1 hmap
  have hcdot : c = '.' := by
    unfold Text.slash at hdot
    split at hdot
    · cases hdot
    · exact hdot
  exact String.toList_injective (by rw [hc, hcdot]; rfl)

/-- What follows a path is kept, unless the `./` to take off is completed only there. -/
theorem undotted_append {path : String} (hempty : path ≠ "") (hdot : path ≠ ".") (more : String) :
    undotted (path ++ more) = undotted path ++ Text.slashed more := by
  rcases undotted_cases path with hstart | hstart
  · refine undotted_of_slashed ?_
    rw [Text.slashed_append, hstart, String.append_assoc]
  · rcases undotted_cases (path ++ more) with hwhole | hwhole
    · rw [Text.slashed_append] at hwhole
      -- the dot and the slash both belong to the path, which is longer than a dot
      have hchars : (Text.slashed path).toList ++ (Text.slashed more).toList
          = '.' :: '/' :: (undotted (path ++ more)).toList := by
        have := congrArg String.toList hwhole
        simpa using this
      match hpath : (Text.slashed path).toList with
      | [] =>
          have hnil : path.toList = [] := by simpa [Text.slashed] using hpath
          exact absurd (String.toList_eq_nil_iff.1 hnil) hempty
      | [c] =>
          rw [hpath] at hchars
          obtain ⟨rfl, -⟩ := List.cons.inj hchars
          exact absurd (eq_dot_of_slashed (String.toList_injective (by simpa using hpath))) hdot
      | c :: d :: cs =>
          rw [hpath, List.cons_append, List.cons_append, List.cons.injEq, List.cons.injEq] at hchars
          obtain ⟨rfl, rfl, -⟩ := hchars
          have hdots : Text.slashed path = "./" ++ String.ofList cs := by
            apply String.toList_injective
            simpa using hpath
          rw [undotted_of_slashed hdots, hdots] at hstart
          have hlen := congrArg String.length hstart
          rw [String.length_append, show "./".length = 2 from rfl] at hlen
          omega
    · rw [hwhole, hstart, Text.slashed_append]

theorem undotted_of_isPlain {path : String} (h : IsPlain path) : undotted path = path := by
  have hslashed := Text.slashed_eq_self h.no_backslash
  rcases undotted_cases path with hdots | hself
  · rw [hslashed] at hdots
    have hrel : Specifier.isRelative path = true :=
      Specifier.isRelative_iff.2 (Or.inr (Or.inr (Or.inl ⟨_, hdots⟩)))
    rw [h.isRelative_eq_false] at hrel
    cases hrel
  · rw [hself, hslashed]

/-- Taking off a `./` leaves a slash at the end, or nothing. -/
theorem endsWith_undotted {path : String} (h : Text.endsWith "/" path = true) :
    undotted path = "" ∨ Text.endsWith "/" (undotted path) = true := by
  have hslashed : Text.endsWith "/" (Text.slashed path) = true := by
    obtain ⟨front, rfl⟩ := Text.endsWith_iff.1 h
    exact Text.endsWith_iff.2 ⟨Text.slashed front, by rw [Text.slashed_append]; rfl⟩
  rcases undotted_cases path with hdots | hself
  · by_cases hnil : undotted path = ""
    · exact Or.inl hnil
    · have hne : (undotted path).toList ≠ [] := by simpa using hnil
      rw [hdots, Text.endsWith_slash_iff, String.toList_append, List.getLast?_append_of_ne_nil _ hne]
        at hslashed
      exact Or.inr (Text.endsWith_slash_iff.2 hslashed)
  · rw [hself]
    exact Or.inr hslashed

/-! ## Clean roots -/

/-- The roots that are taken off as they were put on: the working directory, and every directory
whose text, less a `./` in front and a slash at the end, is neither empty nor a dot and does not end
with another slash. A back slash at the end counts as one slash too many. -/
def IsCleanRoot (root : String) : Prop :=
  root = "" ∨ root = "." ∨ root = "./" ∨
    ∃ stem, stem ≠ "" ∧ stem ≠ "." ∧ Text.endsWith "/" stem = false ∧
      (undotted root = stem ∨ Text.endsWith "/" root = true ∧ undotted root = stem ++ "/")

section Below

variable {root rel : String}

theorem isAbsolute_of_isPlain (h : IsPlain rel) : Path.isAbsolute rel = false := by
  by_contra habs
  rw [Bool.not_eq_false, Path.isAbsolute_iff_segments] at habs
  obtain ⟨rest, -, hsegs⟩ := habs
  exact (h "" (by simp [hsegs])).1.1 rfl

/-- With `n` slashes at the end of the root, `m` of them stand between the root and what is found
below it. -/
theorem treePath_join {stem : String} {n m : Nat} (hrel : IsPlain rel) (hempty : root ≠ "")
    (hdot : root ≠ ".") (hroot : undotted root = stem ++ slashes n)
    (hstem : Text.endsWith "/" stem = false)
    (hm : m = if Text.endsWith "/" root = true then n else n + 1) :
    treePath (Path.join root rel) (some root) =
      if stem = "" ∨ stem = "." then stem ++ slashes m ++ rel
      else ((Text.dropPrefix? "/" (slashes m ++ rel)).getD (stem ++ slashes m ++ rel)) := by
  have hslashed := Text.slashed_eq_self hrel.no_backslash
  have hjoined : undotted (Path.join root rel) = stem ++ slashes m ++ rel := by
    unfold Path.join
    rw [isAbsolute_of_isPlain hrel, hm]
    by_cases hend : Text.endsWith "/" root = true
    · simp [hempty, hend, undotted_append hempty hdot, hroot, hslashed]
    · have hslash : Text.slashed "/" = "/" := by decide
      simp [hempty, hend, String.append_assoc, undotted_append hempty hdot, hroot,
        Text.slashed_append, hslashed, hslash, Text.slashes_succ_last]
  rw [treePath_some, hjoined, hroot, Text.dropEndWhile_append_slashes hstem]
  have hdrop : Text.dropPrefix? stem (stem ++ slashes m ++ rel) = some (slashes m ++ rel) :=
    Text.dropPrefix?_eq_some_iff.2 (String.append_assoc ..)
  simp only [hdrop, Option.bind_some]

theorem treePath_of_isClean (hrel : IsPlain rel) (h : IsCleanRoot root) :
    treePath (Path.join root rel) (some root) = rel := by
  have hplain := undotted_of_isPlain hrel
  have hdotted : undotted ("./" ++ rel) = rel :=
    undotted_of_slashed (by rw [Text.slashed_append, Text.slashed_eq_self hrel.no_backslash]; rfl)
  have habs := isAbsolute_of_isPlain hrel
  rcases h with rfl | rfl | rfl | ⟨stem, hne, hdot, hend, hroot⟩
  · have hjoin : Path.join "" rel = rel := by simp [Path.join]
    rw [hjoin, treePath_some, hplain]
    rfl
  · have hend : Text.endsWith "/" "." = false := by decide
    have hjoin : Path.join "." rel = "./" ++ rel := by simp [Path.join, habs, hend]
    rw [hjoin, treePath_some, hdotted]
    rfl
  · have hend : Text.endsWith "/" "./" = true := by decide
    have hjoin : Path.join "./" rel = "./" ++ rel := by simp [Path.join, habs, hend]
    rw [hjoin, treePath_some, hdotted]
    rfl
  · have hempty : root ≠ "" := by
      rintro rfl
      rcases hroot with hroot | ⟨hslash, -⟩
      · exact hne hroot.symm
      · exact absurd hslash (by decide)
    have hroot' : root ≠ "." := by
      rintro rfl
      rcases hroot with hroot | ⟨hslash, -⟩
      · exact hdot hroot.symm
      · exact absurd hslash (by decide)
    obtain ⟨n, hn, hm⟩ : ∃ n, undotted root = stem ++ slashes n ∧
        1 = if Text.endsWith "/" root = true then n else n + 1 := by
      rcases hroot with hroot | ⟨hslash, hroot⟩
      · refine ⟨0, by simp [hroot, slashes], ?_⟩
        rw [if_neg]
        intro hslash
        rcases endsWith_undotted hslash with hnil | hslash
        · exact hne (hroot.symm.trans hnil)
        · rw [hroot, hend] at hslash
          cases hslash
      · exact ⟨1, hroot, by rw [if_pos hslash]⟩
    have hdrop : Text.dropPrefix? "/" (slashes 1 ++ rel) = some rel :=
      Text.dropPrefix?_eq_some_iff.2 rfl
    rw [treePath_join hrel hempty hroot' hn hend hm, if_neg (by simp [hne, hdot]), hdrop,
      Option.getD_some]

/-- A root with a slash at the end still has one after `./` is taken off, `./` itself apart. -/
theorem slashes_ne_zero {stem : String} {n : Nat} (hempty : root ≠ "") (hdots : root ≠ "./")
    (hslash : Text.endsWith "/" root = true) (hroot : undotted root = stem ++ slashes n)
    (hstem : Text.endsWith "/" stem = false) : n ≠ 0 := by
  rintro rfl
  have hself : undotted root = stem := by simpa [slashes] using hroot
  rcases endsWith_undotted hslash with hnil | hends
  · obtain ⟨front, rfl⟩ := Text.endsWith_iff.1 hslash
    have hlast : Text.slashed (front ++ "/") = Text.slashed front ++ "/" := by
      rw [Text.slashed_append]
      rfl
    rcases undotted_cases (front ++ "/") with hwhole | hwhole
    · rw [hnil, hlast, String.append_empty, show "./" = "." ++ "/" from rfl,
        String.append_left_inj] at hwhole
      exact hdots (by rw [eq_dot_of_slashed hwhole]; rfl)
    · rw [hnil, hlast] at hwhole
      have hlen := congrArg String.length hwhole
      rw [String.length_append, show "/".length = 1 from rfl] at hlen
      exact absurd hlen (by simp)
  · rw [hself, hstem] at hends
    cases hends

/-- Below a root that is not clean, an empty segment or a dot is left in front of every path. -/
theorem exists_treePath_of_not_isClean (hrel : IsPlain rel) (h : ¬ IsCleanRoot root) :
    ∃ part rest, (part = "" ∨ part = ".") ∧
      treePath (Path.join root rel) (some root) = part ++ "/" ++ rest := by
  have hempty : root ≠ "" := fun he => h (Or.inl he)
  have hdot : root ≠ "." := fun he => h (Or.inr (Or.inl he))
  have hdots : root ≠ "./" := fun he => h (Or.inr (Or.inr (Or.inl he)))
  obtain ⟨stem, n, hroot, hstem⟩ := Text.exists_eq_append_slashes (undotted root)
  obtain ⟨m, hm⟩ : ∃ m, m = if Text.endsWith "/" root = true then n else n + 1 := ⟨_, rfl⟩
  rw [treePath_join hrel hempty hdot hroot hstem hm]
  have hpos : m ≠ 0 := by
    rw [hm]
    split
    · next hslash => exact slashes_ne_zero hempty hdots hslash hroot hstem
    · exact Nat.succ_ne_zero n
  obtain ⟨k, rfl⟩ := Nat.exists_eq_succ_of_ne_zero hpos
  split
  · next hpart =>
      refine ⟨stem, slashes k ++ rel, hpart, ?_⟩
      rw [Text.slashes_succ]
      simp only [String.append_assoc]
  · next hpart =>
      rw [not_or] at hpart
      -- one slash would make the root clean, so at least one more is left
      have hmore : k ≠ 0 := by
        rintro rfl
        refine h (Or.inr (Or.inr (Or.inr ⟨stem, hpart.1, hpart.2, hstem, ?_⟩)))
        by_cases hslash : Text.endsWith "/" root = true
        · rw [if_pos hslash] at hm
          rw [← hm] at hroot
          exact Or.inr ⟨hslash, hroot⟩
        · rw [if_neg hslash] at hm
          obtain rfl : n = 0 := by omega
          exact Or.inl (by simpa [slashes] using hroot)
      obtain ⟨j, rfl⟩ := Nat.exists_eq_succ_of_ne_zero hmore
      have hdrop : Text.dropPrefix? "/" (slashes (j + 1 + 1) ++ rel) = some (slashes (j + 1) ++ rel) :=
        Text.dropPrefix?_eq_some_iff.2 (by rw [Text.slashes_succ, String.append_assoc])
      refine ⟨"", slashes j ++ rel, Or.inl rfl, ?_⟩
      rw [hdrop, Option.getD_some, Text.slashes_succ, String.empty_append, String.append_assoc]

end Below

/-! ## The search for files -/

theorem join_join (base : String) {name rest : String} (hname : name ≠ "")
    (hslash : '/' ∉ name.toList) (hrest : Path.isAbsolute rest = false) :
    Path.join (Path.join base name) rest = Path.join base (name ++ "/" ++ rest) := by
  have hrel : Path.isAbsolute name = false := by
    by_contra habs
    rw [Bool.not_eq_false, Path.isAbsolute_iff] at habs
    obtain ⟨q, rfl⟩ := habs
    exact hslash (by simp)
  obtain ⟨front, -, hfront⟩ := Path.exists_join_eq base
  rw [hfront name hrel, hfront (name ++ "/" ++ rest)]
  · have hne : name.toList ≠ [] := by simpa using hname
    have hend : Text.endsWith "/" (front ++ name) = false := by
      rw [Bool.eq_false_iff, ne_eq, Text.endsWith_slash_iff, String.toList_append,
        List.getLast?_append_of_ne_nil _ hne]
      exact fun hlast => hslash (List.mem_of_getLast? hlast)
    simp [Path.join, hrest, hname, hend, String.append_assoc]
  · rw [String.append_assoc, Path.isAbsolute_append hname, hrel]

/-- The search puts one name after the other behind the root, which is the same as their path. -/
theorem Discovery.pathOf_eq_join {names : List String} (hne : names ≠ [])
    (h : ∀ name ∈ names, name ≠ "" ∧ '/' ∉ name.toList) (base : String) :
    pathOf base names = Path.join base (Text.joinSegments names) := by
  induction names generalizing base with
  | nil => exact absurd rfl hne
  | cons name names ih =>
      by_cases hmore : names = []
      · subst hmore
        simp [pathOf, Text.joinSegments, Text.join]
      · have hbelow : ∀ other ∈ names, other ≠ "" ∧ '/' ∉ other.toList :=
          fun other hother => h other (by simp [hother])
        obtain ⟨hname, hslash⟩ := h name (by simp)
        have habs : Path.isAbsolute (Text.joinSegments names) = false := by
          by_contra habs
          rw [Bool.not_eq_false, Path.isAbsolute_iff_segments,
            Text.segments_joinSegments hmore fun other hother => (hbelow other hother).2] at habs
          obtain ⟨rest, -, hnames⟩ := habs
          exact (hbelow "" (by simp [hnames])).1 rfl
        have hrest := ih hmore hbelow (Path.join base name)
        rw [pathOf] at hrest
        rw [pathOf, List.foldl_cons, hrest, join_join base hname hslash habs,
          Text.joinSegments_cons _ hmore]

theorem Discovery.pathOf_segments (root : String) {rel : String} (h : IsPlain rel) :
    pathOf root (Text.segments rel) = Path.join root rel := by
  rw [pathOf_eq_join (Text.segments_ne_nil rel), Text.joinSegments_segments]
  exact fun name hname => ⟨(h name hname).1.1, Text.no_slash_of_mem_segments hname⟩

/-! ## The slices of the files -/

theorem Slice.classify?_eq_none_of_head {part rest : String} (h : part = "" ∨ part = ".") :
    classify? (part ++ "/" ++ rest) = none := by
  have hpart : Text.segments part = [part] := by
    rcases h with rfl | rfl <;> decide
  rw [Option.eq_none_iff_forall_ne_some]
  intro s hs
  obtain ⟨-, more, hsegs⟩ := classify?_eq_some_iff.1 hs
  rw [Text.segments_append_slash, hpart, List.singleton_append, List.cons.injEq] at hsegs
  have hname : s.layer.name ≠ "" ∧ s.layer.name ≠ "." := by cases s.layer <;> decide
  rcases h with rfl | rfl
  · exact hname.1 hsegs.1.symm
  · exact hname.2 hsegs.1.symm

namespace Analyzer

/-- Where the importing file has no slice, no rule finds anything. -/
theorem check_of_no_source {w : Workspace} {a : Analyzer} {file specifier : String}
    (h : (a.classify w file specifier).1.source = none) :
    (a.check w file specifier).1.findings = [] := by
  rw [check_findings rfl]
  refine judge_eq_nil a (fun b => Edge.classify?_target_of_dest rfl) fun kind d hviolates => ?_
  cases hviolates <;> simp_all

/-- The files that are searched for below a root get their paths from the root on back exactly if
the root is clean, and their slices are then those of these paths. Below any other root, no file has
a slice and nothing is found about its imports, whatever the rules. -/
theorem check_below_root (project configured rel : String) (hrel : IsPlain rel) :
    let root := Path.join project configured
    let file := Path.join root rel
    Discovery.pathOf root (Text.segments rel) = file ∧
      (treePath file (some root) = rel ↔ IsCleanRoot root) ∧
      ∀ (w : Workspace) (a : Analyzer) (specifier : String), a.root = some root →
        (IsCleanRoot root →
          (a.classify w file specifier).1.source = Slice.classify? rel) ∧
        (¬ IsCleanRoot root →
          (a.classify w file specifier).1.source = none ∧
            (a.check w file specifier).1.findings = []) := by
  intro root file
  have hclean : IsCleanRoot root → treePath file (some root) = rel := treePath_of_isClean hrel
  have hsource : ∀ (w : Workspace) (a : Analyzer) (specifier : String), a.root = some root →
      (a.classify w file specifier).1.source
        = Slice.classify? (Text.slashed (treePath file (some root))) := by
    intro w a specifier hroot
    rw [← hroot]
    exact Edge.classify_source _ _ _
  refine ⟨Discovery.pathOf_segments root hrel, ⟨fun hpath => ?_, hclean⟩,
    fun w a specifier hroot => ⟨fun h => ?_, fun h => ?_⟩⟩
  · by_contra h
    obtain ⟨part, rest, hpart, hleft⟩ := exists_treePath_of_not_isClean hrel h
    have hmem : part ∈ Text.segments rel := by
      have hsegs : Text.segments part = [part] := by
        rcases hpart with rfl | rfl <;> decide +kernel
      rw [← hpath, hleft, Text.segments_append_slash, hsegs]
      simp
    obtain ⟨hempty, hdot, -⟩ := (hrel part hmem).1
    exact hpart.elim hempty hdot
  · rw [hsource w a specifier hroot, hclean h, Text.slashed_eq_self hrel.no_backslash]
  · obtain ⟨part, rest, hpart, hleft⟩ := exists_treePath_of_not_isClean hrel h
    have hslashed : Text.slashed (part ++ "/" ++ rest) = part ++ "/" ++ Text.slashed rest := by
      have hfront : Text.slashed (part ++ "/") = part ++ "/" := by
        rcases hpart with rfl | rfl <;> decide +kernel
      rw [Text.slashed_append, hfront]
    have hnone : (a.classify w file specifier).1.source = none := by
      rw [hsource w a specifier hroot, hleft, hslashed, Slice.classify?_eq_none_of_head hpart]
    exact ⟨hnone, check_of_no_source hnone⟩

/-- A root that is reached through a dot and has a slash at its end. -/
theorem check_below_root_slash :
    let root := Path.join "./app" "src/"
    IsPlain "entities/user/model.ts" ∧ IsCleanRoot root ∧
      treePath (Path.join root "entities/user/model.ts") (some root) = "entities/user/model.ts" := by
  intro root
  have hplain : IsPlain "entities/user/model.ts" := by decide +kernel
  have hclean : IsCleanRoot root :=
    Or.inr (Or.inr (Or.inr ⟨"app/src", by decide +kernel⟩))
  have hbelow := check_below_root "./app" "src/" "entities/user/model.ts" hplain
  exact ⟨hplain, hclean, hbelow.2.1.2 hclean⟩

/-- The working directory reached from itself, the root of the file system, and a root with two
slashes at its end are not taken off. -/
theorem treePath_keeps_root :
    let rel := "entities/user/model.ts"
    let found := fun project configured =>
      treePath (Path.join (Path.join project configured) rel) (some (Path.join project configured))
    IsPlain rel ∧ found "." "." = "./" ++ rel ∧ found "/" "" = "/" ++ rel ∧
      found "" "src//" = "/" ++ rel ∧ (Slice.classify? rel).isSome = true ∧
      Slice.classify? ("./" ++ rel) = none ∧ Slice.classify? ("/" ++ rel) = none := by
  decide +kernel

end Analyzer

end SliceLint

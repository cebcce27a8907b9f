import Mathlib.Data.List.TakeWhile
import SliceLint.Path
import SliceLint.Proofs.Text

set_option autoImplicit false

/-! # Paths next to a path

What a path from the directory of a file looks like: its segments are those of the file's path up to
the last, blank ones at the end left out, followed by its own (`join_directory`). -/

namespace SliceLint

namespace Path

/-! ## Blank segments -/

theorem segmentComponent?_eq_none_iff {s : String} :
    segmentComponent? s = none ↔ s = "" ∨ s = "." := by
  unfold segmentComponent?
  split
  · next h => simp [h]
  · next h => split <;> simp [h]

/-- Only blank segments are dropped at the end. -/
theorem dropEmptyEnd_append (xs : List String) :
    ∃ blanks, xs = dropEmptyEnd xs ++ blanks ∧ ∀ b ∈ blanks, segmentComponent? b = none := by
  refine ⟨(xs.reverse.takeWhile fun s => segmentComponent? s = none).reverse, ?_, fun b hb => ?_⟩
  · rw [dropEmptyEnd, ← List.reverse_append, List.takeWhile_append_dropWhile, List.reverse_reverse]
  · simpa using List.mem_takeWhile_imp (List.mem_reverse.1 hb)

theorem dropEmptyEnd_concat (xs : List String) {y : String} (hy : segmentComponent? y ≠ none) :
    dropEmptyEnd (xs ++ [y]) = xs ++ [y] := by
  simp [dropEmptyEnd, hy]

theorem ne_none_of_dropEmptyEnd {xs ys : List String} {y : String}
    (h : dropEmptyEnd xs = ys ++ [y]) : segmentComponent? y ≠ none := by
  unfold dropEmptyEnd at h
  rw [List.reverse_eq_iff, List.reverse_append, List.reverse_singleton, List.singleton_append] at h
  have hhead := List.head?_dropWhile_not (fun s => decide (segmentComponent? s = none)) xs.reverse
  rw [h] at hhead
  simpa using hhead

theorem dropEmptyEnd_cases (xs : List String) :
    dropEmptyEnd xs = [] ∨ ∃ ys y, dropEmptyEnd xs = ys ++ [y] ∧ y ≠ "" := by
  rcases List.eq_nil_or_concat' (dropEmptyEnd xs) with h | ⟨ys, y, h⟩
  · exact Or.inl h
  · refine Or.inr ⟨ys, y, h, fun hy => ?_⟩
    exact ne_none_of_dropEmptyEnd h (segmentComponent?_eq_none_iff.2 (Or.inl hy))

/-! ## Joining -/

theorem isAbsolute_iff {p : String} : isAbsolute p = true ↔ ∃ q, p = "/" ++ q := by
  rw [isAbsolute, Text.startsWith_iff]

theorem isAbsolute_append {p : String} (hp : p ≠ "") (q : String) :
    isAbsolute (p ++ q) = isAbsolute p := by
  have hne : p.toList ≠ [] := by simpa using hp
  obtain ⟨c, cs, hcs⟩ := List.exists_cons_of_ne_nil hne
  simp [isAbsolute, Text.startsWith, hcs, List.isPrefixOf]

/-- A path is joined by a slash where the last segment of the directory is not empty. -/
theorem join_of_last {base rel last : String} {init : List String}
    (hbase : Text.segments base = init ++ [last]) (hlast : last ≠ "")
    (hrel : isAbsolute rel = false) : join base rel = base ++ "/" ++ rel := by
  have hend : ∀ s, Text.segments base ≠ s ++ [""] := by
    intro s hs
    rw [hbase] at hs
    exact hlast (List.singleton_inj.1 (List.append_inj' hs rfl).2)
  have hne : base ≠ "" := by
    rintro rfl
    exact hend [] rfl
  have hslash : Text.endsWith "/" base = false := by
    by_contra hends
    rw [Bool.not_eq_false, Text.endsWith_iff] at hends
    obtain ⟨front, rfl⟩ := hends
    have hsegs := Text.segments_append_slash front ""
    rw [String.append_empty] at hsegs
    exact hend (Text.segments front) hsegs
  simp [join, hrel, hne, hslash]

/-- A directory is put in front of a relative path as a text, which ends with a slash unless the
directory is empty. -/
theorem exists_join_eq (base : String) :
    ∃ front, (front = "" ∨ Text.endsWith "/" front = true) ∧
      ∀ rel, isAbsolute rel = false → join base rel = front ++ rel := by
  by_cases hempty : base = ""
  · exact ⟨"", Or.inl rfl, fun rel hrel => by simp [join, hrel, hempty]⟩
  · by_cases hslash : Text.endsWith "/" base = true
    · exact ⟨base, Or.inr hslash, fun rel hrel => by simp [join, hrel, hempty, hslash]⟩
    · exact ⟨base ++ "/", Or.inr (Text.endsWith_iff.2 ⟨base, rfl⟩),
        fun rel hrel => by simp [join, hrel, hempty, hslash]⟩

/-- An absolute path has an empty segment in front of others. -/
theorem isAbsolute_iff_segments {p : String} :
    isAbsolute p = true ↔ ∃ rest, rest ≠ [] ∧ Text.segments p = "" :: rest := by
  rw [isAbsolute_iff]
  constructor
  · rintro ⟨q, rfl⟩
    exact ⟨Text.segments q, Text.segments_ne_nil q, Text.segments_slash_append q⟩
  · rintro ⟨rest, hne, hsegs⟩
    refine ⟨Text.joinSegments rest, ?_⟩
    rw [← Text.joinSegments_segments p, hsegs, Text.joinSegments_cons _ hne, String.empty_append]

/-! ## The directory of a file -/

section Directory

variable {init : List String} {last : String}

theorem parent?_of_body {p : String} (h : body p = init ++ [last]) :
    (parent? p).getD "" = lead p ++ Text.joinSegments (dropEmptyEnd init) := by
  unfold parent?
  rw [h]
  split
  · next hnil => simp at hnil
  · simp

theorem directory_absolute {q : String} (hsegs : Text.segments q = init ++ [last])
    (hlast : segmentComponent? last ≠ none) :
    (parent? ("/" ++ q)).getD "" = "/" ++ Text.joinSegments (dropEmptyEnd init) := by
  have hlead : lead ("/" ++ q) = "/" := by simp [lead, isAbsolute_iff.2 ⟨q, rfl⟩]
  have hbody : body ("/" ++ q) = init ++ [last] := by
    have hdrop : String.ofList (("/" ++ q).toList.drop "/".length) = q := by
      apply String.toList_injective
      simp [show "/".length = 1 from rfl]
    rw [body, hlead, hdrop, hsegs, dropEmptyEnd_concat init hlast]
  rw [parent?_of_body hbody, hlead]

theorem directory_current {q : String} (hsegs : Text.segments q = init ++ [last])
    (hlast : segmentComponent? last ≠ none) :
    (parent? ("./" ++ q)).getD "" = "." ++ Text.joinSegments (dropEmptyEnd ("" :: init)) := by
  have hwhole := Text.segments_dot_slash_append q
  have habs : isAbsolute ("./" ++ q) = false := by
    rw [isAbsolute_append (by decide)]
    decide
  have hlead : lead ("./" ++ q) = "." := by simp [lead, habs, hwhole]
  -- only the dot is taken off, and the slash behind it leaves an empty segment
  have hbody : body ("./" ++ q) = ("" :: init) ++ [last] := by
    have hdrop : String.ofList (("./" ++ q).toList.drop ".".length) = "/" ++ q := by
      apply String.toList_injective
      simp [show ".".length = 1 from rfl]
    rw [body, hlead, hdrop, Text.segments_slash_append, hsegs, ← List.cons_append,
      dropEmptyEnd_concat _ hlast]
  rw [parent?_of_body hbody, hlead]

theorem directory_plain {p : String} (habs : isAbsolute p = false)
    (hhead : (Text.segments p).head? ≠ some ".") (hsegs : Text.segments p = init ++ [last])
    (hlast : segmentComponent? last ≠ none) :
    (parent? p).getD "" = Text.joinSegments (dropEmptyEnd init) := by
  have hlead : lead p = "" := by simp [lead, habs, hhead]
  have hbody : body p = init ++ [last] := by
    rw [body, hlead]
    simp [hsegs, dropEmptyEnd_concat init hlast]
  rw [parent?_of_body hbody, hlead, String.empty_append]

end Directory

/-- A joined path goes through the segments `init` of a directory, of which only blank ones at the
end are left out, and then through those of `rel`. -/
def ContinuesFrom (init : List String) (rel joined : String) : Prop :=
  ∃ kept blanks, init = kept ++ blanks ∧ (∀ b ∈ blanks, segmentComponent? b = none) ∧
    Text.segments joined = kept ++ Text.segments rel

section Continue

variable {init : List String} {last rel : String}

/-- Blank segments are dropped, and what is left is joined as it is. -/
theorem segments_dropEmptyEnd (hslash : ∀ part ∈ init, '/' ∉ part.toList)
    (hne : dropEmptyEnd init ≠ []) :
    Text.segments (Text.joinSegments (dropEmptyEnd init)) = dropEmptyEnd init := by
  refine Text.segments_joinSegments hne fun part hpart => hslash part ?_
  obtain ⟨blanks, hinit, -⟩ := dropEmptyEnd_append init
  rw [hinit]
  exact List.mem_append_left blanks hpart

theorem continuesFrom_of_last {base : String} {kept blanks : List String}
    (hinit : init = kept ++ blanks) (hblanks : ∀ b ∈ blanks, segmentComponent? b = none)
    (hbase : Text.segments base = kept) (hkept : ∃ ys y, kept = ys ++ [y] ∧ y ≠ "")
    (hrel : isAbsolute rel = false) :
    isAbsolute (join base rel) = isAbsolute base ∧ ContinuesFrom init rel (join base rel) := by
  obtain ⟨ys, y, hys, hy⟩ := hkept
  have hne : base ≠ "" := by
    rintro rfl
    rw [hys, show Text.segments "" = [] ++ [""] from rfl] at hbase
    exact hy (List.singleton_inj.1 (List.append_inj' hbase rfl).2).symm
  rw [join_of_last (hbase.trans hys) hy hrel]
  refine ⟨?_, kept, blanks, hinit, hblanks, ?_⟩
  · rw [String.append_assoc, isAbsolute_append hne]
  · rw [Text.segments_append_slash, hbase]

theorem join_directory_absolute {q : String} (hsegs : Text.segments q = init ++ [last])
    (hlast : segmentComponent? last ≠ none) (hrel : isAbsolute rel = false) :
    isAbsolute (join ((parent? ("/" ++ q)).getD "") rel) = true ∧
      ContinuesFrom ("" :: init) rel (join ((parent? ("/" ++ q)).getD "") rel) := by
  have hslash : ∀ part ∈ init, '/' ∉ part.toList := fun part hpart =>
    Text.no_slash_of_mem_segments (s := q) (by simp [hsegs, hpart])
  rw [directory_absolute hsegs hlast]
  obtain ⟨blanks, hinit, hblanks⟩ := dropEmptyEnd_append init
  rcases dropEmptyEnd_cases init with hnil | ⟨ys, y, hys, hy⟩
  · have hroot : "/" ++ Text.joinSegments (dropEmptyEnd init) = "/" := by
      rw [hnil]
      rfl
    have hjoin : join "/" rel = "/" ++ rel := by
      have hend : Text.endsWith "/" "/" = true := by decide
      simp [join, hrel, hend]
    rw [hroot, hjoin]
    refine ⟨isAbsolute_iff.2 ⟨rel, rfl⟩, [""], init, rfl, ?_, Text.segments_slash_append rel⟩
    rw [hnil, List.nil_append] at hinit
    rwa [hinit]
  · have hbase : Text.segments ("/" ++ Text.joinSegments (dropEmptyEnd init))
        = "" :: dropEmptyEnd init := by
      rw [Text.segments_slash_append, segments_dropEmptyEnd hslash (by simp [hys])]
    have hcons : "" :: init = ("" :: dropEmptyEnd init) ++ blanks := by
      rw [List.cons_append, ← hinit]
    obtain ⟨habs, hcontinues⟩ :=
      continuesFrom_of_last hcons hblanks hbase ⟨"" :: ys, y, by simp [hys], hy⟩ hrel
    exact ⟨habs.trans (isAbsolute_iff.2 ⟨_, rfl⟩), hcontinues⟩

theorem join_directory_current {q : String} (hsegs : Text.segments q = init ++ [last])
    (hlast : segmentComponent? last ≠ none) (hrel : isAbsolute rel = false) :
    isAbsolute (join ((parent? ("./" ++ q)).getD "") rel) = false ∧
      ContinuesFrom ("." :: init) rel (join ((parent? ("./" ++ q)).getD "") rel) := by
  have hslash : ∀ part ∈ init, '/' ∉ part.toList := fun part hpart =>
    Text.no_slash_of_mem_segments (s := q) (by simp [hsegs, hpart])
  have hdot : Text.segments "." = ["."] := by decide
  have habs : ∀ t, isAbsolute ("." ++ t) = false := by
    intro t
    rw [isAbsolute_append (by decide)]
    decide
  rw [directory_current hsegs hlast]
  obtain ⟨blanks, hinit, hblanks⟩ := dropEmptyEnd_append ("" :: init)
  rcases dropEmptyEnd_cases ("" :: init) with hnil | ⟨ys, y, hys, hy⟩
  · have hroot : "." ++ Text.joinSegments (dropEmptyEnd ("" :: init)) = "." := by
      rw [hnil]
      rfl
    rw [hnil, List.nil_append] at hinit
    have hall : ∀ b ∈ init, segmentComponent? b = none := fun b hb =>
      hblanks b (by rw [← hinit]; exact List.mem_cons_of_mem "" hb)
    rw [hroot]
    have hcons : "." :: init = ["."] ++ init := rfl
    obtain ⟨hsame, hcontinues⟩ :=
      continuesFrom_of_last hcons hall hdot ⟨[], ".", rfl, by decide⟩ hrel
    exact ⟨hsame.trans (habs ""), hcontinues⟩
  · -- the empty segment in front is the slash after the dot
    rw [hys] at hinit
    cases ys with
    | nil =>
        obtain ⟨h, -⟩ := List.cons.inj hinit
        exact absurd h.symm hy
    | cons empty ys =>
        obtain ⟨rfl, hrest⟩ := List.cons.inj hinit
        have hne : ys ++ [y] ≠ [] := by simp
        have hbase : Text.segments ("." ++ Text.joinSegments (dropEmptyEnd ("" :: init)))
            = "." :: (ys ++ [y]) := by
          rw [hys, List.cons_append, Text.joinSegments_cons _ hne, String.empty_append,
            ← String.append_assoc, Text.segments_append_slash, hdot, Text.segments_joinSegments hne]
          · rfl
          · intro part hpart
            exact hslash part (by rw [hrest]; exact List.mem_append_left blanks hpart)
        have hcons : "." :: init = ("." :: (ys ++ [y])) ++ blanks := by
          rw [hrest]
          rfl
        obtain ⟨hsame, hcontinues⟩ :=
          continuesFrom_of_last hcons hblanks hbase ⟨"." :: ys, y, rfl, hy⟩ hrel
        exact ⟨hsame.trans (habs _), hcontinues⟩

theorem join_directory_plain {p : String} (habs : isAbsolute p = false)
    (hhead : (Text.segments p).head? ≠ some ".") (hsegs : Text.segments p = init ++ [last])
    (hlast : segmentComponent? last ≠ none) (hrel : isAbsolute rel = false) :
    isAbsolute (join ((parent? p).getD "") rel) = false ∧
      ContinuesFrom init rel (join ((parent? p).getD "") rel) := by
  have hslash : ∀ part ∈ init, '/' ∉ part.toList := fun part hpart =>
    Text.no_slash_of_mem_segments (s := p) (by simp [hsegs, hpart])
  rw [directory_plain habs hhead hsegs hlast]
  obtain ⟨blanks, hinit, hblanks⟩ := dropEmptyEnd_append init
  rcases dropEmptyEnd_cases init with hnil | ⟨ys, y, hys, hy⟩
  · have hjoin : join (Text.joinSegments (dropEmptyEnd init)) rel = rel := by
      rw [hnil]
      simp [join, Text.joinSegments, Text.join]
    rw [hjoin]
    rw [hnil] at hinit
    exact ⟨hrel, [], blanks, hinit, hblanks, rfl⟩
  · have hbase := segments_dropEmptyEnd hslash (by simp [hys])
    obtain ⟨hsame, hcontinues⟩ := continuesFrom_of_last hinit hblanks hbase ⟨ys, y, hys, hy⟩ hrel
    refine ⟨hsame.trans ?_, hcontinues⟩
    -- the first segment is that of the file, which is not empty
    by_contra hroot
    rw [Bool.not_eq_false, isAbsolute_iff_segments, hbase] at hroot
    obtain ⟨rest, -, hrest⟩ := hroot
    rw [hrest] at hinit
    have hfile : isAbsolute p = true := by
      refine isAbsolute_iff_segments.2 ⟨rest ++ blanks ++ [last], by simp, ?_⟩
      rw [hsegs, hinit]
      rfl
    rw [habs] at hfile
    cases hfile

/-- The segments of a path that is taken from the directory of a file: those of the directory, less
blank ones at the end, and then its own. -/
theorem join_directory {p : String} (hsegs : Text.segments p = init ++ [last])
    (hlast : segmentComponent? last ≠ none) (hrel : isAbsolute rel = false) :
    isAbsolute (join ((parent? p).getD "") rel) = isAbsolute p ∧
      ContinuesFrom init rel (join ((parent? p).getD "") rel) := by
  by_cases habs : isAbsolute p = true
  · obtain ⟨q, rfl⟩ := isAbsolute_iff.1 habs
    rw [Text.segments_slash_append] at hsegs
    cases init with
    | nil => exact absurd hsegs.symm (by simp [Text.segments_ne_nil])
    | cons x init =>
        obtain ⟨rfl, hq⟩ := List.cons.inj hsegs
        rw [habs]
        exact join_directory_absolute hq hlast hrel
  · rw [Bool.not_eq_true] at habs
    rw [habs]
    by_cases hhead : (Text.segments p).head? = some "."
    · rw [hsegs] at hhead
      cases init with
      | nil => exact absurd (by simpa using hhead) (by rintro rfl; exact hlast rfl)
      | cons x init =>
          obtain rfl : x = "." := by simpa using hhead
          have hp : p = "./" ++ Text.joinSegments (init ++ [last]) := by
            rw [← Text.joinSegments_segments p, hsegs, List.cons_append,
              Text.joinSegments_cons _ (by simp), show ("." ++ "/" : String) = "./" from rfl]
          have hq : Text.segments (Text.joinSegments (init ++ [last])) = init ++ [last] := by
            refine Text.segments_joinSegments (by simp) fun part hpart => ?_
            exact Text.no_slash_of_mem_segments (s := p)
              (by rw [hsegs]; exact List.mem_cons_of_mem "." hpart)
          rw [hp]
          exact join_directory_current hq hlast hrel
    · exact join_directory_plain habs hhead hsegs hlast hrel

end Continue

end Path

end SliceLint

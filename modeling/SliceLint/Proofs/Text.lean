import Mathlib.Data.List.Basic
import Mathlib.Data.List.Infix
import SliceLint.Text

set_option autoImplicit false

/-! # Segments of texts

How `Text.segments` sees a text that was put together: a slash between two texts divides their
segments, and without one the last segment of the first text grows into the first segment of the
second. Segments have no slashes, so joining and dividing are inverse in both directions. -/

namespace SliceLint

namespace Text

/-! ## Splitting lists of characters -/

theorem split_of_no_sep (sep : Char → Bool) (cs : List Char) (h : ∀ c ∈ cs, sep c = false) :
    split sep cs = [cs] := by
  induction cs with
  | nil => rfl
  | cons c cs ih =>
      have hc : sep c = false := h c (by simp)
      have hcs : split sep cs = [cs] := ih fun d hd => h d (by simp [hd])
      simp [split, hc, hcs]

/-- A separator divides the parts of what stands on both sides of it. -/
theorem split_append_cons (sep : Char → Bool) (xs ys : List Char) (c : Char) (hc : sep c = true) :
    split sep (xs ++ c :: ys) = split sep xs ++ split sep ys := by
  induction xs with
  | nil => simp [split, hc]
  | cons x xs ih =>
      rw [List.cons_append, split, split, ih]
      by_cases hx : sep x = true
      · simp [hx]
      · have hne := split_ne_nil sep xs
        cases hs : split sep xs with
        | nil => exact absurd hs hne
        | cons part parts => simp [hx]

/-- Where no separator stands between two texts, two of their parts grow together. -/
theorem split_append (sep : Char → Bool) (xs ys : List Char) :
    ∃ init last first tail, split sep xs = init ++ [last] ∧ split sep ys = first :: tail ∧
      split sep (xs ++ ys) = init ++ (last ++ first) :: tail := by
  induction xs with
  | nil =>
      cases hs : split sep ys with
      | nil => exact absurd hs (split_ne_nil sep ys)
      | cons first tail => exact ⟨[], [], first, tail, rfl, rfl, by simp [hs]⟩
  | cons x xs ih =>
      obtain ⟨init, last, first, tail, hxs, hys, happ⟩ := ih
      rw [List.cons_append, split, split, hxs, happ]
      by_cases hx : sep x = true
      · exact ⟨[] :: init, last, first, tail, by simp [hx], hys, by simp [hx]⟩
      · cases init with
        | nil => exact ⟨[], x :: last, first, tail, by simp [hx], hys, by simp [hx]⟩
        | cons part parts =>
            exact ⟨(x :: part) :: parts, last, first, tail, by simp [hx], hys, by simp [hx]⟩

theorem not_sep_of_mem_split (sep : Char → Bool) (cs : List Char) :
    ∀ part ∈ split sep cs, ∀ c ∈ part, sep c = false := by
  induction cs with
  | nil =>
      intro part hpart c hc
      simp only [split, List.mem_singleton] at hpart
      subst hpart
      cases hc
  | cons d cs ih =>
      intro part hpart c hc
      rw [split] at hpart
      by_cases hd : sep d = true
      · rw [if_pos hd, List.mem_cons] at hpart
        rcases hpart with rfl | hpart
        · cases hc
        · exact ih part hpart c hc
      · rw [if_neg hd] at hpart
        cases hs : split sep cs with
        | nil => exact absurd hs (split_ne_nil sep cs)
        | cons first parts =>
            rw [hs] at hpart ih
            rcases List.mem_cons.1 hpart with rfl | hpart
            · rcases List.mem_cons.1 hc with rfl | hc
              · simpa using hd
              · exact ih first (by simp) c hc
            · exact ih part (by simp [hpart]) c hc

theorem split_join (sep : Char) (parts : List (List Char)) (hne : parts ≠ [])
    (h : ∀ part ∈ parts, ∀ c ∈ part, (c == sep) = false) :
    split (· == sep) (join sep parts) = parts := by
  induction parts with
  | nil => exact absurd rfl hne
  | cons part parts ih =>
      have hpart : split (· == sep) part = [part] :=
        split_of_no_sep _ part (h part (by simp))
      cases parts with
      | nil => simpa [join] using hpart
      | cons next parts =>
          have hrest := ih (by simp) fun q hq => h q (by simp [hq])
          rw [join, split_append_cons _ part _ sep (by simp), hpart, hrest]
          rfl

/-- Replacing separators before splitting is splitting at what is replaced. -/
theorem split_map (sep sep' : Char → Bool) (f : Char → Char) (hsep : ∀ c, sep (f c) = sep' c)
    (hf : ∀ c, sep' c = false → f c = c) (cs : List Char) :
    split sep (cs.map f) = split sep' cs := by
  induction cs with
  | nil => rfl
  | cons c cs ih =>
      rw [List.map_cons, split, split, ih, hsep]
      by_cases hc : sep' c = true
      · rw [if_pos hc, if_pos hc]
      · rw [if_neg hc, if_neg hc, hf c (by simpa using hc)]

/-! ## Segments -/

theorem segments_ne_nil (s : String) : segments s ≠ [] := by
  simp [segments, split_ne_nil]

/-- A segment has no slash in it. -/
theorem no_slash_of_mem_segments {s part : String} (h : part ∈ segments s) :
    '/' ∉ part.toList := by
  obtain ⟨cs, hcs, rfl⟩ := List.mem_map.1 h
  intro hc
  have := not_sep_of_mem_split _ _ cs hcs '/' (by simpa using hc)
  simp at this

theorem segments_of_no_slash {s : String} (h : '/' ∉ s.toList) : segments s = [s] := by
  have hs : split (· == '/') s.toList = [s.toList] := by
    refine split_of_no_sep _ _ fun c hc => ?_
    have hne : c ≠ '/' := fun he => h (he ▸ hc)
    simpa using hne
  simp [segments, hs]

/-- The text of some slash-free segments has these segments. -/
theorem segments_joinSegments {parts : List String} (hne : parts ≠ [])
    (h : ∀ part ∈ parts, '/' ∉ part.toList) : segments (joinSegments parts) = parts := by
  have hs : split (· == '/') (join '/' (parts.map String.toList)) = parts.map String.toList := by
    refine split_join '/' _ (by simpa using hne) fun cs hcs c hc => ?_
    obtain ⟨part, hpart, rfl⟩ := List.mem_map.1 hcs
    have hne : c ≠ '/' := fun he => h part hpart (he ▸ hc)
    simpa using hne
  simp [segments, joinSegments, hs, Function.comp_def]

/-- A slash divides the segments on both sides of it. -/
theorem segments_append_slash (s t : String) :
    segments (s ++ "/" ++ t) = segments s ++ segments t := by
  have hs : (s ++ "/" ++ t).toList = s.toList ++ '/' :: t.toList := by simp
  rw [segments, hs, split_append_cons _ _ _ _ (by simp), List.map_append]
  rfl

/-- The segments behind a first segment that is written out with its slash. -/
theorem segments_of_lead {lead part : String} (hlead : part ++ "/" = lead)
    (hpart : segments part = [part]) (s : String) : segments (lead ++ s) = part :: segments s := by
  rw [← hlead, segments_append_slash, hpart]
  rfl

theorem segments_slash_append (s : String) : segments ("/" ++ s) = "" :: segments s :=
  segments_of_lead (by decide) (by decide) s

theorem segments_dot_slash_append (s : String) : segments ("./" ++ s) = "." :: segments s :=
  segments_of_lead (by decide) (by decide) s

theorem segments_up_slash_append (s : String) : segments ("../" ++ s) = ".." :: segments s :=
  segments_of_lead (by decide) (by decide) s

/-- Without a slash in between, two segments grow together. -/
theorem segments_append (s t : String) :
    ∃ init last first tail, segments s = init ++ [last] ∧ segments t = first :: tail ∧
      segments (s ++ t) = init ++ (last ++ first) :: tail := by
  obtain ⟨init, last, first, tail, hs, ht, hst⟩ := split_append (· == '/') s.toList t.toList
  refine ⟨init.map String.ofList, String.ofList last, String.ofList first,
    tail.map String.ofList, ?_, ?_, ?_⟩
  · simp [segments, hs]
  · simp [segments, ht]
  · simp [segments, hst, String.ofList_append]

theorem segments_injective {s t : String} (h : segments s = segments t) : s = t := by
  rw [← joinSegments_segments s, h, joinSegments_segments]

theorem joinSegments_cons (part : String) {parts : List String} (hne : parts ≠ []) :
    joinSegments (part :: parts) = part ++ "/" ++ joinSegments parts := by
  cases parts with
  | nil => exact absurd rfl hne
  | cons next parts =>
      apply String.toList_injective
      simp [joinSegments, join]

theorem joinSegments_append {xs ys : List String} (hxs : xs ≠ []) (hys : ys ≠ []) :
    joinSegments (xs ++ ys) = joinSegments xs ++ "/" ++ joinSegments ys := by
  induction xs with
  | nil => exact absurd rfl hxs
  | cons x xs ih =>
      rw [List.cons_append, joinSegments_cons x (by simp [hys])]
      cases xs with
      | nil => simp [joinSegments, join]
      | cons y xs =>
          rw [ih (by simp), joinSegments_cons x (by simp)]
          simp only [String.append_assoc]

/-- Slashes apart, the characters of a joined text are those of its segments. -/
theorem mem_joinSegments {parts : List String} {c : Char} (hc : c ≠ '/') :
    c ∈ (joinSegments parts).toList ↔ ∃ part ∈ parts, c ∈ part.toList := by
  induction parts with
  | nil => simp [joinSegments, join]
  | cons part parts ih =>
      by_cases hne : parts = []
      · simp [hne, joinSegments, join]
      · rw [joinSegments_cons part hne]
        simp [ih, hc]

/-- The segments of a text without back slashes have none either. -/
theorem no_backslash_of_mem_segments {s part : String} (h : '\\' ∉ s.toList)
    (hpart : part ∈ segments s) : '\\' ∉ part.toList := by
  intro hc
  rw [← joinSegments_segments s, mem_joinSegments (by decide)] at h
  exact h ⟨part, hpart, hc⟩

/-! ## Prefixes and suffixes -/

theorem dropPrefix?_eq_some_iff {start s rest : String} :
    dropPrefix? start s = some rest ↔ s = start ++ rest := by
  constructor
  · intro h
    obtain ⟨cs, hcs, rfl⟩ := Option.map_eq_some_iff.1 h
    apply String.toList_injective
    simpa using (List.isPrefixOf?_eq_some_iff_append_eq.1 hcs).symm
  · rintro rfl
    exact Option.map_eq_some_iff.2
      ⟨rest.toList, List.isPrefixOf?_eq_some_iff_append_eq.2 (by simp), by simp⟩

theorem startsWith_iff {start s : String} :
    startsWith start s = true ↔ ∃ rest, s = start ++ rest := by
  rw [startsWith, List.isPrefixOf_iff_prefix]
  constructor
  · rintro ⟨cs, hcs⟩
    exact ⟨String.ofList cs, String.toList_injective (by simpa using hcs.symm)⟩
  · rintro ⟨rest, rfl⟩
    exact ⟨rest.toList, by simp⟩

theorem endsWith_iff {tail s : String} : endsWith tail s = true ↔ ∃ front, s = front ++ tail := by
  rw [endsWith, List.isSuffixOf_iff_suffix]
  constructor
  · rintro ⟨cs, hcs⟩
    exact ⟨String.ofList cs, String.toList_injective (by simpa using hcs.symm)⟩
  · rintro ⟨front, rfl⟩
    exact ⟨front.toList, by simp⟩

/-- The start of a text goes on behind a slash of it, or stops before. -/
theorem startsWith_or_of_append_eq {start rest front back : String}
    (h : start ++ rest = front ++ "/" ++ back) :
    startsWith (front ++ "/") start = true ∨ ∃ tail, front = start ++ tail := by
  have hlist : start.toList ++ rest.toList = front.toList ++ '/' :: back.toList := by
    simpa using congrArg String.toList h
  rcases List.append_eq_append_iff.1 hlist with ⟨cs, hfront, -⟩ | ⟨cs, hstart, hback⟩
  · exact Or.inr ⟨String.ofList cs, String.toList_injective (by simpa using hfront)⟩
  · cases cs with
    | nil => exact Or.inr ⟨"", String.toList_injective (by simpa using hstart.symm)⟩
    | cons c cs =>
        obtain ⟨rfl, -⟩ := List.cons.inj hback
        refine Or.inl (startsWith_iff.2 ⟨String.ofList cs, String.toList_injective ?_⟩)
        simpa using hstart

/-! ## Slashes -/

theorem slash_ne_backslash (c : Char) : slash c ≠ '\\' := by
  rw [slash]
  split
  · decide
  · assumption

/-- A normalised text has no back slash. -/
theorem no_backslash_slashed (s : String) : '\\' ∉ (slashed s).toList := by
  intro h
  rw [slashed, String.toList_ofList, List.mem_map] at h
  obtain ⟨c, -, hc⟩ := h
  exact slash_ne_backslash c hc

theorem slashed_append (s t : String) : slashed (s ++ t) = slashed s ++ slashed t := by
  simp [slashed, String.ofList_append]

theorem slashed_eq_self {s : String} (h : '\\' ∉ s.toList) : slashed s = s := by
  have hs : s.toList.map slash = s.toList := by
    refine (List.map_congr_left fun c hc => ?_).trans (List.map_id _)
    have hne : c ≠ '\\' := fun he => h (he ▸ hc)
    simp [slash, hne]
  rw [slashed, hs, String.ofList_toList]

theorem slashed_eq_append {s front back : String} (h : slashed s = front ++ back) :
    ∃ start rest, s = start ++ rest ∧ slashed start = front ∧ slashed rest = back := by
  have hlist : s.toList.map slash = front.toList ++ back.toList := by
    simpa [slashed] using congrArg String.toList h
  obtain ⟨start, rest, hs, hstart, hrest⟩ := List.map_eq_append_iff.1 hlist
  refine ⟨String.ofList start, String.ofList rest, ?_, ?_, ?_⟩
  · exact String.toList_injective (by simpa using hs)
  · simp [slashed, hstart]
  · simp [slashed, hrest]

/-- Where no slash comes out, no back slash was there. -/
theorem eq_of_slashed_eq {s t : String} (h : slashed s = t) (ht : '/' ∉ t.toList) : s = t := by
  have hback : '\\' ∉ s.toList := by
    intro hmem
    refine ht ?_
    rw [← h, slashed, String.toList_ofList]
    exact List.mem_map_of_mem (f := slash) hmem
  rw [← h, slashed_eq_self hback]

theorem eq_of_slashed_eq_slash {s : String} (h : slashed s = "/") : s = "/" ∨ s = "\\" := by
  have hlist : s.toList.map slash = ['/'] := by
    simpa [slashed] using congrArg String.toList h
  obtain ⟨c, hs, hc⟩ := List.map_eq_singleton_iff.1 hlist
  by_cases hback : c = '\\'
  · exact Or.inr (String.toList_injective (by simp [hs, hback]))
  · rw [slash, if_neg hback] at hc
    exact Or.inl (String.toList_injective (by simp [hs, hc]))

/-! ## Quotes -/

/-- A text that does not end a literal: a back slash takes the next character with it, and the
quote stands nowhere else. -/
inductive Unquoted (quote : Char) : List Char → Prop where
  | nil : Unquoted quote []
  | plain {c : Char} {cs : List Char} (other : c ≠ quote) (backslash : c ≠ '\\')
      (rest : Unquoted quote cs) : Unquoted quote (c :: cs)
  | escaped {c : Char} {cs : List Char} (rest : Unquoted quote cs) :
      Unquoted quote ('\\' :: c :: cs)

end Text

end SliceLint

import Mathlib.Data.List.Forall2
import SliceLint.Proofs.Path

set_option autoImplicit false

/-! # Paths by their components

Paths are compared by their components but handled as texts. The text operations agree with the
comparison: the components of the directory above a path, of the directories above that, and of a
path that is taken from a directory depend only on components (`components_directory`,
`forall₂_ancestors`, `components_join`).

A text falls into its lead and what follows it, and both operations keep the lead. The one lemma
behind them is `components_lead_append`, on the texts that begin like a given one. -/

namespace SliceLint

namespace Path

/-! ## The lead of a path -/

/-- The components that the lead of a path stands for. -/
def leadComponents (p : String) : List Component :=
  if isAbsolute p then [.root]
  else if (Text.segments p).head? = some "." then [.current]
  else []

/-- What follows the lead of a path. -/
def afterLead (p : String) : String :=
  String.ofList (p.toList.drop (lead p).length)

theorem body_eq (p : String) : body p = dropEmptyEnd (Text.segments (afterLead p)) := rfl

theorem components_eq_leadComponents (p : String) :
    components p = leadComponents p ++ (Text.segments p).filterMap segmentComponent? := by
  simp only [components, leadComponents]
  split
  · rfl
  · split <;> rfl

theorem isAbsolute_dot_append (q : String) : isAbsolute ("." ++ q) = false := by
  rw [isAbsolute_append (by decide)]
  decide

theorem exists_eq_dot_append {p : String} {rest : List String}
    (hsegs : Text.segments p = "." :: rest) :
    ∃ q, p = "." ++ q ∧ Text.segments q = "" :: rest := by
  rw [← Text.joinSegments_segments p, hsegs]
  by_cases hrest : rest = []
  · exact ⟨"", by simp [hrest, Text.joinSegments, Text.join], by rw [hrest]; rfl⟩
  · refine ⟨"/" ++ Text.joinSegments rest, ?_, ?_⟩
    · rw [Text.joinSegments_cons _ hrest, String.append_assoc]
    · rw [Text.segments_slash_append, Text.segments_joinSegments hrest]
      intro part hpart
      exact Text.no_slash_of_mem_segments (s := p) (by simp [hsegs, hpart])

/-- A path starts with a slash, with a dot that is a segment of its own, or with neither. -/
theorem lead_cases (p : String) :
    (lead p = "/" ∧ p = "/" ++ afterLead p ∧ leadComponents p = [.root]) ∨
      (lead p = "." ∧ p = "." ++ afterLead p ∧ leadComponents p = [.current] ∧
        ∃ rest, Text.segments (afterLead p) = "" :: rest ∧ Text.segments p = "." :: rest) ∨
      (lead p = "" ∧ p = afterLead p ∧ leadComponents p = [] ∧ isAbsolute p = false ∧
        (Text.segments p).head? ≠ some ".") := by
  by_cases habs : isAbsolute p = true
  · obtain ⟨q, rfl⟩ := isAbsolute_iff.1 habs
    have hlead : lead ("/" ++ q) = "/" := by simp [lead, habs]
    have hafter : afterLead ("/" ++ q) = q := by
      apply String.toList_injective
      simp [afterLead, hlead, show "/".length = 1 from rfl]
    exact Or.inl ⟨hlead, by rw [hafter], by simp [leadComponents, habs]⟩
  · by_cases hhead : (Text.segments p).head? = some "."
    · obtain ⟨rest, hsegs⟩ : ∃ rest, Text.segments p = "." :: rest := by
        cases hsegs : Text.segments p with
        | nil => exact absurd hsegs (Text.segments_ne_nil p)
        | cons first rest =>
            rw [hsegs] at hhead
            exact ⟨rest, by rw [Option.some.inj hhead]⟩
      have hlead : lead p = "." := by simp [lead, habs, hhead]
      have hlength : ".".length = 1 := rfl
      obtain ⟨q, hq, hqsegs⟩ := exists_eq_dot_append hsegs
      have hafter : afterLead p = q := by
        rw [afterLead, hlead, hlength, hq]
        apply String.toList_injective
        simp
      refine Or.inr (Or.inl ⟨hlead, by rw [hafter, hq], ?_, rest, by rw [hafter, hqsegs], hsegs⟩)
      simp [leadComponents, habs, hhead]
    · have hlead : lead p = "" := by simp [lead, habs, hhead]
      refine Or.inr (Or.inr ⟨hlead, ?_, by simp [leadComponents, habs, hhead], by simpa using habs,
        hhead⟩)
      simp [afterLead, hlead]

theorem lead_append_afterLead (p : String) : lead p ++ afterLead p = p := by
  rcases lead_cases p with ⟨hlead, hp, -⟩ | ⟨hlead, hp, -⟩ | ⟨hlead, hp, -⟩
  · rw [hlead, ← hp]
  · rw [hlead, ← hp]
  · rw [hlead, String.empty_append, ← hp]

theorem segmentComponent?_blank {s : String} (h : s = "" ∨ s = ".") : segmentComponent? s = none :=
  segmentComponent?_eq_none_iff.2 h

/-- Joining segments adds no component. -/
theorem filterMap_joinSegments {xs : List String} (h : ∀ x ∈ xs, '/' ∉ x.toList) :
    (Text.segments (Text.joinSegments xs)).filterMap segmentComponent?
      = xs.filterMap segmentComponent? := by
  by_cases hne : xs = []
  · subst hne
    rfl
  · rw [Text.segments_joinSegments hne h]

/-- Behind a dot, segments that begin with an empty one stand for themselves. -/
theorem exists_segments_dot_append {xs rest : List String} (h : xs <+: "" :: rest)
    (hslash : ∀ x ∈ xs, '/' ∉ x.toList) :
    ∃ ys, Text.segments ("." ++ Text.joinSegments xs) = "." :: ys ∧
      ys.filterMap segmentComponent? = xs.filterMap segmentComponent? := by
  have honly : Text.segments "." = ["."] := by decide
  have hempty : segmentComponent? "" = none := segmentComponent?_blank (Or.inl rfl)
  match xs, h with
  | [], _ => exact ⟨[], honly, rfl⟩
  | x :: xs, h =>
      obtain ⟨rfl, -⟩ := List.cons_prefix_cons.1 h
      by_cases hxs : xs = []
      · subst hxs
        exact ⟨[], by simpa [Text.joinSegments, Text.join] using honly, by simp [hempty]⟩
      · refine ⟨xs, ?_, by rw [List.filterMap_cons_none hempty]⟩
        rw [Text.joinSegments_cons _ hxs, String.empty_append, ← String.append_assoc,
          Text.segments_append_slash, honly, Text.segments_joinSegments hxs]
        · rfl
        · exact fun y hy => hslash y (List.mem_cons_of_mem "" hy)

/-- What begins like a path without a lead has none either. -/
theorem components_joinSegments {p : String} {xs : List String} (h : xs <+: Text.segments p)
    (habs : isAbsolute p = false) (hhead : (Text.segments p).head? ≠ some ".") :
    components (Text.joinSegments xs) = xs.filterMap segmentComponent? := by
  by_cases hxs : xs = []
  · subst hxs
    rfl
  · have hsegs := Text.segments_joinSegments hxs
      fun x hx => Text.no_slash_of_mem_segments (h.subset hx)
    obtain ⟨x, more, rfl⟩ := List.exists_cons_of_ne_nil hxs
    obtain ⟨tail, htail⟩ := h
    have habs' : isAbsolute (Text.joinSegments (x :: more)) = false := by
      by_contra hroot
      rw [Bool.not_eq_false, isAbsolute_iff_segments, hsegs] at hroot
      obtain ⟨rest, hne, hrest⟩ := hroot
      have hfile : isAbsolute p = true :=
        isAbsolute_iff_segments.2 ⟨rest ++ tail, by simp [hne], by rw [← htail, hrest]; rfl⟩
      rw [habs] at hfile
      cases hfile
    have hx : x ≠ "." := by
      rintro rfl
      exact hhead (by rw [← htail]; rfl)
    rw [components, habs', hsegs]
    simp [hx]

/-- The components of a text that has the lead of a path and then begins like it. -/
theorem components_lead_append {p : String} {xs : List String}
    (h : xs <+: Text.segments (afterLead p)) :
    components (lead p ++ Text.joinSegments xs)
      = leadComponents p ++ xs.filterMap segmentComponent? := by
  have hslash : ∀ x ∈ xs, '/' ∉ x.toList :=
    fun x hx => Text.no_slash_of_mem_segments (h.subset hx)
  rcases lead_cases p with ⟨hlead, -, hcomps⟩ | ⟨hlead, -, hcomps, rest, hafter, -⟩ |
      ⟨hlead, hp, hcomps, habs, hhead⟩
  · rw [hlead, hcomps, components, if_pos (isAbsolute_iff.2 ⟨_, rfl⟩), Text.segments_slash_append,
      List.filterMap_cons_none (segmentComponent?_blank (Or.inl rfl)),
      filterMap_joinSegments hslash]
    rfl
  · rw [hafter] at h
    obtain ⟨ys, hsegs, hys⟩ := exists_segments_dot_append h hslash
    rw [hlead, hcomps, components, if_neg (by simp [isAbsolute_dot_append]), hsegs,
      if_pos (by rfl), List.filterMap_cons_none (segmentComponent?_blank (Or.inr rfl)), hys]
    rfl
  · rw [← hp] at h
    rw [hlead, String.empty_append, hcomps, List.nil_append, components_joinSegments h habs hhead]

theorem components_eq_afterLead (p : String) :
    components p
      = leadComponents p ++ (Text.segments (afterLead p)).filterMap segmentComponent? := by
  rw [← components_lead_append List.prefix_rfl, Text.joinSegments_segments, lead_append_afterLead]

/-! ## The directory above -/

theorem filterMap_dropEmptyEnd (xs : List String) :
    (dropEmptyEnd xs).filterMap segmentComponent? = xs.filterMap segmentComponent? := by
  obtain ⟨blanks, hxs, hblanks⟩ := dropEmptyEnd_append xs
  conv_rhs => rw [hxs, List.filterMap_append, List.filterMap_eq_nil_iff.2 hblanks, List.append_nil]

theorem dropEmptyEnd_isPrefixOf (xs : List String) : dropEmptyEnd xs <+: xs := by
  obtain ⟨blanks, hxs, -⟩ := dropEmptyEnd_append xs
  exact ⟨blanks, hxs.symm⟩

theorem components_eq_body (p : String) :
    components p = leadComponents p ++ (body p).filterMap segmentComponent? := by
  rw [components_eq_afterLead, body_eq, filterMap_dropEmptyEnd]

theorem segmentComponent?_ne_lead {s : String} {c : Component} (h : segmentComponent? s = some c) :
    c ≠ .root ∧ c ≠ .current := by
  unfold segmentComponent? at h
  split at h
  · cases h
  · split at h <;> obtain rfl := Option.some.inj h <;> simp

/-- What stands above a path, by its components. The root and the empty path have nothing above. -/
theorem parent?_cases (p : String) :
    (parent? p = none ∧ (components p = [] ∨ components p = [.root])) ∨
      ∃ q, parent? p = some q ∧ components p ≠ [] ∧ components p ≠ [.root] ∧
        components q = (components p).dropLast := by
  rcases List.eq_nil_or_concat' (body p) with hnil | ⟨init, last, hbody⟩
  · have hcomps : components p = leadComponents p := by
      rw [components_eq_body, hnil]
      simp
    have hparent : parent? p = if lead p = "." then some "" else none := by
      unfold parent?
      rw [hnil]
    rw [hparent, hcomps]
    rcases lead_cases p with ⟨hlead, -, hroot⟩ | ⟨hlead, -, hdot, -⟩ | ⟨hlead, -, hnone, -⟩
    · exact Or.inl ⟨by simp [hlead], Or.inr hroot⟩
    · exact Or.inr ⟨"", by simp [hlead], by simp [hdot], by simp [hdot], by rw [hdot]; rfl⟩
    · exact Or.inl ⟨by simp [hlead], Or.inl hnone⟩
  · obtain ⟨c, hc⟩ := Option.ne_none_iff_exists'.1 (ne_none_of_dropEmptyEnd hbody)
    have hcomps : components p = leadComponents p ++ init.filterMap segmentComponent? ++ [c] := by
      rw [components_eq_body, hbody, List.filterMap_append]
      simp [hc]
    have hparent : parent? p = some (lead p ++ Text.joinSegments (dropEmptyEnd init)) := by
      unfold parent?
      rw [hbody]
      split
      · next hempty => simp at hempty
      · simp
    refine Or.inr ⟨_, hparent, by simp [hcomps], fun hroot => ?_, ?_⟩
    · have hlast : (components p).getLast? = some c := by simp [hcomps]
      rw [hroot] at hlast
      exact (segmentComponent?_ne_lead hc).1 (Option.some.inj hlast).symm
    · have hprefix : dropEmptyEnd init <+: Text.segments (afterLead p) := by
        refine (dropEmptyEnd_isPrefixOf init).trans ?_
        have hinit : init <+: body p := ⟨[last], hbody.symm⟩
        exact hinit.trans (dropEmptyEnd_isPrefixOf _)
      rw [components_lead_append hprefix, hcomps, filterMap_dropEmptyEnd, List.dropLast_concat]

theorem components_directory (p : String) :
    components ((parent? p).getD "") = (components p).dropLast := by
  rcases parent?_cases p with ⟨hnone, hcomps⟩ | ⟨q, hq, -, -, hcomps⟩
  · rw [hnone, Option.getD_none]
    rcases hcomps with h | h <;> rw [h] <;> rfl
  · rw [hq, Option.getD_some, hcomps]

/-! ## The directories above -/

theorem length_filterMap_segments_le (s : String) :
    ((Text.segments s).filterMap segmentComponent?).length ≤ s.length := by
  have hsplit : ∀ cs : List Char, (((Text.split (· == '/') cs).map String.ofList).filterMap
      segmentComponent?).length ≤ cs.length := by
    intro cs
    induction cs with
    | nil => simp [Text.split, segmentComponent?]
    | cons c cs ih =>
        rw [Text.split]
        split
        · -- a slash opens an empty segment
          rw [List.map_cons, List.filterMap_cons_none (segmentComponent?_blank (Or.inl rfl))]
          exact ih.trans (Nat.le_succ _)
        · cases hs : Text.split (· == '/') cs with
          | nil => exact absurd hs (Text.split_ne_nil _ cs)
          | cons part parts =>
              rw [hs, List.map_cons] at ih
              have htail : ((parts.map String.ofList).filterMap segmentComponent?).length
                  ≤ cs.length := by
                refine le_trans ?_ ih
                exact ((List.sublist_cons_self _ _).filterMap _).length_le
              simp only [List.map_cons, List.length_cons, List.filterMap_cons]
              split
              · exact htail.trans (Nat.le_succ _)
              · exact Nat.succ_le_succ htail
  have hlength := hsplit s.toList
  rwa [String.length_toList] at hlength

theorem length_components_le (p : String) : (components p).length ≤ p.length := by
  have hrest := length_filterMap_segments_le (afterLead p)
  have hlead : (leadComponents p).length = (lead p).length := by
    rcases lead_cases p with ⟨h, -, hcomps⟩ | ⟨h, -, hcomps, -⟩ | ⟨h, -, hcomps, -⟩ <;>
      rw [h, hcomps] <;> rfl
  have hp : (lead p).length + (afterLead p).length = p.length := by
    rw [← String.length_append, lead_append_afterLead]
  rw [components_eq_afterLead, List.length_append]
  omega

section Ancestors

-- What is above a path is known from `parent?_cases`. Left open, the function would be evaluated on
-- a variable where its value is matched on.
seal parent?

theorem ancestorsUpTo_succ (n : Nat) (p : String) :
    ancestorsUpTo (n + 1) p =
      match parent? p with
      | some q => p :: ancestorsUpTo n q
      | none => [p] := rfl

theorem forall₂_ancestorsUpTo (n : Nat) :
    ∀ (m : Nat) (p q : String), components p = components q → (components p).length < n →
      (components p).length < m →
      List.Forall₂ (fun a b => components a = components b) (ancestorsUpTo n p)
        (ancestorsUpTo m q) := by
  induction n with
  | zero =>
      intro m p q _ hn
      omega
  | succ n ih =>
      intro m p q hpq hn hm
      obtain ⟨m, rfl⟩ := Nat.exists_eq_add_one_of_ne_zero (by omega : m ≠ 0)
      rcases parent?_cases p with ⟨hp, hend⟩ | ⟨p', hp, hne, hroot, hcomps⟩
      · rcases parent?_cases q with ⟨hq, -⟩ | ⟨q', -, hne, hroot, -⟩
        · simp only [ancestorsUpTo_succ, hp, hq]
          exact .cons hpq .nil
        · rw [← hpq] at hne hroot
          exact absurd hend (by simp [hne, hroot])
      · rcases parent?_cases q with ⟨-, hend⟩ | ⟨q', hq, -, -, hcomps'⟩
        · rw [← hpq] at hend
          exact absurd hend (by simp [hne, hroot])
        · simp only [ancestorsUpTo_succ, hp, hq]
          have hlength := List.length_pos_of_ne_nil hne
          refine .cons hpq (ih m p' q' ?_ ?_ ?_)
          · rw [hcomps, hcomps', hpq]
          · rw [hcomps, List.length_dropLast]
            omega
          · rw [hcomps, List.length_dropLast]
            omega

/-- Paths with the same components have the same directories above them. -/
theorem forall₂_ancestors {p q : String} (h : components p = components q) :
    List.Forall₂ (fun a b => components a = components b) (ancestors p) (ancestors q) := by
  refine forall₂_ancestorsUpTo _ _ p q h ?_ ?_
  · exact Nat.lt_succ_of_le (length_components_le p)
  · rw [h]
    exact Nat.lt_succ_of_le (length_components_le q)

end Ancestors

/-! ## Joining -/

theorem components_eq_nil_iff {p : String} : components p = [] ↔ p = "" := by
  constructor
  · intro h
    rw [components_eq_leadComponents, List.append_eq_nil_iff, List.filterMap_eq_nil_iff] at h
    obtain ⟨hlead, hblank⟩ := h
    rcases lead_cases p with ⟨-, -, hroot⟩ | ⟨-, -, hdot, -⟩ | ⟨-, -, -, habs, hhead⟩
    · simp [hroot] at hlead
    · simp [hdot] at hlead
    · -- the first segment is empty, and others behind it would make the path absolute
      cases hsegs : Text.segments p with
      | nil => exact absurd hsegs (Text.segments_ne_nil p)
      | cons first rest =>
          rw [hsegs] at hhead hblank
          obtain rfl : first = "" :=
            (segmentComponent?_eq_none_iff.1 (hblank first (by simp))).resolve_right
              fun hdot => hhead (by rw [hdot]; rfl)
          by_cases hrest : rest = []
          · rw [hrest] at hsegs
            exact Text.segments_injective (hsegs.trans rfl)
          · rw [isAbsolute_iff_segments.2 ⟨rest, hrest, hsegs⟩] at habs
            cases habs
  · rintro rfl
    rfl

theorem eq_empty_iff_of_components {p q : String} (h : components p = components q) :
    p = "" ↔ q = "" := by
  rw [← components_eq_nil_iff, ← components_eq_nil_iff, h]

/-- The segments of a path that is taken from a directory: those of the directory, less an empty one
at the end, and its own. -/
theorem segments_join {base rel : String} (hbase : base ≠ "") (hrel : isAbsolute rel = false) :
    ∃ kept, Text.segments (join base rel) = kept ++ Text.segments rel ∧
      kept.head? = (Text.segments base).head? ∧
      kept.filterMap segmentComponent? = (Text.segments base).filterMap segmentComponent? := by
  by_cases hslash : Text.endsWith "/" base = true
  · have hjoin : join base rel = base ++ rel := by simp [join, hrel, hbase, hslash]
    obtain ⟨front, rfl⟩ := Text.endsWith_iff.1 hslash
    have hsegs : Text.segments (front ++ "/") = Text.segments front ++ [""] := by
      have h := Text.segments_append_slash front ""
      rwa [String.append_empty] at h
    refine ⟨Text.segments front, by rw [hjoin, Text.segments_append_slash], ?_, ?_⟩
    · rw [hsegs, List.head?_append_of_ne_nil _ (Text.segments_ne_nil front)]
    · rw [hsegs, List.filterMap_append]
      simp [segmentComponent?]
  · have hjoin : join base rel = base ++ "/" ++ rel := by simp [join, hrel, hbase, hslash]
    exact ⟨Text.segments base, by rw [hjoin, Text.segments_append_slash], rfl, rfl⟩

theorem isAbsolute_join {base rel : String} (hbase : base ≠ "") (hrel : isAbsolute rel = false) :
    isAbsolute (join base rel) = isAbsolute base := by
  unfold join
  simp only [hrel, Bool.false_or, beq_iff_eq, hbase, if_false]
  split
  · exact isAbsolute_append hbase rel
  · rw [String.append_assoc, isAbsolute_append hbase]

theorem components_join {base rel : String} (hbase : base ≠ "") (hrel : isAbsolute rel = false) :
    components (join base rel)
      = components base ++ (Text.segments rel).filterMap segmentComponent? := by
  obtain ⟨kept, hsegs, hhead, hkept⟩ := segments_join hbase hrel
  have hne : kept ≠ [] := by
    rintro rfl
    cases hfirst : Text.segments base with
    | nil => exact Text.segments_ne_nil base hfirst
    | cons first rest => simp [hfirst] at hhead
  have hlead : leadComponents (join base rel) = leadComponents base := by
    rw [leadComponents, leadComponents, isAbsolute_join hbase hrel, hsegs,
      List.head?_append_of_ne_nil _ hne, hhead]
  rw [components_eq_leadComponents, components_eq_leadComponents base, hlead, hsegs,
    List.filterMap_append, hkept, List.append_assoc]

end Path

end SliceLint

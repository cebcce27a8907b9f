import SliceLint.Proofs.Text
import SliceLint.Rule.Verdict

set_option autoImplicit false

/-! # Escapes among segments

An escape is a segment `@x` with a non-empty segment after it. `Verdict.escapeName?` and
`Verdict.correctEscape` both act on the first one, which `EscapeAt` describes by what stands before
and after it. -/

namespace SliceLint

namespace Verdict

/-- Some segment `@x` has a non-empty segment after it. -/
def HasEscape (parts : List String) : Prop :=
  ∃ name, name ≠ "" ∧ [escapeSegment, name] <:+: parts

/-- The first escape among some segments names `name` and stands between `before` and `after`. -/
structure EscapeAt (parts before : List String) (name : String) (after : List String) : Prop where
  parts_eq : parts = before ++ escapeSegment :: name :: after
  name_ne : name ≠ ""
  first : ¬ HasEscape (before ++ [escapeSegment])

theorem hasEscape_cons_cons {a b : String} {rest : List String} :
    HasEscape (a :: b :: rest) ↔ (a = escapeSegment ∧ b ≠ "") ∨ HasEscape (b :: rest) := by
  constructor
  · rintro ⟨name, hname, hinfix⟩
    rcases List.infix_cons_iff.1 hinfix with hprefix | hinfix
    · obtain ⟨more, hmore⟩ := hprefix
      simp only [List.cons_append, List.cons.injEq] at hmore
      obtain ⟨rfl, rfl, -⟩ := hmore
      exact Or.inl ⟨rfl, hname⟩
    · exact Or.inr ⟨name, hname, hinfix⟩
  · rintro (⟨rfl, hb⟩ | ⟨name, hname, hinfix⟩)
    · exact ⟨b, hb, ⟨[], rest, rfl⟩⟩
    · exact ⟨name, hname, List.infix_cons hinfix⟩

theorem not_hasEscape_of_length {parts : List String} (h : parts.length ≤ 1) :
    ¬ HasEscape parts := by
  rintro ⟨name, -, hinfix⟩
  have hlen := hinfix.length_le
  simp only [List.length_cons, List.length_nil] at hlen
  omega

theorem escapeName?_eq_none_iff {parts : List String} :
    escapeName? parts = none ↔ ¬ HasEscape parts := by
  induction parts with
  | nil => simp [escapeName?, not_hasEscape_of_length]
  | cons a parts ih =>
      cases parts with
      | nil => simp [escapeName?, not_hasEscape_of_length]
      | cons b rest =>
          rw [escapeName?, hasEscape_cons_cons]
          by_cases hab : a = escapeSegment ∧ b ≠ ""
          · simp [hab]
          · rw [if_neg hab, ih]
            simp only [hab, false_or]

/-- Segments other than `@x` in front make no difference to the first escape. -/
theorem escapeName?_append {front : List String} (h : escapeSegment ∉ front) (rest : List String) :
    escapeName? (front ++ rest) = escapeName? rest := by
  induction front with
  | nil => rfl
  | cons a front ih =>
      have hrest := ih (List.not_mem_of_not_mem_cons h)
      have ha : a ≠ escapeSegment := fun he => h (by simp [he])
      rw [List.cons_append]
      cases hmore : front ++ rest with
      | nil =>
          obtain ⟨rfl, rfl⟩ := List.append_eq_nil_iff.1 hmore
          rfl
      | cons b more => rw [escapeName?, if_neg fun hab => ha hab.1, ← hmore, hrest]

/-- Segments before the first escape may be added in front of it. -/
theorem EscapeAt.cons {a b name : String} {rest before after : List String}
    (h : EscapeAt (b :: rest) before name after) (hab : ¬ (a = escapeSegment ∧ b ≠ "")) :
    EscapeAt (a :: b :: rest) (a :: before) name after := by
  refine ⟨by rw [h.parts_eq, List.cons_append], h.name_ne, fun hesc => ?_⟩
  have heq := h.parts_eq
  cases before with
  | nil =>
      rw [List.nil_append, List.cons.injEq] at heq
      obtain ⟨rfl, -⟩ := heq
      rcases hasEscape_cons_cons.1 hesc with ha | hesc
      · exact hab ha
      · exact h.first hesc
  | cons c before =>
      rw [List.cons_append, List.cons.injEq] at heq
      obtain ⟨rfl, -⟩ := heq
      rcases hasEscape_cons_cons.1 hesc with ha | hesc
      · exact hab ha
      · exact h.first hesc

theorem exists_escapeAt {parts : List String} {name : String} (h : escapeName? parts = some name) :
    ∃ before after, EscapeAt parts before name after := by
  induction parts with
  | nil => simp [escapeName?] at h
  | cons a parts ih =>
      cases parts with
      | nil => simp [escapeName?] at h
      | cons b rest =>
          rw [escapeName?] at h
          by_cases hab : a = escapeSegment ∧ b ≠ ""
          · rw [if_pos hab] at h
            obtain rfl := Option.some.inj h
            obtain ⟨rfl, hb⟩ := hab
            exact ⟨[], rest, rfl, hb, not_hasEscape_of_length (by simp)⟩
          · rw [if_neg hab] at h
            obtain ⟨before, after, hat⟩ := ih h
            exact ⟨a :: before, after, hat.cons hab⟩

/-- What the two functions do at the first escape. The induction is on what stands before it. -/
theorem EscapeAt.spec {parts before after : List String} {name : String}
    (h : EscapeAt parts before name after) :
    escapeName? parts = some name ∧
      ∀ other, correctEscape other parts = before ++ escapeSegment :: other :: after := by
  obtain ⟨rfl, hname, hfirst⟩ := h
  induction before with
  | nil => simp [escapeName?, correctEscape, hname]
  | cons a before ih =>
      -- the second segment is the same whether the text goes on to the escape or stops at `@x`
      obtain ⟨b, more, last, hmore, hlast⟩ : ∃ b more last,
          before ++ escapeSegment :: name :: after = b :: more ∧
            before ++ [escapeSegment] = b :: last := by
        cases before with
        | nil => exact ⟨_, _, _, rfl, rfl⟩
        | cons b before => exact ⟨_, _, _, rfl, rfl⟩
      rw [List.cons_append, hlast, hasEscape_cons_cons, not_or, ← hlast] at hfirst
      obtain ⟨hab, hfirst⟩ := hfirst
      obtain ⟨ihname, ihcorrect⟩ := ih hfirst
      rw [hmore] at ihname ihcorrect
      rw [List.cons_append, hmore]
      refine ⟨by rw [escapeName?, if_neg hab, ihname], fun other => ?_⟩
      rw [correctEscape, if_neg hab, ihcorrect, List.cons_append]

end Verdict

end SliceLint

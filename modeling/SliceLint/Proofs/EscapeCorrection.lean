import SliceLint.Proofs.EscapeFix
import SliceLint.Proofs.Verdict

set_option autoImplicit false

/-! # The corrected escape

Where an escape names another slice than the importer, the rule about siblings says what should be
written instead. That is the specifier with slashes, in which one segment is another one: the name
in the first escape (`Verdict.crossImport_correction`). The importer's name has no slashes, so the
text divides into the same segments again. No segment before the name has changed and the name is
not empty, so the first escape is still the same one, whatever the importer is called and whatever
`@x` segments stand around it. -/

namespace SliceLint

namespace Verdict

theorem EscapeAt.getElem?_name {parts before after : List String} {name : String}
    (h : EscapeAt parts before name after) : parts[before.length + 1]? = some name := by
  rw [h.parts_eq, List.getElem?_append_right (by omega), Nat.add_sub_cancel_left]
  rfl

/-- To replace the name in the first escape changes that segment and no other. -/
theorem EscapeAt.getElem?_ne_iff {parts before after : List String} {other name : String}
    (h : EscapeAt parts before other after) (hname : name ≠ other) (j : Nat) :
    (before ++ escapeSegment :: name :: after)[j]? ≠ parts[j]? ↔ j = before.length + 1 := by
  have hset : before ++ escapeSegment :: name :: after = parts.set (before.length + 1) name := by
    rw [h.parts_eq, List.set_append_right _ _ (by omega), Nat.add_sub_cancel_left]
    rfl
  rw [hset]
  by_cases hj : j = before.length + 1
  · obtain ⟨hlt, -⟩ := List.getElem?_eq_some_iff.1 h.getElem?_name
    rw [hj, List.getElem?_set_self hlt, h.getElem?_name]
    simpa using hname
  · rw [List.getElem?_set_ne (Ne.symm hj)]
    simp [hj]

variable {source dest : Slice} {specifier : String}

/-- An escape is corrected exactly if it names another slice than the importer. -/
theorem exists_correction_iff (hlayer : source.layer = dest.layer)
    (hsibling : source.name ≠ dest.name) :
    (∃ fromSlice written expected, crossImport source specifier dest
        = some (.invalidCrossNotation fromSlice written expected)) ↔
      ∃ before other after, EscapeAt (Text.segments (Text.slashed specifier)) before other after ∧
        other ≠ source.name := by
  simp only [crossImport_eq_some_iff]
  constructor
  · rintro ⟨fromSlice, written, expected, -, -, ⟨-, hd⟩ | ⟨before, other, after, hat, hother, -⟩⟩
    · cases hd
    · exact ⟨before, other, after, hat, hother⟩
  · rintro ⟨before, other, after, hat, hother⟩
    exact ⟨_, _, _, hlayer, hsibling, Or.inr ⟨before, other, after, hat, hother, rfl⟩⟩

/-- What is written in place of a wrong escape: its first escape is at the same place and names the
importer. -/
theorem exists_corrected {fromSlice written expected : String} (hname : source.name ≠ "")
    (hslash : '/' ∉ source.name.toList) (hback : '\\' ∉ source.name.toList)
    (h : crossImport source specifier dest
      = some (.invalidCrossNotation fromSlice written expected)) :
    written = specifier ∧ Text.slashed expected = expected ∧ ∃ before other after,
      EscapeAt (Text.segments (Text.slashed specifier)) before other after ∧ source.name ≠ other ∧
        EscapeAt (Text.segments expected) before source.name after := by
  obtain ⟨-, -, ⟨-, hd⟩ | ⟨before, other, after, hat, hother, hd⟩⟩ := crossImport_eq_some_iff.1 h
  · cases hd
  · cases hd
    have hmem : source.name ∈ Text.segments (Text.slashed source.name) := by
      rw [Text.slashed_eq_self hback, Text.segments_of_no_slash hslash]
      exact List.mem_singleton_self _
    obtain ⟨hslashed, hcorrected⟩ := hat.renamed hname hmem
    rw [hslashed] at hcorrected
    exact ⟨rfl, hslashed, before, other, after, hat, hother.symm, hcorrected⟩

/-- Between siblings, an escape is corrected exactly if it names another slice than the importer.
What should be written instead has the segments of what is written, with slashes, except for the
name in the first escape, which is the importer's; and the rule has nothing to say about it. -/
theorem crossImport_correction (source dest : Slice) (specifier : String)
    (hlayer : source.layer = dest.layer) (hsibling : source.name ≠ dest.name)
    (hname : source.name ≠ "") (hslash : '/' ∉ source.name.toList)
    (hback : '\\' ∉ source.name.toList) :
    ((∃ fromSlice written expected, crossImport source specifier dest
        = some (.invalidCrossNotation fromSlice written expected)) ↔
      ∃ before other after, EscapeAt (Text.segments (Text.slashed specifier)) before other after ∧
        other ≠ source.name) ∧
      ∀ fromSlice written expected, crossImport source specifier dest
          = some (.invalidCrossNotation fromSlice written expected) →
        written = specifier ∧
          (Text.segments expected).length = (Text.segments (Text.slashed specifier)).length ∧
          (∃ before other after,
            EscapeAt (Text.segments (Text.slashed specifier)) before other after ∧
              (Text.segments expected)[before.length + 1]? = some source.name ∧
              ∀ j, (Text.segments expected)[j]? ≠ (Text.segments (Text.slashed specifier))[j]? ↔
                j = before.length + 1) ∧
          crossImport source expected dest = none := by
  refine ⟨exists_correction_iff hlayer hsibling, fun fromSlice written expected h => ?_⟩
  obtain ⟨hwritten, hslashed, before, other, after, hat, hother, hcorrected⟩ :=
    exists_corrected hname hslash hback h
  refine ⟨hwritten, ?_, ⟨before, other, after, hat, hcorrected.getElem?_name, ?_⟩, ?_⟩
  · rw [hcorrected.parts_eq, hat.parts_eq]
    simp
  · rw [hcorrected.parts_eq]
    exact hat.getElem?_ne_iff hother
  · -- the first escape names the importer now
    rw [crossImport, if_neg (by simp [hlayer, hsibling])]
    simp only [hslashed, hcorrected.spec.1, if_true]

/-- An importer that is called `@x` itself, and an `@x` that names nothing before the escape. -/
theorem crossImport_correction_doubled :
    let source : Slice := ⟨.entities, "@x"⟩
    let dest : Slice := ⟨.entities, "user"⟩
    let specifier := "entities/user/@x//@x\\order/@x/last"
    let expected := "entities/user/@x//@x/@x/@x/last"
    crossImport source specifier dest
        = some (.invalidCrossNotation "entities/@x" specifier expected) ∧
      (∃ i : Nat, (Text.segments expected)[i]? = some "@x" ∧
        ∀ j, (Text.segments expected)[j]? ≠ (Text.segments (Text.slashed specifier))[j]? ↔ j = i) ∧
      crossImport source expected dest = none := by
  intro source dest specifier expected
  have hreport : crossImport source specifier dest
      = some (.invalidCrossNotation "entities/@x" specifier expected) := by
    decide +kernel
  obtain ⟨-, hcorrection⟩ :=
    crossImport_correction source dest specifier rfl (by decide) (by decide) (by decide) (by decide)
  obtain ⟨-, -, ⟨before, other, after, -, hname, honly⟩, haccepted⟩ :=
    hcorrection _ _ expected hreport
  exact ⟨hreport, ⟨before.length + 1, hname, honly⟩, haccepted⟩

end Verdict

end SliceLint

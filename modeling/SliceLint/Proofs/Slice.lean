import SliceLint.Proofs.Text
import SliceLint.Slice

set_option autoImplicit false

/-! # Paths in slices

A path lies in a slice exactly if its segments start with the slice's layer and name
(`Slice.classify?_eq_some_iff`). Its text then starts with the full path of the slice, and a slash
follows unless the text ends there. -/

namespace SliceLint

theorem Layer.ofName?_eq_some_iff {s : String} {layer : Layer} :
    ofName? s = some layer ↔ layer.name = s := by
  constructor
  · intro h
    simpa using List.find?_some h
  · rintro rfl
    exact ofName?_name layer

theorem Layer.no_slash_name (layer : Layer) : '/' ∉ layer.name.toList := by
  cases layer <;> decide

namespace Slice

theorem classify?_eq_some_iff {path : String} {s : Slice} :
    classify? path = some s ↔
      s.name ≠ "" ∧ ∃ rest, Text.segments path = s.layer.name :: s.name :: rest := by
  unfold classify?
  constructor
  · intro h
    split at h
    · next root name rest hsegs =>
        split at h
        · next layer hlayer =>
            split at h
            · cases h
            · next hname =>
                obtain rfl := Option.some.inj h
                rw [Layer.ofName?_eq_some_iff] at hlayer
                exact ⟨by simpa using hname, rest, by rw [hsegs, hlayer]⟩
        · cases h
    · cases h
  · rintro ⟨hname, rest, hsegs⟩
    simp [hsegs, hname]

theorem no_slash_name {path : String} {s : Slice} (h : classify? path = some s) :
    '/' ∉ s.name.toList := by
  obtain ⟨-, rest, hsegs⟩ := classify?_eq_some_iff.1 h
  exact Text.no_slash_of_mem_segments (s := path) (by simp [hsegs])

/-! ## The full path -/

theorem segments_fullPath {s : Slice} (hname : '/' ∉ s.name.toList) :
    Text.segments s.fullPath = [s.layer.name, s.name] := by
  rw [fullPath, Text.segments_append_slash, Text.segments_of_no_slash (Layer.no_slash_name _),
    Text.segments_of_no_slash hname]
  rfl

/-- The full path identifies a slice, whatever its name. -/
theorem fullPath_injective {a b : Slice} (h : a.fullPath = b.fullPath) : a = b := by
  have hsegs := congrArg Text.segments h
  simp only [fullPath, Text.segments_append_slash,
    Text.segments_of_no_slash (Layer.no_slash_name _), List.cons_append, List.nil_append,
    List.cons.injEq] at hsegs
  obtain ⟨hlayer, hname⟩ := hsegs
  obtain ⟨layer, name⟩ := a
  obtain ⟨layer', name'⟩ := b
  obtain rfl : layer = layer' := Layer.name_injective hlayer
  obtain rfl : name = name' := Text.segments_injective hname
  rfl

@[simp] theorem fullPath_inj {a b : Slice} : a.fullPath = b.fullPath ↔ a = b :=
  ⟨fullPath_injective, fun h => h ▸ rfl⟩

/-- A path in a slice is the slice's full path, alone or with a slash and more after it. -/
theorem eq_fullPath_of_segments {path : String} {s : Slice} {rest : List String}
    (h : Text.segments path = s.layer.name :: s.name :: rest) :
    path = if rest = [] then s.fullPath else s.fullPath ++ "/" ++ Text.joinSegments rest := by
  rw [← Text.joinSegments_segments path, h, Text.joinSegments_cons _ (by simp)]
  split
  · next hrest =>
      subst hrest
      simp [fullPath, Text.joinSegments, Text.join]
  · next hrest =>
      rw [Text.joinSegments_cons _ hrest, fullPath]
      simp only [String.append_assoc]

theorem exists_eq_fullPath_append {path : String} {s : Slice} (h : classify? path = some s) :
    ∃ rest, path = s.fullPath ++ rest := by
  obtain ⟨-, rest, hsegs⟩ := classify?_eq_some_iff.1 h
  rw [eq_fullPath_of_segments hsegs]
  split
  · exact ⟨"", by simp⟩
  · exact ⟨"/" ++ Text.joinSegments rest, by rw [String.append_assoc]⟩

end Slice

end SliceLint

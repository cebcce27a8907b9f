import SliceLint.Output
import SliceLint.Proofs.JsonRendering

set_option autoImplicit false

/-! # Reports survive JSON

A report that is printed as JSON and read again is the same report (`Report.ofJson?_render`): the
text is a rendering of the encoded value, so the reader finds that value, and each field of a record
is found under its name. The only condition is that counts fit into 64 bits, as they do in every
report of a run on such a machine.

What stands under `id` and `data` of an encoded diagnostic is written down for each kind of
diagnostic on its own; it agrees with `Diagnostic.id` and `Diagnostic.data`. -/

namespace SliceLint

/-! ## Records -/

namespace Json

@[simp] theorem members?_ofMembers (ms : List (String × Json)) :
    (ofMembers ms).members? = some ms := by
  rw [ofMembers, members?]
  induction ms with
  | nil => rfl
  | cons m ms ih => simp [List.mapM_cons, unescape?_escape, ih]

@[simp] theorem record?_ofMembers (names : List String) (ms : List (String × Json)) :
    record? names (ofMembers ms)
      = some (names.map fun name => (ms.reverse.find? fun m => m.1 == name).map (·.2)) := by
  have h := members?_ofMembers ms
  rw [ofMembers] at h ⊢
  simp [record?, h]

@[simp] theorem get?_ofMembers (ms : List (String × Json)) (key : String) :
    (ofMembers ms).get? key = (ms.reverse.find? fun m => m.1 == key).map (·.2) := by
  simp [get?]

@[simp] theorem choice?_ofText (s : String) : (ofText s).choice? = some s := by
  have h := text?_ofText s
  rw [ofText] at h ⊢
  simp [choice?, members?, h]

theorem count?_ofNat {n : Nat} (h : n ≤ maxCount) : (ofNat n).count? = some n := by
  simp [count?, h]

theorem optional?_some {α : Type} {read : Json → Option α} {v : Json} {a : α}
    (hread : read v = some a) (hnull : v ≠ null) : optional? read (some v) = some (some a) := by
  rw [optional?, hread]
  · rfl
  · exact hnull

/-- A value that is written if it is there is found if it is there. -/
theorem optional?_ofOption {α : Type} {read : Json → Option α} {write : α → Json} {o : Option α}
    (h : ∀ a, o = some a → read (write a) = some a ∧ write a ≠ null) :
    optional? read (some (ofOption write o)) = some o := by
  cases o with
  | none => rfl
  | some a => exact optional?_some (h a rfl).1 (h a rfl).2

end Json

/-! ## What fits -/

/-- The counts of a location can be written. -/
structure Location.Fits (l : Location) : Prop where
  line : l.line ≤ Json.maxCount
  column : l.column ≤ Json.maxCount
  offset : l.offset ≤ Json.maxCount
  length : l.length ≤ Json.maxCount

/-- The counts of a violation can be written. -/
structure Violation.Fits (v : Violation) : Prop where
  location : v.location.Fits
  replacement : ∀ s, v.suggestion = some s → ∀ r, s.replacement = some r → r.location.Fits

/-- The counts of a report can be written. -/
structure Report.Fits (r : Report) : Prop where
  violations : ∀ v ∈ r.violations, v.Fits
  filesChecked : r.filesChecked ≤ Json.maxCount

/-! ## Reading what was written -/

theorem Severity.ofJson?_toJson (s : Severity) : ofJson? s.toJson = some s := by
  simp [ofJson?, toJson]

theorem Location.ofJson?_toJson {l : Location} (h : l.Fits) : ofJson? l.toJson = some l := by
  simp [ofJson?, toJson, Json.required?, Json.count?_ofNat, h.line, h.column, h.offset, h.length]

theorem Replacement.ofJson?_toJson {r : Replacement} (h : r.location.Fits) :
    ofJson? r.toJson = some r := by
  simp [ofJson?, toJson, Json.required?, Location.ofJson?_toJson h]

theorem Suggestion.ofJson?_toJson {s : Suggestion}
    (h : ∀ r, s.replacement = some r → r.location.Fits) : ofJson? s.toJson = some s := by
  have hreplacement : Json.optional? Replacement.ofJson?
      (some (Json.ofOption Replacement.toJson s.replacement)) = some s.replacement :=
    Json.optional?_ofOption fun r hr => ⟨Replacement.ofJson?_toJson (h r hr), nofun⟩
  simp [ofJson?, toJson, Json.required?, hreplacement]

theorem Diagnostic.ofJson?_toJson (d : Diagnostic) : ofJson? d.toJson = some d := by
  cases d <;> simp [ofJson?, toJson, tagged, Json.required?, ofData?, layerOfJson?]

theorem Violation.ofJson?_toJson {v : Violation} (h : v.Fits) : ofJson? v.toJson = some v := by
  obtain ⟨code, rule, severity, location, message, diagnostic, suggestion⟩ := v
  have hsuggestion : Json.optional? Suggestion.ofJson?
      (some (Json.ofOption Suggestion.toJson suggestion)) = some suggestion :=
    Json.optional?_ofOption fun s hs => ⟨Suggestion.ofJson?_toJson (h.replacement s hs), nofun⟩
  cases diagnostic with
  | none =>
      have hnone : Json.optional? Diagnostic.ofJson? none = some none := rfl
      simp [ofJson?, toJson, Json.required?, Severity.ofJson?_toJson,
        Location.ofJson?_toJson h.location, hsuggestion, hnone]
  | some d =>
      have hd : Json.optional? Diagnostic.ofJson? (some d.toJson) = some (some d) :=
        Json.optional?_some d.ofJson?_toJson (by cases d <;> nofun)
      simp [ofJson?, toJson, Json.required?, Severity.ofJson?_toJson,
        Location.ofJson?_toJson h.location, hsuggestion, hd]

theorem Report.violationsOfJson?_toJson {vs : List Violation} (h : ∀ v ∈ vs, v.Fits) :
    violationsOfJson? (.array (vs.map Violation.toJson)) = some vs := by
  rw [violationsOfJson?]
  induction vs with
  | nil => rfl
  | cons v vs ih =>
      rw [List.forall_mem_cons] at h
      simp [List.mapM_cons, Violation.ofJson?_toJson h.1, ih h.2]

theorem Report.ofJson?_toJson {r : Report} (h : r.Fits) : ofJson? r.toJson = some r := by
  simp [ofJson?, toJson, Json.required?, violationsOfJson?_toJson h.violations,
    Json.count?_ofNat h.filesChecked]

/-! ## The text -/

theorem Location.wellFormed_toJson (l : Location) : l.toJson.WellFormed := by
  refine Json.wellFormed_ofMembers ?_
  simp [Json.wellFormed_ofText, Json.wellFormed_ofNat]

theorem Json.wellFormed_ofOption {α : Type} {write : α → Json} (h : ∀ a, (write a).WellFormed)
    (o : Option α) : (ofOption write o).WellFormed := by
  cases o with
  | none => exact wellFormed_null
  | some a => exact h a

theorem Replacement.wellFormed_toJson (r : Replacement) : r.toJson.WellFormed := by
  refine Json.wellFormed_ofMembers ?_
  simp [Json.wellFormed_ofText, Location.wellFormed_toJson]

theorem Suggestion.wellFormed_toJson (s : Suggestion) : s.toJson.WellFormed := by
  refine Json.wellFormed_ofMembers ?_
  simp [Json.wellFormed_ofText, Json.wellFormed_ofOption Replacement.wellFormed_toJson]

theorem Diagnostic.wellFormed_toJson (d : Diagnostic) : d.toJson.WellFormed := by
  have htagged : ∀ id fields, (∀ m ∈ fields, m.2.WellFormed) → (tagged id fields).WellFormed := by
    intro id fields h
    refine Json.wellFormed_ofMembers ?_
    simp [Json.wellFormed_ofText, Json.wellFormed_ofMembers h]
  cases d with
  | pathViolation => exact Json.wellFormed_ofMembers (by simp [Json.wellFormed_ofText])
  | _ => exact htagged _ _ (by simp [Json.wellFormed_ofText])

theorem Violation.wellFormed_toJson (v : Violation) : v.toJson.WellFormed := by
  have hfields : v.severity.toJson.WellFormed ∧ v.location.toJson.WellFormed ∧
      (Json.ofOption Suggestion.toJson v.suggestion).WellFormed :=
    ⟨Json.wellFormed_ofText _, v.location.wellFormed_toJson,
      Json.wellFormed_ofOption Suggestion.wellFormed_toJson _⟩
  refine Json.wellFormed_ofMembers ?_
  cases v.diagnostic with
  | none => simpa [Json.wellFormed_ofText] using hfields
  | some d => simpa [Json.wellFormed_ofText, d.wellFormed_toJson] using hfields

theorem Report.wellFormed_toJson (r : Report) : r.toJson.WellFormed := by
  have hviolations : (Json.array (r.violations.map Violation.toJson)).WellFormed := by
    refine Json.wellFormed_array ?_
    simp [Violation.wellFormed_toJson]
  refine Json.wellFormed_ofMembers ?_
  simp [hviolations, Json.wellFormed_ofNat]

theorem Report.parse?_render (r : Report) : Json.parse? (r.render .json) = some r.toJson := by
  have hline : Json.IsBlank "\n".toList := by simp [Json.IsBlank, Json.isSpace]
  exact Json.parse?_of_renders (Json.renders_pretty r.wellFormed_toJson hline)

/-- The named texts of an object that holds nothing else. -/
def Json.texts? (v : Json) : Option (List (String × String)) := do
  (← v.members?).mapM fun m => m.2.text?.map fun text => (m.1, text)

/-- A diagnostic shows its identifier and its data. -/
theorem Diagnostic.get?_toJson (d : Diagnostic) :
    (d.toJson.get? "id").bind Json.text? = some d.id ∧
      (d.toJson.get? "data").map Json.texts?
        = if d = .pathViolation then none else some (some d.data) := by
  cases d <;> simp [toJson, tagged, id, data, Json.texts?]

/-- A report whose counts fit is read back from its JSON output. The encoding of a diagnostic shows
its identifier and exactly its data, and no data where there are none. -/
theorem Report.ofJson?_render :
    (∀ r : Report, r.Fits → (Json.parse? (r.render .json)).bind Report.ofJson? = some r) ∧
      ∀ d : Diagnostic, ∃ v, Json.parse? d.toJson.toPrettyText = some v ∧
        (v.get? "id").bind Json.text? = some d.id ∧
        (v.get? "data").map Json.texts?
          = if d = .pathViolation then none else some (some d.data) := by
  constructor
  · intro r h
    rw [r.parse?_render]
    exact ofJson?_toJson h
  · intro d
    have hnothing : Json.IsBlank "".toList := by simp [Json.IsBlank]
    have hrenders := Json.renders_pretty d.wellFormed_toJson hnothing
    rw [String.append_empty] at hrenders
    exact ⟨d.toJson, Json.parse?_of_renders hrenders, d.get?_toJson⟩

/-- A report with the greatest counts, every kind of optional part, and characters that have to be
escaped. -/
def Report.extreme : Report :=
  let place : Location :=
    ⟨"src/größe\\\"a\".ts", 18446744073709551615, 1, 18446744073709551615, 0⟩
  { violations :=
      [ { code := "FSD002", rule := "cross-import", severity := .warning, location := place,
          message := "\x01\t\n\u2028",
          diagnostic := some (.invalidCrossNotation "entities/a" "@/entities/b/@x/c" "\x7f"),
          suggestion := some ⟨"", some ⟨place, "\x00"⟩⟩ },
        { code := "", rule := "", severity := .info, location := place, message := "null",
          diagnostic := none, suggestion := some ⟨"\\u0041", none⟩ },
        { code := "FSD004", rule := "path-checker", severity := .error, location := place,
          message := "", diagnostic := some .pathViolation, suggestion := none } ]
    filesChecked := 18446744073709551615 }

theorem Report.ofJson?_render_extreme :
    extreme.Fits ∧ (Json.parse? (extreme.render .json)).bind Report.ofJson? = some extreme := by
  have hplace : ∀ file, Location.Fits ⟨file, 18446744073709551615, 1, 18446744073709551615, 0⟩ :=
    have hone : 1 ≤ Json.maxCount := by decide
    have hmax : 18446744073709551615 ≤ Json.maxCount := by decide
    fun _ => ⟨hmax, hone, hmax, Nat.zero_le _⟩
  have hfits : extreme.Fits := by
    refine ⟨?_, by decide⟩
    intro v hv
    simp only [extreme, List.mem_cons, List.not_mem_nil, or_false] at hv
    rcases hv with rfl | rfl | rfl
    · refine ⟨hplace _, fun s hs r hr => ?_⟩
      cases hs
      cases hr
      exact hplace _
    · refine ⟨hplace _, fun s hs r hr => ?_⟩
      cases hs
      cases hr
    · refine ⟨hplace _, fun s hs => ?_⟩
      cases hs
  exact ⟨hfits, ofJson?_render.1 extreme hfits⟩

end SliceLint

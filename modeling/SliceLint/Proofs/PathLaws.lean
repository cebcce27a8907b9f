import Mathlib.Data.List.Forall2
import SliceLint.Proofs.Specifier

set_option autoImplicit false

/-! # Laws of relative paths

How deep a walk is at any moment is a matter of counting: each name goes one level down and each
`..` one level up. The walk fails exactly if some start of the segments goes up more often than it
can (`Specifier.follow_eq_none_iff`), also where the rest would lead back into the tree.

Segments that lead nowhere may be put in and taken out at any place: blank ones, and a name that is
left again at once. The last theorem carries these laws over to specifiers, where in addition the
style of the slashes does not matter (`Specifier.resolve?_laws`). -/

namespace SliceLint

namespace Specifier

instance (part : String) : Decidable (IsName part) :=
  inferInstanceAs (Decidable (part ≠ "" ∧ part ≠ "." ∧ part ≠ ".."))

/-- How many of some segments are names. -/
def nameCount (parts : List String) : Nat :=
  parts.countP fun part => decide (IsName part)

/-! ## Counting -/

theorem count_blank {part : String} (h : part = "" ∨ part = ".") (rest : List String) :
    nameCount (part :: rest) = nameCount rest ∧
      (part :: rest).count ".." = rest.count ".." := by
  rcases h with rfl | rfl
  · exact ⟨List.countP_cons_of_neg (by decide), List.count_cons_of_ne (by decide)⟩
  · exact ⟨List.countP_cons_of_neg (by decide), List.count_cons_of_ne (by decide)⟩

theorem count_up (rest : List String) :
    nameCount (".." :: rest) = nameCount rest ∧
      (".." :: rest).count ".." = rest.count ".." + 1 :=
  ⟨List.countP_cons_of_neg (by decide), List.count_cons_self⟩

theorem count_name {part : String} (h : IsName part) (rest : List String) :
    nameCount (part :: rest) = nameCount rest + 1 ∧
      (part :: rest).count ".." = rest.count ".." :=
  ⟨List.countP_cons_of_pos (by simpa using h), List.count_cons_of_ne h.2.2⟩

/-- A walk ends as deep as its names and steps up say. -/
theorem length_follow {parts dir d : List String} (h : follow dir parts = some d) :
    d.length + parts.count ".." = dir.length + nameCount parts := by
  induction parts generalizing dir with
  | nil =>
      obtain rfl := Option.some.inj h
      rfl
  | cons part parts ih =>
      rcases part_cases part with hblank | rfl | hname
      · obtain ⟨hnames, hups⟩ := count_blank hblank parts
        rw [follow_blank hblank] at h
        rw [hnames, hups]
        exact ih h
      · obtain ⟨hnames, hups⟩ := count_up parts
        have hne : dir ≠ [] := by
          rintro rfl
          simp [follow] at h
        have hpos := List.length_pos_of_ne_nil hne
        rw [follow_up hne] at h
        have hrest := ih h
        rw [List.length_dropLast] at hrest
        omega
      · obtain ⟨hnames, hups⟩ := count_name hname parts
        rw [follow_name hname] at h
        have hrest := ih h
        rw [List.length_append, List.length_singleton] at hrest
        omega

/-! ## Climbing out -/

/-- A walk that fails goes up too often in some start of its segments. -/
theorem exists_of_follow_eq_none {parts dir : List String} (h : follow dir parts = none) :
    ∃ front, front <+: parts ∧ dir.length + nameCount front < front.count ".." := by
  induction parts generalizing dir with
  | nil => cases h
  | cons part parts ih =>
      rcases part_cases part with hblank | rfl | hname
      · rw [follow_blank hblank] at h
        obtain ⟨front, hfront, hlt⟩ := ih h
        obtain ⟨hnames, hups⟩ := count_blank hblank front
        refine ⟨part :: front, List.cons_prefix_cons.2 ⟨rfl, hfront⟩, ?_⟩
        rw [hnames, hups]
        exact hlt
      · by_cases hdir : dir = []
        · -- the first step that has nowhere to go
          subst hdir
          exact ⟨[".."], List.cons_prefix_cons.2 ⟨rfl, List.nil_prefix⟩, by decide⟩
        · rw [follow_up hdir] at h
          obtain ⟨front, hfront, hlt⟩ := ih h
          obtain ⟨hnames, hups⟩ := count_up front
          have hpos := List.length_pos_of_ne_nil hdir
          rw [List.length_dropLast] at hlt
          exact ⟨".." :: front, List.cons_prefix_cons.2 ⟨rfl, hfront⟩, by omega⟩
      · rw [follow_name hname] at h
        obtain ⟨front, hfront, hlt⟩ := ih h
        obtain ⟨hnames, hups⟩ := count_name hname front
        rw [List.length_append, List.length_singleton] at hlt
        exact ⟨part :: front, List.cons_prefix_cons.2 ⟨rfl, hfront⟩, by omega⟩

theorem follow_eq_none_iff {dir parts : List String} :
    follow dir parts = none ↔
      ∃ front, front <+: parts ∧ dir.length + nameCount front < front.count ".." := by
  constructor
  · exact exists_of_follow_eq_none
  · rintro ⟨front, ⟨rest, rfl⟩, hlt⟩
    rw [follow_append]
    cases hfront : follow dir front with
    | none => rfl
    | some d =>
        have hdepth := length_follow hfront
        omega

/-! ## Segments that lead nowhere -/

theorem follow_insert_blank {blank : String} (h : blank = "" ∨ blank = ".")
    (dir front back : List String) :
    follow dir (front ++ blank :: back) = follow dir (front ++ back) := by
  rw [follow_append, follow_append]
  simp only [follow_blank h]

theorem follow_insert_turn {name : String} (h : IsName name) (dir front back : List String) :
    follow dir (front ++ name :: ".." :: back) = follow dir (front ++ back) := by
  have hturn : ∀ d, follow d (name :: ".." :: back) = follow d back := by
    intro d
    rw [follow_name h, follow_up (by simp), List.dropLast_concat]
  rw [follow_append, follow_append]
  simp only [hturn]

/-! ## Specifiers -/

/-- Two specifiers that differ at most in which of their separators are slashes and which are back
slashes. -/
def SlashVariant (s t : String) : Prop :=
  List.Forall₂ (fun c d => c = d ∨ isSeparator c = true ∧ isSeparator d = true) s.toList t.toList

theorem slash_of_isSeparator {c : Char} (h : isSeparator c = true) : Text.slash c = '/' := by
  rw [isSeparator, Bool.or_eq_true, beq_iff_eq, beq_iff_eq] at h
  rcases h with rfl | rfl <;> decide

theorem SlashVariant.slashed_eq {s t : String} (h : SlashVariant s t) :
    Text.slashed s = Text.slashed t := by
  have hmap : s.toList.map Text.slash = t.toList.map Text.slash := by
    rw [← List.forall₂_eq_eq_eq, List.forall₂_map_left_iff, List.forall₂_map_right_iff]
    refine h.imp fun c d hcd => ?_
    rcases hcd with rfl | ⟨hc, hd⟩
    · rfl
    · rw [slash_of_isSeparator hc, slash_of_isSeparator hd]
  rw [Text.slashed, Text.slashed, hmap]

/-- What a specifier that stays in the tree resolves to: some of the file's directories, then names
of the specifier, in order and as many as its steps leave. -/
theorem exists_of_resolve? {file specifier path : String}
    (h : resolve? file specifier = some path) :
    ∃ kept down, kept ≤ (directory file).length ∧
      path = Text.joinSegments ((directory file).take kept ++ down) ∧
      down.Sublist (parts specifier) ∧ (∀ part ∈ down, IsName part) ∧
      kept + down.length + (parts specifier).count ".." =
        (directory file).length + nameCount (parts specifier) ∧
      (kept + down.length ≠ 0 → Text.segments path = (directory file).take kept ++ down) := by
  obtain ⟨path, hwalk, rfl⟩ := Option.map_eq_some_iff.1 h
  have hdepth := length_follow hwalk
  obtain ⟨bound, down, hpath, -, hsub, hdown⟩ := follow_eq_append hwalk
  have hkept : (directory file).take bound =
      (directory file).take (min bound (directory file).length) :=
    List.take_eq_take_iff.2 (by omega)
  rw [hkept] at hpath
  subst hpath
  refine ⟨min bound (directory file).length, down, Nat.min_le_right _ _, rfl, hsub, hdown, ?_, ?_⟩
  · rw [List.length_append, List.length_take] at hdepth
    omega
  · intro hpos
    rw [parts_eq] at hwalk
    refine segments_joinSegments_follow hwalk fun hnil => hpos ?_
    have hlength := congrArg List.length hnil
    rw [List.length_append, List.length_take, List.length_nil] at hlength
    omega

/-- A specifier climbs out of the tree exactly if some start of its segments has more steps up than
the file has directories and the start has names. Otherwise it resolves to the first directories of
the file and names of the specifier in order, with as many segments as these counts leave. Blank
segments and names that are left again at once may stand anywhere, and slashes of both kinds are
alike. -/
theorem resolve?_laws (file specifier : String) :
    (resolve? file specifier = none ↔
      ∃ front, front <+: parts specifier ∧
        (directory file).length + nameCount front < front.count "..") ∧
    (∀ path, resolve? file specifier = some path →
      ∃ kept down, kept ≤ (directory file).length ∧
        path = Text.joinSegments ((directory file).take kept ++ down) ∧
        down.Sublist (parts specifier) ∧ (∀ part ∈ down, IsName part) ∧
        kept + down.length + (parts specifier).count ".." =
          (directory file).length + nameCount (parts specifier) ∧
        (kept + down.length ≠ 0 → Text.segments path = (directory file).take kept ++ down)) ∧
    ∀ other,
      (∀ front back blank, blank = "" ∨ blank = "." → parts specifier = front ++ back →
        parts other = front ++ blank :: back → resolve? file other = resolve? file specifier) ∧
      (∀ front back name, IsName name → parts specifier = front ++ back →
        parts other = front ++ name :: ".." :: back →
        resolve? file other = resolve? file specifier) ∧
      (SlashVariant specifier other → resolve? file other = resolve? file specifier) := by
  refine ⟨?_, fun path => exists_of_resolve?, fun other => ⟨?_, ?_, ?_⟩⟩
  · rw [resolve?, Option.map_eq_none_iff]
    exact follow_eq_none_iff
  · intro front back blank hblank hwritten hother
    rw [resolve?, resolve?, hwritten, hother, follow_insert_blank hblank]
  · intro front back name hname hwritten hother
    rw [resolve?, resolve?, hwritten, hother, follow_insert_turn hname]
  · intro hslashes
    rw [← resolve?_slashed, ← hslashes.slashed_eq, resolve?_slashed]

/-- Climbing out of the tree is not made good by coming back. A detour inside the tree is, whatever
slashes it is written with. -/
theorem resolve?_laws_detour :
    let file := "app/home/index.ts"
    resolve? file "../../../app/cart" = none ∧
      resolve? file "..\\cart/..\\/cart" = some "app/cart" ∧
      ∃ kept down, kept ≤ 2 ∧ "app/cart" = Text.joinSegments (["app", "home"].take kept ++ down) ∧
        down.Sublist ["..", "cart"] ∧ kept + down.length + 1 = 2 + 1 := by
  intro file
  have hout : resolve? file "../../../app/cart" = none :=
    (resolve?_laws file "../../../app/cart").1.2
      ⟨["..", "..", ".."], ⟨["app", "cart"], by decide +kernel⟩, by decide +kernel⟩
  obtain ⟨-, hpath, hrespelled⟩ := resolve?_laws file "../cart"
  have hcart : resolve? file "../cart" = some "app/cart" := by decide +kernel
  have hblank : resolve? file "..//cart" = resolve? file "../cart" :=
    (hrespelled "..//cart").1 [".."] ["cart"] "" (Or.inl rfl) (by decide +kernel)
      (by decide +kernel)
  have hturn : resolve? file "../cart/..//cart" = resolve? file "..//cart" :=
    ((resolve?_laws file "..//cart").2.2 "../cart/..//cart").2.1 [".."] ["", "cart"] "cart"
      (by decide) (by decide +kernel) (by decide +kernel)
  have hslash : resolve? file "..\\cart/..\\/cart" = resolve? file "../cart/..//cart" :=
    ((resolve?_laws file "../cart/..//cart").2.2 "..\\cart/..\\/cart").2.2 (by
      simp [SlashVariant, isSeparator])
  have hdir : directory file = ["app", "home"] := by decide +kernel
  have hparts : parts "../cart" = ["..", "cart"] := by decide +kernel
  have hcounts : ["..", "cart"].count ".." = 1 ∧ nameCount ["..", "cart"] = 1 := by decide +kernel
  simp only [hdir, hparts, hcounts] at hpath
  obtain ⟨kept, down, hkept, hjoin, hsub, -, hcount, -⟩ := hpath _ hcart
  exact ⟨hout, by rw [hslash, hturn, hblank, hcart], kept, down, hkept, hjoin, hsub, hcount⟩

end Specifier

end SliceLint

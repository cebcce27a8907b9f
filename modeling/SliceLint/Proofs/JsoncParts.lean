import Mathlib.Data.List.Infix
import SliceLint.Proofs.Comments

set_option autoImplicit false

/-! # Parts of a text with comments

Any text, well-formed or not, divides into characters of code, string literals and comments, and it
does so in one way (`Jsonc.reading_unique`, `Jsonc.exists_reading`). Strings and comments reach up to
their first end, or up to the end of the text.

Both passes go from part to part. The first one leaves the line feeds of each comment
(`Jsonc.reading_stripComments`), the second one drops some commas of the code
(`Jsonc.reading_stripCommas`). What stood apart may stand side by side then. But a slash of the code
never stands in front of a comment, since the two would open a comment themselves, and what follows
a dropped comma is blank or a closing bracket. So no comment is opened and no string is opened or
closed where none was before. -/

namespace SliceLint

namespace Jsonc

/-! ## First ends -/

/-- A start of a text that reaches up to its first end, or up to the end of the text if there is
none. -/
structure UpToFirst (ends : List Char → Prop) (start rest : List Char) : Prop where
  reaches : ends start ∨ rest = []
  first : ∀ shorter, shorter <+: start → shorter ≠ start → ¬ ends shorter

namespace UpToFirst

variable {ends : List Char → Prop} {start rest : List Char}

theorem unique {start' rest' : List Char} (h : UpToFirst ends start rest)
    (h' : UpToFirst ends start' rest') (heq : start ++ rest = start' ++ rest') :
    start = start' ∧ rest = rest' := by
  -- a shorter start has no end, so it would be the whole text
  have hshorter : ∀ {start rest start' rest' : List Char}, UpToFirst ends start rest →
      UpToFirst ends start' rest' → start ++ rest = start' ++ rest' → start <+: start' →
      start = start' := by
    intro start rest start' rest' h h' heq hbegins
    by_contra hne
    have hrest : rest = [] := h.reaches.resolve_left (h'.first start hbegins hne)
    rw [hrest, List.append_nil] at heq
    exact hne (hbegins.eq_of_length_le (by simp [heq]))
  have hstart : start = start' := by
    rcases List.prefix_or_prefix_of_prefix (List.prefix_append start rest)
      (heq ▸ List.prefix_append start' rest') with hbegins | hbegins
    · exact hshorter h h' heq hbegins
    · exact (hshorter h' h heq.symm hbegins).symm
  subst hstart
  exact ⟨rfl, List.append_cancel_left heq⟩

theorem exists_start (ends : List Char → Prop) (cs : List Char) :
    ∃ start rest, UpToFirst ends start rest ∧ cs = start ++ rest := by
  induction cs using List.reverseRecOn with
  | nil => exact ⟨[], [], ⟨Or.inr rfl, fun s hs hne => absurd (List.prefix_nil.1 hs) hne⟩, rfl⟩
  | append_singleton cs c ih =>
      obtain ⟨start, rest, ⟨hreaches, hfirst⟩, rfl⟩ := ih
      by_cases hends : ends start
      · exact ⟨start, rest ++ [c], ⟨Or.inl hends, hfirst⟩, by simp⟩
      · obtain rfl := hreaches.resolve_left hends
        refine ⟨start ++ [c], [], ⟨Or.inr rfl, fun s hs hne => ?_⟩, by simp⟩
        rcases List.prefix_concat_iff.1 hs with rfl | hs
        · exact absurd rfl hne
        · by_cases hwhole : s = start
          · exact hwhole ▸ hends
          · exact hfirst s hs hwhole

/-- The rest may change, but there is none behind a start without an end. -/
theorem of_rest {rest' : List Char} (h : UpToFirst ends start rest)
    (hrest : rest = [] → rest' = []) : UpToFirst ends start rest' :=
  ⟨h.reaches.imp_right hrest, h.first⟩

/-- A start that has no end is not even begun by an end. -/
theorem not_ends (h : UpToFirst ends start rest) (hopen : ¬ ends start) {shorter : List Char}
    (hbegins : shorter <+: start) : ¬ ends shorter := by
  by_cases hwhole : shorter = start
  · exact hwhole ▸ hopen
  · exact h.first shorter hbegins hwhole

end UpToFirst

/-! ## Parts -/

/-- A part of a text: a character outside strings and comments, a string literal with its quotes, or
a comment. -/
inductive Part where
  | code (c : Char)
  | string (literal : List Char)
  | comment (text : List Char)
  deriving DecidableEq, Repr

/-- The characters of a part. -/
def Part.text : Part → List Char
  | code c => [c]
  | string literal => literal
  | comment text => text

/-- The characters of some parts. -/
def textOf (ps : List Part) : List Char :=
  ps.flatMap Part.text

/-- The string literals among some parts. -/
def literals (ps : List Part) : List (List Char) :=
  ps.filterMap fun
    | .string literal => some literal
    | _ => none

/-- Whether a text, read from behind an opening quote, ends with a quote that closes it. -/
def ClosesString (cs : List Char) : Prop :=
  ∃ body, Text.Unquoted '"' body ∧ cs = body ++ ['"']

/-- Whether a text goes on with the second character of a comment's opening. -/
def OpensAfterSlash (cs : List Char) : Prop :=
  cs.head? = some '/' ∨ cs.head? = some '*'

/-- Whether a text that is a part and a rest begins with this part. -/
inductive Part.Fits : Part → List Char → Prop where
  | code {c : Char} {rest : List Char} (quote : c ≠ '"')
      (slash : c = '/' → ¬ OpensAfterSlash rest) : Fits (.code c) rest
  | string {cs rest : List Char} (upTo : UpToFirst ClosesString cs rest) :
      Fits (.string ('"' :: cs)) rest
  | line {cs rest : List Char} (upTo : UpToFirst (['\n'] <:+ ·) cs rest) :
      Fits (.comment ('/' :: '/' :: cs)) rest
  | block {cs rest : List Char} (upTo : UpToFirst (['*', '/'] <:+ ·) cs rest) :
      Fits (.comment ('/' :: '*' :: cs)) rest

/-- How a text divides into parts. -/
inductive Reading : List Char → List Part → Prop where
  | nil : Reading [] []
  | cons {rest : List Char} {p : Part} {ps : List Part} (fits : p.Fits rest)
      (more : Reading rest ps) : Reading (p.text ++ rest) (p :: ps)

/-! ## One reading -/

/-- Only one part begins a text. -/
theorem Part.Fits.unique {p q : Part} {rest rest' : List Char} (hp : p.Fits rest)
    (hq : q.Fits rest') (heq : p.text ++ rest = q.text ++ rest') : p = q ∧ rest = rest' := by
  cases hp with
  | code hquote hslash =>
      cases hq <;> simp_all [Part.text, OpensAfterSlash]
  | string hupTo =>
      cases hq with
      | code hquote => exact absurd (List.cons.inj heq).1.symm hquote
      | string hupTo' =>
          obtain ⟨rfl, rfl⟩ := hupTo.unique hupTo' (List.cons.inj heq).2
          exact ⟨rfl, rfl⟩
      | _ => simp [Part.text] at heq
  | line hupTo =>
      cases hq with
      | code hquote hslash =>
          obtain ⟨rfl, rfl⟩ := List.cons.inj heq
          exact absurd (Or.inl rfl) (hslash rfl)
      | line hupTo' =>
          obtain ⟨rfl, rfl⟩ := hupTo.unique hupTo' (by simpa [Part.text] using heq)
          exact ⟨rfl, rfl⟩
      | _ => simp [Part.text] at heq
  | block hupTo =>
      cases hq with
      | code hquote hslash =>
          obtain ⟨rfl, rfl⟩ := List.cons.inj heq
          exact absurd (Or.inr rfl) (hslash rfl)
      | block hupTo' =>
          obtain ⟨rfl, rfl⟩ := hupTo.unique hupTo' (by simpa [Part.text] using heq)
          exact ⟨rfl, rfl⟩
      | _ => simp [Part.text] at heq

theorem Part.Fits.text_ne_nil {p : Part} {rest : List Char} (h : p.Fits rest) : p.text ≠ [] := by
  cases h <;> simp [Part.text]

theorem reading_unique {cs : List Char} {ps qs : List Part} (hp : Reading cs ps)
    (hq : Reading cs qs) : ps = qs := by
  induction hp generalizing qs with
  | nil =>
      generalize hcs : [] = cs at hq
      cases hq with
      | nil => rfl
      | cons hfits _ => exact absurd (List.append_eq_nil_iff.1 hcs.symm).1 hfits.text_ne_nil
  | @cons rest p ps hfits _ ih =>
      generalize hcs : p.text ++ rest = cs at hq
      cases hq with
      | nil => exact absurd (List.append_eq_nil_iff.1 hcs).1 hfits.text_ne_nil
      | cons hfits' hmore =>
          obtain ⟨rfl, rfl⟩ := hfits.unique hfits' hcs
          rw [ih hmore]

theorem exists_fits {cs : List Char} (hne : cs ≠ []) :
    ∃ (p : Part) (rest : List Char), p.Fits rest ∧ cs = p.text ++ rest := by
  obtain ⟨c, cs, rfl⟩ := List.exists_cons_of_ne_nil hne
  by_cases hquote : c = '"'
  · obtain ⟨start, rest, hupTo, rfl⟩ := UpToFirst.exists_start ClosesString cs
    exact ⟨_, rest, .string hupTo, by rw [hquote]; rfl⟩
  · by_cases hopens : c = '/' ∧ OpensAfterSlash cs
    · obtain ⟨rfl, hopens⟩ := hopens
      rcases hopens with hopens | hopens
      · obtain ⟨cs, rfl⟩ := List.head?_eq_some_iff.1 hopens
        obtain ⟨start, rest, hupTo, rfl⟩ := UpToFirst.exists_start (['\n'] <:+ ·) cs
        exact ⟨_, rest, .line hupTo, rfl⟩
      · obtain ⟨cs, rfl⟩ := List.head?_eq_some_iff.1 hopens
        obtain ⟨start, rest, hupTo, rfl⟩ := UpToFirst.exists_start (['*', '/'] <:+ ·) cs
        exact ⟨_, rest, .block hupTo, rfl⟩
    · exact ⟨.code c, cs, .code hquote fun hslash h => hopens ⟨hslash, h⟩, rfl⟩

theorem exists_reading (cs : List Char) : ∃ ps, Reading cs ps := by
  induction hlength : cs.length using Nat.strong_induction_on generalizing cs with
  | _ n ih =>
      by_cases hne : cs = []
      · exact ⟨[], by rw [hne]; exact .nil⟩
      · obtain ⟨p, rest, hfits, rfl⟩ := exists_fits hne
        have hpos := List.length_pos_iff.2 hfits.text_ne_nil
        rw [List.length_append] at hlength
        obtain ⟨ps, hps⟩ := ih rest.length (by omega) rest rfl
        exact ⟨p :: ps, .cons hfits hps⟩

theorem Reading.textOf_eq {cs : List Char} {ps : List Part} (h : Reading cs ps) :
    textOf ps = cs := by
  induction h with
  | nil => rfl
  | cons _ _ ih => rw [textOf, List.flatMap_cons, ← textOf, ih]

/-- A part may stand in front of another rest, as long as no comment is opened there and nothing
follows what reached up to the end of the text. -/
theorem Part.Fits.of_rest {p : Part} {rest rest' : List Char} (h : p.Fits rest)
    (hnil : rest = [] → rest' = []) (hopens : OpensAfterSlash rest' → OpensAfterSlash rest) :
    p.Fits rest' := by
  cases h with
  | code hquote hslash => exact .code hquote fun hc h => hslash hc (hopens h)
  | string hupTo => exact .string (hupTo.of_rest hnil)
  | line hupTo => exact .line (hupTo.of_rest hnil)
  | block hupTo => exact .block (hupTo.of_rest hnil)

/-! ## Strings and comments that do not end -/

/-- What may follow the opening quote of a string that does not end. The last back slash of the text
has nothing to escape. -/
inductive Unclosed : List Char → Prop where
  | nil : Unclosed []
  | backslash : Unclosed ['\\']
  | plain {c : Char} {cs : List Char} (quote : c ≠ '"') (backslash : c ≠ '\\')
      (rest : Unclosed cs) : Unclosed (c :: cs)
  | escaped {c : Char} {cs : List Char} (rest : Unclosed cs) : Unclosed ('\\' :: c :: cs)

theorem unclosed_of_not_closesString : (cs : List Char) →
    (∀ start, start <+: cs → ¬ ClosesString start) → Unclosed cs
  | [], _ => .nil
  | c :: cs, h => by
      by_cases hquote : c = '"'
      · exact absurd ⟨[], .nil, by rw [hquote]; rfl⟩ (h [c] ⟨cs, rfl⟩)
      · by_cases hback : c = '\\'
        · subst hback
          cases cs with
          | nil => exact .backslash
          | cons d cs =>
              refine .escaped (unclosed_of_not_closesString cs fun start hstart => ?_)
              rintro ⟨body, hbody, rfl⟩
              refine h ('\\' :: d :: (body ++ ['"'])) ?_ ⟨_, .escaped hbody, rfl⟩
              simpa using hstart
        · refine .plain hquote hback (unclosed_of_not_closesString cs fun start hstart => ?_)
          rintro ⟨body, hbody, rfl⟩
          refine h (c :: (body ++ ['"'])) ?_ ⟨_, .plain hquote hback hbody, rfl⟩
          simpa using hstart

theorem UpToFirst.string_cases {cs rest : List Char} (h : UpToFirst ClosesString cs rest) :
    (∃ body, Text.Unquoted '"' body ∧ cs = body ++ ['"']) ∨ rest = [] ∧ Unclosed cs := by
  by_cases hends : ClosesString cs
  · exact Or.inl hends
  · exact Or.inr ⟨h.reaches.resolve_left hends,
      unclosed_of_not_closesString cs fun start hstart => h.not_ends hends hstart⟩

/-- Up to its first end, a comment is a body without an end in it, and the end. If there is no end,
none stands in what is left of the text. -/
theorem UpToFirst.suffix_cases {stop cs rest : List Char} (hstop : stop ≠ [])
    (h : UpToFirst (stop <:+ ·) cs rest) :
    (∃ body, cs = body ++ stop ∧ ¬ stop <:+: body) ∨ rest = [] ∧ ¬ stop <:+: cs := by
  by_cases hends : stop <:+ cs
  · obtain ⟨body, rfl⟩ := hends
    refine Or.inl ⟨body, rfl, ?_⟩
    rintro ⟨front, back, rfl⟩
    refine h.first (front ++ stop) ⟨back ++ stop, by simp⟩ (fun heq => ?_) ⟨front, rfl⟩
    have hlength := congrArg List.length heq
    have hpos := List.length_pos_iff.2 hstop
    simp only [List.length_append] at hlength
    omega
  · refine Or.inr ⟨h.reaches.resolve_left hends, ?_⟩
    rintro ⟨front, back, rfl⟩
    exact h.not_ends hends ⟨back, rfl⟩ ⟨front, rfl⟩

/-! ## The first pass -/

/-- What the first pass leaves of a part: of a comment, its line feeds. -/
def Part.uncommented : Part → List Part
  | comment text => (lineFeeds text).map code
  | p => [p]

theorem textOf_map_code (cs : List Char) : textOf (cs.map .code) = cs := by
  induction cs with
  | nil => rfl
  | cons c cs ih => rw [List.map_cons, textOf, List.flatMap_cons, ← textOf, ih]; rfl

theorem lineFeeds_append (cs ds : List Char) :
    lineFeeds (cs ++ ds) = lineFeeds cs ++ lineFeeds ds :=
  List.filter_append ..

theorem lineFeeds_eq_nil {cs : List Char} (h : '\n' ∉ cs) : lineFeeds cs = [] :=
  List.filter_eq_nil_iff.2 fun _ hc heq => h (beq_iff_eq.1 heq ▸ hc)

theorem stripCommentsFrom_unclosed {cs : List Char} (h : Unclosed cs) :
    stripCommentsFrom .string cs = cs := by
  induction h with
  | nil => rfl
  | backslash => rfl
  | plain hquote hback _ ih => rw [stripCommentsFrom_literal hquote hback, ih]
  | escaped _ ih => rw [stripCommentsFrom_escape, ih]

/-- The first pass goes from part to part. -/
theorem stripComments_part {p : Part} {rest : List Char} (h : p.Fits rest) :
    stripComments (p.text ++ rest) = textOf p.uncommented ++ stripComments rest := by
  unfold stripComments
  cases h with
  | @code c rest hquote hslash =>
      show stripCommentsFrom .code (c :: rest) = c :: stripCommentsFrom .code rest
      by_cases hc : c = '/'
      · subst hc
        have hopens := hslash rfl
        cases rest with
        | nil => rfl
        | cons d rest =>
            simp only [OpensAfterSlash, List.head?_cons, Option.some.injEq, not_or] at hopens
            simp [stripCommentsFrom, hopens]
      · exact stripCommentsFrom_code hquote hc rest
  | @string cs rest hupTo =>
      show '"' :: stripCommentsFrom .string (cs ++ rest)
        = '"' :: cs ++ [] ++ stripCommentsFrom .code rest
      rcases hupTo.string_cases with ⟨body, hbody, rfl⟩ | ⟨rfl, hopen⟩
      · simp [stripCommentsFrom_string hbody]
      · simp [stripCommentsFrom_unclosed hopen]
  | @line cs rest hupTo =>
      show stripCommentsFrom .line (cs ++ rest)
        = textOf ((lineFeeds cs).map .code) ++ stripCommentsFrom .code rest
      rw [textOf_map_code]
      rcases hupTo.suffix_cases (by simp) with ⟨body, rfl, hbody⟩ | ⟨rfl, hopen⟩
      · rw [List.singleton_infix_iff] at hbody
        have hend : lineFeeds ['\n'] = ['\n'] := rfl
        rw [lineFeeds_append, lineFeeds_eq_nil hbody, hend]
        simpa using (stripCommentsFrom_line hbody rest).1
      · rw [List.singleton_infix_iff] at hopen
        rw [lineFeeds_eq_nil hopen]
        simpa using (stripCommentsFrom_line hopen []).2
  | @block cs rest hupTo =>
      show stripCommentsFrom (.block false) (cs ++ rest)
        = textOf ((lineFeeds cs).map .code) ++ stripCommentsFrom .code rest
      rw [textOf_map_code]
      rcases hupTo.suffix_cases (by simp) with ⟨body, rfl, hbody⟩ | ⟨rfl, hopen⟩
      · have hend : lineFeeds ['*', '/'] = [] := rfl
        rw [lineFeeds_append, hend]
        simpa using (stripCommentsFrom_block false hbody (by simp) rest).1
      · simpa using (stripCommentsFrom_block false hopen (by simp) []).2

/-- Where the first pass leaves a slash or a star in front, a slash or a star stood in front. -/
theorem opensAfterSlash_of_stripComments {cs : List Char} (h : OpensAfterSlash (stripComments cs)) :
    OpensAfterSlash cs := by
  by_cases hne : cs = []
  · rw [hne] at h ⊢
    exact h
  · obtain ⟨p, rest, hfits, rfl⟩ := exists_fits hne
    rw [stripComments_part hfits] at h
    cases hfits with
    | code => exact h
    | string => exact h
    | line => exact Or.inl rfl
    | block => exact Or.inl rfl

/-- Line feeds in front of a text are characters of its code. -/
theorem Reading.lineFeeds_append {cs : List Char} {ps : List Part} (h : Reading cs ps)
    (text : List Char) : Reading (lineFeeds text ++ cs) ((lineFeeds text).map .code ++ ps) := by
  induction text with
  | nil => exact h
  | cons c text ih =>
      by_cases hc : c = '\n'
      · subst hc
        exact .cons (p := .code '\n') (.code (by decide) fun h => absurd h (by decide)) ih
      · have hskip : lineFeeds (c :: text) = lineFeeds text := List.filter_cons_of_neg (by simp [hc])
        rw [hskip]
        exact ih

/-- The first pass leaves the parts that are no comments, and the line feeds of the comments. -/
theorem reading_stripComments {cs : List Char} {ps : List Part} (h : Reading cs ps) :
    Reading (stripComments cs) (ps.flatMap Part.uncommented) := by
  induction h with
  | nil => exact .nil
  | @cons rest p ps hfits _ ih =>
      rw [stripComments_part hfits, List.flatMap_cons]
      cases p with
      | comment text =>
          rw [Part.uncommented, textOf_map_code]
          exact ih.lineFeeds_append text
      | _ =>
          have hkept : Part.Fits _ (stripComments rest) :=
            hfits.of_rest (by rintro rfl; rfl) opensAfterSlash_of_stripComments
          simpa [textOf, Part.uncommented] using Reading.cons hkept ih

/-! ## The second pass -/

/-- The parts without the commas that a closing bracket follows. -/
def dropTrailing : List Part → List Part
  | [] => []
  | p :: ps =>
    if p = .code ',' ∧ closesNext (textOf ps) = true then dropTrailing ps else p :: dropTrailing ps

theorem stripCommasFrom_unclosed {cs : List Char} (h : Unclosed cs) :
    stripCommasFrom true cs = cs := by
  induction h with
  | nil => rfl
  | backslash => rfl
  | plain hquote hback _ ih => rw [stripCommasFrom_literal hquote hback, ih]
  | escaped _ ih => rw [stripCommasFrom_escape, ih]

/-- The second pass goes from part to part, too, where there are no comments. -/
theorem stripCommas_part {p : Part} {rest : List Char} (h : p.Fits rest)
    (hplain : ∀ text, p ≠ .comment text) :
    stripCommas (p.text ++ rest)
      = if p = .code ',' ∧ closesNext rest = true then stripCommas rest
        else p.text ++ stripCommas rest := by
  unfold stripCommas
  cases h with
  | @code c rest hquote _ =>
      show stripCommasFrom false (c :: rest) = _
      by_cases hcomma : c = ','
      · subst hcomma
        simp [Part.text]
      · rw [stripCommasFrom_code hquote hcomma, if_neg (by simp [hcomma])]
        rfl
  | @string cs rest hupTo =>
      rw [if_neg (by simp)]
      show '"' :: stripCommasFrom true (cs ++ rest) = '"' :: cs ++ stripCommasFrom false rest
      rcases hupTo.string_cases with ⟨body, hbody, rfl⟩ | ⟨rfl, hopen⟩
      · simp [stripCommasFrom_string hbody]
      · simp [stripCommasFrom_unclosed hopen]
  | line => exact absurd rfl (hplain _)
  | block => exact absurd rfl (hplain _)

theorem head_of_closesNext {c : Char} {cs : List Char} (h : closesNext (c :: cs) = true) :
    Text.isBlank c = true ∨ c = '}' ∨ c = ']' := by
  by_cases hblank : Text.isBlank c = true
  · exact Or.inl hblank
  · rw [closesNext, List.dropWhile_cons_of_neg hblank] at h
    exact Or.inr (by simpa using h)

/-- What closes something next begins with a blank or a closing bracket, and still does behind the
second pass. -/
theorem not_opensAfterSlash_of_closesNext {cs : List Char} (h : closesNext cs = true) :
    ¬ OpensAfterSlash (stripCommas cs) := by
  cases cs with
  | nil => cases h
  | cons c cs =>
      have hhead := head_of_closesNext h
      have hother : ∀ d, Text.isBlank d = false → d ≠ '}' → d ≠ ']' → c ≠ d := by
        rintro d hblank hbrace hbracket rfl
        simp [hblank, hbrace, hbracket] at hhead
      have hquote := hother '"' (by decide) (by decide) (by decide)
      have hcomma := hother ',' (by decide) (by decide) (by decide)
      have hslash := hother '/' (by decide) (by decide) (by decide)
      have hstar := hother '*' (by decide) (by decide) (by decide)
      rw [stripCommas, stripCommasFrom_code hquote hcomma]
      simp [OpensAfterSlash, hslash, hstar]

/-- Where the second pass leaves a slash or a star in front, it stood in front. -/
theorem opensAfterSlash_of_stripCommas {cs : List Char} (h : OpensAfterSlash (stripCommas cs)) :
    OpensAfterSlash cs := by
  cases cs with
  | nil => exact h
  | cons c cs =>
      by_cases hquote : c = '"'
      · subst hquote
        exact h
      · by_cases hcomma : c = ','
        · subst hcomma
          rw [stripCommas, stripCommasFrom_comma] at h
          split at h
          · next hcloses => exact absurd h (not_opensAfterSlash_of_closesNext hcloses)
          · exact h
        · rw [stripCommas, stripCommasFrom_code hquote hcomma] at h
          exact h

/-- The second pass drops the commas that a closing bracket follows, and leaves the other parts. -/
theorem reading_stripCommas {cs : List Char} {ps : List Part} (h : Reading cs ps)
    (hplain : ∀ text, .comment text ∉ ps) : Reading (stripCommas cs) (dropTrailing ps) := by
  induction h with
  | nil => exact .nil
  | @cons rest p ps hfits hmore ih =>
      have hrest := ih fun text hmem => hplain text (List.mem_cons_of_mem p hmem)
      rw [stripCommas_part hfits fun text heq => hplain text (by simp [heq]), dropTrailing,
        hmore.textOf_eq]
      split
      · exact hrest
      · exact .cons (hfits.of_rest (by rintro rfl; rfl) opensAfterSlash_of_stripCommas) hrest

/-! ## What both passes keep -/

/-- Parts with some characters of others: what is left out belongs to no string literal and is no
line feed. -/
structure Thins (qs ps : List Part) : Prop where
  literals_eq : literals qs = literals ps
  sublist : (textOf qs).Sublist (textOf ps)
  count_lineFeed : (textOf qs).count '\n' = (textOf ps).count '\n'

theorem Thins.refl (ps : List Part) : Thins ps ps :=
  ⟨rfl, List.Sublist.refl _, rfl⟩

theorem Thins.trans {rs qs ps : List Part} (h : Thins rs qs) (h' : Thins qs ps) : Thins rs ps :=
  ⟨h.literals_eq.trans h'.literals_eq, h.sublist.trans h'.sublist,
    h.count_lineFeed.trans h'.count_lineFeed⟩

theorem Thins.append {qs ps qs' ps' : List Part} (h : Thins qs ps) (h' : Thins qs' ps') :
    Thins (qs ++ qs') (ps ++ ps') where
  literals_eq := by
    have heq := h.literals_eq
    have heq' := h'.literals_eq
    simp only [literals, List.filterMap_append] at heq heq' ⊢
    rw [heq, heq']
  sublist := by
    simpa [textOf, List.flatMap_append] using h.sublist.append h'.sublist
  count_lineFeed := by
    have heq := h.count_lineFeed
    have heq' := h'.count_lineFeed
    simp only [textOf, List.flatMap_append, List.count_append] at heq heq' ⊢
    rw [heq, heq']

theorem thins_uncommented (p : Part) : Thins p.uncommented [p] := by
  cases p with
  | comment text =>
      refine ⟨?_, ?_, ?_⟩
      · simp [Part.uncommented, literals, List.filterMap_map]
      · rw [Part.uncommented, textOf_map_code]
        simp [lineFeeds, textOf, Part.text]
      · rw [Part.uncommented, textOf_map_code, lineFeeds, List.count_filter rfl]
        simp [textOf, Part.text]
  | _ => exact Thins.refl _

theorem thins_flatMap_uncommented (ps : List Part) : Thins (ps.flatMap Part.uncommented) ps := by
  induction ps with
  | nil => exact Thins.refl []
  | cons p ps ih => exact (thins_uncommented p).append ih

theorem thins_dropTrailing (ps : List Part) : Thins (dropTrailing ps) ps := by
  induction ps with
  | nil => exact Thins.refl []
  | cons p ps ih =>
      rw [dropTrailing]
      split
      · next hdropped =>
          have hcomma : Thins [] [p] := by
            rw [hdropped.1]
            exact ⟨rfl, List.nil_sublist _, rfl⟩
          exact hcomma.append ih
      · exact (Thins.refl [p]).append ih

/-! ## Texts without comments -/

theorem comment_notMem_uncommented (ps : List Part) (text : List Char) :
    .comment text ∉ ps.flatMap Part.uncommented := by
  rw [List.mem_flatMap]
  rintro ⟨p, -, hmem⟩
  cases p <;> simp [Part.uncommented] at hmem

theorem dropTrailing_sublist (ps : List Part) : (dropTrailing ps).Sublist ps := by
  induction ps with
  | nil => exact List.Sublist.refl []
  | cons p ps ih =>
      rw [dropTrailing]
      split
      · exact ih.cons p
      · exact ih.cons_cons p

/-- The first pass has nothing to do in a text without comments. -/
theorem Reading.stripComments_eq {cs : List Char} {ps : List Part} (h : Reading cs ps)
    (hplain : ∀ text, .comment text ∉ ps) : stripComments cs = cs := by
  induction h with
  | nil => rfl
  | @cons rest p ps hfits _ ih =>
      have hrest := ih fun text hmem => hplain text (List.mem_cons_of_mem p hmem)
      have hkept : textOf p.uncommented = p.text := by
        cases p with
        | comment text => exact absurd List.mem_cons_self (hplain text)
        | _ => simp [textOf, Part.uncommented]
      rw [stripComments_part hfits, hkept, hrest]

/-- What follows a slash in the code does not open a comment with it. -/
theorem Reading.not_opens {cs : List Char} {front back : List Part} {c : Char}
    (h : Reading cs (front ++ .code '/' :: .code c :: back)) : c ≠ '/' ∧ c ≠ '*' := by
  induction front generalizing cs with
  | nil =>
      cases h with
      | cons hfits hmore =>
          cases hmore with
          | cons =>
              cases hfits with
              | code _ hslash => simpa [OpensAfterSlash, Part.text] using hslash rfl
  | cons p front ih =>
      cases h with
      | cons _ hmore => exact ih hmore

/-- Stripping any text leaves some of its characters, among them all its line feeds. The text and
what is left of it each have one reading. Both hold the same string literals, and what is left holds
no comment and nothing outside its strings that could open one. So the first pass has nothing more
to do, and it never has a second time. -/
theorem strip_reading (s : String) :
    ∃ ps qs, (∀ rs, Reading s.toList rs ↔ rs = ps) ∧ (∀ rs, Reading (strip s).toList rs ↔ rs = qs) ∧
      (strip s).toList.Sublist s.toList ∧
      (strip s).toList.count '\n' = s.toList.count '\n' ∧
      literals qs = literals ps ∧
      (∀ text, .comment text ∉ qs) ∧
      ¬ [.code '/', .code '/'] <:+: qs ∧ ¬ [.code '/', .code '*'] <:+: qs ∧
      stripComments (strip s).toList = (strip s).toList ∧
      stripComments (stripComments s.toList) = stripComments s.toList := by
  obtain ⟨ps, hps⟩ := exists_reading s.toList
  have hfirst := reading_stripComments hps
  have hsecond := reading_stripCommas hfirst (comment_notMem_uncommented ps)
  have hplain : ∀ text, .comment text ∉ dropTrailing (ps.flatMap Part.uncommented) :=
    fun text hmem => comment_notMem_uncommented ps text ((dropTrailing_sublist _).subset hmem)
  have hthins := (thins_dropTrailing _).trans (thins_flatMap_uncommented ps)
  have hqs : Reading (strip s).toList (dropTrailing (ps.flatMap Part.uncommented)) := by
    rw [strip, String.toList_ofList]
    exact hsecond
  have hsublist := hthins.sublist
  have hcount := hthins.count_lineFeed
  rw [hqs.textOf_eq, hps.textOf_eq] at hsublist hcount
  refine ⟨ps, _, fun rs => ⟨fun h => reading_unique h hps, fun h => h ▸ hps⟩,
    fun rs => ⟨fun h => reading_unique h hqs, fun h => h ▸ hqs⟩, hsublist, hcount,
    hthins.literals_eq, hplain, ?_, ?_, hqs.stripComments_eq hplain,
    hfirst.stripComments_eq (comment_notMem_uncommented ps)⟩
  · rintro ⟨front, back, heq⟩
    rw [← heq, List.append_assoc] at hqs
    exact hqs.not_opens.1 rfl
  · rintro ⟨front, back, heq⟩
    rw [← heq, List.append_assoc] at hqs
    exact hqs.not_opens.2 rfl

end Jsonc

end SliceLint

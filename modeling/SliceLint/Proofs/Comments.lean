import SliceLint.Json.Comments
import SliceLint.Proofs.JsonRendering
import SliceLint.Proofs.Text

set_option autoImplicit false

/-! # Stripping comments and trailing commas

A value may be written with comments wherever blanks may stand, and with one more comma after the
last element of an array or object. `Jsonc.Renders` is this grammar. Stripping such a text leaves a
plain rendering of the same value (`Jsonc.strip_rendering`).

The two passes are followed token by token. The first one turns every gap into blanks and leaves the
tokens as they are (`spaced_stripComments`). The second one drops a comma exactly if the next token
closes something (`spaced_stripCommas`), and these are the commas that the value does not have
(`dropExtraCommas_spelled`). -/

namespace SliceLint

open Json (Token Laid Spaced IsBlank IsStringLiteral IsNumberLiteral tokens elementTokens
  memberTokens)

namespace Jsonc

/-! ## The grammar -/

/-- What may stand between tokens. The body of a comment is everything up to its first end. -/
inductive Gap : List Char → Prop where
  | nil : Gap []
  | space {c : Char} {cs : List Char} (space : Json.isSpace c = true) (rest : Gap cs) :
      Gap (c :: cs)
  | line {body cs : List Char} (inside : '\n' ∉ body) (rest : Gap cs) :
      Gap ('/' :: '/' :: (body ++ '\n' :: cs))
  | block {body cs : List Char} (inside : ¬ ['*', '/'] <:+: body) (rest : Gap cs) :
      Gap ('/' :: '*' :: (body ++ '*' :: '/' :: cs))

/-- What may stand after the last token: the end of the text ends a line, too. -/
inductive LastGap : List Char → Prop where
  | closed {g : List Char} (gap : Gap g) : LastGap g
  | line {g body : List Char} (gap : Gap g) (inside : '\n' ∉ body) :
      LastGap (g ++ '/' :: '/' :: body)

mutual

/-- The tokens of a value, where a comma may follow the last element of an array or object. -/
inductive Spelled : Json → List Token → Prop where
  | null : Spelled .null [.null]
  | bool (b : Bool) : Spelled (.bool b) [.bool b]
  | number (literal : List Char) : Spelled (.number literal) [.number literal]
  | string (literal : List Char) : Spelled (.string literal) [.string literal]
  | emptyArray : Spelled (.array []) [.openArray, .closeArray]
  | array {v : Json} {vs : List Json} {ts us : List Token} (first : Spelled v ts)
      (more : SpelledElements vs us) : Spelled (.array (v :: vs)) (.openArray :: (ts ++ us))
  | emptyObject : Spelled (.object []) [.openObject, .closeObject]
  | object {key : List Char} {v : Json} {ms : List (List Char × Json)} {ts us : List Token}
      (first : Spelled v ts) (more : SpelledMembers ms us) :
      Spelled (.object ((key, v) :: ms)) (.openObject :: .string key :: .colon :: (ts ++ us))

/-- The same for the elements of an array after the first, and its closing bracket. -/
inductive SpelledElements : List Json → List Token → Prop where
  | close : SpelledElements [] [.closeArray]
  | extra : SpelledElements [] [.comma, .closeArray]
  | next {v : Json} {vs : List Json} {ts us : List Token} (first : Spelled v ts)
      (more : SpelledElements vs us) : SpelledElements (v :: vs) (.comma :: (ts ++ us))

/-- The same for the members of an object after the first, and its closing brace. -/
inductive SpelledMembers : List (List Char × Json) → List Token → Prop where
  | close : SpelledMembers [] [.closeObject]
  | extra : SpelledMembers [] [.comma, .closeObject]
  | next {key : List Char} {v : Json} {ms : List (List Char × Json)} {ts us : List Token}
      (first : Spelled v ts) (more : SpelledMembers ms us) :
      SpelledMembers ((key, v) :: ms) (.comma :: .string key :: .colon :: (ts ++ us))

end

/-- The texts of a value with comments and extra commas. -/
def Renders (v : Json) (cs : List Char) : Prop :=
  ∃ ts, Spelled v ts ∧ Laid Gap LastGap ts cs

/-! ## Extra commas among tokens -/

/-- Whether the first of some tokens closes an array or object. -/
def closesFirst : List Token → Bool
  | t :: _ => t.closes
  | [] => false

/-- The tokens without the commas in front of those that close something. -/
def dropExtraCommas : List Token → List Token
  | [] => []
  | t :: ts =>
    if t = .comma ∧ closesFirst ts = true then dropExtraCommas ts else t :: dropExtraCommas ts

theorem Spelled.closesFirst {v : Json} {ts : List Token} (h : Spelled v ts) (us : List Token) :
    Jsonc.closesFirst (ts ++ us) = false := by
  cases h <;> rfl

mutual

/-- The commas that go are those that the value does not have. -/
theorem dropExtraCommas_spelled : (v : Json) → {ts : List Token} → Spelled v ts →
    (us : List Token) → dropExtraCommas (ts ++ us) = v.tokens ++ dropExtraCommas us
  | .null, _, .null, us => by simp [tokens, dropExtraCommas]
  | .bool b, _, .bool _, us => by simp [tokens, dropExtraCommas]
  | .number literal, _, .number _, us => by simp [tokens, dropExtraCommas]
  | .string literal, _, .string _, us => by simp [tokens, dropExtraCommas]
  | .array [], _, .emptyArray, us => by simp [tokens, dropExtraCommas]
  | .array (v :: vs), _, .array hv hvs, us => by
      simp [tokens, dropExtraCommas, dropExtraCommas_spelled v hv,
        dropExtraCommas_elements vs hvs]
  | .object [], _, .emptyObject, us => by simp [tokens, dropExtraCommas]
  | .object ((key, v) :: ms), _, .object hv hms, us => by
      simp [tokens, dropExtraCommas, dropExtraCommas_spelled v hv, dropExtraCommas_members ms hms]

theorem dropExtraCommas_elements : (vs : List Json) → {ts : List Token} → SpelledElements vs ts →
    (us : List Token) → dropExtraCommas (ts ++ us) = elementTokens vs ++ dropExtraCommas us
  | [], _, .close, us => by simp [elementTokens, dropExtraCommas]
  | [], _, .extra, us => by simp [elementTokens, dropExtraCommas, closesFirst, Token.closes]
  | v :: vs, _, .next hv hvs, us => by
      simp [elementTokens, dropExtraCommas, hv.closesFirst, dropExtraCommas_spelled v hv,
        dropExtraCommas_elements vs hvs]

theorem dropExtraCommas_members : (ms : List (List Char × Json)) → {ts : List Token} →
    SpelledMembers ms ts → (us : List Token) →
    dropExtraCommas (ts ++ us) = memberTokens ms ++ dropExtraCommas us
  | [], _, .close, us => by simp [memberTokens, dropExtraCommas]
  | [], _, .extra, us => by simp [memberTokens, dropExtraCommas, closesFirst, Token.closes]
  | (key, v) :: ms, _, .next hv hms, us => by
      simp [memberTokens, dropExtraCommas, closesFirst, Token.closes,
        dropExtraCommas_spelled v hv, dropExtraCommas_members ms hms]

end

mutual

/-- The tokens of a value spell it without extra commas. -/
theorem spelled_tokens : (v : Json) → Spelled v v.tokens
  | .null => by rw [tokens]; exact .null
  | .bool b => by rw [tokens]; exact .bool b
  | .number literal => by rw [tokens]; exact .number literal
  | .string literal => by rw [tokens]; exact .string literal
  | .array [] => by rw [tokens]; exact .emptyArray
  | .array (v :: vs) => by rw [tokens]; exact .array (spelled_tokens v) (spelledElements vs)
  | .object [] => by rw [tokens]; exact .emptyObject
  | .object ((key, v) :: ms) => by
      rw [tokens]
      exact .object (spelled_tokens v) (spelledMembers ms)

theorem spelledElements : (vs : List Json) → SpelledElements vs (elementTokens vs)
  | [] => by rw [elementTokens]; exact .close
  | v :: vs => by rw [elementTokens]; exact .next (spelled_tokens v) (spelledElements vs)

theorem spelledMembers : (ms : List (List Char × Json)) → SpelledMembers ms (memberTokens ms)
  | [] => by rw [memberTokens]; exact .close
  | (key, v) :: ms => by
      rw [memberTokens]
      exact .next (spelled_tokens v) (spelledMembers ms)

end

/-! ## Tokens as characters -/

theorem hexValue?_quote : Json.hexValue? '"' = none := by decide

theorem hexValue?_backslash : Json.hexValue? '\\' = none := by decide

/-- A hexadecimal digit neither ends a string nor escapes anything. -/
theorem ne_of_hexValue? {c : Char} {n : Nat} (h : Json.hexValue? c = some n) :
    c ≠ '"' ∧ c ≠ '\\' := by
  constructor
  · rintro rfl
    rw [hexValue?_quote] at h
    cases h
  · rintro rfl
    rw [hexValue?_backslash] at h
    cases h

theorem unquoted_of_isStringLiteral {literal : List Char} (h : IsStringLiteral literal) :
    Text.Unquoted '"' literal := by
  induction h with
  | nil => exact .nil
  | plain hquote hbackslash _ _ ih => exact .plain hquote hbackslash ih
  | short _ _ ih => exact .escaped ih
  | @unicode a b c d cs hdigits _ ih =>
      obtain ⟨n, hn⟩ := Option.isSome_iff_exists.1 hdigits
      simp only [Json.hexQuad?, Option.bind_eq_bind, Option.bind_eq_some_iff] at hn
      obtain ⟨_, ha, _, hb, _, hc, _, hd, -⟩ := hn
      have hrest := Text.Unquoted.plain (ne_of_hexValue? hd).1 (ne_of_hexValue? hd).2 ih
      have hrest := hrest.plain (ne_of_hexValue? hc).1 (ne_of_hexValue? hc).2
      have hrest := hrest.plain (ne_of_hexValue? hb).1 (ne_of_hexValue? hb).2
      exact .escaped (hrest.plain (ne_of_hexValue? ha).1 (ne_of_hexValue? ha).2)

/-- A character that begins neither a string nor a comment, and is no comma. -/
def IsInert (c : Char) : Prop :=
  c ≠ '"' ∧ c ≠ '/' ∧ c ≠ ','

theorem isInert_of_isSpace {c : Char} (h : Json.isSpace c = true) : IsInert c := by
  simp only [Json.isSpace, Bool.or_eq_true, beq_iff_eq] at h
  rcases h with ((rfl | rfl) | rfl) | rfl <;> exact ⟨by decide, by decide, by decide⟩

theorem isInert_of_isDigit {c : Char} (h : c.isDigit = true) : IsInert c := by
  refine ⟨?_, ?_, ?_⟩ <;> (rintro rfl; cases h)

theorem isInert_of_mem_number {literal : List Char} (h : IsNumberLiteral literal) :
    ∀ c ∈ literal, IsInert c := by
  obtain ⟨hsign, hwhole, hfraction, hexponent⟩ := h
  intro c hc
  simp only [List.mem_append] at hc
  rcases hc with hc | (hc | hc) | hc
  · rcases hsign with rfl | rfl
    · cases hc
    · rw [List.mem_singleton.1 hc]
      exact ⟨by decide, by decide, by decide⟩
  · cases hwhole with
    | zero =>
        rw [List.mem_singleton.1 hc]
        exact isInert_of_isDigit rfl
    | digits _ hdigits => exact isInert_of_isDigit (hdigits.2 c hc)
  · cases hfraction with
    | none => cases hc
    | digits hdigits =>
        rcases List.mem_cons.1 hc with rfl | hc
        · exact ⟨by decide, by decide, by decide⟩
        · exact isInert_of_isDigit (hdigits.2 c hc)
  · cases hexponent with
    | none => cases hc
    | digits hmark hsigned hdigits =>
        rcases List.mem_cons.1 hc with rfl | hc
        · rcases hmark with rfl | rfl <;> exact ⟨by decide, by decide, by decide⟩
        · rcases List.mem_append.1 hc with hc | hc
          · rcases hsigned with rfl | rfl | rfl
            · cases hc
            · rw [List.mem_singleton.1 hc]
              exact ⟨by decide, by decide, by decide⟩
            · rw [List.mem_singleton.1 hc]
              exact ⟨by decide, by decide, by decide⟩
          · exact isInert_of_isDigit (hdigits.2 c hc)

/-- A token is a string, a comma, or a text that neither pass touches. -/
theorem token_cases {t : Token} (h : t.IsValid) :
    (∃ literal, t = .string literal ∧ Text.Unquoted '"' literal) ∨ t = .comma ∨
      t ≠ .comma ∧ ∀ c ∈ t.text, IsInert c := by
  cases t with
  | string literal => exact .inl ⟨literal, rfl, unquoted_of_isStringLiteral h⟩
  | comma => exact .inr (.inl rfl)
  | number literal => exact .inr (.inr ⟨nofun, isInert_of_mem_number h⟩)
  | bool b => cases b <;> exact .inr (.inr ⟨nofun, by simp [Token.text, IsInert]⟩)
  | _ => exact .inr (.inr ⟨nofun, by simp [Token.text, IsInert]⟩)

/-! ## The first pass -/

@[simp]
theorem stripCommentsFrom_nil (p : Place) : stripCommentsFrom p [] = [] := by
  cases p <;> rfl

@[simp]
theorem stripCommentsFrom_opens_line (cs : List Char) :
    stripCommentsFrom .code ('/' :: '/' :: cs) = stripCommentsFrom .line cs :=
  rfl

@[simp]
theorem stripCommentsFrom_opens_block (cs : List Char) :
    stripCommentsFrom .code ('/' :: '*' :: cs) = stripCommentsFrom (.block false) cs :=
  rfl

@[simp]
theorem stripCommentsFrom_opens_string (cs : List Char) :
    stripCommentsFrom .code ('"' :: cs) = '"' :: stripCommentsFrom .string cs :=
  rfl

theorem stripCommentsFrom_code {c : Char} (hquote : c ≠ '"') (hslash : c ≠ '/')
    (cs : List Char) : stripCommentsFrom .code (c :: cs) = c :: stripCommentsFrom .code cs := by
  simp [stripCommentsFrom, hslash]

@[simp]
theorem stripCommentsFrom_escape (c : Char) (cs : List Char) :
    stripCommentsFrom .string ('\\' :: c :: cs) = '\\' :: c :: stripCommentsFrom .string cs :=
  rfl

@[simp]
theorem stripCommentsFrom_closes_string (cs : List Char) :
    stripCommentsFrom .string ('"' :: cs) = '"' :: stripCommentsFrom .code cs :=
  rfl

theorem stripCommentsFrom_literal {c : Char} (hquote : c ≠ '"') (hbackslash : c ≠ '\\')
    (cs : List Char) :
    stripCommentsFrom .string (c :: cs) = c :: stripCommentsFrom .string cs := by
  simp [stripCommentsFrom, hbackslash]

theorem stripCommentsFrom_inert {cs : List Char} (h : ∀ c ∈ cs, c ≠ '"' ∧ c ≠ '/')
    (rest : List Char) :
    stripCommentsFrom .code (cs ++ rest) = cs ++ stripCommentsFrom .code rest := by
  induction cs with
  | nil => rfl
  | cons c cs ih =>
      obtain ⟨hquote, hslash⟩ := h c (by simp)
      have hrest := ih fun d hd => h d (by simp [hd])
      rw [List.cons_append, stripCommentsFrom_code hquote hslash, hrest, List.cons_append]

theorem stripCommentsFrom_string {literal : List Char} (h : Text.Unquoted '"' literal)
    (rest : List Char) :
    stripCommentsFrom .string (literal ++ '"' :: rest)
      = literal ++ '"' :: stripCommentsFrom .code rest := by
  induction h with
  | nil => simp
  | plain hquote hbackslash _ ih => simp [stripCommentsFrom_literal hquote hbackslash, ih]
  | escaped _ ih => simp [ih]

theorem stripComments_token {t : Token} (h : t.IsValid) (rest : List Char) :
    stripComments (t.text ++ rest) = t.text ++ stripComments rest := by
  unfold stripComments
  rcases token_cases h with ⟨literal, rfl, hliteral⟩ | rfl | ⟨-, hinert⟩
  · simp [Token.text, Json.quoted, stripCommentsFrom_string hliteral]
  · exact stripCommentsFrom_code (by decide) (by decide) rest
  · exact stripCommentsFrom_inert (fun c hc => ⟨(hinert c hc).1, (hinert c hc).2.1⟩) rest

theorem stripCommentsFrom_line {body : List Char} (h : '\n' ∉ body) (rest : List Char) :
    stripCommentsFrom .line (body ++ '\n' :: rest) = '\n' :: stripCommentsFrom .code rest ∧
      stripCommentsFrom .line body = [] := by
  induction body with
  | nil => simp [stripCommentsFrom]
  | cons c body ih =>
      have hc : c ≠ '\n' := fun hc => h (by simp [hc])
      have hbody := ih fun hmem => h (by simp [hmem])
      simp [stripCommentsFrom, hc, hbody]

/-- The line feeds of a text. -/
def lineFeeds (cs : List Char) : List Char :=
  cs.filter (· == '\n')

theorem isBlank_lineFeeds (cs : List Char) : IsBlank (lineFeeds cs) := by
  intro c hc
  obtain ⟨-, hline⟩ := List.mem_filter.1 hc
  rw [beq_iff_eq.1 hline]
  rfl

/-- A comment is left at its first `*/`, or never. The star of its opening does not count, so a body
that begins with a slash goes on. -/
theorem stripCommentsFrom_block {body : List Char} (star : Bool) (h : ¬ ['*', '/'] <:+: body)
    (hstar : star = true → body.head? ≠ some '/') (rest : List Char) :
    stripCommentsFrom (.block star) (body ++ '*' :: '/' :: rest)
        = lineFeeds body ++ stripCommentsFrom .code rest ∧
      stripCommentsFrom (.block star) body = lineFeeds body := by
  induction body generalizing star with
  | nil => simp [stripCommentsFrom, lineFeeds]
  | cons c body ih =>
      have hclose : (star && c == '/') = false := by
        by_contra hclose
        simp only [Bool.not_eq_false, Bool.and_eq_true, beq_iff_eq] at hclose
        exact hstar hclose.1 (by simp [hclose.2])
      have hbody : ¬ ['*', '/'] <:+: body :=
        fun hin => h (hin.trans (List.suffix_cons c body).isInfix)
      by_cases hline : c = '\n'
      · have hrest := ih false hbody nofun
        simp only [lineFeeds] at hrest ⊢
        simp [stripCommentsFrom, hline, hrest]
      · have hnext : (c == '*') = true → body.head? ≠ some '/' := by
          intro hc hhead
          obtain ⟨tail, rfl⟩ := List.head?_eq_some_iff.1 hhead
          rw [beq_iff_eq] at hc
          subst hc
          exact h ⟨[], tail, rfl⟩
        have hrest := ih (c == '*') hbody hnext
        simp only [lineFeeds] at hrest ⊢
        simp [stripCommentsFrom, hclose, hline, hrest]

/-- A gap becomes blanks. -/
theorem stripComments_gap {g : List Char} (h : Gap g) :
    ∃ b, IsBlank b ∧ ∀ rest, stripComments (g ++ rest) = b ++ stripComments rest := by
  unfold stripComments
  induction h with
  | nil => exact ⟨[], nofun, fun rest => rfl⟩
  | @space c cs hspace _ ih =>
      obtain ⟨b, hb, heq⟩ := ih
      obtain ⟨hquote, hslash, -⟩ := isInert_of_isSpace hspace
      refine ⟨c :: b, List.forall_mem_cons.2 ⟨hspace, hb⟩, fun rest => ?_⟩
      simp [stripCommentsFrom_code hquote hslash, heq]
  | @line body cs hinside _ ih =>
      obtain ⟨b, hb, heq⟩ := ih
      refine ⟨'\n' :: b, List.forall_mem_cons.2 ⟨rfl, hb⟩, fun rest => ?_⟩
      simp [(stripCommentsFrom_line hinside (cs ++ rest)).1, heq]
  | @block body cs hinside _ ih =>
      obtain ⟨b, hb, heq⟩ := ih
      refine ⟨lineFeeds body ++ b, (isBlank_lineFeeds body).append hb, fun rest => ?_⟩
      simp [(stripCommentsFrom_block false hinside nofun (cs ++ rest)).1, heq]

theorem isBlank_stripComments {g : List Char} (h : LastGap g) : IsBlank (stripComments g) := by
  cases h with
  | closed hgap =>
      obtain ⟨b, hb, heq⟩ := stripComments_gap hgap
      have hnil : stripComments g = b ++ stripComments [] := by simpa using heq []
      rw [hnil]
      exact hb.append nofun
  | @line g body hgap hinside =>
      obtain ⟨b, hb, heq⟩ := stripComments_gap hgap
      rw [heq]
      refine hb.append ?_
      have hline : stripComments ('/' :: '/' :: body) = [] := by
        simp [stripComments, (stripCommentsFrom_line hinside []).2]
      rw [hline]
      nofun

/-- The first pass leaves the tokens, with blanks between them. -/
theorem spaced_stripComments {ts : List Token} {cs : List Char} (h : Laid Gap LastGap ts cs) :
    Spaced ts (stripComments cs) := by
  induction h with
  | done hlast => exact .done (isBlank_stripComments hlast)
  | @token g rest t ts hgap hvalid _ ih =>
      obtain ⟨b, hb, heq⟩ := stripComments_gap hgap
      rw [heq, stripComments_token hvalid]
      exact .token hb hvalid ih

/-! ## The second pass -/

@[simp]
theorem stripCommasFrom_nil (inside : Bool) : stripCommasFrom inside [] = [] := by
  cases inside <;> rfl

@[simp]
theorem stripCommasFrom_quote (inside : Bool) (cs : List Char) :
    stripCommasFrom inside ('"' :: cs) = '"' :: stripCommasFrom (!inside) cs := by
  cases inside <;> rfl

@[simp]
theorem stripCommasFrom_escape (c : Char) (cs : List Char) :
    stripCommasFrom true ('\\' :: c :: cs) = '\\' :: c :: stripCommasFrom true cs :=
  rfl

@[simp]
theorem stripCommasFrom_comma (cs : List Char) :
    stripCommasFrom false (',' :: cs)
      = if closesNext cs then stripCommasFrom false cs else ',' :: stripCommasFrom false cs :=
  rfl

theorem stripCommasFrom_code {c : Char} (hquote : c ≠ '"') (hcomma : c ≠ ',') (cs : List Char) :
    stripCommasFrom false (c :: cs) = c :: stripCommasFrom false cs := by
  simp [stripCommasFrom]

theorem stripCommasFrom_literal {c : Char} (hquote : c ≠ '"') (hbackslash : c ≠ '\\')
    (cs : List Char) : stripCommasFrom true (c :: cs) = c :: stripCommasFrom true cs := by
  simp [stripCommasFrom, hbackslash]

theorem stripCommasFrom_inert {cs : List Char} (h : ∀ c ∈ cs, c ≠ '"' ∧ c ≠ ',')
    (rest : List Char) :
    stripCommasFrom false (cs ++ rest) = cs ++ stripCommasFrom false rest := by
  induction cs with
  | nil => rfl
  | cons c cs ih =>
      obtain ⟨hquote, hcomma⟩ := h c (by simp)
      have hrest := ih fun d hd => h d (by simp [hd])
      rw [List.cons_append, stripCommasFrom_code hquote hcomma, hrest, List.cons_append]

theorem stripCommasFrom_string {literal : List Char} (h : Text.Unquoted '"' literal)
    (rest : List Char) :
    stripCommasFrom true (literal ++ '"' :: rest)
      = literal ++ '"' :: stripCommasFrom false rest := by
  induction h with
  | nil => simp
  | plain hquote hbackslash _ ih => simp [stripCommasFrom_literal hquote hbackslash, ih]
  | escaped _ ih => simp [ih]

theorem stripCommas_blank {g : List Char} (h : IsBlank g) (rest : List Char) :
    stripCommas (g ++ rest) = g ++ stripCommas rest :=
  stripCommasFrom_inert
    (fun c hc => ⟨(isInert_of_isSpace (h c hc)).1, (isInert_of_isSpace (h c hc)).2.2⟩) rest

theorem stripCommas_token {t : Token} (h : t.IsValid) (hcomma : t ≠ .comma) (rest : List Char) :
    stripCommas (t.text ++ rest) = t.text ++ stripCommas rest := by
  unfold stripCommas
  rcases token_cases h with ⟨literal, rfl, hliteral⟩ | rfl | ⟨-, hinert⟩
  · simp [Token.text, Json.quoted, stripCommasFrom_string hliteral]
  · exact absurd rfl hcomma
  · exact stripCommasFrom_inert (fun c hc => ⟨(hinert c hc).1, (hinert c hc).2.2⟩) rest

theorem isBlank_of_isSpace {c : Char} (h : Json.isSpace c = true) : Text.isBlank c = true := by
  simp only [Json.isSpace, Bool.or_eq_true, beq_iff_eq] at h
  rcases h with ((rfl | rfl) | rfl) | rfl <;> decide

theorem isBlank_eq_false_of_isDigit {c : Char} (h : c.isDigit = true) :
    Text.isBlank c = false := by
  have hrange : 48 ≤ c.toNat ∧ c.toNat ≤ 57 := Char.isDigit_iff_toNat.1 h
  simp [Text.isBlank, Text.blankRanges]
  omega

/-- A token begins with no blank, and with a closing bracket exactly if it closes something. -/
theorem closesNext_token {t : Token} (h : t.IsValid) (rest : List Char) :
    closesNext (t.text ++ rest) = t.closes := by
  cases t with
  | number literal =>
      obtain ⟨d, ds, rfl, hd⟩ := IsNumberLiteral.exists_head h
      rcases hd with rfl | hd
      · rfl
      · have hclose : (d == '}' || d == ']') = false := by
          by_contra hclose
          simp only [Bool.not_eq_false, Bool.or_eq_true, beq_iff_eq] at hclose
          rcases hclose with rfl | rfl <;> cases hd
        simp [closesNext, Token.text, Token.closes, isBlank_eq_false_of_isDigit hd, hclose]
  | bool b => cases b <;> rfl
  | _ => rfl

theorem closesNext_blank {g : List Char} (h : IsBlank g) (rest : List Char) :
    closesNext (g ++ rest) = closesNext rest := by
  rw [closesNext, List.dropWhile_append_of_pos fun c hc => isBlank_of_isSpace (h c hc), closesNext]

theorem closesNext_spaced {ts : List Token} {cs : List Char} (h : Spaced ts cs) :
    closesNext cs = closesFirst ts := by
  cases h with
  | done hlast => simpa [closesNext, closesFirst] using closesNext_blank hlast []
  | token hfront hvalid _ => rw [closesNext_blank hfront, closesNext_token hvalid, closesFirst]

theorem stripCommas_comma {ts : List Token} {cs : List Char} (h : Spaced ts cs) :
    stripCommas (Token.comma.text ++ cs)
      = if closesFirst ts = true then stripCommas cs else Token.comma.text ++ stripCommas cs := by
  simp [Token.text, stripCommas, closesNext_spaced h]

theorem stripCommas_of_blank {g : List Char} (h : IsBlank g) : stripCommas g = g := by
  simpa [stripCommas] using stripCommas_blank h []

/-- The second pass drops the commas in front of the tokens that close something. -/
theorem spaced_stripCommas {ts : List Token} {cs : List Char} (h : Spaced ts cs) :
    Spaced (dropExtraCommas ts) (stripCommas cs) := by
  induction h with
  | done hlast =>
      rw [stripCommas_of_blank hlast]
      exact .done hlast
  | @token g rest t ts hfront hvalid hmore ih =>
      rw [stripCommas_blank hfront]
      by_cases hcomma : t = .comma
      · subst hcomma
        rw [stripCommas_comma hmore, dropExtraCommas]
        by_cases hcloses : closesFirst ts = true
        · rw [if_pos hcloses, if_pos ⟨rfl, hcloses⟩]
          exact Spaced.blank_append hfront ih
        · rw [if_neg hcloses, if_neg fun h => hcloses h.2]
          exact .token hfront hvalid ih
      · rw [stripCommas_token hvalid hcomma, dropExtraCommas, if_neg fun h => hcomma h.1]
        exact .token hfront hvalid ih

/-! ## Plain texts -/

theorem stripComments_spaced {ts : List Token} {cs : List Char} (h : Spaced ts cs) :
    stripComments cs = cs := by
  have hblank : ∀ {g : List Char}, IsBlank g → ∀ rest,
      stripComments (g ++ rest) = g ++ stripComments rest := by
    intro g hg rest
    refine stripCommentsFrom_inert (fun c hc => ?_) rest
    exact ⟨(isInert_of_isSpace (hg c hc)).1, (isInert_of_isSpace (hg c hc)).2.1⟩
  induction h with
  | done hlast => simpa [stripComments] using hblank hlast []
  | token hfront hvalid _ ih => rw [hblank hfront, stripComments_token hvalid, ih]

theorem length_dropExtraCommas_le (ts : List Token) : (dropExtraCommas ts).length ≤ ts.length := by
  induction ts with
  | nil => exact Nat.le_refl 0
  | cons t ts ih =>
      rw [dropExtraCommas]
      split
      · exact Nat.le_succ_of_le ih
      · exact Nat.succ_le_succ ih

theorem stripCommas_spaced {ts : List Token} {cs : List Char} (h : Spaced ts cs)
    (hextra : dropExtraCommas ts = ts) : stripCommas cs = cs := by
  induction h with
  | done hlast => exact stripCommas_of_blank hlast
  | @token g rest t ts hfront hvalid hmore ih =>
      rw [dropExtraCommas] at hextra
      by_cases hdropped : t = .comma ∧ closesFirst ts = true
      · -- what is dropped is missing
        rw [if_pos hdropped] at hextra
        have hle := length_dropExtraCommas_le ts
        rw [hextra, List.length_cons] at hle
        omega
      · rw [if_neg hdropped] at hextra
        rw [stripCommas_blank hfront]
        have hrest := ih (List.cons.inj hextra).2
        by_cases hcomma : t = .comma
        · subst hcomma
          rw [stripCommas_comma hmore, if_neg fun h => hdropped ⟨rfl, h⟩, hrest]
        · rw [stripCommas_token hvalid hcomma, hrest]

theorem dropExtraCommas_tokens (v : Json) : dropExtraCommas v.tokens = v.tokens := by
  simpa [dropExtraCommas] using dropExtraCommas_spelled v (spelled_tokens v) []

/-- Stripping a text with comments and extra commas leaves a plain text of the same value, with the
value's tokens and no others, which is read as that value. A plain text stays as it is. -/
theorem strip_rendering (v : Json) (s : String) :
    (Renders v s.toList → Json.Renders v (strip s).toList ∧ Json.parse? (strip s) = some v) ∧
      (Json.Renders v s.toList → strip s = s) := by
  constructor
  · rintro ⟨ts, hspelled, hlaid⟩
    have hspaced := spaced_stripCommas (spaced_stripComments hlaid)
    have htokens : dropExtraCommas ts = v.tokens := by
      simpa [dropExtraCommas] using dropExtraCommas_spelled v hspelled []
    have hrenders : Json.Renders v (strip s).toList := by
      rw [strip, String.toList_ofList, Json.Renders, ← htokens]
      exact hspaced
    exact ⟨hrenders, Json.parse?_of_renders hrenders⟩
  · intro h
    rw [strip, stripComments_spaced h, stripCommas_spaced h (dropExtraCommas_tokens v),
      String.ofList_toList]

/-- An object with comments of both kinds, a string that looks like a comment, and extra commas. -/
def commented : String :=
  "// \"base\"\n\x7b\"a//\\\"\": [1, /*/ ] */ true /***/,\n],/* \n */\x7d // end, ]"

/-- The value of `commented`. -/
def commentedValue : Json :=
  .object [(['a', '/', '/', '\\', '"'], .array [.number ['1'], .bool true])]

theorem strip_commented :
    Renders commentedValue commented.toList ∧
      Json.parse? (strip commented) = some commentedValue ∧
      strip commented = "\n\x7b\"a//\\\"\": [1,  true \n]\n\x7d " ∧
      strip (strip commented) = strip commented := by
  have hrenders : Renders commentedValue commented.toList := by
    refine ⟨_, .object (.array (.number _) (.next (.bool true) .extra)) .extra, ?_⟩
    have hkey : IsStringLiteral ['a', '/', '/', '\\', '"'] :=
      .plain (by decide) (by decide) (by decide) (.plain (by decide) (by decide) (by decide)
        (.plain (by decide) (by decide) (by decide) (.short rfl .nil)))
    have hone : IsNumberLiteral ['1'] :=
      @IsNumberLiteral.mk [] ['1'] [] [] (.inl rfl)
        (.digits (by decide) ⟨nofun, List.forall_mem_singleton.2 rfl⟩) .none .none
    have hbase : Gap ('/' :: '/' :: (" \"base\"".toList ++ ['\n'])) := .line (by decide) .nil
    have hspace : Gap [' '] := .space rfl .nil
    have hslash : Gap (' ' :: '/' :: '*' :: ("/ ] ".toList ++ ['*', '/', ' '])) :=
      .space rfl (.block (by decide) hspace)
    have hstars : Gap (' ' :: '/' :: '*' :: (['*'] ++ ['*', '/'])) :=
      .space rfl (.block (by decide) .nil)
    have hline : Gap ['\n'] := .space rfl .nil
    have hlines : Gap ('/' :: '*' :: (" \n ".toList ++ ['*', '/'])) := .block (by decide) .nil
    have hend : LastGap ([' '] ++ '/' :: '/' :: " end, ]".toList) := .line hspace (by decide)
    have hlaid := Laid.token (t := .openObject) hbase trivial
      (.token (t := .string _) .nil hkey (.token (t := .colon) .nil trivial
      (.token (t := .openArray) hspace trivial (.token (t := .number _) .nil hone
      (.token (t := .comma) .nil trivial (.token (t := .bool true) hslash trivial
      (.token (t := .comma) hstars trivial (.token (t := .closeArray) hline trivial
      (.token (t := .comma) .nil trivial (.token (t := .closeObject) hlines trivial
      (.done hend)))))))))))
    exact Eq.subst (motive := Laid Gap LastGap _) (by decide +kernel) hlaid
  obtain ⟨hplain, hparse⟩ := (strip_rendering commentedValue commented).1 hrenders
  exact ⟨hrenders, hparse, by decide +kernel,
    (strip_rendering commentedValue (strip commented)).2 hplain⟩

end Jsonc

end SliceLint

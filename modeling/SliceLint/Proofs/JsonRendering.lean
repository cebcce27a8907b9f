import SliceLint.Json.Printer
import SliceLint.Proofs.JsonLiteral

set_option autoImplicit false

/-! # Renderings of JSON values

A value is written as its tokens, one after the other, with blanks between them and at both ends.
`Renders` says so without the reader and without the printer. The reader gives the value of every
rendering back (`parse?_of_renders`), and what the printer lays out is a rendering
(`renders_pretty`), so what is printed can be read. -/

namespace SliceLint

namespace Json

/-! ## Tokens -/

/-- A token of a JSON text. -/
inductive Token where
  | openArray
  | closeArray
  | openObject
  | closeObject
  | colon
  | comma
  | null
  | bool (b : Bool)
  | number (literal : List Char)
  | string (literal : List Char)
  deriving DecidableEq

namespace Token

/-- The characters of a token. -/
def text : Token → List Char
  | openArray => ['[']
  | closeArray => [']']
  | openObject => ['{']
  | closeObject => ['}']
  | colon => [':']
  | comma => [',']
  | null => ['n', 'u', 'l', 'l']
  | bool true => ['t', 'r', 'u', 'e']
  | bool false => ['f', 'a', 'l', 's', 'e']
  | number literal => literal
  | string literal => quoted literal

/-- A token whose literal, if it has one, is well-formed. -/
def IsValid : Token → Prop
  | number literal => IsNumberLiteral literal
  | string literal => IsStringLiteral literal
  | _ => True

/-- Whether a token closes an array or an object. -/
def closes : Token → Bool
  | closeArray | closeObject => true
  | _ => false

end Token

mutual

/-- The tokens of a value. -/
def tokens : Json → List Token
  | null => [.null]
  | bool b => [.bool b]
  | number literal => [.number literal]
  | string literal => [.string literal]
  | array [] => [.openArray, .closeArray]
  | array (v :: vs) => .openArray :: (tokens v ++ elementTokens vs)
  | object [] => [.openObject, .closeObject]
  | object ((key, v) :: ms) =>
    .openObject :: .string key :: .colon :: (tokens v ++ memberTokens ms)

/-- The tokens of the elements of an array after the first, and of its closing bracket. -/
def elementTokens : List Json → List Token
  | [] => [.closeArray]
  | v :: vs => .comma :: (tokens v ++ elementTokens vs)

/-- The tokens of the members of an object after the first, and of its closing brace. -/
def memberTokens : List (List Char × Json) → List Token
  | [] => [.closeObject]
  | (key, v) :: ms => .comma :: .string key :: .colon :: (tokens v ++ memberTokens ms)

end

/-- A value begins with a token that neither closes nor divides anything. -/
theorem exists_tokens_eq (v : Json) :
    ∃ t ts, v.tokens = t :: ts ∧ t.closes = false := by
  cases v with
  | null => exact ⟨.null, [], rfl, rfl⟩
  | bool b => exact ⟨.bool b, [], rfl, rfl⟩
  | number literal => exact ⟨.number literal, [], rfl, rfl⟩
  | string literal => exact ⟨.string literal, [], rfl, rfl⟩
  | array elements =>
      cases elements with
      | nil => exact ⟨.openArray, _, by rw [tokens], rfl⟩
      | cons v vs => exact ⟨.openArray, _, by rw [tokens], rfl⟩
  | object members =>
      cases members with
      | nil => exact ⟨.openObject, _, by rw [tokens], rfl⟩
      | cons m ms => exact ⟨.openObject, _, by rw [tokens], rfl⟩

/-! ## Layouts -/

/-- Blanks only. -/
def IsBlank (cs : List Char) : Prop :=
  ∀ c ∈ cs, isSpace c = true

/-- A text of valid tokens, with a gap in front of each and a last gap at the end. -/
inductive Laid (gap last : List Char → Prop) : List Token → List Char → Prop where
  | done {g : List Char} (tail : last g) : Laid gap last [] g
  | token {g rest : List Char} {t : Token} {ts : List Token} (front : gap g) (valid : t.IsValid)
      (more : Laid gap last ts rest) : Laid gap last (t :: ts) (g ++ (t.text ++ rest))

/-- Tokens with blanks between them. -/
abbrev Spaced (ts : List Token) (cs : List Char) : Prop :=
  Laid IsBlank IsBlank ts cs

/-- The texts of a value. -/
def Renders (v : Json) (cs : List Char) : Prop :=
  Spaced v.tokens cs

theorem IsBlank.append {g h : List Char} (hg : IsBlank g) (hh : IsBlank h) : IsBlank (g ++ h) := by
  intro c hc
  rcases List.mem_append.1 hc with hc | hc
  · exact hg c hc
  · exact hh c hc

theorem Spaced.blank_append {ts : List Token} {g cs : List Char} (hg : IsBlank g)
    (h : Spaced ts cs) : Spaced ts (g ++ cs) := by
  cases h with
  | done hlast => exact .done (hg.append hlast)
  | token hfront hvalid hmore =>
      rw [← List.append_assoc]
      exact .token (hg.append hfront) hvalid hmore

/-! ## The first token -/

theorem IsNumberLiteral.exists_head {literal : List Char} (h : IsNumberLiteral literal) :
    ∃ d ds, literal = d :: ds ∧ (d = '-' ∨ d.isDigit = true) := by
  obtain ⟨hsign, hwhole, -, -⟩ := h
  rcases hsign with rfl | rfl
  · obtain ⟨d, ds, rfl, hd⟩ := hwhole.exists_digit
    exact ⟨d, _, rfl, .inr hd⟩
  · exact ⟨'-', _, rfl, .inl rfl⟩

/-- No blank begins a token. -/
theorem Token.exists_text_eq {t : Token} (h : t.IsValid) :
    ∃ c cs, t.text = c :: cs ∧ isSpace c = false := by
  cases t with
  | number literal =>
      obtain ⟨d, ds, rfl, hd⟩ := IsNumberLiteral.exists_head h
      refine ⟨d, ds, rfl, ?_⟩
      rcases hd with rfl | hd
      · rfl
      · by_contra hspace
        simp only [isSpace, Bool.not_eq_false, Bool.or_eq_true, beq_iff_eq] at hspace
        rcases hspace with ((rfl | rfl) | rfl) | rfl <;> cases hd
  | bool b => cases b <;> exact ⟨_, _, rfl, rfl⟩
  | _ => exact ⟨_, _, rfl, rfl⟩

theorem skipSpace_append {g : List Char} (h : IsBlank g) (cs : List Char) :
    skipSpace (g ++ cs) = skipSpace cs :=
  List.dropWhile_append_of_pos h

/-- After the blanks in front, a text stands at its first token. -/
theorem Spaced.skipSpace_eq {t : Token} {ts : List Token} {cs : List Char}
    (h : Spaced (t :: ts) cs) :
    ∃ rest, skipSpace cs = t.text ++ rest ∧ t.IsValid ∧ Spaced ts rest := by
  cases h with
  | @token g rest _ _ hfront hvalid hmore =>
      obtain ⟨c, cs, htext, hc⟩ := t.exists_text_eq hvalid
      refine ⟨rest, ?_, hvalid, hmore⟩
      rw [skipSpace_append hfront, htext]
      simp [skipSpace, hc]

/-- The text of a token that closes nothing begins with no closing bracket. -/
theorem Token.text_ne_close {t : Token} (hvalid : t.IsValid) (h : t.closes = false)
    (rest tail : List Char) : t.text ++ rest ≠ ']' :: tail ∧ t.text ++ rest ≠ '}' :: tail := by
  cases t with
  | closeArray => cases h
  | closeObject => cases h
  | number literal =>
      obtain ⟨d, ds, rfl, hd⟩ := IsNumberLiteral.exists_head hvalid
      have hne : d ≠ ']' ∧ d ≠ '}' := by
        constructor <;> (rintro rfl; rcases hd with hd | hd <;> cases hd)
      simp [text, hne.1, hne.2]
  | bool b => cases b <;> simp [text]
  | _ => simp [text, quoted]

theorem Spaced.skipSpace {t : Token} {ts : List Token} {cs : List Char}
    (h : Spaced (t :: ts) cs) (hcloses : t.closes = false) :
    (∀ tail, Json.skipSpace cs ≠ ']' :: tail ∧ Json.skipSpace cs ≠ '}' :: tail) ∧
      Spaced (t :: ts) (Json.skipSpace cs) := by
  obtain ⟨rest, hskip, hvalid, hmore⟩ := h.skipSpace_eq
  rw [hskip]
  exact ⟨t.text_ne_close hvalid hcloses rest, .token (g := []) nofun hvalid hmore⟩

/-- What may follow a value: nothing, a comma, or a closing bracket or brace. -/
def EndsValue (ts : List Token) : Prop :=
  ∀ t ∈ ts.head?, t = .comma ∨ t.closes = true

theorem Spaced.endsNumber {ts : List Token} {cs : List Char} (h : Spaced ts cs)
    (hends : EndsValue ts) : EndsNumber cs := by
  have hspace : ∀ c, isSpace c = true → c.isDigit = false ∧ c ≠ '.' ∧ c ≠ 'e' ∧ c ≠ 'E' := by
    intro c hc
    simp only [isSpace, Bool.or_eq_true, beq_iff_eq] at hc
    rcases hc with ((rfl | rfl) | rfl) | rfl <;> decide
  intro c hc
  cases h with
  | done hlast => exact hspace c (hlast c (List.mem_of_mem_head? hc))
  | @token g rest t ts hfront hvalid hmore =>
      cases g with
      | cons d g =>
          obtain rfl := Option.some.inj hc
          exact hspace d (hfront d (by simp))
      | nil =>
          rcases hends t rfl with rfl | hcloses
          · obtain rfl := Option.some.inj hc
            decide
          · cases t with
            | closeArray =>
                obtain rfl := Option.some.inj hc
                decide
            | closeObject =>
                obtain rfl := Option.some.inj hc
                decide
            | _ => cases hcloses

theorem Spaced.skipSpace_value (v : Json) {ts : List Token} {cs : List Char}
    (h : Spaced (v.tokens ++ ts) cs) :
    (∀ tail, Json.skipSpace cs ≠ ']' :: tail ∧ Json.skipSpace cs ≠ '}' :: tail) ∧
      Spaced (v.tokens ++ ts) (Json.skipSpace cs) := by
  obtain ⟨t, us, htokens, hcloses⟩ := v.exists_tokens_eq
  rw [htokens, List.cons_append] at h ⊢
  exact h.skipSpace hcloses

/-! ## Reading -/

/-- A minus sign or a digit begins no other value than a number. -/
theorem readValue_number {cs rest : List Char} {d : Char} (fuel : Nat)
    (hskip : skipSpace cs = d :: rest) (hd : d = '-' ∨ d.isDigit = true) :
    readValue (fuel + 1) cs = (readNumber (d :: rest)).map fun r => (.number r.1, r.2) := by
  obtain ⟨hn, ht, hf, hquote, hbracket, hbrace⟩ :
      d ≠ 'n' ∧ d ≠ 't' ∧ d ≠ 'f' ∧ d ≠ '"' ∧ d ≠ '[' ∧ d ≠ '{' := by
    rcases hd with rfl | hd
    · decide
    · refine ⟨?_, ?_, ?_, ?_, ?_, ?_⟩ <;> (rintro rfl; cases hd)
  rw [readValue, hskip]
  simp [hn, ht, hf, hquote, hbracket, hbrace]

theorem readValue_array {cs inside : List Char} (fuel : Nat)
    (hskip : skipSpace cs = Token.openArray.text ++ inside)
    (hnot : ∀ tail, skipSpace inside ≠ ']' :: tail) :
    readValue (fuel + 1) cs
      = (readElements fuel (skipSpace inside)).map fun r => (.array r.1, r.2) := by
  simp only [readValue, hskip, Token.text, List.singleton_append]

theorem readValue_object {cs inside : List Char} (fuel : Nat)
    (hskip : skipSpace cs = Token.openObject.text ++ inside)
    (hnot : ∀ tail, skipSpace inside ≠ '}' :: tail) :
    readValue (fuel + 1) cs
      = (readMembers fuel (skipSpace inside)).map fun r => (.object r.1, r.2) := by
  simp only [readValue, hskip, Token.text, List.singleton_append]

theorem endsValue_elementTokens (vs : List Json) (ts : List Token) :
    EndsValue (elementTokens vs ++ ts) := by
  intro t ht
  cases vs with
  | nil => exact .inr (by rw [elementTokens] at ht; cases ht; rfl)
  | cons v vs => exact .inl (by rw [elementTokens] at ht; cases ht; rfl)

theorem endsValue_memberTokens (ms : List (List Char × Json)) (ts : List Token) :
    EndsValue (memberTokens ms ++ ts) := by
  intro t ht
  cases ms with
  | nil => exact .inr (by rw [memberTokens] at ht; cases ht; rfl)
  | cons m ms => exact .inl (by rw [memberTokens] at ht; cases ht; rfl)

/-- With some fuel, the reader reads everything that has no more tokens than that, and leaves what
follows. -/
structure Reads (fuel : Nat) : Prop where
  value : ∀ (v : Json) {ts : List Token} {cs : List Char}, v.tokens.length ≤ fuel →
    EndsValue ts → Spaced (v.tokens ++ ts) cs →
    ∃ rest, readValue fuel cs = some (v, rest) ∧ Spaced ts rest
  elements : ∀ (v : Json) (vs : List Json) {ts : List Token} {cs : List Char},
    (v.tokens ++ elementTokens vs).length ≤ fuel →
    Spaced (v.tokens ++ (elementTokens vs ++ ts)) cs →
    ∃ rest, readElements fuel cs = some (v :: vs, rest) ∧ Spaced ts rest
  members : ∀ (key : List Char) (v : Json) (ms : List (List Char × Json)) {ts : List Token}
    {cs : List Char}, (v.tokens ++ memberTokens ms).length ≤ fuel →
    Spaced (.string key :: .colon :: (v.tokens ++ (memberTokens ms ++ ts))) cs →
    ∃ rest, readMembers fuel cs = some ((key, v) :: ms, rest) ∧ Spaced ts rest

theorem readElements_succ {fuel : Nat} (ih : Reads fuel) (v : Json) (vs : List Json)
    {ts : List Token} {cs : List Char} (hfuel : (v.tokens ++ elementTokens vs).length ≤ fuel + 1)
    (h : Spaced (v.tokens ++ (elementTokens vs ++ ts)) cs) :
    ∃ rest, readElements (fuel + 1) cs = some (v :: vs, rest) ∧ Spaced ts rest := by
  cases vs with
  | nil =>
      simp only [elementTokens, List.length_append, List.length_singleton] at hfuel
      obtain ⟨rest, hread, hmore⟩ :=
        ih.value v (by omega) (endsValue_elementTokens [] ts) h
      rw [elementTokens] at hmore
      obtain ⟨after, hskip, -, hafter⟩ := hmore.skipSpace_eq
      refine ⟨after, ?_, hafter⟩
      simp [readElements, hread, hskip, Token.text]
  | cons w vs =>
      simp only [elementTokens, List.length_append, List.length_cons] at hfuel
      obtain ⟨rest, hread, hmore⟩ :=
        ih.value v (by omega) (endsValue_elementTokens (w :: vs) ts) h
      rw [elementTokens, List.cons_append, List.append_assoc] at hmore
      obtain ⟨after, hskip, -, hafter⟩ := hmore.skipSpace_eq
      obtain ⟨last, hlast, hts⟩ := ih.elements w vs (by simp; omega) hafter
      refine ⟨last, ?_, hts⟩
      simp [readElements, hread, hskip, Token.text, hlast]

theorem readMembers_succ {fuel : Nat} (ih : Reads fuel) (key : List Char) (v : Json)
    (ms : List (List Char × Json)) {ts : List Token} {cs : List Char}
    (hfuel : (v.tokens ++ memberTokens ms).length ≤ fuel + 1)
    (h : Spaced
      (.string key :: .colon :: (v.tokens ++ (memberTokens ms ++ ts))) cs) :
    ∃ rest, readMembers (fuel + 1) cs = some ((key, v) :: ms, rest) ∧
      Spaced ts rest := by
  obtain ⟨afterKey, hkey, hvalid, h⟩ := h.skipSpace_eq
  obtain ⟨afterColon, hcolon, -, h⟩ := h.skipSpace_eq
  have hstring : readString (key ++ '"' :: afterKey) = some (key, afterKey) :=
    readString_append hvalid afterKey
  cases ms with
  | nil =>
      simp only [memberTokens, List.length_append, List.length_singleton] at hfuel
      obtain ⟨rest, hread, hmore⟩ :=
        ih.value v (by omega) (endsValue_memberTokens [] ts) h
      rw [memberTokens] at hmore
      obtain ⟨after, hskip, -, hafter⟩ := hmore.skipSpace_eq
      refine ⟨after, ?_, hafter⟩
      simp [readMembers, hkey, quoted, hstring, hcolon, hread, hskip, Token.text]
  | cons m ms =>
      obtain ⟨next, w⟩ := m
      simp only [memberTokens, List.length_append, List.length_cons] at hfuel
      obtain ⟨rest, hread, hmore⟩ :=
        ih.value v (by omega) (endsValue_memberTokens ((next, w) :: ms) ts) h
      simp only [memberTokens, List.cons_append, List.append_assoc] at hmore
      obtain ⟨after, hskip, -, hafter⟩ := hmore.skipSpace_eq
      obtain ⟨last, hlast, hts⟩ := ih.members next w ms (by simp; omega) hafter
      refine ⟨last, ?_, hts⟩
      simp [readMembers, hkey, quoted, hstring, hcolon, hread, hskip, Token.text, hlast]

theorem readValue_succ {fuel : Nat} (ih : Reads fuel) (v : Json) {ts : List Token}
    {cs : List Char} (hfuel : v.tokens.length ≤ fuel + 1) (hends : EndsValue ts)
    (h : Spaced (v.tokens ++ ts) cs) :
    ∃ rest, readValue (fuel + 1) cs = some (v, rest) ∧ Spaced ts rest := by
  cases v with
  | null =>
      rw [tokens] at h
      obtain ⟨rest, hskip, -, hmore⟩ := Spaced.skipSpace_eq h
      exact ⟨rest, by simp [readValue, hskip, Token.text], hmore⟩
  | bool b =>
      rw [tokens] at h
      obtain ⟨rest, hskip, -, hmore⟩ := Spaced.skipSpace_eq h
      exact ⟨rest, by cases b <;> simp [readValue, hskip, Token.text], hmore⟩
  | number literal =>
      rw [tokens] at h
      obtain ⟨rest, hskip, hvalid, hmore⟩ := Spaced.skipSpace_eq h
      have hread := readNumber_append hvalid (hmore.endsNumber hends)
      obtain ⟨d, ds, rfl, hd⟩ := IsNumberLiteral.exists_head hvalid
      refine ⟨rest, ?_, hmore⟩
      rw [readValue_number fuel hskip hd]
      simpa using hread
  | string literal =>
      rw [tokens] at h
      obtain ⟨rest, hskip, hvalid, hmore⟩ := Spaced.skipSpace_eq h
      have hread : readString (literal ++ '"' :: rest) = some (literal, rest) :=
        readString_append hvalid rest
      exact ⟨rest, by simp [readValue, hskip, Token.text, quoted, hread], hmore⟩
  | array elements =>
      cases elements with
      | nil =>
          rw [tokens] at h
          obtain ⟨inside, hopen, -, h⟩ := Spaced.skipSpace_eq h
          obtain ⟨rest, hclose, -, hmore⟩ := Spaced.skipSpace_eq h
          exact ⟨rest, by simp [readValue, hopen, hclose, Token.text], hmore⟩
      | cons v vs =>
          simp only [tokens, List.cons_append, List.append_assoc, List.length_cons] at h hfuel
          obtain ⟨inside, hopen, -, h⟩ := h.skipSpace_eq
          obtain ⟨hnot, hinside⟩ := Spaced.skipSpace_value v h
          obtain ⟨rest, hread, hmore⟩ := ih.elements v vs (by omega) hinside
          refine ⟨rest, ?_, hmore⟩
          rw [readValue_array fuel hopen fun tail => (hnot tail).1, hread]
          rfl
  | object members =>
      cases members with
      | nil =>
          rw [tokens] at h
          obtain ⟨inside, hopen, -, h⟩ := Spaced.skipSpace_eq h
          obtain ⟨rest, hclose, -, hmore⟩ := Spaced.skipSpace_eq h
          exact ⟨rest, by simp [readValue, hopen, hclose, Token.text], hmore⟩
      | cons m ms =>
          obtain ⟨key, v⟩ := m
          simp only [tokens, List.cons_append, List.append_assoc, List.length_cons] at h hfuel
          obtain ⟨inside, hopen, -, h⟩ := h.skipSpace_eq
          obtain ⟨hnot, hinside⟩ := h.skipSpace rfl
          obtain ⟨rest, hread, hmore⟩ := ih.members key v ms (by omega) hinside
          refine ⟨rest, ?_, hmore⟩
          rw [readValue_object fuel hopen fun tail => (hnot tail).2, hread]
          rfl

theorem reads (fuel : Nat) : Reads fuel := by
  induction fuel with
  | zero =>
      refine ⟨fun v _ _ hfuel => ?_, fun v vs _ _ hfuel => ?_, fun key v ms _ _ hfuel => ?_⟩
      all_goals
        obtain ⟨t, us, htokens, -⟩ := v.exists_tokens_eq
        simp [htokens] at hfuel
  | succ fuel ih => exact ⟨readValue_succ ih, readElements_succ ih, readMembers_succ ih⟩

/-- Every token takes up a character. -/
theorem Spaced.length_le {ts : List Token} {cs : List Char} (h : Spaced ts cs) :
    ts.length ≤ cs.length := by
  induction h with
  | done => simp
  | @token g rest t ts _ hvalid _ ih =>
      obtain ⟨c, cs, htext, -⟩ := t.exists_text_eq hvalid
      simp only [List.length_cons, List.length_append, htext]
      omega

/-- The value of a rendering is read back. -/
theorem parse?_of_renders {v : Json} {s : String} (h : Renders v s.toList) :
    parse? s = some v := by
  have hlength : v.tokens.length ≤ 2 * s.length + 1 := by
    have hle := h.length_le
    rw [String.length_toList] at hle
    omega
  rw [Renders, ← List.append_nil v.tokens] at h
  obtain ⟨rest, hread, hrest⟩ := (reads _).value v hlength (by simp [EndsValue]) h
  have hskip : skipSpace rest = [] := by
    cases hrest with
    | done hlast =>
        rw [← List.append_nil rest, skipSpace_append hlast]
        rfl
  simp [parse?, hread, hskip]

/-! ## Printing -/

/-- A value whose literals are well-formed. -/
def WellFormed (v : Json) : Prop :=
  ∀ t ∈ v.tokens, t.IsValid

theorem Spaced.cons {t : Token} {ts : List Token} {cs : List Char} (hvalid : t.IsValid)
    (h : Spaced ts cs) : Spaced (t :: ts) (t.text ++ cs) :=
  .token (g := []) nofun hvalid h

theorem isBlank_newline (level : Nat) : IsBlank (newline level) := by
  intro c hc
  rcases List.mem_cons.1 hc with rfl | hc
  · rfl
  · rw [List.eq_of_mem_replicate hc]
    rfl

/-- The key of a member on a line of its own, and what follows it. -/
theorem Spaced.member {key : List Char} {ts : List Token} {cs : List Char}
    (h : Spaced ts cs) (hkey : IsStringLiteral key) (level : Nat) :
    Spaced (.string key :: .colon :: ts)
      (newline level ++ (quoted key ++ (':' :: ' ' :: cs))) :=
  .token (isBlank_newline level) hkey
    (Spaced.cons trivial (h.blank_append (g := [' ']) (by simp [IsBlank, isSpace])))

mutual

theorem spaced_pretty (level : Nat) : (v : Json) → {ts : List Token} → {cs : List Char} →
    (∀ t ∈ v.tokens, t.IsValid) → Spaced ts cs →
    Spaced (v.tokens ++ ts) (v.pretty level ++ cs)
  | .null, _, _, _, h => by
      rw [tokens, pretty]
      exact .cons trivial h
  | .bool true, _, _, _, h => by
      rw [tokens, pretty]
      exact .cons trivial h
  | .bool false, _, _, _, h => by
      rw [tokens, pretty]
      exact .cons trivial h
  | .number literal, _, _, hvalid, h => by
      rw [tokens] at hvalid ⊢
      rw [pretty]
      exact .cons (hvalid _ (by simp)) h
  | .string literal, _, _, hvalid, h => by
      rw [tokens] at hvalid ⊢
      rw [pretty]
      exact .cons (hvalid _ (by simp)) h
  | .array [], _, _, _, h => by
      rw [tokens, pretty]
      exact .cons trivial (.cons trivial h)
  | .array (v :: vs), ts, cs, hvalid, h => by
      simp only [tokens, List.mem_cons, List.mem_append] at hvalid
      have hmore := spaced_prettyElements level vs (fun t ht => hvalid t (by simp [ht])) h
      have hvalue := spaced_pretty (level + 1) v (fun t ht => hvalid t (by simp [ht])) hmore
      rw [tokens, pretty]
      simpa [Token.text] using
        Spaced.cons (t := .openArray) trivial (hvalue.blank_append (isBlank_newline (level + 1)))
  | .object [], _, _, _, h => by
      rw [tokens, pretty]
      exact .cons trivial (.cons trivial h)
  | .object ((key, v) :: ms), ts, cs, hvalid, h => by
      simp only [tokens, List.mem_cons, List.mem_append] at hvalid
      have hmore := spaced_prettyMembers level ms (fun t ht => hvalid t (by simp [ht])) h
      have hvalue := spaced_pretty (level + 1) v (fun t ht => hvalid t (by simp [ht])) hmore
      rw [tokens, pretty]
      have hmember := hvalue.member (hvalid (.string key) (by simp)) (level + 1)
      simpa [Token.text] using Spaced.cons (t := .openObject) trivial hmember

theorem spaced_prettyElements (level : Nat) : (vs : List Json) → {ts : List Token} →
    {cs : List Char} → (∀ t ∈ elementTokens vs, t.IsValid) → Spaced ts cs →
    Spaced (elementTokens vs ++ ts) (prettyElements level vs ++ cs)
  | [], _, _, _, h => by
      rw [elementTokens, prettyElements, List.append_assoc]
      exact .token (isBlank_newline level) trivial h
  | v :: vs, ts, cs, hvalid, h => by
      simp only [elementTokens, List.mem_cons, List.mem_append] at hvalid
      have hmore := spaced_prettyElements level vs (fun t ht => hvalid t (by simp [ht])) h
      have hvalue := spaced_pretty (level + 1) v (fun t ht => hvalid t (by simp [ht])) hmore
      rw [elementTokens, prettyElements]
      simpa [Token.text] using
        Spaced.cons (t := .comma) trivial (hvalue.blank_append (isBlank_newline (level + 1)))

theorem spaced_prettyMembers (level : Nat) : (ms : List (List Char × Json)) → {ts : List Token} →
    {cs : List Char} → (∀ t ∈ memberTokens ms, t.IsValid) → Spaced ts cs →
    Spaced (memberTokens ms ++ ts) (prettyMembers level ms ++ cs)
  | [], _, _, _, h => by
      rw [memberTokens, prettyMembers, List.append_assoc]
      exact .token (isBlank_newline level) trivial h
  | (key, v) :: ms, ts, cs, hvalid, h => by
      simp only [memberTokens, List.mem_cons, List.mem_append] at hvalid
      have hmore := spaced_prettyMembers level ms (fun t ht => hvalid t (by simp [ht])) h
      have hvalue := spaced_pretty (level + 1) v (fun t ht => hvalid t (by simp [ht])) hmore
      rw [memberTokens, prettyMembers]
      have hmember := hvalue.member (hvalid (.string key) (by simp)) (level + 1)
      simpa [Token.text] using Spaced.cons (t := .comma) trivial hmember

end

/-- The text of a well-formed value over several lines. Blanks may follow it. -/
theorem renders_pretty {v : Json} (h : v.WellFormed) {tail : String} (htail : IsBlank tail.toList) :
    Renders v (v.toPrettyText ++ tail).toList := by
  simpa [Renders, toPrettyText] using spaced_pretty 0 v h (.done htail)

/-! ## Well-formed values -/

theorem wellFormed_null : null.WellFormed := by
  simp [WellFormed, tokens, Token.IsValid]

theorem wellFormed_ofText (s : String) : (ofText s).WellFormed := by
  simp [WellFormed, ofText, tokens, Token.IsValid, isStringLiteral_escape]

theorem wellFormed_ofNat (n : Nat) : (ofNat n).WellFormed := by
  simp [WellFormed, ofNat, tokens, Token.IsValid, isNumberLiteral_toDigits]

theorem isValid_of_mem_elementTokens {vs : List Json} (h : ∀ v ∈ vs, v.WellFormed) :
    ∀ t ∈ elementTokens vs, t.IsValid := by
  induction vs with
  | nil => simp [elementTokens, Token.IsValid]
  | cons v vs ih =>
      rw [List.forall_mem_cons] at h
      intro t ht
      simp only [elementTokens, List.mem_cons, List.mem_append] at ht
      rcases ht with rfl | ht | ht
      · trivial
      · exact h.1 t ht
      · exact ih h.2 t ht

theorem wellFormed_array {vs : List Json} (h : ∀ v ∈ vs, v.WellFormed) :
    (array vs).WellFormed := by
  cases vs with
  | nil => simp [WellFormed, tokens, Token.IsValid]
  | cons v vs =>
      rw [List.forall_mem_cons] at h
      intro t ht
      simp only [tokens, List.mem_cons, List.mem_append] at ht
      rcases ht with rfl | ht | ht
      · trivial
      · exact h.1 t ht
      · exact isValid_of_mem_elementTokens h.2 t ht

theorem isValid_of_mem_memberTokens {ms : List (String × Json)} (h : ∀ m ∈ ms, m.2.WellFormed) :
    ∀ t ∈ memberTokens (ms.map fun m => (escape m.1.toList, m.2)), t.IsValid := by
  induction ms with
  | nil => simp [memberTokens, Token.IsValid]
  | cons m ms ih =>
      rw [List.forall_mem_cons] at h
      intro t ht
      simp only [List.map_cons, memberTokens, List.mem_cons, List.mem_append] at ht
      rcases ht with rfl | rfl | rfl | ht | ht
      · trivial
      · exact isStringLiteral_escape m.1.toList
      · trivial
      · exact h.1 t ht
      · exact ih h.2 t ht

theorem wellFormed_ofMembers {ms : List (String × Json)} (h : ∀ m ∈ ms, m.2.WellFormed) :
    (ofMembers ms).WellFormed := by
  cases ms with
  | nil => simp [WellFormed, ofMembers, tokens, Token.IsValid]
  | cons m ms =>
      rw [List.forall_mem_cons] at h
      intro t ht
      simp only [ofMembers, List.map_cons, tokens, List.mem_cons, List.mem_append] at ht
      rcases ht with rfl | rfl | rfl | ht | ht
      · trivial
      · exact isStringLiteral_escape m.1.toList
      · trivial
      · exact h.1 t ht
      · exact isValid_of_mem_memberTokens h.2 t ht

end Json

end SliceLint

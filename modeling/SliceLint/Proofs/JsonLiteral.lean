import Mathlib.Data.List.TakeWhile
import SliceLint.Json.Reader

set_option autoImplicit false

/-! # Literals of JSON

The grammar of string and number literals, and its two sides. The reader takes a literal off the
front of a text exactly as it is written, provided that what follows cannot continue it
(`readString_append`, `readNumber_append`). The writer makes literals, and what they denote is what
was written (`unescape?_escape`, `nat?_ofNat`). -/

namespace SliceLint

namespace Json

/-! ## The grammar -/

/-- What may stand between the quotes of a string. -/
inductive IsStringLiteral : List Char → Prop where
  | nil : IsStringLiteral []
  | plain {c : Char} {cs : List Char} (quote : c ≠ '"') (backslash : c ≠ '\\')
      (control : 0x20 ≤ c.toNat) (rest : IsStringLiteral cs) : IsStringLiteral (c :: cs)
  | short {e : Char} {cs : List Char} (known : (shortEscape? e).isSome = true)
      (rest : IsStringLiteral cs) : IsStringLiteral ('\\' :: e :: cs)
  | unicode {a b c d : Char} {cs : List Char} (digits : (hexQuad? a b c d).isSome = true)
      (rest : IsStringLiteral cs) : IsStringLiteral ('\\' :: 'u' :: a :: b :: c :: d :: cs)

/-- A run of digits. -/
def IsDigits (cs : List Char) : Prop :=
  cs ≠ [] ∧ ∀ c ∈ cs, c.isDigit = true

/-- The digits before the point: a zero stands alone. -/
inductive IsWhole : List Char → Prop where
  | zero : IsWhole ['0']
  | digits {d : Char} {cs : List Char} (nonzero : d ≠ '0') (digits : IsDigits (d :: cs)) :
      IsWhole (d :: cs)

/-- The point and the digits after it, which may both be missing. -/
inductive IsFraction : List Char → Prop where
  | none : IsFraction []
  | digits {cs : List Char} (digits : IsDigits cs) : IsFraction ('.' :: cs)

/-- The exponent, which may be missing. -/
inductive IsExponent : List Char → Prop where
  | none : IsExponent []
  | digits {e : Char} {sign cs : List Char} (mark : e = 'e' ∨ e = 'E')
      (signed : sign = [] ∨ sign = ['+'] ∨ sign = ['-']) (digits : IsDigits cs) :
      IsExponent (e :: (sign ++ cs))

/-- A number. -/
inductive IsNumberLiteral : List Char → Prop where
  | mk {sign ds fs es : List Char} (signed : sign = [] ∨ sign = ['-']) (whole : IsWhole ds)
      (fraction : IsFraction fs) (exponent : IsExponent es) :
      IsNumberLiteral (sign ++ (ds ++ fs ++ es))

/-! ## Reading strings -/

theorem shortEscape?_u : shortEscape? 'u' = none := rfl

theorem readString_append {literal : List Char} (h : IsStringLiteral literal) (rest : List Char) :
    readString (literal ++ '"' :: rest) = some (literal, rest) := by
  induction h with
  | nil => simp [readString]
  | @plain c cs hquote hbackslash hcontrol _ ih =>
      simp [readString, hbackslash, hcontrol, ih]
  | @short e cs hknown _ ih =>
      have he : e ≠ 'u' := by
        rintro rfl
        simp [shortEscape?_u] at hknown
      obtain ⟨c, hc⟩ := Option.isSome_iff_exists.1 hknown
      simp [readString, he, hc, ih]
  | @unicode a b c d cs hdigits _ ih =>
      obtain ⟨n, hn⟩ := Option.isSome_iff_exists.1 hdigits
      simp [readString, hn, ih]

/-! ## Reading numbers -/

/-- Whether a text goes on with something that a number cannot. -/
def EndsNumber (rest : List Char) : Prop :=
  ∀ c ∈ rest.head?, c.isDigit = false ∧ c ≠ '.' ∧ c ≠ 'e' ∧ c ≠ 'E'

theorem readDigits_append {digits rest : List Char} (h : IsDigits digits)
    (hrest : ∀ c ∈ rest.head?, c.isDigit = false) :
    readDigits (digits ++ rest) = some (digits, rest) := by
  have hstop : rest.takeWhile Char.isDigit = [] ∧ rest.dropWhile Char.isDigit = rest := by
    cases rest with
    | nil => simp
    | cons c rest =>
        have hc : c.isDigit = false := hrest c rfl
        simp [hc]
  have htake : (digits ++ rest).takeWhile Char.isDigit = digits := by
    rw [List.takeWhile_append_of_pos h.2, hstop.1, List.append_nil]
  have hdrop : (digits ++ rest).dropWhile Char.isDigit = rest := by
    rw [List.dropWhile_append_of_pos h.2, hstop.2]
  unfold readDigits
  rw [htake, hdrop]
  cases digits with
  | nil => exact absurd rfl h.1
  | cons d digits => rfl

theorem readWhole_append {whole rest : List Char} (h : IsWhole whole)
    (hrest : ∀ c ∈ rest.head?, c.isDigit = false) :
    readWhole (whole ++ rest) = some (whole, rest) := by
  cases h with
  | zero => rfl
  | @digits d cs hnonzero hdigits =>
      have hread := readDigits_append hdigits hrest
      rw [List.cons_append] at hread ⊢
      rw [readWhole, hread]
      intro tail htail
      exact hnonzero (List.cons.inj htail).1

theorem readFraction_append {fraction rest : List Char} (h : IsFraction fraction)
    (hrest : ∀ c ∈ rest.head?, c.isDigit = false ∧ c ≠ '.') :
    readFraction (fraction ++ rest) = some (fraction, rest) := by
  cases h with
  | none =>
      cases rest with
      | nil => rfl
      | cons c rest =>
          have hc : c ≠ '.' := (hrest c rfl).2
          simp [readFraction, hc]
  | digits hdigits =>
      have hread := readDigits_append hdigits fun c hc => (hrest c hc).1
      simp [readFraction, hread]

theorem readExponent_append {exponent rest : List Char} (h : IsExponent exponent)
    (hrest : EndsNumber rest) : readExponent (exponent ++ rest) = some (exponent, rest) := by
  cases h with
  | none =>
      cases rest with
      | nil => rfl
      | cons c rest =>
          obtain ⟨-, -, he, hE⟩ := hrest c rfl
          simp [readExponent, he, hE]
  | @digits e sign cs hmark hsign hdigits =>
      have hread := readDigits_append hdigits fun c hc => (hrest c hc).1
      rcases hsign with rfl | rfl | rfl
      · -- without a sign, the first digit has to be told from one
        obtain ⟨d, ds, rfl⟩ := List.exists_cons_of_ne_nil hdigits.1
        have hd : d.isDigit = true := hdigits.2 d (by simp)
        have hplus : d ≠ '+' := by
          rintro rfl
          cases hd
        have hminus : d ≠ '-' := by
          rintro rfl
          cases hd
        rw [List.cons_append] at hread
        simp [readExponent, hmark, hplus, hminus, hread]
      · simp [readExponent, hmark, hread]
      · simp [readExponent, hmark, hread]

/-- A fraction or an exponent begins with no digit. -/
theorem IsExponent.head {exponent rest : List Char} (h : IsExponent exponent)
    (hrest : EndsNumber rest) :
    ∀ c ∈ (exponent ++ rest).head?, c.isDigit = false ∧ c ≠ '.' := by
  intro c hc
  cases h with
  | none => exact ⟨(hrest c hc).1, (hrest c hc).2.1⟩
  | digits hmark =>
      obtain rfl := Option.some.inj hc
      rcases hmark with rfl | rfl <;> decide

theorem IsFraction.head {fraction rest : List Char} (h : IsFraction fraction)
    (hrest : ∀ c ∈ rest.head?, c.isDigit = false) :
    ∀ c ∈ (fraction ++ rest).head?, c.isDigit = false := by
  intro c hc
  cases h with
  | none => exact hrest c hc
  | digits =>
      obtain rfl := Option.some.inj hc
      rfl

theorem readUnsigned_append {whole fraction exponent rest : List Char} (hwhole : IsWhole whole)
    (hfraction : IsFraction fraction) (hexponent : IsExponent exponent)
    (hrest : EndsNumber rest) :
    readUnsigned (whole ++ fraction ++ exponent ++ rest)
      = some (whole ++ fraction ++ exponent, rest) := by
  have hafter := hexponent.head hrest
  have hread : readWhole (whole ++ (fraction ++ (exponent ++ rest)))
      = some (whole, fraction ++ (exponent ++ rest)) :=
    readWhole_append hwhole (hfraction.head fun c hc => (hafter c hc).1)
  simp only [List.append_assoc] at hread ⊢
  simp [readUnsigned, hread, readFraction_append hfraction hafter,
    readExponent_append hexponent hrest]

theorem IsWhole.exists_digit {whole : List Char} (h : IsWhole whole) :
    ∃ d ds, whole = d :: ds ∧ d.isDigit = true := by
  cases h with
  | zero => exact ⟨'0', [], rfl, rfl⟩
  | @digits d cs _ hdigits => exact ⟨d, cs, rfl, hdigits.2 d (by simp)⟩

theorem readNumber_append {literal rest : List Char} (h : IsNumberLiteral literal)
    (hrest : EndsNumber rest) : readNumber (literal ++ rest) = some (literal, rest) := by
  obtain ⟨hsign, hwhole, hfraction, hexponent⟩ := h
  have hread := readUnsigned_append hwhole hfraction hexponent hrest
  rcases hsign with rfl | rfl
  · obtain ⟨d, ds, rfl, hd⟩ := hwhole.exists_digit
    have hminus : d ≠ '-' := by
      rintro rfl
      cases hd
    simp only [List.nil_append, List.cons_append] at hread ⊢
    rw [readNumber, hread]
    intro tail htail
    exact hminus (List.cons.inj htail).1
  · simp only [List.cons_append, List.nil_append]
    rw [readNumber, hread]
    rfl

/-! ## Writing strings -/

theorem hexValue?_hexDigit : ∀ n < 16, hexValue? (hexDigit n) = some n := by
  decide

/-- The escape of a control character denotes it. -/
theorem hexQuad?_hexDigit {n : Nat} (h : n < 0x20) :
    hexQuad? '0' '0' (hexDigit (n / 16)) (hexDigit (n % 16)) = some n := by
  have hzero : hexValue? '0' = some 0 := rfl
  have hhigh := hexValue?_hexDigit (n / 16) (by omega)
  have hlow := hexValue?_hexDigit (n % 16) (by omega)
  have hsum : n / 16 * 16 + n % 16 = n := by omega
  simp [hexQuad?, hzero, hhigh, hlow, hsum]

/-- A character is written with a letter of its own after a back slash, with its number, or as
itself. -/
theorem escapeChar_cases (c : Char) :
    (∃ e, escapeChar c = ['\\', e] ∧ shortEscape? e = some c) ∨
      (c.toNat < 0x20 ∧ escapeChar c
        = ['\\', 'u', '0', '0', hexDigit (c.toNat / 16), hexDigit (c.toNat % 16)]) ∨
      (c ≠ '"' ∧ c ≠ '\\' ∧ 0x20 ≤ c.toNat ∧ escapeChar c = [c]) := by
  unfold escapeChar
  split_ifs with hquote hbackslash hline hreturn htab hback hform hcontrol
  · exact .inl ⟨'"', rfl, by rw [hquote]; rfl⟩
  · exact .inl ⟨'\\', rfl, by rw [hbackslash]; rfl⟩
  · exact .inl ⟨'n', rfl, hline ▸ rfl⟩
  · exact .inl ⟨'r', rfl, hreturn ▸ rfl⟩
  · exact .inl ⟨'t', rfl, htab ▸ rfl⟩
  · exact .inl ⟨'b', rfl, hback ▸ rfl⟩
  · exact .inl ⟨'f', rfl, hform ▸ rfl⟩
  · exact .inr (.inl ⟨hcontrol, rfl⟩)
  · exact .inr (.inr ⟨hquote, hbackslash, by omega, rfl⟩)

theorem isStringLiteral_escape (cs : List Char) : IsStringLiteral (escape cs) := by
  induction cs with
  | nil => exact .nil
  | cons c cs ih =>
      rw [escape, List.flatMap_cons]
      change IsStringLiteral (escapeChar c ++ escape cs)
      rcases escapeChar_cases c with
        ⟨e, hc, he⟩ | ⟨hcontrol, hc⟩ | ⟨hquote, hbackslash, hplain, hc⟩
      · rw [hc]
        exact .short (by simp [he]) ih
      · rw [hc]
        exact .unicode (by simp [hexQuad?_hexDigit hcontrol]) ih
      · rw [hc]
        exact .plain hquote hbackslash hplain ih

/-- The literal of a text denotes it. -/
theorem unescape?_escape (cs : List Char) : unescape? (escape cs) = some cs := by
  induction cs with
  | nil => simp [escape, unescape?]
  | cons c cs ih =>
      rw [escape, List.flatMap_cons]
      change unescape? (escapeChar c ++ escape cs) = some (c :: cs)
      rcases escapeChar_cases c with
        ⟨e, hc, he⟩ | ⟨hcontrol, hc⟩ | ⟨hquote, hbackslash, hplain, hc⟩
      · have hu : e ≠ 'u' := by
          rintro rfl
          simp [shortEscape?_u] at he
        simp [hc, unescape?, hu, he, ih]
      · have hhigh : isHighSurrogate c.toNat = false := by
          simp [isHighSurrogate]
          omega
        have hlow : isLowSurrogate c.toNat = false := by
          simp [isLowSurrogate]
          omega
        simp [hc, unescape?, hexQuad?_hexDigit hcontrol, hhigh, hlow, ih]
      · simp [hc, unescape?, hbackslash, ih]

@[simp] theorem text?_ofText (s : String) : (ofText s).text? = some s := by
  simp [ofText, text?, unescape?_escape]

/-! ## Writing numbers -/

theorem digitsValue_eq (cs : List Char) (acc : Nat) :
    Text.digitsValue acc cs = Nat.ofDigitChars 10 cs acc := by
  induction cs generalizing acc with
  | nil => rfl
  | cons c cs ih =>
      change Text.digitsValue (acc * 10 + (c.toNat - '0'.toNat)) cs = _
      rw [ih, Nat.ofDigitChars_cons, Nat.mul_comm]

theorem isDigits_toDigits (n : Nat) : IsDigits (Nat.toDigits 10 n) :=
  ⟨Nat.toDigits_ne_nil, fun _ => Nat.isDigit_of_mem_toDigits (by decide) (by decide)⟩

/-- The number of a literal. -/
@[simp] theorem nat?_ofNat (n : Nat) : (ofNat n).nat? = some n := by
  have hdigits := isDigits_toDigits n
  have hall : (Nat.toDigits 10 n).all Char.isDigit = true := List.all_eq_true.2 hdigits.2
  simp [ofNat, nat?, hdigits.1, hall, digitsValue_eq]

/-- No number but zero is written with a leading zero. -/
theorem exists_toDigits_eq {n : Nat} (h : 0 < n) :
    ∃ d ds, Nat.toDigits 10 n = d :: ds ∧ d ≠ '0' := by
  induction n using Nat.strong_induction_on with
  | _ n ih =>
      rcases Nat.lt_or_ge n 10 with hlt | hge
      · refine ⟨n.digitChar, [], Nat.toDigits_of_lt_base hlt, ?_⟩
        rw [ne_eq, Nat.digitChar_eq_zero]
        omega
      · obtain ⟨d, ds, hdigits, hd⟩ := ih (n / 10) (by omega) (by omega)
        refine ⟨d, ds ++ [(n % 10).digitChar], ?_, hd⟩
        rw [Nat.toDigits_of_base_le (by decide) hge, hdigits, List.cons_append]

theorem isNumberLiteral_toDigits (n : Nat) : IsNumberLiteral (Nat.toDigits 10 n) := by
  have hwhole : IsWhole (Nat.toDigits 10 n) := by
    rcases Nat.eq_zero_or_pos n with rfl | hpos
    · exact .zero
    · have hdigits := isDigits_toDigits n
      obtain ⟨d, ds, hds, hd⟩ := exists_toDigits_eq hpos
      rw [hds] at hdigits ⊢
      exact .digits hd hdigits
  simpa using IsNumberLiteral.mk (.inl rfl) hwhole .none .none

end Json

end SliceLint

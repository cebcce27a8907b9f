set_option autoImplicit false

/-! # Text

The few operations on text that the rest of the library is built from. Each of them is a plain
recursion on the list of characters, and the versions on `String` only convert at both ends, so a
statement about paths or specifiers becomes a statement about lists.

The main fact is that splitting and joining at a separator are inverse (`join_split`). -/

namespace SliceLint

namespace Text

/-! ## Splitting -/

/-- The parts of a text between the characters that satisfy `sep`. There is always at least one
part, and adjacent separators have an empty part between them. -/
def split (sep : Char → Bool) : List Char → List (List Char)
  | [] => [[]]
  | c :: cs =>
    if sep c then [] :: split sep cs
    else match split sep cs with
      | [] => [[c]]
      | part :: parts => (c :: part) :: parts

/-- Put `sep` between the parts. -/
def join (sep : Char) : List (List Char) → List Char
  | [] => []
  | [part] => part
  | part :: next :: parts => part ++ sep :: join sep (next :: parts)

theorem split_ne_nil (sep : Char → Bool) (cs : List Char) : split sep cs ≠ [] := by
  cases cs with
  | nil => simp [split]
  | cons c cs =>
      rw [split]
      split
      · simp
      · split <;> simp

/-- Joining the parts of a text at its separator gives the text back. -/
theorem join_split (sep : Char) (cs : List Char) : join sep (split (· == sep) cs) = cs := by
  induction cs with
  | nil => rfl
  | cons c cs ih =>
      rw [split]
      have hne := split_ne_nil (· == sep) cs
      cases hs : split (· == sep) cs with
      | nil => exact absurd hs hne
      | cons part parts =>
          rw [hs] at ih
          by_cases hc : c = sep
          · subst hc
            simp [join, ih]
          · have hcb : (c == sep) = false := by simpa using hc
            cases parts with
            | nil => simpa [hcb, join] using ih
            | cons next parts => simpa [hcb, join] using ih

/-- The parts of a text between its slashes. -/
def segments (s : String) : List String :=
  (split (· == '/') s.toList).map String.ofList

/-- Segments with a slash between each two of them. -/
def joinSegments (parts : List String) : String :=
  String.ofList (join '/' (parts.map String.toList))

theorem joinSegments_segments (s : String) : joinSegments (segments s) = s := by
  simp [joinSegments, segments, Function.comp_def, join_split]

/-! ## Cutting the ends -/

/-- What follows `start` in `s`, if `s` begins with it. -/
def dropPrefix? (start s : String) : Option String :=
  (start.toList.isPrefixOf? s.toList).map String.ofList

/-- Whether `s` begins with `start`. -/
def startsWith (start s : String) : Bool :=
  start.toList.isPrefixOf s.toList

/-- What precedes `tail` in `s`, if `s` ends with it. -/
def dropSuffix? (tail s : String) : Option String :=
  (tail.toList.isSuffixOf? s.toList).map String.ofList

/-- Whether `s` ends with `tail`. -/
def endsWith (tail s : String) : Bool :=
  tail.toList.isSuffixOf s.toList

/-- Drop every character at the end of a text that satisfies `p`. -/
def dropEndWhile (p : Char → Bool) (cs : List Char) : List Char :=
  (cs.reverse.dropWhile p).reverse

/-! ## Slashes -/

/-- The slash that a character stands for: a back slash counts as a slash. -/
def slash (c : Char) : Char :=
  if c = '\\' then '/' else c

/-- Write every back slash as a slash. -/
def slashed (s : String) : String :=
  String.ofList (s.toList.map slash)

theorem slash_slash (c : Char) : slash (slash c) = slash c := by
  by_cases h : c = '\\'
  · subst h
    decide
  · simp [slash, h]

/-- A text with slashes only is unchanged. -/
theorem slashed_slashed (s : String) : slashed (slashed s) = slashed s := by
  simp [slashed, Function.comp_def, slash_slash]

/-! ## Numbers -/

/-- The digits of a number in base ten. -/
def decimal (n : Nat) : String :=
  String.ofList (Nat.toDigits 10 n)

/-- The value of a list of decimal digits, read from the left onto `acc`. -/
def digitsValue (acc : Nat) : List Char → Nat
  | [] => acc
  | c :: cs => digitsValue (acc * 10 + (c.toNat - '0'.toNat)) cs

end Text

end SliceLint

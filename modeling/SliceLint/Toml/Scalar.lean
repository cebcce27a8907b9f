import SliceLint.Toml

set_option autoImplicit false

/-! # Reading TOML scalars

Strings, numbers and dates. Every reader takes the characters that are left and returns what it
read with the characters after it. -/

namespace SliceLint

namespace Toml

/-! ## Characters -/

/-- Whether a character is a blank within a line. -/
def isBlank (c : Char) : Bool :=
  c == ' ' || c == '\t'

/-- What is left after blanks. -/
def skipBlanks (cs : List Char) : List Char :=
  cs.dropWhile isBlank

/-- What is left after a line break. -/
def lineBreak? : List Char → Option (List Char)
  | '\n' :: rest => some rest
  | '\r' :: '\n' :: rest => some rest
  | _ => none

/-- Whether a character may stand in a comment or a literal string: a tab, or no control
character. -/
def isPrintable (c : Char) : Bool :=
  c == '\t' || (0x20 ≤ c.toNat && c.toNat != 0x7F)

/-- The value of a digit in a base up to sixteen. -/
def digitValue? (base : Nat) (c : Char) : Option Nat :=
  let value :=
    if '0' ≤ c ∧ c ≤ '9' then some (c.toNat - '0'.toNat)
    else if 'a' ≤ c ∧ c ≤ 'f' then some (c.toNat - 'a'.toNat + 10)
    else if 'A' ≤ c ∧ c ≤ 'F' then some (c.toNat - 'A'.toNat + 10)
    else none
  value.filter (· < base)

/-- The value of exactly `count` digits of a base, read onto `acc`. -/
def readFixed? (base : Nat) : Nat → Nat → List Char → Option (Nat × List Char)
  | 0, acc, rest => some (acc, rest)
  | count + 1, acc, c :: rest =>
    match digitValue? base c with
    | some v => readFixed? base count (acc * base + v) rest
    | none => none
  | _ + 1, _, [] => none

/-! ## Strings -/

/-- The character with a given code point. -/
def scalar? (n : Nat) : Option Char :=
  if h : n.isValidChar then some (Char.ofNatAux n h) else none

/-- Read an escape after its back slash. -/
def readEscape? : List Char → Option (Char × List Char)
  | 'b' :: rest => some ('\x08', rest)
  | 't' :: rest => some ('\t', rest)
  | 'n' :: rest => some ('\n', rest)
  | 'f' :: rest => some ('\x0c', rest)
  | 'r' :: rest => some ('\r', rest)
  | '"' :: rest => some ('"', rest)
  | '\\' :: rest => some ('\\', rest)
  | 'u' :: rest => do
    let (n, rest) ← readFixed? 16 4 0 rest
    some (← scalar? n, rest)
  | 'U' :: rest => do
    let (n, rest) ← readFixed? 16 8 0 rest
    some (← scalar? n, rest)
  | _ => none

/-- Read a basic string after its opening quote. -/
def readBasic? : Nat → List Char → Option (List Char × List Char)
  | 0, _ => none
  | _, [] => none
  | _ + 1, '"' :: rest => some ([], rest)
  | fuel + 1, '\\' :: rest => do
    let (c, rest) ← readEscape? rest
    let (cs, rest) ← readBasic? fuel rest
    some (c :: cs, rest)
  | fuel + 1, c :: rest =>
    if isPrintable c then (readBasic? fuel rest).map fun r => (c :: r.1, r.2) else none

/-- Read a literal string after its opening quote. -/
def readLiteral? : List Char → Option (List Char × List Char)
  | [] => none
  | c :: rest =>
    if c = '\'' then some ([], rest)
    else if isPrintable c then (readLiteral? rest).map fun r => (c :: r.1, r.2)
    else none

/-- What is left after blanks and line breaks. -/
def skipLines : Nat → List Char → List Char
  | 0, cs => cs
  | fuel + 1, cs =>
    let rest := skipBlanks cs
    match lineBreak? rest with
    | some rest => skipLines fuel rest
    | none => rest

/-- The quotes in front of a multi-line string's end: of a run of quotes the last three close the
string, and up to two more belong to it. -/
def closing? (quote : Char) (cs : List Char) : Option (List Char × List Char) :=
  let run := (cs.takeWhile (· == quote)).length
  if run < 3 then none
  else
    let inside := min (run - 3) 2
    some (List.replicate inside quote, cs.drop (inside + 3))

/-- Read a multi-line basic string after its opening quotes. A back slash at the end of a line
joins it with the next text. -/
def readMultiBasic? : Nat → List Char → Option (List Char × List Char)
  | 0, _ => none
  | _, [] => none
  | fuel + 1, c :: rest =>
    if c = '"' then
      match closing? '"' (c :: rest) with
      | some r => some r
      | none => (readMultiBasic? fuel rest).map fun r => (c :: r.1, r.2)
    else if c = '\\' then
      match lineBreak? (skipBlanks rest) with
      | some rest => readMultiBasic? fuel (skipLines fuel rest)
      | none => do
        let (c, rest) ← readEscape? rest
        let (cs, rest) ← readMultiBasic? fuel rest
        some (c :: cs, rest)
    else
      match lineBreak? (c :: rest) with
      | some rest => (readMultiBasic? fuel rest).map fun r => ('\n' :: r.1, r.2)
      | none =>
        if isPrintable c then (readMultiBasic? fuel rest).map fun r => (c :: r.1, r.2) else none

/-- Read a multi-line literal string after its opening quotes. -/
def readMultiLiteral? : Nat → List Char → Option (List Char × List Char)
  | 0, _ => none
  | _, [] => none
  | fuel + 1, c :: rest =>
    if c = '\'' then
      match closing? '\'' (c :: rest) with
      | some r => some r
      | none => (readMultiLiteral? fuel rest).map fun r => (c :: r.1, r.2)
    else
      match lineBreak? (c :: rest) with
      | some rest => (readMultiLiteral? fuel rest).map fun r => ('\n' :: r.1, r.2)
      | none =>
        if isPrintable c then (readMultiLiteral? fuel rest).map fun r => (c :: r.1, r.2) else none

/-- A text without the line break that it begins with, if it does. -/
def dropLineBreak (cs : List Char) : List Char :=
  (lineBreak? cs).getD cs

/-- Read a string of any of the four kinds. -/
def readString? (cs : List Char) : Option (String × List Char) :=
  let result :=
    match cs with
    | '"' :: '"' :: '"' :: rest => readMultiBasic? (rest.length + 1) (dropLineBreak rest)
    | '\'' :: '\'' :: '\'' :: rest => readMultiLiteral? (rest.length + 1) (dropLineBreak rest)
    | '"' :: rest => readBasic? (rest.length + 1) rest
    | '\'' :: rest => readLiteral? rest
    | _ => none
  result.map fun r => (String.ofList r.1, r.2)

/-! ## Numbers -/

/-- Read a run of digits with single underscores between them; the digits are returned. -/
def readDigitRun? (base : Nat) : Nat → List Char → Option (List Char × List Char)
  | 0, _ => none
  | _, [] => none
  | fuel + 1, c :: rest =>
    match digitValue? base c with
    | none => none
    | some _ =>
      match rest with
      | '_' :: more => (readDigitRun? base fuel more).map fun r => (c :: r.1, r.2)
      | d :: _ =>
        if (digitValue? base d).isSome then
          (readDigitRun? base fuel rest).map fun r => (c :: r.1, r.2)
        else some ([c], rest)
      | [] => some ([c], [])

/-- Read a sign; the flag tells whether it is a minus. -/
def readSign : List Char → Bool × List Char
  | '+' :: rest => (false, rest)
  | '-' :: rest => (true, rest)
  | rest => (false, rest)

/-- Read the digits of a decimal number: a zero stands alone. -/
def readDecimal? : List Char → Option (List Char × List Char)
  | '0' :: rest => some (['0'], rest)
  | cs => readDigitRun? 10 (cs.length + 1) cs

/-- The value of digits in a base. -/
def valueIn (base : Nat) (digits : List Char) : Nat :=
  digits.foldl (fun acc c => acc * base + (digitValue? base c).getD 0) 0

/-- An integer of 64 bits. -/
def int64? (n : Int) : Option Toml :=
  if -(Int.pow 2 63) ≤ n ∧ n < Int.pow 2 63 then some (.integer n) else none

/-- Read an integer. -/
def readInteger? (cs : List Char) : Option (Toml × List Char) :=
  let based := fun (base : Nat) (rest : List Char) => do
    let (digits, rest) ← readDigitRun? base (rest.length + 1) rest
    some (← int64? (valueIn base digits), rest)
  match cs with
  | '0' :: 'x' :: rest => based 16 rest
  | '0' :: 'o' :: rest => based 8 rest
  | '0' :: 'b' :: rest => based 2 rest
  | cs => do
    let (negative, rest) := readSign cs
    let (digits, rest) ← readDecimal? rest
    let n : Int := valueIn 10 digits
    some (← int64? (if negative then -n else n), rest)

/-- Read an exponent after its letter. -/
def readExponent? (cs : List Char) : Option (Int × List Char) := do
  let (negative, rest) := readSign cs
  let (digits, rest) ← readDigitRun? 10 (rest.length + 1) rest
  let n : Int := valueIn 10 digits
  some (if negative then -n else n, rest)

/-- The float of some digits, the last `places` of them after the point. A number too large is
refused, unless it is negative. -/
def float? (negative : Bool) (digits : List Char) (places : Nat) (exponent : Int) : Option Toml :=
  let x := Double.ofDecimal negative (valueIn 10 digits) (exponent - places)
  if x.isPositiveInfinity then none else some (.float x)

/-- Read a float that has a point or an exponent. The first result tells whether the text begins
like one, so that nothing else is tried. -/
def readFloat? (cs : List Char) : Option (Option (Toml × List Char)) := do
  let (negative, rest) := readSign cs
  let (whole, rest) ← readDecimal? rest
  match rest with
  | '.' :: rest => some do
    let (fraction, rest) ← readDigitRun? 10 (rest.length + 1) rest
    match rest with
    | e :: more =>
      if e = 'e' ∨ e = 'E' then
        let (exponent, rest) ← readExponent? more
        some (← float? negative (whole ++ fraction) fraction.length exponent, rest)
      else some (← float? negative (whole ++ fraction) fraction.length 0, rest)
    | [] => some (← float? negative (whole ++ fraction) fraction.length 0, rest)
  | e :: rest =>
    if e = 'e' ∨ e = 'E' then some do
      let (exponent, rest) ← readExponent? rest
      some (← float? negative whole 0 exponent, rest)
    else none
  | [] => none

/-- Read an infinity or a value that is no number. -/
def readSpecial? (cs : List Char) : Option (Toml × List Char) :=
  match readSign cs with
  | (negative, 'i' :: 'n' :: 'f' :: rest) => some (.float (.infinite negative), rest)
  | (_, 'n' :: 'a' :: 'n' :: rest) => some (.float .nan, rest)
  | _ => none

/-! ## Dates and times -/

/-- The number of days of a month. -/
def daysOf (year month : Nat) : Nat :=
  if month = 2 then
    if year % 4 = 0 ∧ (year % 100 ≠ 0 ∨ year % 400 = 0) then 29 else 28
  else if month = 4 ∨ month = 6 ∨ month = 9 ∨ month = 11 then 30
  else 31

/-- Read two digits with a value up to `last`. -/
def readPair? (first last : Nat) (cs : List Char) : Option (Nat × List Char) :=
  (readFixed? 10 2 0 cs).filter fun r => first ≤ r.1 && r.1 ≤ last

/-- Read a date. -/
def readDate? (cs : List Char) : Option (Date × List Char) := do
  match ← readFixed? 10 4 0 cs with
  | (year, '-' :: rest) =>
    match ← readPair? 1 12 rest with
    | (month, '-' :: rest) =>
      let (day, rest) ← readPair? 1 31 rest
      if day ≤ daysOf year month then some (⟨year, month, day⟩, rest) else none
    | _ => none
  | _ => none

/-- The nanoseconds of the digits of a fraction; digits after the ninth are cut off. -/
def nanoseconds (digits : List Char) : Nat :=
  let digits := digits.take 9
  valueIn 10 digits * Nat.pow 10 (9 - digits.length)

/-- Read a time of day. -/
def readTime? (cs : List Char) : Option (Time × List Char) := do
  match ← readPair? 0 23 cs with
  | (hour, ':' :: rest) =>
    match ← readPair? 0 59 rest with
    | (minute, ':' :: rest) =>
      let (second, rest) ← readPair? 0 60 rest
      match rest with
      | '.' :: more =>
        let digits := more.takeWhile Char.isDigit
        if digits.isEmpty then some (⟨hour, minute, second, 0⟩, rest)
        else some (⟨hour, minute, second, nanoseconds digits⟩, more.dropWhile Char.isDigit)
      | rest => some (⟨hour, minute, second, 0⟩, rest)
    | _ => none
  | _ => none

/-- Read an offset, if there is one. Fails on a sign without hours and minutes. -/
def readOffset? : List Char → Option (Option Offset × List Char)
  | 'Z' :: rest => some (some .utc, rest)
  | 'z' :: rest => some (some .utc, rest)
  | c :: rest =>
    if c = '+' ∨ c = '-' then do
      match ← readPair? 0 23 rest with
      | (hours, ':' :: rest) =>
        let (minutes, rest) ← readPair? 0 59 rest
        let total : Int := (hours * 60 + minutes : Nat)
        some (some (.minutes (if c = '-' then -total else total)), rest)
      | _ => none
    else some (none, c :: rest)
  | [] => some (none, [])

/-- Whether a character may divide a date from a time. -/
def isDateDivider (c : Char) : Bool :=
  c == 'T' || c == 't' || c == ' '

/-- Read a date, a time of day, or both. -/
def readDateTime? (cs : List Char) : Option (DateTime × List Char) :=
  match readDate? cs with
  | some (date, rest) =>
    match rest with
    | c :: more =>
      if isDateDivider c then
        match readTime? more with
        | some (time, rest) => do
          let (offset, rest) ← readOffset? rest
          some (⟨some date, some time, offset⟩, rest)
        | none => some (⟨some date, none, none⟩, rest)
      else some (⟨some date, none, none⟩, rest)
    | [] => some (⟨some date, none, none⟩, [])
  | none => (readTime? cs).map fun r => (⟨none, some r.1, none⟩, r.2)

/-- Read a date or a number: the first of date, float and integer that the text begins like. -/
def readNumeric? (cs : List Char) : Option (Toml × List Char) :=
  match readDateTime? cs with
  | some (d, rest) => some (.dateTime d, rest)
  | none =>
    match readFloat? cs with
    | some result => result
    | none =>
      match readSpecial? cs with
      | some r => some r
      | none => readInteger? cs

end Toml

end SliceLint

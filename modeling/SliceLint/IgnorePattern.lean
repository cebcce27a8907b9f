set_option autoImplicit false

/-! # Patterns of ignore files

Patterns on the bytes of a path. `?` is a byte and `*` a run of bytes, neither with a slash; `**`
between slashes stands for any directories; `[…]` is a class of bytes, `{a,b}` a choice, and a back
slash takes away the meaning of the next character. A bracket that is never closed stands for
itself.

Matching is a simulation: `rests` gives what may be left of the path after some tokens. -/

namespace SliceLint

/-- A token of a pattern. -/
inductive PathToken where
  /-- This very byte. -/
  | byte (b : UInt8)
  /-- Any byte but a slash. -/
  | anyByte
  /-- Any run of bytes without a slash. -/
  | anyRun
  /-- Any directories at the start. -/
  | leading
  /-- A slash, and everything after it. -/
  | trailing
  /-- A slash, or directories between two slashes. -/
  | between
  /-- A byte inside or outside of some ranges. -/
  | within (negated : Bool) (ranges : List (UInt8 × UInt8))
  /-- One of several patterns. -/
  | choice (alternatives : List (List PathToken))

/-- Why a text is no pattern. -/
inductive PathPatternError where
  | reversedRange (low high : Char)
  | unopenedChoice
  | unclosedChoice
  | danglingEscape
  deriving DecidableEq, Repr

namespace PathPatternError

/-- What is said about the text. -/
def message : PathPatternError → String
  | reversedRange low high =>
    "invalid range; '" ++ String.ofList [low] ++ "' > '" ++ String.ofList [high] ++ "'"
  | unopenedChoice =>
    "unopened alternate group; missing '\x7b' (maybe escape '\x7d' with '[\x7d]'?)"
  | unclosedChoice =>
    "unclosed alternate group; missing '\x7d' (maybe escape '\x7b' with '[\x7b]'?)"
  | danglingEscape => "dangling '\\'"

end PathPatternError

namespace PathToken

/-! ## Reading -/

/-- The bytes of a character. -/
def charBytes (c : Char) : List UInt8 :=
  (String.ofList [c]).toUTF8.toList

/-- The tokens of a character that stands for itself. -/
def literal (c : Char) : List PathToken :=
  (charBytes c).map byte

/-- The ranges of bytes of a range of characters: the bytes themselves, with a range from the last
byte of the lower to the first byte of the higher one. -/
def byteRanges (low high : Char) : List (UInt8 × UInt8) :=
  let single := fun (b : UInt8) => (b, b)
  if low = high then (charBytes low).map single
  else
    match (charBytes low).getLast?, charBytes high with
    | some a, b :: rest => (charBytes low).dropLast.map single ++ (a, b) :: rest.map single
    | _, _ => []

/-- The state of reading a class: what is read so far, and whether a range is open. -/
structure ClassReading where
  ranges : List (Char × Char)
  first : Bool
  inRange : Bool

/-- Give the last range a new upper end. -/
def closeRange (ranges : List (Char × Char)) (c : Char) :
    Except PathPatternError (List (Char × Char)) :=
  match ranges.getLast? with
  | some (low, _) =>
    if c < low then .error (.reversedRange low c) else .ok (ranges.dropLast ++ [(low, c)])
  | none => .ok ranges

/-- Read the members of a class up to its closing bracket. There is no result if it is never
closed. -/
def readClass : ClassReading → List Char →
    Except PathPatternError (Option (List (Char × Char) × List Char))
  | _, [] => .ok none
  | r, c :: rest =>
    if c = ']' ∧ r.first = false then
      .ok (some (if r.inRange then r.ranges ++ [('-', '-')] else r.ranges, rest))
    else if c = '-' ∧ r.first = false ∧ r.inRange = false then
      readClass { r with inRange := true } rest
    else if r.inRange then
      match closeRange r.ranges c with
      | .ok ranges => readClass ⟨ranges, false, false⟩ rest
      | .error e => .error e
    else readClass ⟨r.ranges ++ [(c, c)], false, false⟩ rest

/-- The state of reading a pattern. -/
structure Reading where
  /-- The character in front. -/
  before : Option Char
  /-- The tokens of the pattern or alternative that is being read. -/
  current : List PathToken
  /-- The choices that are open, the innermost first: the tokens in front, and the alternatives
  that are complete. -/
  choices : List (List PathToken × List (List PathToken))
  /-- An opening bracket stands for itself from here on. -/
  plainBrackets : Bool

namespace Reading

/-- Add tokens. -/
def push (r : Reading) (before : Char) (tokens : List PathToken) : Reading :=
  { r with before := some before, current := r.current ++ tokens }

/-- Replace the last token by the one for directories. -/
def pushDirectories (r : Reading) (before : Char) (atEnd : Bool) : Reading :=
  let token :=
    match r.current.getLast? with
    | some leading => leading
    | some trailing => trailing
    | _ => if atEnd then trailing else between
  { r with before := some before, current := r.current.dropLast ++ [token] }

/-- Read a double star, from the characters after it on. -/
def doubleStar (r : Reading) (rest : List Char) : Reading × List Char :=
  let plain := (r.push '*' [anyRun, anyRun], rest)
  if r.current.isEmpty then
    match rest with
    | [] => (r.push '*' [leading], [])
    | '/' :: rest => (r.push '/' [leading], rest)
    | _ => plain
  else if r.before ≠ some '/' then plain
  else
    match rest with
    | [] => (r.pushDirectories '*' true, [])
    | '/' :: rest => (r.pushDirectories '/' false, rest)
    | c :: _ =>
      if (c = ',' ∨ c = '\x7d') ∧ r.choices ≠ [] then (r.pushDirectories '*' true, rest)
      else plain

end Reading

/-- Read the tokens of a pattern. -/
def readTokens : Nat → Reading → List Char → Except PathPatternError (List PathToken)
  | 0, r, _ => .ok r.current
  | _, r, [] => if r.choices.isEmpty then .ok r.current else .error .unclosedChoice
  | fuel + 1, r, c :: rest =>
    if c = '?' then readTokens fuel (r.push c [anyByte]) rest
    else if c = '*' then
      match rest with
      | '*' :: rest =>
        let (r, rest) := r.doubleStar rest
        readTokens fuel r rest
      | _ => readTokens fuel (r.push c [anyRun]) rest
    else if c = '[' ∧ r.plainBrackets = false then
      let negated := rest.head? = some '!' ∨ rest.head? = some '^'
      match readClass ⟨[], true, false⟩ (if negated then rest.drop 1 else rest) with
      | .error e => .error e
      | .ok none => readTokens fuel { r.push c (literal c) with plainBrackets := true } rest
      | .ok (some (ranges, rest)) =>
        let bytes := ranges.flatMap fun range => byteRanges range.1 range.2
        readTokens fuel (r.push ']' [within negated bytes]) rest
    else if c = '\x7b' then
      readTokens fuel
        { r with before := some c, current := [], choices := (r.current, []) :: r.choices } rest
    else if c = '\x7d' then
      match r.choices with
      | [] => .error .unopenedChoice
      | (outer, complete) :: choices =>
        readTokens fuel
          { r with
            before := some c
            current := outer ++ [choice (complete ++ [r.current])]
            choices := choices }
          rest
    else if c = ',' then
      match r.choices with
      | [] => readTokens fuel (r.push c (literal c)) rest
      | (outer, complete) :: choices =>
        readTokens fuel
          { r with
            before := some c
            current := []
            choices := (outer, complete ++ [r.current]) :: choices }
          rest
    else if c = '\\' then
      match rest with
      | [] => .error .danglingEscape
      | d :: rest => readTokens fuel (r.push d (literal d)) rest
    else readTokens fuel (r.push c (literal c)) rest

/-- The tokens of a pattern. -/
def parse (s : String) : Except PathPatternError (List PathToken) :=
  readTokens (s.length + 1) ⟨none, [], [], false⟩ s.toList

/-! ## Matching -/

/-- The byte of a slash. -/
def slashByte : UInt8 := 47

/-- All ends of a path. -/
def tails : List UInt8 → List (List UInt8)
  | [] => [[]]
  | b :: bs => (b :: bs) :: tails bs

/-- The ends of a path after a run without a slash. -/
def tailsOfRun : List UInt8 → List (List UInt8)
  | [] => [[]]
  | b :: bs => (b :: bs) :: if b = slashByte then [] else tailsOfRun bs

/-- The ends of a path after one of its slashes. -/
def tailsAfterSlash : List UInt8 → List (List UInt8)
  | [] => []
  | b :: bs => if b = slashByte then bs :: tailsAfterSlash bs else tailsAfterSlash bs

/-- Whether a byte lies in one of some ranges. -/
def inRanges (ranges : List (UInt8 × UInt8)) (b : UInt8) : Bool :=
  ranges.any fun r => r.1 ≤ b && b ≤ r.2

mutual

/-- Whether a token takes no part in matching, being a choice of nothing. -/
def isVoid : PathToken → Bool
  | choice alternatives => areVoidAlternatives alternatives
  | _ => false

/-- Whether no token of a pattern takes part in matching. -/
def areVoid : List PathToken → Bool
  | [] => true
  | t :: rest => t.isVoid && areVoid rest

/-- Whether no alternative takes part in matching. -/
def areVoidAlternatives : List (List PathToken) → Bool
  | [] => true
  | a :: rest => areVoid a && areVoidAlternatives rest

end

mutual

/-- What may be left of a path after one token. -/
def rests : PathToken → List UInt8 → List (List UInt8)
  | byte c, b :: bs => if b = c then [bs] else []
  | anyByte, b :: bs => if b = slashByte then [] else [bs]
  | within negated ranges, b :: bs => if inRanges ranges b = negated then [] else [bs]
  | anyRun, bs => tailsOfRun bs
  | leading, bs => bs :: tailsAfterSlash bs
  | trailing, b :: bs => if b = slashByte then tails bs else []
  | between, b :: bs => if b = slashByte then bs :: tailsAfterSlash bs else []
  | choice alternatives, bs =>
    if areVoidAlternatives alternatives then [bs] else restsOfAny alternatives bs
  | _, [] => []

/-- What may be left of a path after all tokens of a pattern. -/
def restsOfAll : List PathToken → List (List UInt8) → List (List UInt8)
  | [], states => states
  | t :: rest, states => restsOfAll rest ((states.flatMap t.rests).eraseDups)

/-- What may be left of a path after one of some patterns; those without tokens do not count. -/
def restsOfAny : List (List PathToken) → List UInt8 → List (List UInt8)
  | [], _ => []
  | a :: rest, bs =>
    (if areVoid a then [] else restsOfAll a [bs]) ++ restsOfAny rest bs

end

/-- Whether a pattern matches the whole of a path. A pattern of leading directories alone matches
every path. -/
def isMatch (tokens : List PathToken) (path : String) : Bool :=
  match tokens with
  | [leading] => true
  | tokens => (restsOfAll tokens [path.toUTF8.toList]).contains []

end PathToken

end SliceLint

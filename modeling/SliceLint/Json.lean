import SliceLint.Text

set_option autoImplicit false

/-! # JSON values

A JSON text as a tree. String and number literals are kept as they are spelled, because a reader
may pass over a value whose literal denotes nothing (a string with half of a surrogate pair, a
number beyond every double). `text?` and `nat?` read a literal where its meaning is needed, and
`ofText` and `ofNat` write one. -/

namespace SliceLint

/-- A JSON value whose literals are kept as written; strings are without their quotes. -/
inductive Json where
  | null
  | bool (b : Bool)
  | number (literal : List Char)
  | string (literal : List Char)
  | array (elements : List Json)
  | object (members : List (List Char × Json))
  deriving Inhabited

namespace Json

/-! ## String literals -/

/-- The lower-case hexadecimal digit of a number below sixteen. -/
def hexDigit (n : Nat) : Char :=
  if n < 10 then Char.ofNat ('0'.toNat + n) else Char.ofNat ('a'.toNat + (n - 10))

/-- The value of a hexadecimal digit. -/
def hexValue? (c : Char) : Option Nat :=
  if '0' ≤ c ∧ c ≤ '9' then some (c.toNat - '0'.toNat)
  else if 'a' ≤ c ∧ c ≤ 'f' then some (c.toNat - 'a'.toNat + 10)
  else if 'A' ≤ c ∧ c ≤ 'F' then some (c.toNat - 'A'.toNat + 10)
  else none

/-- The number that four hexadecimal digits denote. -/
def hexQuad? (a b c d : Char) : Option Nat := do
  some (((← hexValue? a) * 16 + (← hexValue? b)) * 256 + (← hexValue? c) * 16 + (← hexValue? d))

/-- The character that a letter stands for after a back slash. -/
def shortEscape? : Char → Option Char
  | '"' => some '"'
  | '\\' => some '\\'
  | '/' => some '/'
  | 'b' => some '\x08'
  | 'f' => some '\x0c'
  | 'n' => some '\n'
  | 'r' => some '\r'
  | 't' => some '\t'
  | _ => none

/-- The spelling of a character inside a string literal. Quotes, back slashes and control
characters are escaped, everything else stands for itself. -/
def escapeChar (c : Char) : List Char :=
  if c = '"' then ['\\', '"']
  else if c = '\\' then ['\\', '\\']
  else if c = '\n' then ['\\', 'n']
  else if c = '\r' then ['\\', 'r']
  else if c = '\t' then ['\\', 't']
  else if c = '\x08' then ['\\', 'b']
  else if c = '\x0c' then ['\\', 'f']
  else if c.toNat < 0x20 then
    ['\\', 'u', '0', '0', hexDigit (c.toNat / 16), hexDigit (c.toNat % 16)]
  else [c]

/-- The string literal that denotes a text. -/
def escape (cs : List Char) : List Char :=
  cs.flatMap escapeChar

/-- The first half of a surrogate pair. -/
def isHighSurrogate (n : Nat) : Bool :=
  0xD800 ≤ n && n < 0xDC00

/-- The second half of a surrogate pair. -/
def isLowSurrogate (n : Nat) : Bool :=
  0xDC00 ≤ n && n < 0xE000

/-- The text that a string literal denotes. Half of a surrogate pair denotes no character. -/
def unescape? : List Char → Option (List Char)
  | [] => some []
  | '\\' :: 'u' :: a :: b :: c :: d :: rest =>
    match hexQuad? a b c d with
    | none => none
    | some n =>
      if isHighSurrogate n then
        match rest with
        | '\\' :: 'u' :: a :: b :: c :: d :: rest =>
          match hexQuad? a b c d with
          | some m =>
            if isLowSurrogate m then
              (unescape? rest).map
                (Char.ofNat (0x10000 + (n - 0xD800) * 0x400 + (m - 0xDC00)) :: ·)
            else none
          | none => none
        | _ => none
      else if isLowSurrogate n then none
      else (unescape? rest).map (Char.ofNat n :: ·)
  | '\\' :: e :: rest =>
    match shortEscape? e with
    | some c => (unescape? rest).map (c :: ·)
    | none => none
  | c :: rest => if c = '\\' then none else (unescape? rest).map (c :: ·)
termination_by cs => cs.length

/-- The value of a text. -/
def ofText (s : String) : Json :=
  .string (escape s.toList)

/-- The text of a string value. -/
def text? : Json → Option String
  | string literal => (unescape? literal).map String.ofList
  | _ => none

/-! ## Numbers -/

/-- The value of a natural number. -/
def ofNat (n : Nat) : Json :=
  .number (Nat.toDigits 10 n)

/-- The value of an integer. -/
def ofInt (n : Int) : Json :=
  .number (if n < 0 then '-' :: Nat.toDigits 10 n.natAbs else Nat.toDigits 10 n.natAbs)

/-- The natural number that a number value denotes, if it is written with digits only. -/
def nat? : Json → Option Nat
  | number literal =>
    if literal ≠ [] ∧ literal.all Char.isDigit then some (Text.digitsValue 0 literal) else none
  | _ => none

/-! ## Arrays and objects -/

/-- An object with the given members. -/
def ofMembers (members : List (String × Json)) : Json :=
  .object (members.map fun m => (escape m.1.toList, m.2))

/-- The value of an optional text. -/
def ofText? (s : Option String) : Json :=
  match s with
  | some s => ofText s
  | none => null

/-- An array of texts. -/
def ofTexts (ss : List String) : Json :=
  .array (ss.map ofText)

/-- The members of an object, with their keys read. Fails where a key denotes no text. -/
def members? : Json → Option (List (String × Json))
  | object members => members.mapM fun m =>
    (unescape? m.1).map fun key => (String.ofList key, m.2)
  | _ => none

/-- The last member of an object with a given key. -/
def get? (v : Json) (key : String) : Option Json :=
  match v.members? with
  | some members => (members.reverse.find? fun m => m.1 == key).map (·.2)
  | none => none

mutual

/-- How deep arrays and objects are nested; a scalar has depth `0`. -/
def depth : Json → Nat
  | array elements => depthOfList elements + 1
  | object members => depthOfMembers members + 1
  | _ => 0

/-- The greatest depth among some values. -/
def depthOfList : List Json → Nat
  | [] => 0
  | v :: vs => max v.depth (depthOfList vs)

/-- The greatest depth among the values of some members. -/
def depthOfMembers : List (List Char × Json) → Nat
  | [] => 0
  | (_, v) :: ms => max v.depth (depthOfMembers ms)

end

end Json

end SliceLint

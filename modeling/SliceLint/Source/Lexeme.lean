import SliceLint.Source.Position
import SliceLint.Text.Blank

set_option autoImplicit false

/-! # Lexemes

Where words, numbers, strings, regular expressions and comments end. All lengths are in
characters. -/

namespace SliceLint

/-- The rest of a source, and the number of bytes in front of it. -/
structure Cursor where
  offset : Nat
  rest : List Char

namespace Cursor

/-- The cursor after some more characters. -/
def skip (c : Cursor) (count : Nat) : Cursor :=
  ⟨c.offset + Source.byteLength (c.rest.take count), c.rest.drop count⟩

end Cursor

namespace Lexeme

/-! ## Characters -/

/-- Whether a character ends a line. -/
def isLineEnd (c : Char) : Bool :=
  c == '\n' || c == '\r' || c == '\u2028' || c == '\u2029'

/-- Whether a character stands between pieces. -/
def isSpace (c : Char) : Bool :=
  Text.isBlank c || c == '\uFEFF' || c == '\u2060' || c == '\u200B'

/-- The characters with a meaning of their own. -/
def punctuation : List Char :=
  ":;\x60\x22\x27@#.,|^&<=>+-*/%?!~()[]\x7b\x7d".toList

/-- Whether a character may stand in a word. -/
def isWordChar (c : Char) : Bool :=
  0x20 < c.toNat && !isSpace c && !punctuation.contains c

/-- Whether a character may stand in the name of an element or attribute. -/
def isNameChar (c : Char) : Bool :=
  isWordChar c || c == '-' || c == ':' || c == '.'

/-! ## Lengths -/

/-- The length of a word, with a hash that may stand in front. -/
def word (cs : List Char) : Nat :=
  match cs with
  | '#' :: rest =>
    match rest.takeWhile isWordChar with
    | [] => 0
    | name => name.length + 1
  | cs => (cs.takeWhile isWordChar).length

/-- The length of a number: letters and digits, and a fraction. -/
def number (cs : List Char) : Nat :=
  let whole := (cs.takeWhile isWordChar).length
  match cs.drop whole with
  | '.' :: rest => whole + 1 + (rest.takeWhile isWordChar).length
  | _ => whole

/-- Whether a number begins. -/
def startsNumber : List Char → Bool
  | '.' :: d :: _ => d.isDigit
  | d :: _ => d.isDigit
  | [] => false

/-- The length of the rest of a line. -/
def line (cs : List Char) : Nat :=
  (cs.takeWhile fun c => !isLineEnd c).length

/-- The length of a block comment after its opening. -/
def blockComment? : List Char → Option Nat
  | [] => none
  | '*' :: '/' :: _ => some 2
  | _ :: rest => (blockComment? rest).map (· + 1)

/-- The length of a string after its opening quote. -/
def string? (quote : Char) : List Char → Option Nat
  | [] => none
  | '\\' :: '\r' :: '\n' :: rest => (string? quote rest).map (· + 3)
  | '\\' :: _ :: rest => (string? quote rest).map (· + 2)
  | c :: rest =>
    if c = quote then some 1
    else if c = '\n' ∨ c = '\r' then none
    else (string? quote rest).map (· + 1)

/-- The length of a string without escapes, after its opening quote. -/
def rawString? (quote : Char) : List Char → Option Nat
  | [] => none
  | c :: rest => if c = quote then some 1 else (rawString? quote rest).map (· + 1)

/-- The length of a regular expression after its opening slash, without its flags. -/
def regex? : Bool → List Char → Option Nat
  | _, [] => none
  | inClass, '\\' :: c :: rest =>
    if c = '\n' then none else (regex? inClass rest).map (· + 2)
  | inClass, c :: rest =>
    if c = '\n' then none
    else if c = '/' ∧ inClass = false then some 1
    else (regex? (if c = '[' then true else if c = ']' then false else inClass) rest).map (· + 1)

/-- The punctuation mark that a text begins with. -/
def mark : List Char → String
  | '.' :: '.' :: '.' :: _ => "..."
  | '?' :: '.' :: d :: _ => if d.isDigit then "?" else "?."
  | '?' :: '?' :: _ => "??"
  | '=' :: '>' :: _ => "=>"
  | '=' :: '=' :: _ => "=="
  | '!' :: '=' :: _ => "!="
  | '+' :: '+' :: _ => "++"
  | '-' :: '-' :: _ => "--"
  | c :: _ => String.ofList [c]
  | [] => ""

/-- The length of the comment that a text begins with. `isOpen` tells that no operand has just ended,
where an arrow of hyphens begins a comment too. Nothing if there is no comment, and a missing
length if it does not end. -/
def comment? (isOpen : Bool) : List Char → Option (Option Nat)
  | '/' :: '/' :: rest => some (some (2 + line rest))
  | '/' :: '*' :: rest => some ((blockComment? rest).map (· + 2))
  | '<' :: '!' :: '-' :: '-' :: rest => if isOpen then some (some (4 + line rest)) else none
  | '-' :: '-' :: '>' :: rest => if isOpen then some (some (3 + line rest)) else none
  | _ => none

/-- The cursor after spaces and comments. -/
def skipTrivia : Nat → Cursor → Cursor
  | 0, c => c
  | fuel + 1, c =>
    match c.rest with
    | [] => c
    | d :: _ =>
      if isSpace d then skipTrivia fuel (c.skip 1)
      else match comment? false c.rest with
        | some (some count) => skipTrivia fuel (c.skip count)
        | _ => c

end Lexeme

end SliceLint

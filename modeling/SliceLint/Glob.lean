import SliceLint.Text

set_option autoImplicit false

/-! # Glob patterns

The patterns that exclude files and ignore import targets. `?` is any character, `*` any run of
characters, slashes included; `**` stands for whole path components and must be alone between
slashes; `[…]` and `[!…]` are character classes. There are no escapes.

Matching is a simulation: `rests` holds what may be left of the text after the tokens so far. -/

namespace SliceLint

namespace Glob

/-- A member of a character class: the characters between two bounds. -/
structure Range where
  low : Char
  high : Char
  deriving DecidableEq, Repr

/-- Whether a character lies in one of the ranges. -/
def Range.anyContains (ranges : List Range) (c : Char) : Bool :=
  ranges.any fun r => r.low ≤ c && c ≤ r.high

/-- A token of a pattern. -/
inductive Token where
  /-- This very character. -/
  | char (c : Char)
  /-- Any one character. -/
  | anyChar
  /-- Any run of characters. -/
  | anyRun
  /-- Any number of leading directories, or all that is left. -/
  | directories
  /-- One character of a class. -/
  | within (ranges : List Range)
  /-- One character outside a class. -/
  | outside (ranges : List Range)
  deriving DecidableEq, Repr

end Glob

/-- A pattern, token by token. -/
structure Glob where
  tokens : List Glob.Token
  deriving DecidableEq, Repr

namespace Glob

/-! ## Errors -/

/-- Why a text is no pattern. -/
inductive Fault where
  /-- Three or more stars in a row. -/
  | tooManyStars
  /-- A double star that is not a whole path component. -/
  | partialComponent
  /-- A character class that is empty or not closed. -/
  | badClass
  deriving DecidableEq, Repr

/-- A fault and the position of the character where it shows. -/
structure Error where
  position : Nat
  fault : Fault
  deriving DecidableEq, Repr

/-- What is said about a fault. -/
def Fault.message : Fault → String
  | tooManyStars => "wildcards are either regular `*` or recursive `**`"
  | partialComponent => "recursive wildcards must form a single path component"
  | badClass => "invalid range pattern"

/-- What is said about a text that is no pattern. -/
def Error.message (e : Error) : String :=
  "Pattern syntax error near position " ++ Text.decimal e.position ++ ": " ++ e.fault.message

/-! ## Reading a pattern -/

/-- The ranges that the text of a character class denotes. -/
def ranges : List Char → List Range
  | a :: '-' :: b :: rest => ⟨a, b⟩ :: ranges rest
  | a :: rest => ⟨a, a⟩ :: ranges rest
  | [] => []

/-- The text before the first closing bracket, and what follows the bracket. -/
def uptoBracket? : List Char → Option (List Char × List Char)
  | [] => none
  | c :: rest =>
    if c = ']' then some ([], rest) else (uptoBracket? rest).map fun r => (c :: r.1, r.2)

/-- Read a character class after its opening bracket. Its first character may be a closing
bracket. -/
def readClass? : List Char → Option (Token × List Char)
  | '!' :: c :: rest => (uptoBracket? rest).map fun r => (.outside (ranges (c :: r.1)), r.2)
  | '!' :: [] => none
  | c :: rest => (uptoBracket? rest).map fun r => (.within (ranges (c :: r.1)), r.2)
  | [] => none

/-- Read the tokens of a pattern from the character at `position` on; `before` is the character in
front of it. -/
def readTokens : Nat → Nat → Option Char → List Char → Except Error (List Token)
  | 0, _, _, _ => .ok []
  | _, _, _, [] => .ok []
  | fuel + 1, position, before, c :: rest =>
    if c = '?' then do
      .ok (.anyChar :: (← readTokens fuel (position + 1) (some c) rest))
    else if c = '*' then
      let stars := (rest.takeWhile (· == '*')).length + 1
      let rest := rest.dropWhile (· == '*')
      if 2 < stars then .error ⟨position + 2, .tooManyStars⟩
      else if stars = 1 then do
        .ok (.anyRun :: (← readTokens fuel (position + 1) (some c) rest))
      else if before ≠ none ∧ before ≠ some '/' then .error ⟨position - 1, .partialComponent⟩
      else match rest with
        | [] => .ok [.directories]
        | '/' :: rest => do
          .ok (.directories :: (← readTokens fuel (position + 3) (some '/') rest))
        | _ => .error ⟨position + 2, .partialComponent⟩
    else if c = '[' then
      match readClass? rest with
      | none => .error ⟨position, .badClass⟩
      | some (token, next) => do
        .ok (token :: (← readTokens fuel (position + 1 + (rest.length - next.length)) (some ']') next))
    else do
      .ok (.char c :: (← readTokens fuel (position + 1) (some c) rest))

/-- The pattern that a text denotes. -/
def parse (s : String) : Except Error Glob := do
  .ok ⟨← readTokens s.length 0 none s.toList⟩

/-! ## Matching -/

/-- All ends of a text, the text itself first. -/
def tails : List Char → List (List Char)
  | [] => [[]]
  | c :: cs => (c :: cs) :: tails cs

/-- The ends of a text that stand after one of its slashes. -/
def tailsAfterSlash : List Char → List (List Char)
  | [] => []
  | c :: cs => if c = '/' then cs :: tailsAfterSlash cs else tailsAfterSlash cs

/-- What may be left of `cs` after one token. -/
def Token.rests (token : Token) (cs : List Char) : List (List Char) :=
  match token, cs with
  | .char c, d :: ds => if c = d then [ds] else []
  | .anyChar, _ :: ds => [ds]
  | .within ranges, d :: ds => if Range.anyContains ranges d then [ds] else []
  | .outside ranges, d :: ds => if Range.anyContains ranges d then [] else [ds]
  | .anyRun, cs => tails cs
  | .directories, cs => cs :: [] :: tailsAfterSlash cs
  | _, [] => []

/-- What may be left of a text after all tokens. -/
def rests (tokens : List Token) (cs : List Char) : List (List Char) :=
  tokens.foldl (fun states token => (states.flatMap token.rests).eraseDups) [cs]

/-- Whether a pattern matches the whole of a text. -/
def isMatch (g : Glob) (s : String) : Bool :=
  (rests g.tokens s.toList).contains []

end Glob

end SliceLint

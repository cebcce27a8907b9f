set_option autoImplicit false

/-! # Byte positions in a source

Sources are lists of characters; positions in them count bytes of UTF-8. -/

namespace SliceLint

namespace Source

/-- The number of bytes of a text. -/
def byteLength : List Char → Nat
  | [] => 0
  | c :: cs => c.utf8Size + byteLength cs

@[simp] theorem byteLength_nil : byteLength [] = 0 := rfl

@[simp] theorem byteLength_cons (c : Char) (cs : List Char) :
    byteLength (c :: cs) = c.utf8Size + byteLength cs := rfl

@[simp] theorem byteLength_append (cs ds : List Char) :
    byteLength (cs ++ ds) = byteLength cs + byteLength ds := by
  induction cs with
  | nil => simp
  | cons c cs ih => simp [ih, Nat.add_assoc]

/-- A text divided after a number of bytes, unless that is inside a character or beyond the end. -/
def splitBytes? : Nat → List Char → Option (List Char × List Char)
  | 0, cs => some ([], cs)
  | _ + 1, [] => none
  | n + 1, c :: cs =>
    if c.utf8Size ≤ n + 1 then
      (splitBytes? (n + 1 - c.utf8Size) cs).map fun r => (c :: r.1, r.2)
    else none

/-- The text between two positions. -/
def between? (source : List Char) (start stop : Nat) : Option (List Char) := do
  let (_, rest) ← splitBytes? start source
  let (text, _) ← splitBytes? (stop - start) rest
  some text

/-- The number of the line that begins or goes on after a text. Lines count from one. -/
def lineAfter (before : List Char) : Nat :=
  1 + before.count '\n'

/-- The number of bytes of a text after its last line feed. -/
def columnAfter (before : List Char) : Nat :=
  byteLength (before.reverse.takeWhile (· != '\n')).reverse

end Source

end SliceLint

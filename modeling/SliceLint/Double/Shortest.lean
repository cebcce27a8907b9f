import SliceLint.Double

set_option autoImplicit false

/-! # The shortest text of a double

A double is written with the fewest digits that read back as the same double; of the decimals with
that many digits the nearest one is taken, and of two equally near ones that which is farther from
zero. All comparisons are exact, in the unit `2 ^ (exponent - 2)`, in which the double and the
middle between it and each of its neighbours are whole numbers. -/

namespace SliceLint

namespace Double

/-- The bounds of the reals that round to `mantissa * 2 ^ exponent`, in quarters of its last place.
Below a power of two the neighbour is only half as far. -/
def quarterBounds (mantissa : Nat) (exponent : Int) : Nat × Nat :=
  (if mantissa = Nat.pow 2 52 ∧ minExponent < exponent then 4 * mantissa - 1 else 4 * mantissa - 2,
    4 * mantissa + 2)

/-- Whether `digits * 10 ^ place` rounds to `mantissa * 2 ^ exponent`. The bounds themselves do so
if the mantissa is even. -/
def readsBack (mantissa : Nat) (exponent : Int) (digits : Nat) (place : Int) : Bool :=
  let (low, high) := quarterBounds mantissa exponent
  let (n, d) := scaled 10 digits 1 place
  let (n, d) := scaled 2 n d (2 - exponent)
  if mantissa % 2 = 0 then low * d ≤ n && n ≤ high * d else low * d < n && n < high * d

/-- The number of digits before the point of `num / den`, less one. Negative below one. -/
def log10Div (num den : Nat) : Int :=
  if den ≤ num then ((Nat.toDigits 10 (num / den)).length : Int) - 1
  else
    let k := (Nat.toDigits 10 (den / num)).length
    if den ≤ num * Nat.pow 10 (k - 1) then 1 - (k : Int) else -(k : Int)

/-- The nearest decimal with `count` digits that reads back, if there is one. -/
def candidate? (mantissa : Nat) (exponent : Int) (count : Nat) : Option (Nat × Int) :=
  let (num, den) := scaled 2 mantissa 1 exponent
  let place := log10Div num den - (count : Int) + 1
  let (n, d) := scaled 10 num den (-place)
  let below := n / d
  let hitsBelow := readsBack mantissa exponent below place
  let hitsAbove := readsBack mantissa exponent (below + 1) place
  if hitsBelow && hitsAbove then
    some (if 2 * (n % d) < d then below else below + 1, place)
  else if hitsBelow then some (below, place)
  else if hitsAbove then some (below + 1, place)
  else none

/-- The fewest digits that read back, with the power of ten of the last one. Seventeen digits are
always enough. -/
def shortest (mantissa : Nat) (exponent : Int) : Nat × Int :=
  ((List.range 17).findSome? fun i => candidate? mantissa exponent (i + 1)).getD (mantissa, 0)

/-- Digits and the power of ten of the last one, without trailing zeros. -/
def dropZeros : Nat → Nat → Int → Nat × Int
  | 0, digits, place => (digits, place)
  | fuel + 1, digits, place =>
    if digits ≠ 0 ∧ digits % 10 = 0 then dropZeros fuel (digits / 10) (place + 1)
    else (digits, place)

/-- Digits with a point: numbers from `10 ^ (-4)` up to `10 ^ 16` are written out with at least one
digit on each side of the point, all others with one digit before the point and an exponent. -/
def layoutDigits (digits : List Char) (place : Int) : String :=
  let top : Int := (digits.length : Int) + place
  if -3 ≤ top ∧ top ≤ 16 then
    if place ≥ 0 then String.ofList (digits ++ List.replicate place.toNat '0' ++ ['.', '0'])
    else if 0 < top then
      String.ofList (digits.take top.toNat ++ '.' :: digits.drop top.toNat)
    else String.ofList ('0' :: '.' :: (List.replicate (-top).toNat '0' ++ digits))
  else
    let fraction := digits.drop 1
    String.ofList (digits.take 1 ++ (if fraction.isEmpty then [] else '.' :: fraction))
      ++ "e" ++ (if top - 1 < 0 then "-" else "") ++ Text.decimal (top - 1).natAbs

/-- The text of a double. -/
def display : Double → String
  | nan => "NaN"
  | infinite negative => if negative then "-inf" else "inf"
  | finite negative mantissa exponent =>
    let sign := if negative then "-" else ""
    if mantissa = 0 then sign ++ "0.0"
    else
      let (digits, place) := shortest mantissa exponent
      let (digits, place) := dropZeros 400 digits place
      sign ++ layoutDigits (Nat.toDigits 10 digits) place

end Double

end SliceLint

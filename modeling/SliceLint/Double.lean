import SliceLint.Text

set_option autoImplicit false

/-! # Doubles

Binary floating point numbers of 64 bits, as the value that they denote: a mantissa below `2 ^ 53`
times a power of two. `ofDecimal` rounds a decimal number to the nearest of them; of two equally
near ones it takes that with the even mantissa. -/

namespace SliceLint

/-- A double by its value. A finite one is `mantissa * 2 ^ exponent`. -/
inductive Double where
  | nan
  | infinite (negative : Bool)
  | finite (negative : Bool) (mantissa : Nat) (exponent : Int)
  deriving DecidableEq, Repr

namespace Double

/-- The exponent of the smallest positive double. -/
def minExponent : Int := -1074

/-- The exponent of the largest finite double. -/
def maxExponent : Int := 971

/-- The quotient of two numbers, rounded to the nearest; a half goes to the even neighbour. -/
def roundDiv (num den : Nat) : Nat :=
  let q := num / den
  let r := num % den
  if 2 * r < den then q
  else if den < 2 * r then q + 1
  else if q % 2 = 0 then q else q + 1

/-- A quotient of naturals times a power of a base, as a quotient of naturals. -/
def scaled (base num den : Nat) (exponent : Int) : Nat × Nat :=
  if 0 ≤ exponent then (num * base.pow exponent.toNat, den)
  else (num, den * base.pow (-exponent).toNat)

/-- The largest `k` with `2 ^ k ≤ num / den`, for positive `num` and `den`. -/
def log2Div (num den : Nat) : Int :=
  let k : Int := (Nat.log2 num : Int) - Nat.log2 den
  let (n, d) := scaled 2 num den (-k)
  if d ≤ n then k else k - 1

/-- The double nearest to a positive quotient. -/
def ofQuotient (negative : Bool) (num den : Nat) : Double :=
  let exponent := max (log2Div num den - 52) minExponent
  let (n, d) := scaled 2 num den (-exponent)
  let mantissa := roundDiv n d
  let (mantissa, exponent) :=
    if mantissa = Nat.pow 2 53 then (Nat.pow 2 52, exponent + 1) else (mantissa, exponent)
  if maxExponent < exponent then .infinite negative else .finite negative mantissa exponent

/-- The double nearest to `digits * 10 ^ exponent`. Far outside the range of doubles only the order
of magnitude is looked at. -/
def ofDecimal (negative : Bool) (digits : Nat) (exponent : Int) : Double :=
  if digits = 0 then .finite negative 0 minExponent
  else
    let magnitude : Int := (Nat.toDigits 10 digits).length + exponent
    if 310 < magnitude then .infinite negative
    else if magnitude < -330 then .finite negative 0 minExponent
    else
      let (num, den) := scaled 10 digits 1 exponent
      ofQuotient negative num den

/-- Whether a double is an infinity. -/
def isInfinite : Double → Bool
  | infinite _ => true
  | _ => false

/-- Whether a double is the positive infinity. -/
def isPositiveInfinity : Double → Bool
  | infinite false => true
  | _ => false

end Double

end SliceLint

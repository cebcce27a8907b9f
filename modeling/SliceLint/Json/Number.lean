import SliceLint.Double
import SliceLint.Json

set_option autoImplicit false

/-! # Number literals

The double nearest to a JSON number literal. -/

namespace SliceLint

namespace Json

/-- Whether a character introduces an exponent. -/
def isExponentMark (c : Char) : Bool :=
  c == 'e' || c == 'E'

/-- The exponent that is written after a literal's mark. -/
def exponentValue (cs : List Char) : Int :=
  let value : Int := Text.digitsValue 0 (cs.filter Char.isDigit)
  if cs.head? = some '-' then -value else value

/-- The double nearest to a well-formed number literal. -/
def double (literal : List Char) : Double :=
  let mantissa := literal.takeWhile fun c => !isExponentMark c
  let whole := (mantissa.takeWhile (· != '.')).filter Char.isDigit
  let fraction := (mantissa.dropWhile (· != '.')).drop 1
  let exponent := exponentValue ((literal.dropWhile fun c => !isExponentMark c).drop 1)
  Double.ofDecimal (literal.head? = some '-') (Text.digitsValue 0 (whole ++ fraction))
    (exponent - fraction.length)

end Json

end SliceLint

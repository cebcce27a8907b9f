import SliceLint.Double

set_option autoImplicit false

/-! # TOML values

The values that a TOML document can hold. Dates and times are kept in their normal form: `T`
between date and time, as many digits of a fraction as are needed, and an offset as `Z` or with
hours and minutes. -/

namespace SliceLint

/-- A calendar date. -/
structure Date where
  year : Nat
  month : Nat
  day : Nat
  deriving DecidableEq, Repr

/-- A time of day. -/
structure Time where
  hour : Nat
  minute : Nat
  second : Nat
  nanosecond : Nat
  deriving DecidableEq, Repr

/-- The distance from universal time. -/
inductive Offset where
  | utc
  | minutes (east : Int)
  deriving DecidableEq, Repr

/-- A date, a time of day, or both; an offset comes with both only. -/
structure DateTime where
  date : Option Date
  time : Option Time
  offset : Option Offset
  deriving DecidableEq, Repr

/-- A TOML value. Tables list their entries in the order of the document. -/
inductive Toml where
  | string (s : String)
  | integer (n : Int)
  | float (x : Double)
  | boolean (b : Bool)
  | dateTime (d : DateTime)
  | array (elements : List Toml)
  | table (entries : List (String × Toml))
  deriving Inhabited

/-- The digits of a number, with zeros in front up to a width. -/
def padded (width n : Nat) : String :=
  let digits := Nat.toDigits 10 n
  String.ofList (List.replicate (width - digits.length) '0' ++ digits)

namespace Date

/-- Year, month and day. -/
def display (d : Date) : String :=
  padded 4 d.year ++ "-" ++ padded 2 d.month ++ "-" ++ padded 2 d.day

end Date

namespace Time

/-- Hours, minutes, seconds and the digits of the fraction that are not trailing zeros. -/
def display (t : Time) : String :=
  let fraction := Text.dropEndWhile (· == '0') (padded 9 t.nanosecond).toList
  padded 2 t.hour ++ ":" ++ padded 2 t.minute ++ ":" ++ padded 2 t.second
    ++ (if t.nanosecond = 0 then "" else "." ++ String.ofList fraction)

end Time

namespace Offset

/-- `Z`, or a sign with hours and minutes. -/
def display : Offset → String
  | utc => "Z"
  | minutes east =>
    (if east < 0 then "-" else "+") ++ padded 2 (east.natAbs / 60) ++ ":"
      ++ padded 2 (east.natAbs % 60)

end Offset

namespace DateTime

/-- The normal form of a date and time. -/
def display (d : DateTime) : String :=
  let date := (d.date.map Date.display).getD ""
  let time := (d.time.map Time.display).getD ""
  date ++ (if d.date.isSome && d.time.isSome then "T" else "") ++ time
    ++ (d.offset.map Offset.display).getD ""

end DateTime

namespace Toml

/-- The text of a string value. -/
def text? : Toml → Option String
  | string s => some s
  | _ => none

/-- The entry of a table with a given key. -/
def lookup? (entries : List (String × Toml)) (key : String) : Option Toml :=
  (entries.find? fun e => e.1 == key).map (·.2)

end Toml

end SliceLint

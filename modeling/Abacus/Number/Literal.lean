/-!
# Reading numbers

The values of digit strings, and the two readings of a number: as a 64-bit integer, when it fits,
and as a double-precision number, correctly rounded.
-/

namespace Abacus.Literal

/-- The value of a decimal digit. -/
def digitValue (c : Char) : Nat := c.toNat - '0'.toNat

/-- The value of the decimal digits `digits` written after digits of value `before`. -/
def appendDigits (before : Nat) (digits : List Char) : Nat :=
  digits.foldl (fun value c => 10 * value + digitValue c) before

/-- The value of a string of decimal digits. -/
def digitsValue (digits : List Char) : Nat := appendDigits 0 digits

/-- The largest 64-bit integer. -/
def maxInteger : Nat := 0x7fffffffffffffff

/-- The value of an unsigned integer literal, if it is at most `maxInteger`. -/
def integer? (digits : List Char) : Option Int64 :=
  let value := digitsValue digits
  if value ≤ maxInteger then some (Int64.ofNat value) else none

/-- The number `whole.fraction · 10 ^ exponent`, rounded to the nearest double. -/
def float (whole fraction : List Char) (exponent : Int) : Float :=
  let mantissa := appendDigits (digitsValue whole) fraction
  let scale := exponent - fraction.length
  Float.ofScientific mantissa (scale < 0) scale.natAbs

/-- Takes an optional sign off a text: is it a minus, and what follows. -/
def sign : List Char → Bool × List Char
  | '-' :: rest => (true, rest)
  | '+' :: rest => (false, rest)
  | rest => (false, rest)

/-- A nonempty string of decimal digits. -/
def isDigits (digits : List Char) : Bool := !digits.isEmpty && digits.all Char.isDigit

/-- A signed integer: an optional sign and digits, between `low` and `high`. -/
def signedInteger? (low high : Int) (text : String) : Option Int :=
  let (negative, digits) := sign text.toList
  if isDigits digits then
    let value : Int := digitsValue digits
    let value := if negative then -value else value
    if low ≤ value && value ≤ high then some value else none
  else none

/-- A signed 64-bit integer. -/
def int64? (text : String) : Option Int64 :=
  (signedInteger? (-0x8000000000000000) 0x7fffffffffffffff text).map Int64.ofInt

/-- An unsigned 64-bit integer: a minus sign is refused, a plus sign is not. -/
def unsigned64? (text : String) : Option Nat :=
  if text.toList.head? = some '-' then none
  else (signedInteger? 0 0xffffffffffffffff text).map Int.toNat

/-- A floating-point number: `inf`, `NaN`, or digits with an optional fraction and an optional
exponent, after an optional sign. -/
def float? (text : String) : Option Float :=
  let (negative, body) := sign text.toList
  let magnitude : Option Float :=
    if body = "inf".toList then some (1.0 / 0.0)
    else if body = "NaN".toList then some (0.0 / 0.0)
    else
      let whole := body.takeWhile Char.isDigit
      let afterWhole := body.dropWhile Char.isDigit
      let (fraction, rest) := match afterWhole with
        | '.' :: more => (more.takeWhile Char.isDigit, more.dropWhile Char.isDigit)
        | more => ([], more)
      let exponent? : Option Int := match rest with
        | [] => some 0
        | mark :: power =>
          if mark = 'e' || mark = 'E' then
            let (down, digits) := sign power
            if isDigits digits then
              some (if down then -(digitsValue digits : Int) else digitsValue digits)
            else none
          else none
      if whole.isEmpty && fraction.isEmpty then none
      else exponent?.map (float whole fraction)
  magnitude.map fun x => if negative then -x else x

end Abacus.Literal

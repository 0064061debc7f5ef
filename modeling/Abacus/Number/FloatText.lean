import Abacus.Number.Shortest

/-!
# The text of a floating-point number

* `FloatClass` — what the bits of a double-precision number say;
* `FloatStyle` — the decisions of a text format;
* `FloatStyle.render` — the text of a number in a style;
* `listing` — the style of listings, trees and messages: the fewest digits that read back, with a
  point in every positional number.
-/

namespace Abacus

/-- What a double-precision number is: not a number, an infinity, a zero, or a positive or
negative dyadic. -/
inductive FloatClass where
  | nan
  | infinite (negative : Bool)
  | zero (negative : Bool)
  | finite (negative : Bool) (magnitude : Dyadic)
  deriving DecidableEq, Repr

namespace FloatClass

/-- The exponent of the unit of the subnormal numbers. -/
def lowestExponent : Int := -1074

/-- The class of a number given by its sign bit, its 11 exponent bits and its 52 fraction bits. -/
def ofFields (negative : Bool) (exponent fraction : Nat) : FloatClass :=
  if exponent = 2047 then
    if fraction = 0 then .infinite negative else .nan
  else if exponent = 0 then
    if fraction = 0 then .zero negative
    else .finite negative ⟨fraction, lowestExponent, false⟩
  else
    .finite negative
      ⟨0x10000000000000 + fraction, exponent + lowestExponent - 1, fraction = 0 && 1 < exponent⟩

/-- The class of a double-precision number. -/
def ofFloat (x : Float) : FloatClass :=
  let bits := x.toBits.toNat
  ofFields (bits / 0x8000000000000000 = 1) (bits / 0x10000000000000 % 0x800)
    (bits % 0x10000000000000)

end FloatClass

/-- How numbers are written. A number whose leading digit has the weight `10 ^ w` is positional
when `lowestWeight ≤ w < scientificWeight`, and scientific otherwise. -/
structure FloatStyle where
  lowestWeight : Int
  scientificWeight : Int
  exponentMark : String
  nan : String
  infinity : String
  zero : String

namespace FloatStyle

/-- Positional text of `0.d₁d₂… · 10 ^ point`, with at least one digit on either side of the
point. -/
def positional (digits : List Char) (point : Int) : List Char :=
  if point ≤ 0 then
    '0' :: '.' :: (List.replicate (-point).toNat '0' ++ digits)
  else
    let whole := point.toNat
    if digits.length ≤ whole then
      digits ++ List.replicate (whole - digits.length) '0' ++ ['.', '0']
    else digits.take whole ++ '.' :: digits.drop whole

/-- Scientific text of `d₁.d₂… · 10 ^ weight`; a single digit has no point. -/
def scientific (style : FloatStyle) (digits : List Char) (weight : Int) : List Char :=
  let lead := match digits with
    | first :: next :: rest => first :: '.' :: next :: rest
    | short => short
  lead ++ style.exponentMark.toList ++ (toString weight).toList

/-- The text of a positive decimal. -/
def magnitude (style : FloatStyle) (d : Decimal) : List Char :=
  let digits := (toString d.digits).toList
  let point := d.exponent + digits.length
  let weight := point - 1
  if style.lowestWeight ≤ weight && weight < style.scientificWeight then positional digits point
  else style.scientific digits weight

/-- The text of a class of numbers: a sign only before zeros, infinities and finite numbers. -/
def renderClass (style : FloatStyle) : FloatClass → String
  | .nan => style.nan
  | .infinite negative => sign negative ++ style.infinity
  | .zero negative => sign negative ++ style.zero
  | .finite negative d => sign negative ++ String.ofList (style.magnitude (Decimal.shortest d))
where
  /-- The sign of a negative number. -/
  sign (negative : Bool) : String := if negative then "-" else ""

/-- The text of a number. -/
def render (style : FloatStyle) (x : Float) : String := style.renderClass (FloatClass.ofFloat x)

/-- The style of listings: positional from `1e-4` up to, but not including, `1e16`. -/
def listing : FloatStyle where
  lowestWeight := -4
  scientificWeight := 16
  exponentMark := "e"
  nan := "NaN"
  infinity := "inf"
  zero := "0.0"

end FloatStyle

/-- The text of a number in listings, trees and messages. -/
def floatText (x : Float) : String := FloatStyle.listing.render x

/-- The decimal text of a 64-bit integer. -/
def intText (n : Int64) : String := toString n.toInt

end Abacus

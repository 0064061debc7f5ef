/-!
# Shortest decimals

A binary floating-point number stands for every real that rounds to it. `Decimal.shortest` picks,
among the decimals in that interval, one with the fewest digits, and of those the nearest.

* `Dyadic` — a positive number `mantissa · 2 ^ exponent` together with the reals that round to it;
* `Decimal` — a number `digits · 10 ^ exponent`;
* `Decimal.shortest` — tries the decimal grids from coarse to fine; on each grid only the two
  neighbours of the number can be the nearest grid point, so only those are tested.
-/

namespace Abacus

/-- A positive number `mantissa · 2 ^ exponent`. `lowerHalf` says that the gap to the next smaller
number of the format is half of the gap to the next larger one (at a power of two). -/
structure Dyadic where
  mantissa : Nat
  exponent : Int
  lowerHalf : Bool
  deriving DecidableEq, Repr

/-- The number `digits · 10 ^ exponent`. -/
structure Decimal where
  digits : Nat
  exponent : Int
  deriving DecidableEq, Repr

namespace Dyadic

/-- The ends of the interval of reals that round to the number, in quarters of
`2 ^ exponent`. -/
def quarters (d : Dyadic) : Nat × Nat :=
  (4 * d.mantissa - if d.lowerHalf then 1 else 2, 4 * d.mantissa + 2)

/-- Rounding goes to the even mantissa, so the ends of the interval belong to it exactly when the
mantissa is even. -/
def endsIncluded (d : Dyadic) : Bool := d.mantissa % 2 = 0

/-- Numerator and denominator that turn a count of quarters of `2 ^ exponent` into a count of
`10 ^ k`: `quarters · scale.1 / scale.2` grid steps. -/
def scale (d : Dyadic) (k : Int) : Nat × Nat :=
  (Nat.pow 2 (d.exponent - 2).toNat * Nat.pow 10 (-k).toNat,
    Nat.pow 2 (2 - d.exponent).toNat * Nat.pow 10 k.toNat)

/-- Does the grid point `point · 10 ^ k` round to the number? -/
def admits (d : Dyadic) (k : Int) (point : Nat) : Bool :=
  let (num, den) := d.scale k
  let (low, high) := d.quarters
  if d.endsIncluded then low * num ≤ point * den && point * den ≤ high * num
  else low * num < point * den && point * den < high * num

/-- The grid point of the grid `10 ^ k` that rounds to the number and is nearest to it; of two at
the same distance, the larger. -/
def nearest? (d : Dyadic) (k : Int) : Option Nat :=
  let (num, den) := d.scale k
  let exact := 4 * d.mantissa * num
  let below := exact / den
  let rest := exact % den
  let above := if rest = 0 then below else below + 1
  match d.admits k below, d.admits k above with
  | true, true => some (if 2 * rest < den then below else above)
  | true, false => some below
  | false, true => some above
  | false, false => none

/-- An exponent `k` so that `10 ^ k` is larger than the number (30103 / 100000 is a little more
than the decimal logarithm of 2, and the two added steps absorb every rounding). -/
def coarsest (d : Dyadic) : Int :=
  (d.mantissa.log2 + d.exponent + 1) * 30103 / 100000 + 2

/-- The first hit on the grids `10 ^ k, 10 ^ (k - 1), …`, of which `steps` are tried. -/
def search (d : Dyadic) : Nat → Int → Decimal
  | 0, k => ⟨(4 * d.mantissa * (d.scale k).1) / (d.scale k).2, k⟩
  | steps + 1, k =>
    match d.nearest? k with
    | some point => ⟨point, k⟩
    | none => d.search steps (k - 1)

end Dyadic

/-- The shortest decimal that rounds to `d`, the nearest to `d` of the shortest. Seventeen digits
tell any two double-precision numbers apart and the start is at most five grids too coarse, so
twenty-four grids are enough. -/
def Decimal.shortest (d : Dyadic) : Decimal := d.search 24 d.coarsest

end Abacus

import Mathlib.Algebra.Order.Field.Power
import Mathlib.Data.Rat.Cast.Order
import Mathlib.Tactic.Linarith
import Mathlib.Tactic.Positivity
import Mathlib.Tactic.Ring
import Abacus.Number.Shortest

/-!
# Decimals that round to a double

The reals that round to a double form an interval, and the intervals of two doubles have no point in
common: between neighbours there is one end, which belongs to the even one. A shortest decimal is a
point of the interval of its double, so a double can be recovered from its shortest decimal.

* `Dyadic.Rounds` — a number lies in the interval of a double;
* `Dyadic.admits_iff` — the test of a grid point in natural numbers is this;
* `Dyadic.nearest?_isSome` — on a grid that is fine enough some point passes the test;
* `Dyadic.rounds_shortest` — the search comes to such a grid;
* `Dyadic.IsDouble.rounds_unique` — no number rounds to two doubles;
* `Dyadic.IsDouble.eq_of_shortest` — doubles with equal shortest decimals are equal.
-/

namespace Abacus

/-- The number that a decimal stands for. -/
def Decimal.value (d : Decimal) : ℚ := d.digits * 10 ^ d.exponent

/-- A power with an integer exponent is a quotient of powers with natural ones. -/
theorem pow_toNat_neg_mul_zpow {b : ℚ} (hb : b ≠ 0) (z : ℤ) :
    b ^ (-z).toNat * b ^ z = b ^ z.toNat := by
  rw [← zpow_natCast, ← zpow_natCast, ← zpow_add₀ hb]
  congr 1
  omega

namespace Dyadic

/-! ## Intervals -/

/-- The unit in which the ends of the interval are counted. -/
def quarter (d : Dyadic) : ℚ := 2 ^ (d.exponent - 2)

/-- The lower end of the interval. -/
def low (d : Dyadic) : ℚ := d.quarters.1 * d.quarter

/-- The upper end of the interval. -/
def high (d : Dyadic) : ℚ := d.quarters.2 * d.quarter

/-- A number rounds to the double: it lies between the ends, or is an end that is included. -/
def Rounds (d : Dyadic) (x : ℚ) : Prop :=
  if d.endsIncluded then d.low ≤ x ∧ x ≤ d.high else d.low < x ∧ x < d.high

theorem quarter_pos (d : Dyadic) : 0 < d.quarter := by
  unfold quarter
  positivity

variable {d d₁ d₂ : Dyadic} {k : ℤ}

theorem Rounds.low_le {x : ℚ} (h : d.Rounds x) : d.low ≤ x := by
  unfold Rounds at h
  split at h
  · exact h.1
  · exact h.1.le

theorem Rounds.le_high {x : ℚ} (h : d.Rounds x) : x ≤ d.high := by
  unfold Rounds at h
  split at h
  · exact h.2
  · exact h.2.le

/-- An end that rounds to the double belongs to an even mantissa. -/
theorem Rounds.even_of_end {x : ℚ} (h : d.Rounds x) (hx : x = d.low ∨ x = d.high) :
    d.mantissa % 2 = 0 := by
  unfold Rounds at h
  split at h
  · next heven => simpa [endsIncluded] using heven
  · rcases hx with rfl | rfl
    · exact absurd h.1 (lt_irrefl _)
    · exact absurd h.2 (lt_irrefl _)

/-- Only positive numbers round to a double of a positive mantissa. -/
theorem Rounds.pos {x : ℚ} (h : d.Rounds x) (hm : 0 < d.mantissa) : 0 < x := by
  refine lt_of_lt_of_le ?_ h.low_le
  have hcount : 0 < d.quarters.1 := by
    unfold quarters
    split <;> omega
  exact mul_pos (by exact_mod_cast hcount) d.quarter_pos

theorem rounds_of_between {x : ℚ} (hlow : d.low < x) (hhigh : x < d.high) : d.Rounds x := by
  unfold Rounds
  split
  · exact ⟨hlow.le, hhigh.le⟩
  · exact ⟨hlow, hhigh⟩

/-! ## The test of a grid point -/

/-- The two numbers of `scale` bring quarters and grid steps to a common unit. -/
theorem scale_units (d : Dyadic) (k : ℤ) : ∃ c : ℚ, 0 < c ∧
    ((d.scale k).1 : ℚ) = c * d.quarter ∧ ((d.scale k).2 : ℚ) = c * 10 ^ k := by
  have h2 := pow_toNat_neg_mul_zpow (b := 2) (by norm_num) (d.exponent - 2)
  have h10 := pow_toNat_neg_mul_zpow (b := 10) (by norm_num) k
  rw [show -(d.exponent - 2) = 2 - d.exponent by ring] at h2
  refine ⟨2 ^ (2 - d.exponent).toNat * 10 ^ (-k).toNat, by positivity, ?_, ?_⟩
  · simp only [scale, quarter, Nat.pow_eq]
    push_cast
    rw [← h2]
    ring
  · simp only [scale, Nat.pow_eq]
    push_cast
    rw [← h10]
    ring

theorem scale_pos (d : Dyadic) (k : ℤ) : 0 < (d.scale k).2 := by
  simp only [scale, Nat.pow_eq]
  positivity

theorem mul_scale_le (a p : ℕ) : a * (d.scale k).1 ≤ p * (d.scale k).2 ↔
    (a : ℚ) * d.quarter ≤ p * 10 ^ k := by
  obtain ⟨c, hc, hnum, hden⟩ := d.scale_units k
  rw [← Nat.cast_le (α := ℚ), Nat.cast_mul, Nat.cast_mul, hnum, hden, mul_left_comm,
    mul_left_comm (p : ℚ), mul_le_mul_iff_right₀ hc]

theorem le_mul_scale (a p : ℕ) : p * (d.scale k).2 ≤ a * (d.scale k).1 ↔
    (p : ℚ) * 10 ^ k ≤ a * d.quarter := by
  obtain ⟨c, hc, hnum, hden⟩ := d.scale_units k
  rw [← Nat.cast_le (α := ℚ), Nat.cast_mul, Nat.cast_mul, hnum, hden, mul_left_comm,
    mul_left_comm (a : ℚ), mul_le_mul_iff_right₀ hc]

/-- A grid point passes the test just if it rounds to the double. -/
theorem admits_iff (d : Dyadic) (k : ℤ) (p : ℕ) :
    d.admits k p = true ↔ d.Rounds (p * 10 ^ k) := by
  unfold admits Rounds low high
  dsimp only
  split
  · rw [Bool.and_eq_true, decide_eq_true_iff, decide_eq_true_iff, mul_scale_le, le_mul_scale]
  · rw [Bool.and_eq_true, decide_eq_true_iff, decide_eq_true_iff, ← not_le, ← not_le, ← not_le,
      ← not_le, mul_scale_le, le_mul_scale]

/-! ## Grids -/

/-- What is chosen on a grid rounds to the double. -/
theorem rounds_nearest? {p : ℕ} (h : d.nearest? k = some p) : d.Rounds (p * 10 ^ k) := by
  rw [← admits_iff]
  unfold nearest? at h
  grind

/-- The least multiple that is not less than a number is less than one step away. -/
theorem ceil_mul_bounds {n step : ℕ} (hstep : 0 < step) :
    let above := if n % step = 0 then n / step else n / step + 1
    n ≤ above * step ∧ above * step < n + step := by
  have hdiv := Nat.div_add_mod n step
  have hmod := Nat.mod_lt n hstep
  rw [mul_comm] at hdiv
  dsimp only
  split
  · omega
  · rw [add_mul, one_mul]
    omega

/-- On a grid whose step is at most half of the unit of the double, the first point that is not less
than the double rounds to it. -/
theorem nearest?_isSome (hm : 0 < d.mantissa) (hk : (10 : ℚ) ^ k ≤ 2 * d.quarter) :
    (d.nearest? k).isSome := by
  have hbounds := ceil_mul_bounds (n := 4 * d.mantissa * (d.scale k).1) (d.scale_pos k)
  unfold nearest?
  dsimp only at hbounds ⊢
  generalize (if 4 * d.mantissa * (d.scale k).1 % (d.scale k).2 = 0 then _ else _ : ℕ) = above
    at hbounds ⊢
  obtain ⟨hge, hlt⟩ := hbounds
  -- in quarters the double is four times its mantissa, and so between the ends of its interval
  have hlow : d.low < above * 10 ^ k := by
    refine lt_of_lt_of_le ?_ ((mul_scale_le _ _).1 hge)
    have hcount : d.quarters.1 < 4 * d.mantissa := by
      unfold quarters
      split <;> omega
    exact mul_lt_mul_of_pos_right (by exact_mod_cast hcount) d.quarter_pos
  have hhigh : above * 10 ^ k < d.high := by
    have hstep : (above : ℚ) * 10 ^ k < 4 * d.mantissa * d.quarter + 10 ^ k := by
      obtain ⟨c, hc, hnum, hden⟩ := d.scale_units k
      have hlt : (above : ℚ) * (d.scale k).2 < 4 * d.mantissa * (d.scale k).1 + (d.scale k).2 := by
        exact_mod_cast hlt
      rw [hnum, hden] at hlt
      refine lt_of_mul_lt_mul_left (a := c) ?_ hc.le
      linarith
    unfold high quarters
    push_cast
    linarith
  have hadmits : d.admits k above = true := (admits_iff d k above).2 (rounds_of_between hlow hhigh)
  rw [hadmits]
  split <;> simp_all

/-- The search ends on the first grid of which a point rounds to the double. -/
theorem rounds_search {steps j : ℕ} (hj : j < steps) (h : (d.nearest? (k - j)).isSome) :
    d.Rounds (d.search steps k).value := by
  induction steps generalizing k j with
  | zero => omega
  | succ steps ih =>
    unfold search
    split
    · next p hp => exact rounds_nearest? hp
    · next hnone =>
      cases j with
      | zero =>
        rw [Nat.cast_zero, sub_zero, hnone] at h
        cases h
      | succ j =>
        refine ih (j := j) (by omega) ?_
        rwa [show k - 1 - (j : ℤ) = k - ((j + 1 : ℕ) : ℤ) by push_cast; ring]

/-! ## Doubles -/

/-- The numbers of the format of doubles: the subnormal numbers have the lowest exponent, the normal
ones a mantissa of 53 bits. -/
structure IsDouble (d : Dyadic) : Prop where
  pos : 0 < d.mantissa
  lt : d.mantissa < 2 ^ 53
  lowest : -1074 ≤ d.exponent
  highest : d.exponent ≤ 971
  normal : d.mantissa < 2 ^ 52 → d.exponent = -1074
  lowerHalf : d.lowerHalf = true ↔ d.mantissa = 2 ^ 52 ∧ -1074 < d.exponent

/-- The finest grid of the search is fine enough for a double. -/
theorem IsDouble.pow_finest_le (h : d.IsDouble) :
    (10 : ℚ) ^ (d.coarsest - (23 : ℕ)) ≤ 2 * d.quarter := by
  have hlog : d.mantissa.log2 ≤ 52 := by
    have := (Nat.log2_lt h.pos.ne').2 h.lt
    omega
  have hlow := h.lowest
  have hhigh := h.highest
  have hquarter : 2 * d.quarter = 2 ^ (d.exponent - 1) := by
    unfold quarter
    rw [show d.exponent - 1 = 1 + (d.exponent - 2) by ring, zpow_add₀ (by norm_num), zpow_one]
  rw [hquarter]
  generalize hgrid : d.coarsest - (23 : ℕ) = grid
  unfold coarsest at hgrid
  -- 10 ^ 3 is a little less than 2 ^ 10, and 10 ^ 10 a little more than 2 ^ 33
  rcases le_or_gt 0 grid with hnonneg | hneg
  · have hexp : 10 * grid ≤ (d.exponent - 1) * 3 := by omega
    have hcube : ((10 : ℚ) ^ grid) ^ 3 ≤ (2 ^ (d.exponent - 1)) ^ 3 := by
      rw [← zpow_natCast, ← zpow_natCast, ← zpow_mul, ← zpow_mul, mul_comm grid, zpow_mul]
      calc ((10 : ℚ) ^ ((3 : ℕ) : ℤ)) ^ grid
          ≤ ((2 : ℚ) ^ (10 : ℤ)) ^ grid :=
            zpow_le_zpow_left₀ hnonneg (by positivity) (by norm_num)
        _ = 2 ^ (10 * grid) := by rw [← zpow_mul]
        _ ≤ 2 ^ ((d.exponent - 1) * ((3 : ℕ) : ℤ)) :=
            zpow_le_zpow_right₀ (by norm_num) (by exact_mod_cast hexp)
    exact le_of_pow_le_pow_left₀ (by norm_num) (by positivity) hcube
  · have hexp : 33 * grid ≤ (d.exponent - 1) * 10 := by omega
    have htenth : ((10 : ℚ) ^ grid) ^ 10 ≤ (2 ^ (d.exponent - 1)) ^ 10 := by
      rw [← zpow_natCast, ← zpow_natCast, ← zpow_mul, ← zpow_mul, mul_comm grid, zpow_mul]
      calc ((10 : ℚ) ^ ((10 : ℕ) : ℤ)) ^ grid
          ≤ ((2 : ℚ) ^ (33 : ℤ)) ^ grid := by
            rw [← inv_le_inv₀ (by positivity) (by positivity), ← zpow_neg, ← zpow_neg]
            exact zpow_le_zpow_left₀ (by omega) (by positivity) (by norm_num)
        _ = 2 ^ (33 * grid) := by rw [← zpow_mul]
        _ ≤ 2 ^ ((d.exponent - 1) * ((10 : ℕ) : ℤ)) :=
            zpow_le_zpow_right₀ (by norm_num) (by exact_mod_cast hexp)
    exact le_of_pow_le_pow_left₀ (by norm_num) (by positivity) htenth

/-- The shortest decimal of a double rounds to the double. -/
theorem IsDouble.rounds_shortest (h : d.IsDouble) : d.Rounds (Decimal.shortest d).value :=
  rounds_search (j := 23) (by decide) (nearest?_isSome h.pos h.pow_finest_le)

/-! ## Intervals of different doubles -/

/-- One double is less than another one. -/
def Below (d₁ d₂ : Dyadic) : Prop :=
  d₁.exponent < d₂.exponent ∨ d₁.exponent = d₂.exponent ∧ d₁.mantissa < d₂.mantissa

/-- The interval of the smaller double ends where that of the larger one begins, or before. If they
share an end, one of the mantissas is odd. -/
theorem IsDouble.high_le_low (h₁ : d₁.IsDouble) (h₂ : d₂.IsDouble) (h : Below d₁ d₂) :
    d₁.high ≤ d₂.low ∧ (d₁.high = d₂.low → ¬ (d₁.mantissa % 2 = 0 ∧ d₂.mantissa % 2 = 0)) := by
  obtain ⟨n, hn⟩ : ∃ n : ℕ, d₂.exponent = d₁.exponent + n :=
    ⟨(d₂.exponent - d₁.exponent).toNat, by unfold Below at h; omega⟩
  have hunit : d₂.quarter = 2 ^ n * d₁.quarter := by
    unfold quarter
    rw [hn, show d₁.exponent + n - 2 = n + (d₁.exponent - 2) by ring,
      zpow_add₀ (by norm_num), zpow_natCast]
  have hcounts : d₁.quarters.2 ≤ d₂.quarters.1 * 2 ^ n ∧
      (d₁.quarters.2 = d₂.quarters.1 * 2 ^ n →
        ¬ (d₁.mantissa % 2 = 0 ∧ d₂.mantissa % 2 = 0)) := by
    have hlt := h₁.lt
    have hhalf := h₂.lowerHalf
    have hnormal := h₂.normal
    have hlowest := h₁.lowest
    unfold quarters
    dsimp only
    rcases h with h | ⟨he, hm⟩
    · -- the larger double is normal, so its mantissa has 53 bits
      obtain ⟨m, rfl⟩ : ∃ m, n = m + 1 := ⟨n - 1, by omega⟩
      have hpow : 1 ≤ 2 ^ m := Nat.one_le_two_pow
      have hlong : 2 ^ 52 ≤ d₂.mantissa := by
        by_contra hshort
        have := hnormal (by omega)
        omega
      have hcount : 2 ^ 54 - 1 ≤ 4 * d₂.mantissa - if d₂.lowerHalf = true then 1 else 2 := by
        split
        · omega
        · next hno =>
          have : d₂.mantissa ≠ 2 ^ 52 := fun heq => hno (hhalf.2 ⟨heq, by omega⟩)
          omega
      generalize 4 * d₂.mantissa - (if d₂.lowerHalf = true then 1 else 2) = count at hcount
      have hleast : (2 ^ 54 - 1) * 2 ≤ count * 2 ^ (m + 1) := by
        calc (2 ^ 54 - 1) * 2 ≤ count * 2 := Nat.mul_le_mul_right 2 hcount
          _ ≤ count * 2 * 2 ^ m := Nat.le_mul_of_pos_right _ hpow
          _ = count * 2 ^ (m + 1) := by rw [pow_succ']; ring
      constructor
      · omega
      · omega
    · obtain rfl : n = 0 := by omega
      rw [pow_zero, mul_one]
      split <;> omega
  unfold high low
  rw [hunit, ← mul_assoc]
  have hq := d₁.quarter_pos
  constructor
  · refine mul_le_mul_of_nonneg_right ?_ hq.le
    exact_mod_cast hcounts.1
  · intro heq
    apply hcounts.2
    have := mul_right_cancel₀ hq.ne' heq
    exact_mod_cast this

theorem IsDouble.not_below_of_rounds (h₁ : d₁.IsDouble) (h₂ : d₂.IsDouble) {x : ℚ}
    (hx₁ : d₁.Rounds x) (hx₂ : d₂.Rounds x) : ¬ Below d₁ d₂ := by
  intro h
  obtain ⟨hle, hodd⟩ := h₁.high_le_low h₂ h
  have hends : d₁.high = d₂.low := le_antisymm hle (hx₂.low_le.trans hx₁.le_high)
  have hx : x = d₁.high := le_antisymm hx₁.le_high (hends.le.trans hx₂.low_le)
  exact hodd hends ⟨hx₁.even_of_end (.inr hx), hx₂.even_of_end (.inl (hx.trans hends))⟩

/-- No number rounds to two doubles. -/
theorem IsDouble.rounds_unique (h₁ : d₁.IsDouble) (h₂ : d₂.IsDouble) {x : ℚ}
    (hx₁ : d₁.Rounds x) (hx₂ : d₂.Rounds x) : d₁ = d₂ := by
  have hnot := h₁.not_below_of_rounds h₂ hx₁ hx₂
  have hnot' := h₂.not_below_of_rounds h₁ hx₂ hx₁
  unfold Below at hnot hnot'
  have hhalf₁ := h₁.lowerHalf
  have hhalf₂ := h₂.lowerHalf
  obtain ⟨m₁, e₁, half₁⟩ := d₁
  obtain ⟨m₂, e₂, half₂⟩ := d₂
  dsimp only at hnot hnot' hhalf₁ hhalf₂
  obtain rfl : m₁ = m₂ := by omega
  obtain rfl : e₁ = e₂ := by omega
  rw [← hhalf₁, ← Bool.eq_iff_iff] at hhalf₂
  rw [hhalf₂]

/-- A double is known from its shortest decimal. -/
theorem IsDouble.eq_of_shortest (h₁ : d₁.IsDouble) (h₂ : d₂.IsDouble)
    (h : (Decimal.shortest d₁).value = (Decimal.shortest d₂).value) : d₁ = d₂ :=
  h₁.rounds_unique h₂ h₁.rounds_shortest (h ▸ h₂.rounds_shortest)

end Dyadic

end Abacus

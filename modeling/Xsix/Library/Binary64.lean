import Mathlib.Tactic

/-!
Unsigned integers through `double`: the nearest one, and the root of one.

A `double` has 53 significant bits and is rounded to the nearest, a tie to the even one.
`ofNat` is what an integer becomes, `truncSqrt` the square root of a `double` that is an
integer, cut back to an integer.

* `nearestRoot_bounds`: the square of a rounded root is near.
* `truncSqrt_eq_sqrt`: below `2 ^ 52` rounding does not reach the next integer, so what is left
  is the integer square root.
-/

namespace Binary64

/-- The nearest number of units of `2 ^ e` to `x`, in a tie the even one. -/
def roundTo (x e : ℕ) : ℕ :=
  if 2 * (x % 2 ^ e) < 2 ^ e ∨ (2 * (x % 2 ^ e) = 2 ^ e ∧ x / 2 ^ e % 2 = 0) then x / 2 ^ e
  else x / 2 ^ e + 1

/-- `(double)n`: the unit is the one that leaves 53 bits. -/
def ofNat (n : ℕ) : ℕ := roundTo n (n.log2 + 1 - 53) * 2 ^ (n.log2 + 1 - 53)

/-- The nearest integer to the root of `y`, which is never half way. -/
def nearestRoot (y : ℕ) : ℕ := if y ≤ y.sqrt * y.sqrt + y.sqrt then y.sqrt else y.sqrt + 1

/-- The binary places that 53 significant bits give the root of `x`: it lies between
`2 ^ (log2 x / 2)` and twice that. -/
def places (x : ℕ) : ℕ := 52 - x.log2 / 2

/-- `(uint64_t)sqrt(x)`, for a `double` that is an integer. -/
def truncSqrt (x : ℕ) : ℕ := nearestRoot (x * 4 ^ places x) / 2 ^ places x

variable {n x y : ℕ}

lemma roundTo_zero (x : ℕ) : roundTo x 0 = x := by
  rw [roundTo, if_pos (Or.inl (by omega)), pow_zero, Nat.div_one]

/-- An integer of 53 bits is a `double`. -/
lemma ofNat_eq_self (h : n < 2 ^ 53) : ofNat n = n := by
  have hlog : n.log2 + 1 - 53 = 0 := by
    rcases n.eq_zero_or_pos with rfl | hpos
    · rfl
    · have := (Nat.log2_lt hpos.ne').mpr h
      omega
  rw [ofNat, hlog, roundTo_zero, pow_zero, mul_one]

/-- **The square of a rounded root is near**: it differs by the rounded root at most. -/
lemma nearestRoot_bounds (y : ℕ) :
    nearestRoot y * nearestRoot y ≤ y + nearestRoot y ∧
      y ≤ nearestRoot y * nearestRoot y + nearestRoot y := by
  have hle := Nat.sqrt_le y
  have hlt : y < (y.sqrt + 1) * (y.sqrt + 1) := Nat.lt_succ_sqrt y
  rw [nearestRoot]
  split_ifs with hnear
  · exact ⟨hle.trans (Nat.le_add_right _ _), hnear⟩
  · constructor
    · linarith
    · linarith

/-- Below `2 ^ 52` there are more places than the root has bits. -/
lemma sqrt_lt_two_pow_places (h : x < 2 ^ 52) : x.sqrt + 1 < 2 ^ places x := by
  have hroot : x.sqrt < 2 ^ 26 := Nat.sqrt_lt'.mpr (h.trans_eq (by norm_num))
  have hlog : x.log2 < 52 := by
    rcases x.eq_zero_or_pos with rfl | hpos
    · decide
    · exact (Nat.log2_lt hpos.ne').mpr h
  calc x.sqrt + 1 < 2 ^ 27 := by omega
    _ ≤ 2 ^ places x := Nat.pow_le_pow_right two_pos (by rw [places]; omega)

/-- **Rounding does not reach the next integer** below `2 ^ 52`. -/
lemma truncSqrt_eq_sqrt (h : x < 2 ^ 52) : truncSqrt x = x.sqrt := by
  have hplaces := sqrt_lt_two_pow_places h
  have hfour : 4 ^ places x = 2 ^ places x * 2 ^ places x := by
    rw [← mul_pow]
    norm_num
  have hle := Nat.sqrt_le x
  have hlt : x + 1 ≤ (x.sqrt + 1) * (x.sqrt + 1) := Nat.lt_succ_sqrt x
  obtain ⟨hlow, hhigh⟩ := nearestRoot_bounds (x * 4 ^ places x)
  rw [truncSqrt]
  -- the root `s`, the unit `u` and the rounded root `r` in that unit
  generalize nearestRoot (x * 4 ^ places x) = r at *
  rw [hfour] at hlow hhigh
  generalize 2 ^ places x = u at *
  generalize x.sqrt = s at *
  refine Nat.div_eq_of_lt_le (not_lt.mp fun hsmall => ?_) (not_le.mp fun hlarge => ?_)
  · have hcontra : x * (u * u) < x * (u * u) := by
      calc x * (u * u) ≤ r * r + r := hhigh
        _ < (r + 1) * (r + 1) := by linarith
        _ ≤ (s * u) * (s * u) := Nat.mul_self_le_mul_self hsmall
        _ = s * s * (u * u) := by ring
        _ ≤ x * (u * u) := Nat.mul_le_mul_right _ hle
    exact lt_irrefl _ hcontra
  · obtain ⟨d, rfl⟩ := Nat.exists_eq_add_of_le hlarge
    have hpos : 0 < u := by omega
    have hnext : x * (u * u) + u * u ≤ ((s + 1) * u) * ((s + 1) * u) :=
      calc x * (u * u) + u * u = (x + 1) * (u * u) := by ring
        _ ≤ (s + 1) * (s + 1) * (u * u) := Nat.mul_le_mul_right _ hlt
        _ = ((s + 1) * u) * ((s + 1) * u) := by ring
    have hover : d ≤ (s + 1) * u * d := Nat.le_mul_of_pos_left d (by positivity)
    have hunit : u * u ≤ (s + 1) * u := by
      generalize (s + 1) * u = t at *
      nlinarith only [hlow, hnext, hover]
    exact absurd (Nat.le_of_mul_le_mul_right hunit hpos) (not_le.mpr hplaces)

end Binary64

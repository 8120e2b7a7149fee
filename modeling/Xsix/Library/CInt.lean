import Mathlib.Tactic

/-!
C integers of fixed width, as the integers they stand for.

A signed type of width `w` keeps the residue of a sum modulo `2 ^ w` nearest to
zero, an unsigned one the residue that is not negative. Values in range are kept
as they are (`int32_eq_self` and its siblings), and a 64-bit type keeps only the
residue of what it is given (`int64_eq_int64_iff`).

The quotient and the remainder of C round toward zero. They are the usual ones on
values that are not negative (`tmod_eq_emod`), a remainder is negative for the
negative values that leave one (`tmod_nonneg_iff`), and neither leaves the bounds
of the type (`tdiv_bounds`, `tmod_bounds`).
-/

namespace CInt

/-- The value of `x` as a signed 32-bit integer. -/
def int32 (x : ℤ) : ℤ := (x + 2 ^ 31) % 2 ^ 32 - 2 ^ 31

/-- The value of `x` as a signed 64-bit integer. -/
def int64 (x : ℤ) : ℤ := (x + 2 ^ 63) % 2 ^ 64 - 2 ^ 63

/-- The value of `x` as an unsigned 64-bit integer. -/
def uint64 (x : ℤ) : ℤ := x % 2 ^ 64

/-- `x` is a value of a signed 32-bit integer. -/
def IsInt32 (x : ℤ) : Prop := -2 ^ 31 ≤ x ∧ x < 2 ^ 31

/-- `x` is a value of a signed 64-bit integer. -/
def IsInt64 (x : ℤ) : Prop := -2 ^ 63 ≤ x ∧ x < 2 ^ 63

variable {x y m : ℤ}

instance (x : ℤ) : Decidable (IsInt32 x) := inferInstanceAs (Decidable (_ ∧ _))

instance (x : ℤ) : Decidable (IsInt64 x) := inferInstanceAs (Decidable (_ ∧ _))

lemma isInt32_int32 (x : ℤ) : IsInt32 (int32 x) := by
  unfold IsInt32 int32
  omega

lemma isInt64_int64 (x : ℤ) : IsInt64 (int64 x) := by
  unfold IsInt64 int64
  omega

lemma int32_eq_self (h : IsInt32 x) : int32 x = x := by
  unfold IsInt32 at h
  unfold int32
  omega

lemma int64_eq_self (h : IsInt64 x) : int64 x = x := by
  unfold IsInt64 at h
  unfold int64
  omega

lemma uint64_eq_self (h0 : 0 ≤ x) (h1 : x < 2 ^ 64) : uint64 x = x := by
  unfold uint64
  omega

lemma int64_eq_int64_iff : int64 x = int64 y ↔ x % 2 ^ 64 = y % 2 ^ 64 := by
  unfold int64
  omega

/-! A sum may wrap around at every step or once at the end. -/

lemma int64_int64_add : int64 (int64 x + y) = int64 (x + y) := by
  unfold int64
  omega

lemma int64_add_int64 : int64 (x + int64 y) = int64 (x + y) := by
  unfold int64
  omega

lemma int64_int64_sub : int64 (int64 x - y) = int64 (x - y) := by
  unfold int64
  omega

lemma int64_sub_int64 : int64 (x - int64 y) = int64 (x - y) := by
  unfold int64
  omega

/-- The conversion of a signed value to an unsigned one of 64 bits. -/
lemma toNat_ofInt (x : ℤ) : ((UInt64.ofInt x).toNat : ℤ) = uint64 x := by
  rw [uint64, UInt64.ofInt, UInt64.toNat_ofNat']
  omega

/-- A negative 32-bit value read as an unsigned size is enormous. -/
lemma uint64_of_neg (h : IsInt32 x) (hneg : x < 0) : uint64 x = x + 2 ^ 64 := by
  unfold IsInt32 at h
  unfold uint64
  omega

/-- The bounds of a Lean `Int32` are those of a C one. -/
lemma isInt32_toInt (n : Int32) : IsInt32 n.toInt :=
  ⟨n.le_toInt, n.toInt_lt⟩

/-- One turn past the end of a circle of `m` cells at most: the remainder takes
off `m` or nothing. -/
lemma emod_eq_ite (h0 : 0 ≤ x) (h1 : x < 2 * m) :
    x % m = if x < m then x else x - m := by
  split
  · next h => exact Int.emod_eq_of_lt h0 h
  · next h =>
      rw [← Int.sub_emod_right x m]
      exact Int.emod_eq_of_lt (by omega) (by omega)

/-! ### Division toward zero -/

/-- C's remainder and the usual one agree on values that are not negative. -/
lemma tmod_eq_emod (h : 0 ≤ x) : x.tmod m = x % m :=
  Int.tmod_eq_emod_of_nonneg h

lemma tdiv_of_nonpos (h : x ≤ 0) : x.tdiv m = -(-x / m) := by
  rw [← Int.tdiv_eq_ediv_of_nonneg (by omega), Int.neg_tdiv, neg_neg]

/-- Only a divisor of minus one takes a quotient out of the bounds of a signed type. -/
lemma tdiv_bounds {b : ℤ} (h : -b ≤ x ∧ x < b) (hm : 0 ≤ m) :
    -b ≤ x.tdiv m ∧ x.tdiv m < b := by
  have habs : (x.tdiv m).natAbs ≤ x.natAbs := Int.natAbs_tdiv_le_natAbs x m
  rcases le_total 0 x with hx | hx
  · have hq : 0 ≤ x.tdiv m := Int.tdiv_nonneg hx hm
    omega
  · have hq : 0 ≤ (-x).tdiv m := Int.tdiv_nonneg (by omega) hm
    rw [Int.neg_tdiv] at hq
    omega

/-- The remainder is on the side of the dividend. -/
lemma tmod_bounds {b : ℤ} (h : -b ≤ x ∧ x < b) : -b ≤ x.tmod m ∧ x.tmod m < b := by
  have habs : (x.tmod m).natAbs ≤ x.natAbs := by
    rw [Int.natAbs_tmod]
    exact Nat.mod_le _ _
  rcases le_total 0 x with hx | hx
  · have hr : 0 ≤ x.tmod m := Int.tmod_nonneg m hx
    omega
  · have hr : 0 ≤ (-x).tmod m := Int.tmod_nonneg m (by omega)
    rw [Int.neg_tmod] at hr
    omega

/-- Dividing twice is dividing by the product. -/
lemma tdiv_tdiv {k : ℤ} (hm : 0 ≤ m) : (x.tdiv m).tdiv k = x.tdiv (m * k) := by
  have hpos : ∀ y : ℤ, 0 ≤ y → (y.tdiv m).tdiv k = y.tdiv (m * k) := by
    intro y hy
    rw [Int.tdiv_eq_ediv_of_nonneg hy, Int.tdiv_eq_ediv_of_nonneg (Int.ediv_nonneg hy hm),
      Int.tdiv_eq_ediv_of_nonneg hy, Int.ediv_ediv_of_nonneg hm]
  rcases le_total 0 x with hx | hx
  · exact hpos x hx
  · have hneg := hpos (-x) (by omega)
    rwa [Int.neg_tdiv, Int.neg_tdiv, Int.neg_tdiv, neg_inj] at hneg

lemma emod_mul_ediv {k : ℤ} (hm : 0 ≤ m) : x % (m * k) / m = x / m % k := by
  rcases hm.eq_or_lt with rfl | hlt
  · simp
  · have hx : x % (m * k) = x + m * -(k * (x / m / k)) := by
      rw [Int.emod_def, Int.ediv_ediv_of_nonneg hm]
      ring
    rw [hx, Int.add_mul_ediv_left _ _ hlt.ne', Int.emod_def, sub_eq_add_neg]

/-- Dividing a remainder modulo a product by a factor leaves a remainder modulo the other. -/
lemma tmod_mul_tdiv {k : ℤ} (hm : 0 ≤ m) : (x.tmod (m * k)).tdiv m = (x.tdiv m).tmod k := by
  have hpos : ∀ y : ℤ, 0 ≤ y → (y.tmod (m * k)).tdiv m = (y.tdiv m).tmod k := by
    intro y hy
    rw [Int.tdiv_eq_ediv_of_nonneg (Int.tmod_nonneg _ hy), Int.tdiv_eq_ediv_of_nonneg hy,
      tmod_eq_emod hy, tmod_eq_emod (Int.ediv_nonneg hy hm), emod_mul_ediv hm]
  rcases le_total 0 x with hx | hx
  · exact hpos x hx
  · have hneg := hpos (-x) (by omega)
    rwa [Int.neg_tmod, Int.neg_tdiv, Int.neg_tdiv, Int.neg_tmod, neg_inj] at hneg

/-- **The sign of a remainder**: it is negative for the negative dividends that leave one. -/
lemma tmod_nonneg_iff : 0 ≤ x.tmod m ↔ 0 ≤ x ∨ m ∣ x := by
  constructor
  · intro h
    by_contra hnot
    obtain ⟨hx, hdvd⟩ := not_or.mp hnot
    have hneg : 0 ≤ (-x).tmod m := Int.tmod_nonneg m (by omega)
    rw [Int.neg_tmod] at hneg
    exact hdvd (Int.dvd_of_tmod_eq_zero (by omega))
  · rintro (hx | hdvd)
    · exact Int.tmod_nonneg m hx
    · exact (Int.tmod_eq_zero_of_dvd hdvd).ge

end CInt

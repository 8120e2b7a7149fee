import Xsix.Library.Binary64
import Xsix.Library.Ceiling

/-!
`utils/math_utils.hpp`: prime numbers and powers of two.

The trial division of `is_prime_number` answers `false` at the first number up to the root
that does **not** divide. The two tables of powers of two are declared with 63 elements and
list 62: both leave out `2 ^ 53`, and their last element is the zero that C++ fills in.

* `isPrimeNumber_iff`: a number whose trials all divide is one of nine; from this,
  `prime_number_iff` says where the answer is right.
* `minPowerof2_isCeiling`, `isPowerof2_iff`: what the scans find in the tables; from these,
  `powerof2_iff` and `min_powerof2_iff` say where the answers are right.
-/

namespace Xsix.Utils

open Binary64 Ceiling

/-! ### Prime numbers -/

/-- The loop of `is_prime_number`, from the trial `i` on. -/
def primeLoop (n sqrtn i : ℕ) : Bool :=
  if i ≤ sqrtn then
    if n % i ≠ 0 then false else primeLoop n sqrtn (i + 1)
  else true
termination_by sqrtn + 1 - i

/-- `is_prime_number(n)`. -/
def isPrimeNumber (n : UInt64) : Bool :=
  let sqrtn := truncSqrt (ofNat n.toNat)
  primeLoop n.toNat sqrtn 2

/-! ### Powers of two -/

/-- A `static uint64_t [63]`: the elements its initializer lists, and zeros after them. -/
def staticArray (listed : List UInt64) : Vector UInt64 63 := Vector.ofFn fun i => listed.getD i 0

/-- The initializer of the table of `is_powerof2`. -/
def isPowerof2Listed : List UInt64 :=
  [1, 2, 4, 8, 16, 32, 64, 128, 256, 512, 1024, 2048, 4096, 8192, 16384, 32768, 65536,
    131072, 262144, 524288, 1048576, 2097152, 4194304, 8388608, 16777216, 33554432,
    67108864, 134217728, 268435456, 536870912, 1073741824, 2147483648, 4294967296,
    8589934592, 17179869184, 34359738368, 68719476736, 137438953472, 274877906944,
    549755813888, 1099511627776, 2199023255552, 4398046511104, 8796093022208,
    17592186044416, 35184372088832, 70368744177664, 140737488355328, 281474976710656,
    562949953421312, 1125899906842624, 2251799813685248, 4503599627370496,
    18014398509481984, 36028797018963968, 72057594037927936, 144115188075855872,
    288230376151711744, 576460752303423488, 1152921504606846976, 2305843009213693952,
    4611686018427387904]

/-- The initializer of the table of `min_powerof2`. -/
def minPowerof2Listed : List UInt64 :=
  [1, 2, 4, 8, 16, 32, 64, 128, 256, 512, 1024, 2048, 4096, 8192, 16384, 32768, 65536,
    131072, 262144, 524288, 1048576, 2097152, 4194304, 8388608, 16777216, 33554432,
    67108864, 134217728, 268435456, 536870912, 1073741824, 2147483648, 4294967296,
    8589934592, 17179869184, 34359738368, 68719476736, 137438953472, 274877906944,
    549755813888, 1099511627776, 2199023255552, 4398046511104, 8796093022208,
    17592186044416, 35184372088832, 70368744177664, 140737488355328, 281474976710656,
    562949953421312, 1125899906842624, 2251799813685248, 4503599627370496,
    18014398509481984, 36028797018963968, 72057594037927936, 144115188075855872,
    288230376151711744, 576460752303423488, 1152921504606846976, 2305843009213693952,
    4611686018427387904]

/-- `is_powerof2(n)`: whether some element of the table is `n`. -/
def isPowerof2 (n : UInt64) : Bool := (staticArray isPowerof2Listed).toList.any (n == ·)

/-- `min_powerof2(n)`: the first element of the table from `n` on, `0` if there is none. -/
def minPowerof2 (n : UInt64) : UInt64 :=
  ((staticArray minPowerof2Listed).toList.find? (· ≥ n)).getD 0

example : minPowerof2 1000 = 1024 := by decide

variable {n : UInt64} {m : ℕ}

/-! ### Which numbers all trials divide -/

/-- The loop answers whether every trial left divides. -/
lemma primeLoop_iff (m sqrtn i : ℕ) :
    primeLoop m sqrtn i = true ↔ ∀ d, i ≤ d → d ≤ sqrtn → d ∣ m := by
  fun_induction primeLoop m sqrtn i with
  | case1 i hle hmod =>
      refine iff_of_false (by simp) fun h => hmod ?_
      exact Nat.mod_eq_zero_of_dvd (h i le_rfl hle)
  | case2 i hle hmod ih =>
      rw [ih]
      constructor
      · intro h d hid hd
        rcases hid.eq_or_lt with rfl | hlt
        · exact Nat.dvd_of_mod_eq_zero (not_not.mp hmod)
        · exact h d hlt hd
      · intro h d hid hd
        exact h d (by omega) hd
  | case3 i hgt => exact iff_of_true rfl fun d hid hd => absurd (hid.trans hd) hgt

/-- The root and its predecessor have no common divisor, so only a small number is a multiple
of both. -/
lemma lt_of_forall_dvd (h : ∀ d, 2 ≤ d → d ≤ m.sqrt → d ∣ m) : m < 25 := by
  by_contra hlarge
  have hfive : 5 ≤ m.sqrt := Nat.le_sqrt.mpr (not_lt.mp hlarge)
  obtain ⟨s, hs⟩ : ∃ s, m.sqrt = s + 1 := ⟨m.sqrt - 1, by omega⟩
  have hle := Nat.sqrt_le m
  have hlt : m < (m.sqrt + 1) * (m.sqrt + 1) := Nat.lt_succ_sqrt m
  rw [hs] at hfive hle hlt
  have hcoprime : Nat.Coprime s (s + 1) := Nat.coprime_self_add_right.mpr (Nat.coprime_one_right s)
  have hdvd : s * (s + 1) ∣ m :=
    hcoprime.mul_dvd_of_dvd_of_dvd (h s (by omega) (by omega)) (h (s + 1) (by omega) hs.ge)
  obtain ⟨c, rfl⟩ := hdvd
  have htwo : 2 ≤ c := by
    by_contra hc
    have hone : s * (s + 1) * c ≤ s * (s + 1) * 1 := Nat.mul_le_mul_left _ (by omega)
    linarith
  have hmul : s * (s + 1) * 2 ≤ s * (s + 1) * c := Nat.mul_le_mul_left _ htwo
  nlinarith

/-- Below the bound, by trying. -/
lemma small_trials : ∀ m < 25,
    ((∀ d < m.sqrt + 1, 2 ≤ d → d ∣ m) ↔ m ∈ [0, 1, 2, 3, 4, 6, 8, 12, 24]) := by
  decide +kernel

/-- **All trials divide exactly nine numbers.** -/
lemma forall_dvd_iff :
    (∀ d, 2 ≤ d → d ≤ m.sqrt → d ∣ m) ↔ m ∈ [0, 1, 2, 3, 4, 6, 8, 12, 24] := by
  constructor
  · intro h
    exact (small_trials m (lt_of_forall_dvd h)).mp fun d hd h2 => h d h2 (Nat.lt_succ_iff.mp hd)
  · intro hmem d h2 hd
    have hall : ∀ x ∈ [0, 1, 2, 3, 4, 6, 8, 12, 24], x < 25 := by decide
    exact (small_trials m (hall m hmem)).mpr hmem d (Nat.lt_succ_iff.mpr hd) h2

/-- What `is_prime_number` answers. -/
lemma isPrimeNumber_iff (hn : n.toNat < 2 ^ 52) :
    isPrimeNumber n = true ↔ n.toNat ∈ [0, 1, 2, 3, 4, 6, 8, 12, 24] := by
  rw [isPrimeNumber, ofNat_eq_self (by omega), truncSqrt_eq_sqrt hn, primeLoop_iff,
    forall_dvd_iff]

/-- **When `is_prime_number` is right.** Below `2 ^ 52` it answers `true` exactly for the prime
numbers if and only if the number is two or three, or is not prime and not one of the seven
others whose trials all divide. -/
theorem prime_number_iff (hn : n.toNat < 2 ^ 52) :
    (isPrimeNumber n = true ↔ n.toNat.Prime) ↔
      n.toNat = 2 ∨ n.toNat = 3 ∨ (¬n.toNat.Prime ∧ n.toNat ∉ [0, 1, 4, 6, 8, 12, 24]) := by
  rw [isPrimeNumber_iff hn]
  generalize n.toNat = m
  have hprimes : m ∈ [0, 1, 2, 3, 4, 6, 8, 12, 24] → (m.Prime ↔ m = 2 ∨ m = 3) := by
    intro hmem
    have hall : ∀ x ∈ [0, 1, 2, 3, 4, 6, 8, 12, 24], (x.Prime ↔ x = 2 ∨ x = 3) := by decide
    exact hall m hmem
  by_cases hmem : m ∈ [0, 1, 2, 3, 4, 6, 8, 12, 24]
  · rw [iff_true_left hmem, hprimes hmem]
    constructor
    · rintro (rfl | rfl)
      · exact Or.inl rfl
      · exact Or.inr (Or.inl rfl)
    · rintro (rfl | rfl | ⟨-, hnot⟩)
      · exact Or.inl rfl
      · exact Or.inr rfl
      · simp only [List.mem_cons, List.not_mem_nil, or_false] at hmem hnot
        omega
  · rw [iff_false_left hmem]
    simp only [List.mem_cons, List.not_mem_nil, or_false] at hmem ⊢
    constructor
    · intro hp
      exact Or.inr (Or.inr ⟨hp, by omega⟩)
    · rintro (rfl | rfl | ⟨hp, -⟩)
      · simp at hmem
      · simp at hmem
      · exact hp

/-- A composite number with an odd divisor. -/
theorem prime_number_fifteen : isPrimeNumber 15 = true ↔ Nat.Prime 15 :=
  (prime_number_iff (n := 15) (by decide)).mpr (Or.inr (Or.inr ⟨by decide, by decide⟩))

/-- **The test is the wrong way round**: five is refused and four is accepted. -/
theorem prime_number_reversed :
    ¬(isPrimeNumber 5 = true ↔ Nat.Prime 5) ∧ ¬(isPrimeNumber 4 = true ↔ Nat.Prime 4) := by
  have hfive : ¬isPrimeNumber 5 = true := by
    rw [isPrimeNumber_iff (by decide)]
    decide
  have hfour : isPrimeNumber 4 = true := (isPrimeNumber_iff (by decide)).mpr (by decide)
  exact ⟨fun h => hfive (h.mpr (by decide)), fun h => absurd (h.mp hfour) (by decide)⟩

/-! ### What the tables hold -/

/-- The powers of two. -/
def Powerof2 : Set ℕ := {m | ∃ k : ℕ, m = 2 ^ k}

/-- Those that the tables list. -/
def listed : List ℕ := ((List.range 63).filter (· ≠ 53)).map (2 ^ ·)

lemma isPowerof2_table :
    (staticArray isPowerof2Listed).toList.map UInt64.toNat = listed ++ [0] := by
  rfl

lemma minPowerof2_table :
    (staticArray minPowerof2Listed).toList.map UInt64.toNat = listed ++ [0] := by
  rfl

lemma mem_listed : m ∈ listed ↔ ∃ k : ℕ, k < 63 ∧ k ≠ 53 ∧ m = 2 ^ k := by
  simp only [listed, List.mem_map, List.mem_filter, List.mem_range, decide_eq_true_eq, and_assoc,
    eq_comm (a := m)]

lemma listed_ascends : listed.Pairwise (· < ·) := by
  refine List.Pairwise.map _ (fun i j hij => ?_) (List.pairwise_lt_range.filter _)
  exact Nat.pow_lt_pow_right one_lt_two hij

lemma listed_subset : {m | m ∈ listed} ⊆ Powerof2 := by
  intro m hm
  obtain ⟨k, -, -, rfl⟩ := mem_listed.mp hm
  exact ⟨k, rfl⟩

/-- A power of two that is not listed is the one left out, or past the table. -/
lemma eq_or_le_of_notMem_listed (hm : m ∈ Powerof2) (hnot : m ∉ listed) :
    m = 2 ^ 53 ∨ 2 ^ 63 ≤ m := by
  obtain ⟨k, rfl⟩ := hm
  by_cases hk : k < 63
  · by_cases hgap : k = 53
    · exact Or.inl (hgap ▸ rfl)
    · exact absurd (mem_listed.mpr ⟨k, hk, hgap, rfl⟩) hnot
  · exact Or.inr (Nat.pow_le_pow_right two_pos (by omega))

lemma zero_notMem_listed : 0 ∉ listed := by
  intro hmem
  obtain ⟨k, -, -, heq⟩ := mem_listed.mp hmem
  exact absurd heq.symm (pow_ne_zero k two_ne_zero)

/-- The one left out is not listed. -/
lemma gap_notMem_listed : 2 ^ 53 ∉ listed := by
  intro hmem
  obtain ⟨k, -, hgap, heq⟩ := mem_listed.mp hmem
  exact hgap (Nat.pow_right_injective le_rfl heq).symm

/-- **What `is_powerof2` answers**: the zero at the end of its table is found too. -/
lemma isPowerof2_iff : isPowerof2 n = true ↔ n.toNat ∈ listed ∨ n.toNat = 0 := by
  have hmem : n ∈ (staticArray isPowerof2Listed).toList ↔ n.toNat ∈ listed ++ [0] := by
    rw [← isPowerof2_table]
    exact (List.mem_map_of_injective fun _ _ => UInt64.toNat_inj.mp).symm
  rw [List.mem_append, List.mem_singleton] at hmem
  rw [← hmem, isPowerof2, List.any_eq_true]
  simp

/-- The scan of `min_powerof2`, over the numbers that the elements are. -/
lemma minPowerof2_toNat (n : UInt64) :
    (minPowerof2 n).toNat = (listed.find? (n.toNat ≤ ·)).getD 0 := by
  have hscan : ((staticArray minPowerof2Listed).toList.find? (· ≥ n)).map UInt64.toNat
      = (listed ++ [0]).find? (n.toNat ≤ ·) := by
    rw [← minPowerof2_table, List.find?_map]
    rfl
  have hzero : (minPowerof2 n).toNat
      = (((staticArray minPowerof2Listed).toList.find? (· ≥ n)).map UInt64.toNat).getD 0 := by
    rw [minPowerof2]
    cases (staticArray minPowerof2Listed).toList.find? (· ≥ n) <;> rfl
  rw [hzero, hscan, List.find?_append]
  cases listed.find? (n.toNat ≤ ·) with
  | some m => rfl
  | none =>
      -- the zero that is found at the end, or not, is the zero that is returned
      rw [Option.none_or, List.find?_singleton]
      split <;> rfl

/-- **What `min_powerof2` answers** within the table: the listed power of two next to `n`. -/
lemma minPowerof2_isCeiling (hn : n.toNat ≤ 2 ^ 62) :
    IsCeiling {m | m ∈ listed} n.toNat (minPowerof2 n).toNat := by
  have hlast : 2 ^ 62 ∈ listed := mem_listed.mpr ⟨62, by omega, by omega, rfl⟩
  cases hfind : listed.find? (n.toNat ≤ ·) with
  | none => exact absurd hn (by simpa using List.find?_eq_none.mp hfind _ hlast)
  | some m =>
      have hceil := isCeiling_of_find? listed_ascends hfind
      rwa [minPowerof2_toNat, hfind]

/-- Past the table the answer is zero. -/
lemma minPowerof2_of_lt (hn : 2 ^ 62 < n.toNat) : minPowerof2 n = 0 := by
  have hnone : listed.find? (n.toNat ≤ ·) = none := by
    refine List.find?_eq_none.mpr fun m hm => ?_
    obtain ⟨k, hk, -, rfl⟩ := mem_listed.mp hm
    have hle : 2 ^ k ≤ 2 ^ 62 := Nat.pow_le_pow_right two_pos (by omega)
    simpa using hle.trans_lt hn
  have hzero := minPowerof2_toNat n
  rw [hnone] at hzero
  exact UInt64.toNat_inj.mp hzero

/-! ### Where the answers are right -/

/-- `min_powerof2` leaves exactly the listed powers as they are. -/
lemma minPowerof2_eq_self_iff : minPowerof2 n = n ↔ n.toNat ∈ listed := by
  by_cases hn : n.toNat ≤ 2 ^ 62
  · rw [← UInt64.toNat_inj]
    exact (minPowerof2_isCeiling hn).eq_self_iff
  · rw [minPowerof2_of_lt (not_le.mp hn)]
    refine iff_of_false ?_ fun hmem => ?_
    · rintro rfl
      simp at hn
    · obtain ⟨k, hk, -, heq⟩ := mem_listed.mp hmem
      exact hn (heq ▸ Nat.pow_le_pow_right two_pos (by omega))

/-- **When the two tests are right.** Below `2 ^ 63`, `is_powerof2` accepts exactly the powers of
two and agrees with `min_powerof2` if and only if the number is neither zero nor `2 ^ 53`. -/
theorem powerof2_iff (hn : n.toNat < 2 ^ 63) :
    ((isPowerof2 n = true ↔ n.toNat ∈ Powerof2) ∧ (isPowerof2 n = true ↔ minPowerof2 n = n)) ↔
      n.toNat ≠ 0 ∧ n.toNat ≠ 2 ^ 53 := by
  rw [isPowerof2_iff, minPowerof2_eq_self_iff]
  constructor
  · rintro ⟨hpow, hmin⟩
    refine ⟨fun hzero => ?_, fun hgap => ?_⟩
    · exact zero_notMem_listed (hzero ▸ hmin.mp (Or.inr hzero))
    · rcases hpow.mpr ⟨53, hgap⟩ with hmem | hzero
      · exact gap_notMem_listed (hgap ▸ hmem)
      · omega
  · rintro ⟨hzero, hgap⟩
    rw [or_iff_left hzero]
    refine ⟨⟨fun hmem => listed_subset hmem, fun hpow => ?_⟩, Iff.rfl⟩
    by_contra hnot
    rcases eq_or_le_of_notMem_listed hpow hnot with heq | hle
    · exact hgap heq
    · omega

/-- A power of two that both tables list. -/
theorem powerof2_mebi :
    (isPowerof2 1048576 = true ↔ UInt64.toNat 1048576 ∈ Powerof2) ∧
      (isPowerof2 1048576 = true ↔ minPowerof2 1048576 = 1048576) :=
  (powerof2_iff (n := 1048576) (by decide)).mpr ⟨by decide, by decide⟩

/-- **The gap and the zero**: `2 ^ 53` is refused, and zero is accepted by one scan and moved by
the other. -/
theorem powerof2_gap :
    ¬(isPowerof2 9007199254740992 = true ↔ UInt64.toNat 9007199254740992 ∈ Powerof2) ∧
      ¬(isPowerof2 0 = true ↔ UInt64.toNat 0 ∈ Powerof2) ∧
      ¬(isPowerof2 0 = true ↔ minPowerof2 0 = 0) := by
  have hgap : ¬isPowerof2 9007199254740992 = true := by
    rw [isPowerof2_iff]
    exact not_or.mpr ⟨gap_notMem_listed, by decide⟩
  have hzero : isPowerof2 0 = true := isPowerof2_iff.mpr (Or.inr rfl)
  refine ⟨fun h => hgap (h.mpr ⟨53, rfl⟩), fun h => ?_, fun h => ?_⟩
  · obtain ⟨k, heq⟩ := h.mp hzero
    exact absurd heq.symm (pow_ne_zero k two_ne_zero)
  · exact zero_notMem_listed (minPowerof2_eq_self_iff.mp (h.mp hzero))

/-- `min_powerof2` is the ceiling among all powers of two except right below the gap. -/
lemma minPowerof2_isCeiling_iff (hn : n.toNat ≤ 2 ^ 62) :
    IsCeiling Powerof2 n.toNat (minPowerof2 n).toNat ↔
      ¬(2 ^ 52 < n.toNat ∧ n.toNat ≤ 2 ^ 53) := by
  have hceil := minPowerof2_isCeiling hn
  rw [hceil.of_subset_iff listed_subset]
  constructor
  · rintro hrest ⟨hlow, hhigh⟩
    have hle : (minPowerof2 n).toNat ≤ 2 ^ 53 := hrest _ ⟨53, rfl⟩ gap_notMem_listed hhigh
    obtain ⟨k, -, hgap, heq⟩ := mem_listed.mp hceil.mem
    have hlt : 2 ^ 52 < (minPowerof2 n).toNat := hlow.trans_le hceil.le
    -- no power of two lies between these two but the one left out
    rw [heq] at hle hlt
    have hk : k ≤ 53 := (Nat.pow_le_pow_iff_right one_lt_two).mp hle
    have hk' : 52 < k := (Nat.pow_lt_pow_iff_right one_lt_two).mp hlt
    omega
  · intro hnot x hx hxl hle
    rcases eq_or_le_of_notMem_listed hx hxl with rfl | hpast
    · have hlow : n.toNat ≤ 2 ^ 52 := by omega
      have hmem : 2 ^ 52 ∈ listed := mem_listed.mpr ⟨52, by omega, by omega, rfl⟩
      exact (hceil.le_of_mem hmem hlow).trans (by omega)
    · have hmem : 2 ^ 62 ∈ listed := mem_listed.mpr ⟨62, by omega, by omega, rfl⟩
      exact (hceil.le_of_mem hmem hn).trans (by omega)

lemma minPowerof2_mono {n' : UInt64} (hle : n' ≤ n) (hn : n.toNat ≤ 2 ^ 62) :
    minPowerof2 n' ≤ minPowerof2 n := by
  have hle' : n'.toNat ≤ n.toNat := UInt64.le_iff_toNat_le.mp hle
  rw [UInt64.le_iff_toNat_le]
  exact (minPowerof2_isCeiling (hle'.trans hn)).mono (minPowerof2_isCeiling hn) hle'

lemma minPowerof2_idem (hn : n.toNat ≤ 2 ^ 62) : minPowerof2 (minPowerof2 n) = minPowerof2 n :=
  minPowerof2_eq_self_iff.mpr (minPowerof2_isCeiling hn).mem

/-- **When `min_powerof2` is right.** Up to `2 ^ 62` it answers the least power of two from the
number on, never decreases and keeps its own answers if and only if the number is not above
`2 ^ 52` and at most `2 ^ 53`. -/
theorem min_powerof2_iff (hn : n.toNat ≤ 2 ^ 62) :
    (IsCeiling Powerof2 n.toNat (minPowerof2 n).toNat ∧
      (∀ n' ≤ n, minPowerof2 n' ≤ minPowerof2 n) ∧
      minPowerof2 (minPowerof2 n) = minPowerof2 n) ↔
      ¬(2 ^ 52 < n.toNat ∧ n.toNat ≤ 2 ^ 53) := by
  rw [← minPowerof2_isCeiling_iff hn]
  refine ⟨fun h => h.1, fun hceil => ⟨hceil, fun n' hle => ?_, minPowerof2_idem hn⟩⟩
  exact minPowerof2_mono hle hn

/-- A number right above the gap. -/
theorem min_powerof2_past_gap :
    IsCeiling Powerof2 (UInt64.toNat 9007199254740993) (minPowerof2 9007199254740993).toNat ∧
      (∀ n' ≤ 9007199254740993, minPowerof2 n' ≤ minPowerof2 9007199254740993) ∧
      minPowerof2 (minPowerof2 9007199254740993) = minPowerof2 9007199254740993 :=
  (min_powerof2_iff (n := 9007199254740993) (by decide)).mpr (by decide)

/-- **A power of two that is doubled**: the answer for `2 ^ 53` is `2 ^ 54`. -/
theorem min_powerof2_gap :
    minPowerof2 9007199254740992 = 18014398509481984 ∧
      ¬IsCeiling Powerof2 (UInt64.toNat 9007199254740992)
        (minPowerof2 9007199254740992).toNat := by
  refine ⟨by decide, fun hceil => ?_⟩
  exact (minPowerof2_isCeiling_iff (by decide)).mp hceil ⟨by decide, by decide⟩

end Xsix.Utils

import Mathlib.Tactic
import Xsix.Library.CInt

/-!
`time/`: the clock, `timeval`, `Duration` and `Timestamp`.

A `timeval` stands for a count of microseconds (`Timeval.micros`), and among those that stand
for one count a single one is normalised (`Timeval.eq_of_micros_eq`). The classes keep a count
of nanoseconds instead; both put it together (`joinNs`) and take it apart (`splitNs`) alike.

* `timevalconv_micros`, `joinNs_eq`, `micros_splitNs`: what each conversion keeps.
* `splitNs_normalised_iff`: division rounds toward zero, so a negative count is taken apart into
  a `timeval` of two negative parts.
* `timevalconv_iff`: the cast to `long` comes before the division, which on Windows loses every
  count from `2 ^ 31` on.
* `timeval_roundtrip_iff`: which `timeval`s come back, and which `Duration`s give a normalised one.
* `Timestamp.add_sub_self`, `Timestamp.add_sub_timestamp`: the operators undo each other.
* `utcmicrosecond_gettimeofday`, `Timestamp.now_eq_ofTimeval`: what the clock reports.
-/

namespace Xsix

open CInt

/-! ### The two platforms -/

/-- The systems that the library is built for. -/
inductive Platform where
  | windows
  | linux
  deriving DecidableEq, Repr

namespace Platform

/-- The value of `x` as a `long`, of 32 bits on Windows and of 64 on Linux. -/
def long : Platform → ℤ → ℤ
  | windows => int32
  | linux => int64

/-- `x` is a value of a `long`. -/
def IsLong : Platform → ℤ → Prop
  | windows => IsInt32
  | linux => IsInt64

instance (p : Platform) (x : ℤ) : Decidable (p.IsLong x) :=
  match p with
  | windows => inferInstanceAs (Decidable (IsInt32 x))
  | linux => inferInstanceAs (Decidable (IsInt64 x))

variable {p : Platform} {x m : ℤ}

lemma isLong_long (p : Platform) (x : ℤ) : p.IsLong (p.long x) := by
  cases p with
  | windows => exact isInt32_int32 x
  | linux => exact isInt64_int64 x

lemma long_eq_self (h : p.IsLong x) : p.long x = x := by
  cases p with
  | windows => exact int32_eq_self h
  | linux => exact int64_eq_self h

/-- What fits the narrower of the two fits both. -/
lemma isLong_of_isInt32 (h : IsInt32 x) : p.IsLong x := by
  cases p with
  | windows => exact h
  | linux => exact ⟨le_trans (by norm_num) h.1, h.2.trans (by norm_num)⟩

lemma IsLong.tdiv (h : p.IsLong x) (hm : 0 ≤ m) : p.IsLong (x.tdiv m) := by
  cases p with
  | windows => exact tdiv_bounds h hm
  | linux => exact tdiv_bounds h hm

lemma IsLong.tmod (h : p.IsLong x) : p.IsLong (x.tmod m) := by
  cases p with
  | windows => exact tmod_bounds h
  | linux => exact tmod_bounds h

end Platform

/-- `struct timeval`. -/
@[ext]
structure Timeval (p : Platform) where
  tvSec : ℤ
  tvUsec : ℤ
  isLong_tvSec : p.IsLong tvSec
  isLong_tvUsec : p.IsLong tvUsec
  deriving DecidableEq

/-! ### `gettimeofday.h` -/

/-- `gettimeofday` of the Windows build. The argument is the `FILETIME` of the system, the tenths
of a microsecond since 1601. -/
def gettimeofday (fileTime : UInt64) : Timeval .windows :=
  let intervals := fileTime - 116444736000000000
  { tvSec := Platform.windows.long (intervals / 10000000).toNat
    tvUsec := Platform.windows.long (intervals % 10000000 / 10).toNat
    isLong_tvSec := Platform.isLong_long _ _
    isLong_tvUsec := Platform.isLong_long _ _ }

/-- `utcmicrosecond()`, on what `gettimeofday` reported. -/
def utcmicrosecond {p : Platform} (tv : Timeval p) : UInt64 :=
  UInt64.ofInt tv.tvSec * 1000000 + UInt64.ofInt tv.tvUsec

/-- `timevalconv(time_us)`. -/
def timevalconv (p : Platform) (timeUs : UInt64) : Timeval p where
  -- `(long)time_us / 1000000` casts first
  tvSec := (p.long timeUs.toNat).tdiv 1000000
  tvUsec := (p.long timeUs.toNat).tmod 1000000
  isLong_tvSec := (p.isLong_long _).tdiv (by norm_num)
  isLong_tvUsec := (p.isLong_long _).tmod

/-! ### `duration.h` -/

namespace Duration

def kMicrosecond : ℤ := 1000

def kMilliseoncd : ℤ := 1000 * kMicrosecond

def kSecond : ℤ := 1000 * kMilliseoncd

def kMinute : ℤ := 60 * kSecond

def kHour : ℤ := 60 * kMinute

lemma kMicrosecond_pos : 0 < kMicrosecond := by decide

lemma kSecond_pos : 0 < kSecond := by decide

lemma kMinute_pos : 0 < kMinute := by decide

lemma kSecond_eq : kSecond = kMicrosecond * 1000000 := rfl

end Duration

open Duration

/-- `t.tv_sec * kSecond + t.tv_usec * kMicrosecond`, which both constructors compute. -/
def joinNs {p : Platform} (t : Timeval p) : ℤ :=
  int64 (int64 (t.tvSec * kSecond) + int64 (t.tvUsec * kMicrosecond))

/-- What both `make_time_val` write to `t`. -/
def splitNs (p : Platform) (ns : ℤ) : Timeval p where
  tvSec := p.long (ns.tdiv kSecond)
  tvUsec := (p.long (ns.tmod kSecond)).tdiv (p.long kMicrosecond)
  isLong_tvSec := p.isLong_long _
  isLong_tvUsec := by
    refine (p.isLong_long _).tdiv ?_
    cases p <;> decide

/-- The class `Duration`. -/
@[ext]
structure Duration where
  mNs : ℤ
  isInt64 : IsInt64 mNs

namespace Duration

/-- `Duration(nanoseconds)`, on the value that an expression leaves in an `int64_t`. -/
def ofNs (ns : ℤ) : Duration := ⟨int64 ns, isInt64_int64 ns⟩

variable {p : Platform} (d d' : Duration)

/-- `Duration(t)`. -/
def ofTimeval (t : Timeval p) : Duration := ⟨joinNs t, isInt64_int64 _⟩

/-- The accessors `seconds`, `millseconds` and so on, which differ in their unit only. -/
def inUnits (unit : ℤ) : ℤ := d.mNs.tdiv unit

def seconds : ℤ := d.inUnits kSecond

def millseconds : ℤ := d.inUnits kMilliseoncd

def microseconds : ℤ := d.inUnits kMicrosecond

def nanoseconds : ℤ := d.mNs

def minutes : ℤ := d.inUnits kMinute

def hours : ℤ := d.inUnits kHour

def makeTimeVal (p : Platform) : Timeval p := splitNs p d.mNs

def getTimeVal (p : Platform) : Timeval p := d.makeTimeVal p

/-- `operator +=`. -/
def addAssign : Duration := ofNs (d.mNs + d'.mNs)

/-- `operator -=`. -/
def subAssign : Duration := ofNs (d.mNs - d'.mNs)

end Duration

/-! ### `timestamp.h` -/

/-- The class `Timestamp`. -/
@[ext]
structure Timestamp where
  mNs : ℤ
  isInt64 : IsInt64 mNs

namespace Timestamp

/-- `Timestamp(nanoseconds)`, on the value that an expression leaves in an `int64_t`. -/
def ofNs (ns : ℤ) : Timestamp := ⟨int64 ns, isInt64_int64 ns⟩

variable {p : Platform} (t s : Timestamp) (d : Duration)

/-- `Timestamp(t)`. -/
def ofTimeval (tv : Timeval p) : Timestamp := ⟨joinNs tv, isInt64_int64 _⟩

/-- `now()`, on what `gettimeofday` reported: the product is one of unsigned integers. -/
def now (tv : Timeval p) : Timestamp := ofNs (utcmicrosecond tv * 1000).toNat

def makeTimeVal (p : Platform) : Timeval p := splitNs p t.mNs

def getTimeval (p : Platform) : Timeval p := t.makeTimeVal p

def unix : ℤ := t.mNs.tdiv kSecond

def unixnano : ℤ := t.mNs

def unixmills : ℤ := t.mNs.tdiv kMilliseoncd

/-- `add`, `operator +=` and `operator +`. -/
instance : HAdd Timestamp Duration Timestamp := ⟨fun t d => ofNs (t.mNs + d.nanoseconds)⟩

/-- `operator -=` and `operator -` of a duration. -/
instance : HSub Timestamp Duration Timestamp := ⟨fun t d => ofNs (t.mNs - d.nanoseconds)⟩

/-- `operator -` of a timestamp. -/
instance : HSub Timestamp Timestamp Duration := ⟨fun t s => Duration.ofNs (t.mNs - s.mNs)⟩

end Timestamp

/-! ### What a `timeval` stands for -/

namespace Timeval

variable {p : Platform} {t t' : Timeval p}

/-- The count of microseconds. -/
def micros (t : Timeval p) : ℤ := t.tvSec * 1000000 + t.tvUsec

/-- The microseconds are a fraction of a second. -/
def Normalised (t : Timeval p) : Prop := 0 ≤ t.tvUsec ∧ t.tvUsec < 1000000

instance (t : Timeval p) : Decidable t.Normalised := inferInstanceAs (Decidable (_ ∧ _))

/-- A count has one normalised `timeval`. -/
lemma eq_of_micros_eq (h : t.Normalised) (h' : t'.Normalised) (heq : t.micros = t'.micros) :
    t = t' := by
  simp only [Normalised, micros] at h h' heq
  ext
  · omega
  · omega

end Timeval

section Conversions

variable {p : Platform} {ns : ℤ}

/-- `timevalconv` keeps the count that the cast to `long` leaves. -/
lemma timevalconv_micros (p : Platform) (timeUs : UInt64) :
    (timevalconv p timeUs).micros = p.long timeUs.toNat :=
  Int.tdiv_mul_add_tmod _ _

lemma timevalconv_normalised {timeUs : UInt64} (h : 0 ≤ p.long timeUs.toNat) :
    (timevalconv p timeUs).Normalised :=
  ⟨Int.tmod_nonneg _ h, Int.tmod_lt_of_pos _ (by norm_num)⟩

/-- The sum of both constructors, as a multiple of the count. -/
lemma nanos_eq (t : Timeval p) :
    t.tvSec * kSecond + t.tvUsec * kMicrosecond = t.micros * kMicrosecond := by
  rw [Timeval.micros, kSecond_eq]
  ring

/-- **Putting together** keeps the count, in nanoseconds. -/
lemma joinNs_eq (t : Timeval p) : joinNs t = int64 (t.micros * kMicrosecond) := by
  rw [joinNs, int64_int64_add, int64_add_int64, nanos_eq]

/-- The seconds and the rest are those of the count in whole microseconds. -/
lemma splitNs_tvSec (p : Platform) (ns : ℤ) :
    (splitNs p ns).tvSec = p.long ((ns.tdiv kMicrosecond).tdiv 1000000) := by
  rw [tdiv_tdiv kMicrosecond_pos.le, ← kSecond_eq]
  rfl

lemma splitNs_tvUsec (p : Platform) (ns : ℤ) :
    (splitNs p ns).tvUsec = (ns.tdiv kMicrosecond).tmod 1000000 := by
  have hcast : (splitNs p ns).tvUsec = (p.long (ns.tmod kSecond)).tdiv (p.long kMicrosecond) := rfl
  have hunit : IsInt32 kMicrosecond := by decide
  -- a remainder by a second fits 32 bits
  have hlt : ns.tmod kSecond < kSecond := Int.tmod_lt_of_pos ns kSecond_pos
  have hgt : (-ns).tmod kSecond < kSecond := Int.tmod_lt_of_pos (-ns) kSecond_pos
  have hsec : kSecond < 2 ^ 31 := by decide
  rw [Int.neg_tmod] at hgt
  have hrest : IsInt32 (ns.tmod kSecond) := ⟨by omega, by omega⟩
  rw [hcast, Platform.long_eq_self (Platform.isLong_of_isInt32 hrest),
    Platform.long_eq_self (Platform.isLong_of_isInt32 hunit), kSecond_eq,
    tmod_mul_tdiv kMicrosecond_pos.le]

/-- **Taking apart** keeps the count, cut to whole microseconds. -/
lemma micros_splitNs (h : p.IsLong (ns.tdiv kSecond)) :
    (splitNs p ns).micros = ns.tdiv kMicrosecond := by
  rw [kSecond_eq, ← tdiv_tdiv kMicrosecond_pos.le] at h
  rw [Timeval.micros, splitNs_tvSec, splitNs_tvUsec, Platform.long_eq_self h,
    Int.tdiv_mul_add_tmod]

/-- Which counts are taken apart into a normalised `timeval`: those that are not negative, and
those less than a microsecond below a whole second. -/
lemma splitNs_normalised_iff (p : Platform) (ns : ℤ) :
    (splitNs p ns).Normalised ↔ 0 ≤ ns ∨ -ns % kSecond < kMicrosecond := by
  have hlt : (ns.tdiv kMicrosecond).tmod 1000000 < 1000000 :=
    Int.tmod_lt_of_pos _ (by norm_num)
  rw [Timeval.Normalised, splitNs_tvUsec, and_iff_left hlt, tmod_nonneg_iff]
  rcases le_total 0 ns with hns | hns
  · exact iff_of_true (Or.inl (Int.tdiv_nonneg hns kMicrosecond_pos.le)) (Or.inl hns)
  · rw [tdiv_of_nonpos hns]
    simp only [kSecond, kMilliseoncd, kMicrosecond]
    omega

end Conversions

/-! ### Microsecond counts -/

/-- **When a microsecond count survives.** As long as its seconds fit 32 bits, the `timeval` of a
count is normalised, stands for that count and gives its timestamp if and only if the count fits
the `long` of the platform: always on Linux, below `2 ^ 31` on Windows. -/
theorem timevalconv_iff (p : Platform) (timeUs : UInt64) (h : timeUs.toNat / 1000000 < 2 ^ 31) :
    ((timevalconv p timeUs).Normalised ∧ (timevalconv p timeUs).micros = timeUs.toNat ∧
      (Timestamp.ofTimeval (timevalconv p timeUs)).unixnano = timeUs.toNat * 1000) ↔
      (p = .windows → timeUs.toNat < 2 ^ 31) := by
  constructor
  · rintro ⟨-, hmicros, -⟩ rfl
    have hlong : Platform.windows.IsLong (Platform.windows.long timeUs.toNat) :=
      Platform.isLong_long _ _
    rw [← timevalconv_micros, hmicros] at hlong
    have hlt : (timeUs.toNat : ℤ) < 2 ^ 31 := hlong.2
    omega
  · intro hfits
    have hlong : p.long timeUs.toNat = timeUs.toNat := by
      cases p with
      | windows =>
          have hlt := hfits rfl
          exact int32_eq_self ⟨by omega, by omega⟩
      | linux => exact int64_eq_self ⟨by omega, by omega⟩
    have hmicros : (timevalconv p timeUs).micros = timeUs.toNat :=
      (timevalconv_micros p timeUs).trans hlong
    refine ⟨timevalconv_normalised (by omega), hmicros, ?_⟩
    have hnanos : IsInt64 (timeUs.toNat * 1000) := ⟨by omega, by omega⟩
    calc (Timestamp.ofTimeval (timevalconv p timeUs)).unixnano
        = int64 ((timevalconv p timeUs).micros * kMicrosecond) := joinNs_eq _
      _ = int64 (timeUs.toNat * 1000) := by rw [hmicros, kMicrosecond]
      _ = timeUs.toNat * 1000 := int64_eq_self hnanos

/-- Half an hour and a bit, which also fits the `long` of Windows. -/
theorem timevalconv_half_hour :
    (timevalconv .windows 1800000007).Normalised ∧
      (timevalconv .windows 1800000007).micros = UInt64.toNat 1800000007 ∧
      (Timestamp.ofTimeval (timevalconv .windows 1800000007)).unixnano
        = UInt64.toNat 1800000007 * 1000 :=
  (timevalconv_iff .windows 1800000007 (by decide)).mpr fun _ => by decide

/-- **Thirty-six minutes after the epoch** the Windows build is back before it. -/
theorem timevalconv_wraps :
    (timevalconv .windows 2147483648).tvSec = -2147 ∧
      (timevalconv .windows 2147483648).tvUsec = -483648 ∧
      ¬(timevalconv .windows 2147483648).Normalised ∧
      (timevalconv .windows 2147483648).micros ≠ UInt64.toNat 2147483648 ∧
      (Timestamp.ofTimeval (timevalconv .windows 2147483648)).unixnano
        ≠ UInt64.toNat 2147483648 * 1000 := by
  decide

/-! ### There and back -/

section Roundtrip

variable {t : Timeval .linux}

lemma joinNs_eq_self {p : Platform} {t : Timeval p} (h : IsInt64 (t.micros * kMicrosecond)) :
    joinNs t = t.micros * kMicrosecond :=
  (joinNs_eq t).trans (int64_eq_self h)

/-- A normalised `timeval` comes back if and only if what comes back is normalised. -/
lemma splitNs_joinNs_iff (hn : t.Normalised) (h : IsInt64 (t.micros * kMicrosecond)) :
    splitNs .linux (joinNs t) = t ↔ 0 ≤ t.tvSec ∨ t.tvUsec = 0 := by
  rw [joinNs_eq_self h]
  have hmicros : (splitNs .linux (t.micros * kMicrosecond)).micros = t.micros := by
    rw [micros_splitNs (p := .linux) (tdiv_bounds h kSecond_pos.le),
      Int.mul_tdiv_cancel _ kMicrosecond_pos.ne']
  have hback : splitNs .linux (t.micros * kMicrosecond) = t ↔
      (splitNs .linux (t.micros * kMicrosecond)).Normalised := by
    refine ⟨fun heq => ?_, fun hsplit => Timeval.eq_of_micros_eq hsplit hn hmicros⟩
    rwa [heq]
  rw [hback, splitNs_normalised_iff]
  simp only [Timeval.Normalised] at hn
  simp only [Timeval.micros, kSecond, kMilliseoncd, kMicrosecond]
  omega

/-- **When a `timeval` comes back.** With a `long` of 64 bits, both classes return a normalised
`timeval` as it was if and only if it is not negative or a whole number of seconds, and give a
normalised one for exactly the counts that are not negative or less than a microsecond below a
whole second. -/
theorem timeval_roundtrip_iff (t : Timeval .linux) (h0 : 0 ≤ t.tvUsec) (h1 : t.tvUsec < 1000000)
    (hsum : IsInt64 (t.tvSec * kSecond + t.tvUsec * kMicrosecond)) (d : Duration) :
    (((Duration.ofTimeval t).getTimeVal .linux = t ∧
        (Timestamp.ofTimeval t).getTimeval .linux = t) ↔ 0 ≤ t.tvSec ∨ t.tvUsec = 0) ∧
      ((0 ≤ (d.getTimeVal .linux).tvUsec ∧ (d.getTimeVal .linux).tvUsec < 1000000) ↔
        0 ≤ d.mNs ∨ -d.mNs % kSecond < kMicrosecond) := by
  refine ⟨?_, splitNs_normalised_iff .linux d.mNs⟩
  rw [nanos_eq] at hsum
  -- the two classes do the same
  exact (and_self_iff).trans (splitNs_joinNs_iff ⟨h0, h1⟩ hsum)

/-- Three whole seconds before the epoch come back, and a second and a half is normalised. -/
theorem timeval_roundtrip_whole :
    ((Duration.ofTimeval (⟨-3, 0, by decide, by decide⟩ : Timeval .linux)).getTimeVal .linux
        = ⟨-3, 0, by decide, by decide⟩ ∧
      (Timestamp.ofTimeval (⟨-3, 0, by decide, by decide⟩ : Timeval .linux)).getTimeval .linux
        = ⟨-3, 0, by decide, by decide⟩) ∧
      ((Duration.ofNs 1500000000).getTimeVal .linux).Normalised := by
  have hiff := timeval_roundtrip_iff ⟨-3, 0, by decide, by decide⟩ (by decide) (by decide)
    (by decide) (Duration.ofNs 1500000000)
  exact ⟨hiff.1.mpr (Or.inr rfl), hiff.2.mpr (Or.inl (by decide))⟩

/-- **Half a second before the epoch** neither class gives back, and the difference of two
timestamps is not normalised. -/
theorem timeval_roundtrip_negative :
    (Duration.ofTimeval (⟨-1, 500000, by decide, by decide⟩ : Timeval .linux)).getTimeVal .linux
        ≠ ⟨-1, 500000, by decide, by decide⟩ ∧
      (Timestamp.ofTimeval (⟨-1, 500000, by decide, by decide⟩ : Timeval .linux)).getTimeval .linux
        ≠ ⟨-1, 500000, by decide, by decide⟩ ∧
      ¬((Timestamp.ofNs 0 - Timestamp.ofNs 500000000 : Duration).getTimeVal .linux).Normalised := by
  decide

end Roundtrip

/-! ### Units and operators -/

section Operators

variable {d d' : Duration} {t s : Timestamp}

/-- An accessor is the division of every accessor of a smaller unit. -/
lemma Duration.inUnits_tdiv {unit k : ℤ} (hunit : 0 ≤ unit) :
    (d.inUnits unit).tdiv k = d.inUnits (unit * k) :=
  tdiv_tdiv hunit

lemma Duration.minutes_eq (d : Duration) :
    d.minutes = d.seconds.tdiv 60 ∧ d.hours = d.minutes.tdiv 60 := by
  rw [minutes, hours, seconds, inUnits_tdiv kSecond_pos.le, inUnits_tdiv kMinute_pos.le, kHour,
    kMinute, mul_comm kSecond, mul_comm (60 * kSecond)]
  exact ⟨rfl, rfl⟩

/-- The two parts of a duration are its accessors for whole seconds and microseconds. -/
lemma Duration.getTimeVal_eq (d : Duration) :
    (d.getTimeVal .linux).tvSec = d.seconds ∧ (d.getTimeVal .linux).micros = d.microseconds := by
  have hfits : IsInt64 (d.mNs.tdiv kSecond) := tdiv_bounds d.isInt64 kSecond_pos.le
  exact ⟨int64_eq_self hfits, micros_splitNs (p := .linux) hfits⟩

lemma Timestamp.mNs_add : (t + d).mNs = int64 (t.mNs + d.mNs) := rfl

lemma Timestamp.mNs_sub : (t - d).mNs = int64 (t.mNs - d.mNs) := rfl

lemma Timestamp.mNs_sub_timestamp : (t - s : Duration).mNs = int64 (t.mNs - s.mNs) := rfl

lemma Duration.mNs_addAssign : (d.addAssign d').mNs = int64 (d.mNs + d'.mNs) := rfl

lemma Duration.mNs_subAssign : (d.subAssign d').mNs = int64 (d.mNs - d'.mNs) := rfl

/-- What was added is the difference, also where the sum wraps around. -/
lemma Timestamp.add_sub_self : (t + d) - t = d := by
  ext
  rw [mNs_sub_timestamp, mNs_add, int64_int64_sub, add_sub_cancel_left, int64_eq_self d.isInt64]

/-- Adding the difference of two timestamps to one gives the other. -/
lemma Timestamp.add_sub_timestamp : t + (s - t : Duration) = s := by
  ext
  rw [mNs_add, mNs_sub_timestamp, int64_add_int64, add_sub_cancel, int64_eq_self s.isInt64]

/-- The accessors of a timestamp are those of the duration since the epoch. -/
lemma Timestamp.accessors_eq (t : Timestamp) :
    t.unix = (t - ofNs 0 : Duration).seconds ∧ t.unixmills = (t - ofNs 0 : Duration).millseconds ∧
      t.unixnano = (t - ofNs 0 : Duration).nanoseconds := by
  have hsince : (t - ofNs 0 : Duration).mNs = t.mNs := by
    rw [mNs_sub_timestamp, ofNs, int64_sub_int64, sub_zero, int64_eq_self t.isInt64]
  rw [Duration.seconds, Duration.millseconds, Duration.nanoseconds, Duration.inUnits,
    Duration.inUnits, hsince]
  exact ⟨rfl, rfl, rfl⟩

/-- Taking away what was added. -/
lemma Timestamp.add_sub_duration : (t + d) - d = t := by
  ext
  rw [mNs_sub, mNs_add, int64_int64_sub, add_sub_cancel_right, int64_eq_self t.isInt64]

/-- Adding after taking away is taking away the difference. -/
lemma Timestamp.sub_subAssign : (t - d) + d' = t - d.subAssign d' := by
  ext
  rw [mNs_add, mNs_sub, mNs_sub, Duration.mNs_subAssign, int64_int64_add, int64_sub_int64,
    sub_add]

/-- Adding one duration after another is adding their sum. -/
lemma Timestamp.add_addAssign : (t + d) + d' = t + d.addAssign d' := by
  ext
  rw [mNs_add, mNs_add, mNs_add, Duration.mNs_addAssign, int64_int64_add, int64_add_int64,
    add_assoc]

end Operators

/-! ### The clock -/

section Clock

variable {p : Platform}

/-- The count of a clock reading, as the unsigned one that it is converted to. -/
lemma utcmicrosecond_eq (tv : Timeval p) : utcmicrosecond tv = UInt64.ofInt tv.micros := by
  rw [utcmicrosecond, Timeval.micros, UInt64.ofInt_add, UInt64.ofInt_mul]
  rfl

/-- **A clock reading comes back** through its count, on Linux. -/
lemma timevalconv_utcmicrosecond {tv : Timeval .linux} (hn : tv.Normalised) (h0 : 0 ≤ tv.tvSec)
    (h : IsInt64 tv.micros) : timevalconv .linux (utcmicrosecond tv) = tv := by
  have hpos : 0 ≤ tv.micros := by
    simp only [Timeval.Normalised] at hn
    simp only [Timeval.micros]
    omega
  have hcount : Platform.linux.long (utcmicrosecond tv).toNat = tv.micros := by
    rw [utcmicrosecond_eq, toNat_ofInt, uint64_eq_self hpos (h.2.trans (by norm_num))]
    exact int64_eq_self h
  refine Timeval.eq_of_micros_eq (timevalconv_normalised (by rwa [hcount])) hn ?_
  rw [timevalconv_micros, hcount]

lemma gettimeofday_eq (fileTime : UInt64) :
    (gettimeofday fileTime).tvSec
        = int32 ((fileTime - 116444736000000000).toNat / 10000000 : ℕ) ∧
      (gettimeofday fileTime).tvUsec
        = int32 ((fileTime - 116444736000000000).toNat % 10000000 / 10 : ℕ) := by
  simp [gettimeofday, Platform.long]

/-- **The clock of the Windows build**, where the cast comes after the division, is right as long
as its seconds fit 32 bits. -/
lemma utcmicrosecond_gettimeofday {fileTime : UInt64}
    (h : (fileTime - 116444736000000000).toNat / 10000000 < 2 ^ 31) :
    utcmicrosecond (gettimeofday fileTime) = (fileTime - 116444736000000000) / 10 := by
  obtain ⟨hsec, husec⟩ := gettimeofday_eq fileTime
  generalize fileTime - 116444736000000000 = intervals at h hsec husec ⊢
  rw [int32_eq_self ⟨by omega, by omega⟩] at hsec husec
  rw [utcmicrosecond_eq, Timeval.micros, hsec, husec, ← UInt64.toNat_inj, ← Int.natCast_inj,
    toNat_ofInt, UInt64.toNat_div, show UInt64.toNat 10 = 10 from rfl]
  have hcount : intervals.toNat < 2 ^ 64 := intervals.toNat_lt
  rw [uint64_eq_self (by omega) (by omega)]
  omega

/-- `now` and the constructor from a `timeval` agree, also where both wrap around. -/
lemma Timestamp.now_eq_ofTimeval (tv : Timeval p) : Timestamp.now tv = Timestamp.ofTimeval tv := by
  have hcount : utcmicrosecond tv * 1000 = UInt64.ofInt (tv.micros * kMicrosecond) := by
    rw [utcmicrosecond_eq, UInt64.ofInt_mul]
    rfl
  ext
  calc (Timestamp.now tv).mNs
      = int64 (UInt64.ofInt (tv.micros * kMicrosecond)).toNat := by rw [now, hcount]; rfl
    _ = int64 (tv.micros * kMicrosecond) := by
        rw [int64_eq_int64_iff, toNat_ofInt, uint64, Int.emod_emod]
    _ = (Timestamp.ofTimeval tv).mNs := (joinNs_eq tv).symm

end Clock

end Xsix

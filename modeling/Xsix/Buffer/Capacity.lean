import Xsix.Buffer.Safety

/-!
Capacities: where the growth loop stops, and which capacities lead it to the limit.

The loop of `refix_new_size` doubles below one kilobyte and adds a kilobyte from there on. From
a positive capacity it makes progress at each test and stops (`exists_refixLoop`); from
zero it doubles zero for ever (`refixLoop_zero`), and zero is where the constructor from a
size starts it, and a buffer built from the empty string. It meets the limit of one
megabyte, and does not jump over it, exactly from the capacities that are `Rounded`: the powers
of two up to a kilobyte and its multiples (`rounded_refixStep_iff`).

* `Loose`: what holds of a buffer in every run, calls that overrun included; within the
  limit it bounds `length()` (`Ranged.length_bounds`).
* `capacity_terminates_iff`: when the constructors and `append` return.
* `accepts_upto_max_iff`: when `append` takes up to a megabyte and no more.
-/

namespace Xsix

open CInt Memory
open List (forall_mem_append forall_mem_singleton)

namespace Buffer

variable {b : Buffer} {c : Call} {m n t r : ℤ} {d₀ : Done Unit}

/-! ### The growth loop -/

lemma bufferSizeMax_eq : bufferSizeMax = 1048576 := rfl

/-- Doubling zero makes no progress. -/
lemma refixLoop_zero (h : 0 < n) : ∀ fuel, refixLoop fuel 0 n = none := by
  intro fuel
  induction fuel with
  | zero => rfl
  | succ fuel ih => rw [refixLoop, if_pos h, show refixStep 0 = 0 from rfl, ih]

/-- One test of the loop raises a capacity below the limit. -/
lemma lt_refixStep (h0 : 0 < t) (h1 : t < bufferSizeMax) : t < refixStep t := by
  simp only [bufferSizeMax, bufferSizeRaw] at h1
  simp only [refixStep, int32, bufferSizeMax, bufferSizeRaw]
  split_ifs <;> omega

/-- **The loop stops** from a positive capacity, for a target within the limit. -/
lemma exists_refixLoop {fuel : ℕ} (h0 : 0 < t) (hn : n ≤ bufferSizeMax)
    (hfuel : (n - t).toNat < fuel) : ∃ r, refixLoop fuel t n = some r := by
  induction fuel generalizing t with
  | zero => omega
  | succ fuel ih =>
      by_cases hlt : t < n
      · have hup := lt_refixStep h0 (hlt.trans_le hn)
        obtain ⟨r, hr⟩ := ih (t := refixStep t) (by omega) (by omega)
        exact ⟨r, by rw [refixLoop, if_pos hlt, hr]⟩
      · exact ⟨t, by rw [refixLoop, if_neg hlt]⟩

lemma exists_refixNewSize (h0 : 0 < t) (hn : n ≤ bufferSizeMax) :
    ∃ r, refixNewSize t n = some r ∧ n ≤ r := by
  have hsome : ∃ r, refixNewSize t n = some r := by
    simp only [refixNewSize]
    split
    · exact ⟨_, rfl⟩
    · exact exists_refixLoop h0 hn (by omega)
  obtain ⟨r, hr⟩ := hsome
  exact ⟨r, hr, le_of_refixNewSize hr⟩

/-- From capacity zero the loop stops only where it is not entered. -/
lemma refixNewSize_zero (h : 0 < n) :
    refixNewSize 0 n = if n ≤ bufferSizeSmall then some bufferSizeSmall else none := by
  rw [refixNewSize, refixLoop_zero h]

/-- The capacities from which the steps of the loop meet the limit: the powers of two
up to one kilobyte and its multiples up to the limit. -/
def Rounded (t : ℤ) : Prop :=
  (∃ k : ℕ, k ≤ 10 ∧ t = 2 ^ k) ∨ (bufferSizeRaw ∣ t ∧ t ≤ bufferSizeMax)

lemma Rounded.le_max (h : Rounded t) : t ≤ bufferSizeMax := by
  rcases h with ⟨k, hk, rfl⟩ | ⟨-, hle⟩
  · have hpow : (2 : ℤ) ^ k ≤ 2 ^ 10 := pow_le_pow_right₀ (by omega) hk
    rw [bufferSizeMax_eq]
    omega
  · exact hle

/-- **A step meets the limit later exactly when it would have met it before.** -/
lemma rounded_refixStep_iff (h0 : 0 < t) (h1 : t < bufferSizeMax) :
    Rounded (refixStep t) ↔ Rounded t := by
  have hmax := bufferSizeMax_eq
  by_cases hsmall : t < bufferSizeRaw
  · -- doubling: the exponent grows by one, and the last doubling is the one of 512
    have hstep : refixStep t = t * 2 := by
      rw [refixStep, if_pos hsmall]
      simp only [bufferSizeRaw] at hsmall
      exact int32_eq_self ⟨by omega, by omega⟩
    rw [hstep]
    simp only [Rounded, bufferSizeRaw] at *
    constructor
    · rintro (⟨k, hk, hpow⟩ | ⟨hdvd, -⟩)
      · cases k with
        | zero => omega
        | succ k =>
            rw [pow_succ] at hpow
            exact Or.inl ⟨k, by omega, by omega⟩
      · exact Or.inl ⟨9, by omega, by omega⟩
    · rintro (⟨k, hk, rfl⟩ | ⟨hdvd, -⟩)
      · have hlt : k < 10 := by
          by_contra hge
          obtain rfl : k = 10 := by omega
          omega
        exact Or.inl ⟨k + 1, by omega, by rw [pow_succ]⟩
      · omega
  · -- a kilobyte more: a multiple stays one
    have hstep : refixStep t = t + bufferSizeRaw := by
      rw [refixStep, if_neg hsmall, if_pos h1]
      simp only [bufferSizeRaw] at *
      exact int32_eq_self ⟨by omega, by omega⟩
    rw [hstep]
    simp only [Rounded, bufferSizeRaw] at *
    have hpow : ∀ k : ℕ, k ≤ 10 → (2 : ℤ) ^ k ≤ 2 ^ 10 := fun k hk =>
      pow_le_pow_right₀ (by omega) hk
    constructor
    · rintro (⟨k, hk, heq⟩ | ⟨hdvd, -⟩)
      · have := hpow k hk
        omega
      · exact Or.inr ⟨by omega, by omega⟩
    · rintro (⟨k, hk, rfl⟩ | ⟨hdvd, -⟩)
      · have hle := hpow k hk
        have heq : (2 : ℤ) ^ k = 1024 := by omega
        rw [heq]
        exact Or.inr ⟨by omega, by omega⟩
      · exact Or.inr ⟨by omega, by omega⟩

/-- So does the whole loop, for a target within the limit. -/
lemma rounded_refixLoop_iff {fuel : ℕ} (h0 : 0 < t) (hn : n ≤ bufferSizeMax)
    (hr : refixLoop fuel t n = some r) : Rounded r ↔ Rounded t := by
  induction fuel generalizing t with
  | zero => simp [refixLoop] at hr
  | succ fuel ih =>
      by_cases hlt : t < n
      · rw [refixLoop, if_pos hlt] at hr
        have hup := lt_refixStep h0 (hlt.trans_le hn)
        calc Rounded r ↔ Rounded (refixStep t) := ih (by omega) hr
          _ ↔ Rounded t := rounded_refixStep_iff h0 (hlt.trans_le hn)
      · rw [refixLoop, if_neg hlt] at hr
        obtain rfl := Option.some.inj hr
        exact Iff.rfl

lemma rounded_small : Rounded bufferSizeSmall := Or.inl ⟨6, by omega, rfl⟩

lemma rounded_max : Rounded bufferSizeMax := Or.inr ⟨⟨1024, rfl⟩, le_rfl⟩

/-- What `refix_new_size` returns is rounded when it started from a rounded capacity, or
from none. -/
lemma rounded_refixNewSize (hpos : 0 < t → Rounded t) (h0 : 0 ≤ t) (hlt : t < n)
    (hn : n ≤ bufferSizeMax) (hr : refixNewSize t n = some r) : Rounded r := by
  rcases h0.eq_or_lt with rfl | h0
  · rw [refixNewSize_zero hlt] at hr
    split at hr
    · obtain rfl := Option.some.inj hr
      exact rounded_small
    · simp at hr
  · unfold refixNewSize at hr
    split at hr
    · obtain rfl := Option.some.inj hr
      exact rounded_small
    · exact (rounded_refixLoop_iff h0 hn hr).mpr (hpos h0)

/-- Asked for the limit, `refix_new_size` stays within it exactly from a rounded
capacity. -/
lemma refixNewSize_max_le_iff (h0 : 0 < t) (hr : refixNewSize t bufferSizeMax = some r) :
    r ≤ bufferSizeMax ↔ Rounded t := by
  rw [refixNewSize, if_neg (by decide)] at hr
  have hiff := rounded_refixLoop_iff h0 le_rfl hr
  constructor
  · intro hle
    obtain rfl : r = bufferSizeMax := le_antisymm hle (le_of_refixLoop hr)
    exact hiff.mp rounded_max
  · intro h
    exact (hiff.mpr h).le_max

/-! ### What every run keeps -/

/-- A buffer with memory within the limit and its positions a turn away at most: the head
may be negative, where a negative size was taken off. -/
structure Ranged (b : Buffer) : Prop where
  size_pos : 0 < b.mSize
  size_le : b.mSize ≤ bufferSizeMax
  head_gt : -b.mSize < b.mHead
  head_lt : b.mHead < b.mSize
  tail_nonneg : 0 ≤ b.mTail
  tail_lt : b.mTail < b.mSize

/-- What holds of a buffer in every run: it has no memory, more than it can grow to, or its
positions are a turn away at most. -/
def Loose (b : Buffer) : Prop := b = cleanup ∨ bufferSizeMax < b.mSize ∨ Ranged b

/-- `append` in place moves the tail only. -/
lemma appendInPlace_members (b : Buffer) (s : Bytes) (n : ℤ) :
    (b.appendInPlace s n).self.mSize = b.mSize ∧ (b.appendInPlace s n).self.mHead = b.mHead ∧
      (b.appendInPlace s n).self.mTail = (int32 (b.mTail + n)).tmod b.mSize := by
  simp only [appendInPlace, checkFullAfterAppend, appendCopy, store]
  split_ifs <;> exact ⟨rfl, rfl, rfl⟩

lemma realloc_mSize (b : Buffer) (fresh : Bytes) (hm : 0 < m) :
    (b.realloc fresh m).1.mSize = m := by
  rw [realloc, if_neg (not_le.mpr hm)]

namespace Ranged

lemma length_bounds (h : Ranged b) : 0 ≤ b.length ∧ b.length < 2 * b.mSize := by
  obtain ⟨hs0, hs1, hh0, hh1, ht0, ht1⟩ := h
  rw [bufferSizeMax_eq] at hs1
  simp only [length, int32]
  split_ifs <;> omega

lemma getFreeSize_eq (h : Ranged b) : b.getFreeSize = b.mSize - b.length := by
  obtain ⟨hl0, hl1⟩ := h.length_bounds
  have hs1 := h.size_le
  rw [bufferSizeMax_eq] at hs1
  exact int32_eq_self ⟨by omega, by omega⟩

lemma rebasedTail_bounds (h : Ranged b) : 0 ≤ b.rebasedTail ∧ b.rebasedTail ≤ b.mSize := by
  have hs0 := h.size_pos
  have ht0 := h.tail_nonneg
  have ht1 := h.tail_lt
  simp only [rebasedTail]
  split <;> omega

lemma appendInPlace (h : Ranged b) (s : Bytes) (h0 : 0 < n) (h1 : n ≤ b.mSize) :
    Ranged (b.appendInPlace s n).self := by
  obtain ⟨hs0, hs1, hh0, hh1, ht0, ht1⟩ := h
  obtain ⟨hms, hmh, hmt⟩ := appendInPlace_members b s n
  rw [bufferSizeMax_eq] at hs1
  rw [int32_eq_self ⟨by omega, by omega⟩] at hmt
  exact {
    size_pos := by rw [hms]; exact hs0
    size_le := by rw [hms]; exact hs1
    head_gt := by rw [hms, hmh]; exact hh0
    head_lt := by rw [hms, hmh]; exact hh1
    tail_nonneg := by rw [hmt]; exact Int.tmod_nonneg _ (by omega)
    tail_lt := by rw [hms, hmt]; exact Int.tmod_lt_of_pos _ hs0 }

lemma advanceHead (h : Ranged b) (n : ℤ) : Ranged (b.advanceHead n) :=
  { h with
    head_gt := Int.lt_tmod_of_pos _ h.size_pos
    head_lt := Int.tmod_lt_of_pos _ h.size_pos }

lemma clear (h : Ranged b) : Ranged b.clear :=
  { h with
    head_gt := neg_lt_zero.mpr h.size_pos
    head_lt := h.size_pos
    tail_nonneg := le_rfl
    tail_lt := h.size_pos }

end Ranged

/-- Growing leaves the positions in range. -/
lemma ranged_realloc (fresh : Bytes) (hm : m ≤ bufferSizeMax) (ht : 0 ≤ b.mTail)
    (ht' : b.mTail < 2 ^ 31) (h0 : 0 ≤ b.rebasedTail) (h1 : b.rebasedTail < m) :
    Ranged (b.realloc fresh m).1 := by
  rw [realloc_fst fresh (h0.trans_lt h1) ht ht']
  exact ⟨h0.trans_lt h1, hm, by simp only; omega, h0.trans_lt h1, h0, h1⟩

/-- Growing a buffer of any run does. -/
lemma Loose.realloc (h : Loose b) (fresh : Bytes) (h0 : 0 < m) (hm : b.mSize < m)
    (hmax : m ≤ bufferSizeMax) : Ranged (b.realloc fresh m).1 := by
  rcases h with rfl | hbig | h
  · exact ranged_realloc fresh hmax le_rfl (by decide) le_rfl h0
  · omega
  · obtain ⟨hr0, hr1⟩ := h.rebasedTail_bounds
    have ht := h.tail_lt
    have hs := h.size_le
    rw [bufferSizeMax_eq] at hs
    exact ranged_realloc fresh hmax h.tail_nonneg (by omega) hr0 (by omega)

/-- A request that `resize` does not refuse is the sum of what is stored and what is
appended. -/
lemma Ranged.request_eq (h : Ranged b) (h0 : 0 < n) (hn : IsInt32 n)
    (hvalid : isValidSize (int32 (b.length + n)) = true) :
    int32 (b.length + n) = b.length + n := by
  obtain ⟨hl0, hl1⟩ := h.length_bounds
  obtain ⟨hpos, hmax⟩ := isValidSize_iff.mp hvalid
  have hs := h.size_le
  obtain ⟨-, hn1⟩ := hn
  rw [bufferSizeMax_eq] at hmax hs
  simp only [int32] at hpos hmax ⊢
  omega

/-- `append` keeps what every run keeps. -/
lemma Loose.append (h : Loose b) {fresh : Bytes} {src : Option Bytes} {d : Done ℤ}
    (hn : IsInt32 n) (hd : b.append fresh src n = some d) : Loose d.self := by
  rcases append_cases hd with rfl | ⟨s, -, h0, ⟨hfit, rfl⟩ | ⟨hfree, g, hg, hcases⟩⟩
  · exact h
  · rcases h with rfl | hbig | h
    · exact absurd h0 (not_lt.mpr hfit)
    · exact Or.inr (Or.inl (by rwa [(appendInPlace_members b s n).1]))
    · obtain ⟨hl0, -⟩ := h.length_bounds
      rw [h.getFreeSize_eq] at hfit
      exact Or.inr (Or.inr (h.appendInPlace s h0 (by omega)))
  · rcases resize_outcomes hg with rfl | ⟨hvalid, ⟨hle, rfl⟩ | ⟨m, hlt, hnew, hm, rfl⟩⟩
    · rcases hcases with ⟨-, rfl⟩ | ⟨hret, -⟩
      · exact h
      · simp at hret
    · -- `resize` finds the capacity sufficient only where it is past the limit
      rcases hcases with ⟨-, rfl⟩ | ⟨-, rfl⟩
      · exact h
      · rcases h with rfl | hbig | h
        · have hpos := (isValidSize_iff.mp hvalid).1
          exact absurd (hpos.trans_le hle) (by decide)
        · exact Or.inr (Or.inl (by rwa [(appendInPlace_members b s n).1]))
        · rw [h.request_eq h0 hn hvalid] at hle
          rw [h.getFreeSize_eq] at hfree
          omega
    · rcases hcases with ⟨hret, -⟩ | ⟨-, rfl⟩
      · simp at hret
      · obtain ⟨hm0, hmax⟩ := isValidSize_iff.mp hm
        have hle := le_of_refixNewSize hnew
        have hgrown := h.realloc fresh hm0 (hlt.trans_le hle) hmax
        have hfits : n ≤ m := by
          rcases h with rfl | hbig | h
          · rw [show cleanup.length = 0 from rfl, zero_add, int32_eq_self hn] at hle
            exact hle
          · omega
          · rw [h.request_eq h0 hn hvalid] at hle
            obtain ⟨hl0, -⟩ := h.length_bounds
            omega
        exact Or.inr (Or.inr (hgrown.appendInPlace s h0 (by rwa [realloc_mSize b fresh hm0])))

/-- What a call can do to a buffer: append to it, leave it, move the head of one that is not
empty, or clear it. -/
lemma call_self {d : Done Answer} (hd : b.call c = some d) :
    (∃ (fresh : Bytes) (src : Option Bytes) (n : Int32) (a : Done ℤ),
      b.append fresh src n.toInt = some a ∧ d.self = a.self) ∨
    d.self = b ∨ (∃ k, b.empty = false ∧ d.self = b.advanceHead k) ∨ d.self = b.clear := by
  cases c with
  | append fresh src n =>
      obtain ⟨a, ha, rfl⟩ := Option.map_eq_some_iff.mp hd
      exact Or.inl ⟨fresh, src, n, a, ha, rfl⟩
  | writeTo dst n =>
      obtain rfl := Option.some.inj hd
      rcases deliver_cases b dst n.toInt with ⟨-, hw, -⟩ | ⟨m, k, -, -, hempty, -, hw, -⟩
      · exact Or.inr (Or.inl (by simp only [hw]))
      · exact Or.inr (Or.inr (Or.inl ⟨k, hempty, by simp only [hw]⟩))
  | peek dst n =>
      obtain rfl := Option.some.inj hd
      rcases deliver_cases b dst n.toInt with ⟨-, -, hp⟩ | ⟨m, k, -, -, -, -, -, hp⟩
      · exact Or.inr (Or.inl (by simp only [hp]))
      · exact Or.inr (Or.inl (by simp only [hp]))
  | skip n =>
      obtain rfl := Option.some.inj hd
      simp only [skip]
      split_ifs with hn hlt
      · exact Or.inr (Or.inl rfl)
      · exact Or.inr (Or.inl rfl)
      · refine Or.inr (Or.inr (Or.inl ⟨n.toInt, ?_, rfl⟩))
        by_contra hempty
        rw [Bool.not_eq_false] at hempty
        rw [length, if_pos hempty] at hlt
        omega
  | clear =>
      obtain rfl := Option.some.inj hd
      exact Or.inr (Or.inr (Or.inr rfl))
  | retrieveAllAsString =>
      obtain rfl := Option.some.inj hd
      refine Or.inr (Or.inl ?_)
      simp only [retrieveAllAsString]
      split <;> rfl

/-- **Every call keeps it**, overruns included. -/
lemma Loose.call {d : Done Answer} (h : Loose b) (hd : b.call c = some d) : Loose d.self := by
  rcases call_self hd with ⟨fresh, src, n, a, ha, hself⟩ | hself | ⟨k, hempty, hself⟩ | hself
  · rw [hself]
    exact h.append (isInt32_toInt n) ha
  · rwa [hself]
  · rw [hself]
    rcases h with rfl | hbig | h
    · exact absurd hempty (by decide)
    · exact Or.inr (Or.inl hbig)
    · exact Or.inr (Or.inr (h.advanceHead k))
  · rw [hself]
    rcases h with rfl | hbig | h
    · exact Or.inl rfl
    · exact Or.inr (Or.inl hbig)
    · exact Or.inr (Or.inr h.clear)

/-- A constructor that returns leaves such a buffer. -/
lemma construct_loose {k : Construction} (hbuilt : construct k = some d₀) : Loose d₀.self := by
  cases k with
  | ofSize fresh n =>
      obtain ⟨g, hg, rfl⟩ := Option.map_eq_some_iff.mp hbuilt
      rcases resize_outcomes hg with rfl | ⟨-, ⟨-, rfl⟩ | ⟨m, hlt, hnew, hm, rfl⟩⟩
      · exact Or.inl rfl
      · exact Or.inl rfl
      · obtain ⟨hm0, hmax⟩ := isValidSize_iff.mp hm
        exact Or.inr (Or.inr (Loose.realloc (Or.inl rfl) fresh hm0 hm0 hmax))
  | ofString fresh s =>
      obtain rfl := Option.some.inj hbuilt
      rcases ofString_cases fresh s with ⟨h0, h1, heq⟩ | ⟨-, heq⟩
      · rw [heq]
        have hpos := h0.trans_le h1
        by_cases hbig : bufferSizeMax < int32 (s.length + s.length / 2)
        · exact Or.inr (Or.inl hbig)
        · exact Or.inr (Or.inr ⟨hpos, not_lt.mp hbig, neg_lt_zero.mpr hpos, hpos,
            Int.emod_nonneg _ hpos.ne', Int.emod_lt_of_pos _ hpos⟩)
      · rw [heq]
        exact Or.inl rfl

/-- **Every buffer of every run** is loose. -/
lemma run_loose {k : Construction} (hbuilt : construct k = some d₀) {cs : List Call}
    {os : List Event} (hrun : machine.Run d₀.self cs os b) : Loose b :=
  hrun.preserves (construct_loose hbuilt) fun t c u o ht hn => by
    obtain ⟨d, hd, rfl, -⟩ := machine_next hn
    exact ht.call hd

/-! ### When the constructors and `append` return -/

/-- `append(src, n)` makes `resize` ask `refix_new_size` for a capacity of `m`. -/
def Requests (b : Buffer) (src : Option Bytes) (n m : ℤ) : Prop :=
  src.isSome ∧ 0 < n ∧ b.getFreeSize < n ∧ m = int32 (b.length + n) ∧
    isValidSize m = true ∧ b.size < m

/-- `resize` of a buffer with memory returns. -/
lemma exists_resize (h0 : 0 < b.mSize) (fresh : Bytes) (n : ℤ) :
    ∃ g, b.resize fresh n = some g := by
  simp only [resize]
  cases hvalid : isValidSize n with
  | false => exact ⟨_, rfl⟩
  | true =>
      obtain ⟨r, hr, -⟩ := exists_refixNewSize h0 (isValidSize_iff.mp hvalid).2
      simp only [hr, Bool.not_true, Bool.false_eq_true, if_false]
      split_ifs <;> exact ⟨_, rfl⟩

/-- `append` to a buffer with memory returns. -/
lemma exists_append (h0 : 0 < b.mSize) (fresh : Bytes) (src : Option Bytes) (n : ℤ) :
    ∃ d, b.append fresh src n = some d := by
  cases src with
  | none => exact ⟨_, rfl⟩
  | some s =>
      obtain ⟨g, hg⟩ := exists_resize h0 fresh (int32 (b.length + n))
      simp only [append, hg]
      split_ifs <;> exact ⟨_, rfl⟩

/-- Without memory, `resize` never returns from a request past the smallest capacity. -/
lemma cleanup_resize (fresh : Bytes) (h0 : 0 < n) (hmax : n ≤ bufferSizeMax) :
    cleanup.resize fresh n = if n ≤ bufferSizeSmall then
      some ⟨true, (cleanup.realloc fresh bufferSizeSmall).1,
        (cleanup.realloc fresh bufferSizeSmall).2⟩ else none := by
  have hvalid : isValidSize n = true := isValidSize_iff.mpr ⟨h0, hmax⟩
  have hsize : ¬n ≤ cleanup.size := not_le.mpr h0
  simp only [resize, hvalid, Bool.not_true, Bool.false_eq_true, if_false, if_neg hsize,
    show cleanup.mSize = 0 from rfl, refixNewSize_zero h0]
  by_cases hsmall : n ≤ bufferSizeSmall
  · simp only [if_pos hsmall]
    rfl
  · simp only [if_neg hsmall]

/-- **The constructor from a size** returns with the capacity it owes exactly for sizes up
to the smallest capacity. -/
lemma ofSize_iff (fresh : Bytes) (n : ℤ) :
    (∃ d, ofSize fresh n = some d ∧ min (max n bufferSizeSmall) bufferSizeMax ≤ d.self.mSize) ↔
      n ≤ bufferSizeSmall := by
  by_cases hn : n ≤ bufferSizeSmall
  · have hsome : ofSize fresh n = (cleanup.resize fresh bufferSizeSmall).map
        fun d => ⟨(), d.self, d.touched⟩ := by
      simp only [ofSize, gt_iff_lt, if_neg (not_lt.mpr hn)]
      rfl
    rw [hsome, cleanup_resize fresh (by decide) (by decide), if_pos le_rfl]
    refine iff_of_true ⟨_, rfl, ?_⟩ hn
    rw [realloc_mSize cleanup fresh (by decide), max_eq_right hn]
    exact min_le_left _ _
  · refine iff_of_false ?_ hn
    rintro ⟨d, hd, -⟩
    -- the size asked for is past the smallest capacity, clipped or not
    have hnone : ofSize fresh n = none := by
      simp only [ofSize, gt_iff_lt, if_pos (not_le.mp hn)]
      have hclip : bufferSizeSmall < bufferSizeMax := by decide
      split
      · rw [cleanup_resize fresh (by decide) le_rfl, if_neg (by decide)]
        rfl
      · next hle =>
          have hpos : 0 < n := lt_trans (by decide) (not_le.mp hn)
          rw [cleanup_resize fresh hpos (not_lt.mp hle), if_neg hn]
          rfl
    rw [hnone] at hd
    exact absurd hd (by simp)

/-- `append` to a buffer without memory. -/
lemma cleanup_append_iff (fresh : Bytes) (src : Option Bytes) (hn : IsInt32 n) :
    (∃ d, cleanup.append fresh src n = some d) ↔
      ¬(src.isSome ∧ bufferSizeSmall < n ∧ n ≤ bufferSizeMax) := by
  cases src with
  | none => exact iff_of_true ⟨_, rfl⟩ (by simp)
  | some s =>
      have hreq : int32 (cleanup.length + n) = n := by
        rw [show cleanup.length = 0 from rfl, zero_add, int32_eq_self hn]
      by_cases h0 : n ≤ 0
      · refine iff_of_true ⟨_, if_pos h0⟩ fun h => ?_
        exact absurd (h.2.1.trans_le h0) (by decide)
      · have hfree : cleanup.getFreeSize < n := not_le.mp h0
        simp only [append, if_neg h0, if_pos hfree, hreq, Option.isSome_some, true_and]
        by_cases hmax : n ≤ bufferSizeMax
        · rw [cleanup_resize fresh (not_le.mp h0) hmax]
          by_cases hsmall : n ≤ bufferSizeSmall
          · rw [if_pos hsmall]
            exact iff_of_true ⟨_, rfl⟩ fun h => absurd h.1 (not_lt.mpr hsmall)
          · rw [if_neg hsmall]
            exact iff_of_false (by simp) (not_not_intro ⟨not_le.mp hsmall, hmax⟩)
        · have hinvalid : isValidSize n = false := by simp [isValidSize, hmax]
          have hrefused : cleanup.resize fresh n = some ⟨false, cleanup, []⟩ := by
            simp [resize, hinvalid]
          rw [hrefused]
          exact iff_of_true ⟨_, rfl⟩ fun h => hmax h.2

/-- **When capacities are computed at all.** The constructor from a size returns, with a
capacity of at least that size, as far as the limit allows, exactly for sizes up to 64; and
`append` to any buffer of any run returns, its growth loop stopping at no less than it
was asked for, unless that buffer has capacity zero and the bytes are more than 64 and not
more than the limit. -/
theorem capacity_terminates_iff (fresh : Bytes) (n : Int32) :
    ((∃ d, ofSize fresh n.toInt = some d ∧
        min (max n.toInt bufferSizeSmall) bufferSizeMax ≤ d.self.mSize) ↔
      n.toInt ≤ bufferSizeSmall) ∧
    ∀ (k : Construction) (d₀ : Done Unit) (cs : List Call) (os : List Event) (b : Buffer),
      construct k = some d₀ → machine.Run d₀.self cs os b → ∀ src : Option Bytes,
        ((∃ d, b.append fresh src n.toInt = some d) ∧
          ∀ m, Requests b src n.toInt m → ∃ r, refixNewSize b.mSize m = some r ∧ m ≤ r) ↔
        ¬(b.mSize = 0 ∧ src.isSome ∧ bufferSizeSmall < n.toInt ∧ n.toInt ≤ bufferSizeMax) := by
  refine ⟨ofSize_iff fresh n.toInt, ?_⟩
  intro k d₀ cs os b hbuilt hrun src
  have hloose := run_loose hbuilt hrun
  by_cases hpos : 0 < b.mSize
  · refine iff_of_true ⟨exists_append hpos fresh src n.toInt, fun m hm => ?_⟩
      fun h => absurd h.1 hpos.ne'
    exact exists_refixNewSize hpos (isValidSize_iff.mp hm.2.2.2.2.1).2
  · obtain rfl : b = cleanup := by
      rcases hloose with h | hbig | h
      · exact h
      · rw [bufferSizeMax_eq] at hbig
        omega
      · exact absurd h.size_pos hpos
    rw [cleanup_append_iff fresh src (isInt32_toInt n)]
    refine ⟨fun h hbad => h.1 hbad.2, fun h => ⟨fun hbad => h ⟨rfl, hbad⟩, ?_⟩⟩
    rintro m ⟨hsrc, h0, -, hm, hvalid, -⟩
    have hmn : m = n.toInt := by
      rw [hm, show cleanup.length = 0 from rfl, zero_add, int32_eq_self (isInt32_toInt n)]
    have hsmall : m ≤ bufferSizeSmall := by
      by_contra hlarge
      exact h ⟨rfl, hsrc, by omega, hmn ▸ (isValidSize_iff.mp hvalid).2⟩
    refine ⟨bufferSizeSmall, ?_, hsmall⟩
    rw [show cleanup.mSize = 0 from rfl, refixNewSize_zero (by omega), if_pos hsmall]

/-- A new buffer of 64 cells grows for 65 bytes. -/
theorem capacity_terminates_grown :
    (∃ d, ofSize (fun _ => 0) (10 : Int32).toInt = some d ∧ 64 ≤ d.self.mSize) ∧
    ∃ d₀, construct (.ofSize (fun _ => 0) 10) = some d₀ ∧
      ∃ d, d₀.self.append (fun _ => 0) (some fun _ => 0) (65 : Int32).toInt = some d := by
  refine ⟨(capacity_terminates_iff (fun _ => 0) 10).1.mpr (by decide), _, rfl, ?_⟩
  exact (((capacity_terminates_iff (fun _ => 0) 65).2 (.ofSize (fun _ => 0) 10) _ [] [] _ rfl .nil
    (some fun _ => 0)).mpr (by decide)).1

/-- **Growth from nothing never ends**: the constructor asked for 65 cells, and 65 bytes
appended to a buffer built from the empty string. -/
theorem growth_from_zero_diverges :
    (∀ fuel, refixLoop fuel 0 65 = none) ∧ construct (.ofSize (fun _ => 0) 65) = none ∧
      ∃ d₀, construct (.ofString (fun _ => 0) []) = some d₀ ∧
        d₀.self.call (.append (fun _ => 0) (some fun _ => 0) 65) = none :=
  ⟨refixLoop_zero (by decide), rfl, _, rfl, rfl⟩

/-! ### What `append` takes -/

/-- The capacity is within the limit, and `append` takes exactly what keeps the length
within it. -/
def Accepts (b : Buffer) : Prop :=
  b.mSize ≤ bufferSizeMax ∧ ∀ (fresh s : Bytes) (n : Int32), 0 < n.toInt →
    b.length + n.toInt < 2 ^ 31 →
    ∃ d, b.append fresh (some s) n.toInt = some d ∧
      (d.ret = n.toInt ↔ b.length + n.toInt ≤ bufferSizeMax) ∧
      (¬b.length + n.toInt ≤ bufferSizeMax → d.ret = 0)

/-- What `append` answers: the bytes fit, or they are past the limit, or it is up to the
capacity that `refix_new_size` comes to. -/
lemma Ranged.append_ret (h : Ranged b) (fresh s : Bytes) (h0 : 0 < n)
    (hsum : b.length + n < 2 ^ 31) :
    ∃ d, b.append fresh (some s) n = some d ∧
      ((b.length + n ≤ b.mSize ∧ d.ret = n) ∨ (bufferSizeMax < b.length + n ∧ d.ret = 0) ∨
        ∃ r, b.mSize < b.length + n ∧ b.length + n ≤ bufferSizeMax ∧
          refixNewSize b.mSize (b.length + n) = some r ∧
          (d.ret = n ∧ r ≤ bufferSizeMax ∨ d.ret = 0 ∧ bufferSizeMax < r)) := by
  obtain ⟨hl0, -⟩ := h.length_bounds
  have hs0 := h.size_pos
  have hs1 := h.size_le
  have hreq : int32 (b.length + n) = b.length + n := int32_eq_self ⟨by omega, hsum⟩
  simp only [append, if_neg (not_le.mpr h0), h.getFreeSize_eq, hreq]
  by_cases hfit : b.mSize - b.length < n
  · rw [if_pos hfit]
    by_cases hmax : b.length + n ≤ bufferSizeMax
    · -- growth: accepted if and only if the new capacity is valid
      have hvalid : isValidSize (b.length + n) = true := isValidSize_iff.mpr ⟨by omega, hmax⟩
      have hlarge : ¬b.length + n ≤ b.size := by
        rw [size]
        omega
      obtain ⟨r, hr, hle⟩ := exists_refixNewSize hs0 hmax
      by_cases hrmax : r ≤ bufferSizeMax
      · have hvalid' : isValidSize r = true := isValidSize_iff.mpr ⟨by omega, hrmax⟩
        have hgrown : b.resize fresh (b.length + n)
            = some ⟨true, (b.realloc fresh r).1, (b.realloc fresh r).2⟩ := by
          simp [resize, hvalid, hlarge, hr, hvalid']
        rw [hgrown]
        exact ⟨_, rfl, Or.inr (Or.inr ⟨r, by omega, hmax, hr, Or.inl ⟨rfl, hrmax⟩⟩)⟩
      · have hinvalid : isValidSize r = false := by simp [isValidSize, hrmax]
        have hrefused : b.resize fresh (b.length + n) = some ⟨false, b, []⟩ := by
          simp [resize, hvalid, hlarge, hr, hinvalid]
        rw [hrefused]
        exact ⟨_, rfl, Or.inr (Or.inr ⟨r, by omega, hmax, hr, Or.inr ⟨rfl, not_le.mp hrmax⟩⟩)⟩
    · have hinvalid : isValidSize (b.length + n) = false := by simp [isValidSize, hmax]
      have hrefused : b.resize fresh (b.length + n) = some ⟨false, b, []⟩ := by
        simp [resize, hinvalid]
      rw [hrefused]
      exact ⟨_, rfl, Or.inr (Or.inl ⟨not_le.mp hmax, rfl⟩)⟩
  · rw [if_neg hfit]
    exact ⟨_, rfl, Or.inl ⟨by omega, rfl⟩⟩

/-- From a rounded capacity `append` takes all it should. -/
lemma Ranged.accepts_of_rounded (h : Ranged b) (hr : Rounded b.mSize) : Accepts b := by
  have hs0 := h.size_pos
  have hs1 := h.size_le
  refine ⟨hs1, fun fresh s n h0 hsum => ?_⟩
  obtain ⟨d, hd, hcases⟩ := h.append_ret fresh s h0 hsum
  refine ⟨d, hd, ?_⟩
  rcases hcases with ⟨hle, hret⟩ | ⟨hlt, hret⟩ | ⟨r, hlt, hle, hnew, hret⟩
  · exact ⟨iff_of_true hret (hle.trans hs1), fun hnot => absurd (hle.trans hs1) hnot⟩
  · exact ⟨iff_of_false (by omega) (not_le.mpr hlt), fun _ => hret⟩
  · have hmax := (rounded_refixNewSize (fun _ => hr) hs0.le hlt hle hnew).le_max
    rcases hret with ⟨hret, -⟩ | ⟨-, hover⟩
    · exact ⟨iff_of_true hret hle, fun hnot => absurd hle hnot⟩
    · exact absurd hmax (not_le.mpr hover)

/-- From any other it refuses to fill up to the limit. -/
lemma Ranged.rounded_of_accepts (h : Ranged b) (hlen : b.length < bufferSizeMax)
    (ha : Accepts b) : Rounded b.mSize := by
  obtain ⟨hl0, -⟩ := h.length_bounds
  have hs1 := h.size_le
  have hmax := bufferSizeMax_eq
  -- the request that brings the length up to the limit
  have hint : (Int32.ofInt (bufferSizeMax - b.length)).toInt = bufferSizeMax - b.length :=
    Int32.toInt_ofInt_of_le (by omega) (by omega)
  obtain ⟨d, hd, hiff, -⟩ := ha.2 (fun _ => 0) (fun _ => 0)
    (Int32.ofInt (bufferSizeMax - b.length)) (by omega) (by omega)
  rw [hint] at hd hiff
  have hret : d.ret = bufferSizeMax - b.length := hiff.mpr (by omega)
  obtain ⟨d', hd', hcases⟩ := h.append_ret (fun _ => 0) (fun _ => 0)
    (n := bufferSizeMax - b.length) (by omega) (by omega)
  obtain rfl : d = d' := Option.some.inj (hd.symm.trans hd')
  rcases hcases with ⟨hle, -⟩ | ⟨hlt, -⟩ | ⟨r, -, -, hnew, hret'⟩
  · obtain heq : b.mSize = bufferSizeMax := by omega
    rw [heq]
    exact rounded_max
  · omega
  · rw [show b.length + (bufferSizeMax - b.length) = bufferSizeMax by omega] at hnew
    refine (refixNewSize_max_le_iff h.size_pos hnew).mp ?_
    omega

/-! ### Which capacities a run can reach -/

/-- The capacity stays, or is one that `refix_new_size` returned. -/
lemma call_mSize {d : Done Answer} (hd : b.call c = some d) :
    d.self.mSize = b.mSize ∨ ∃ n m, b.mSize < n ∧ n ≤ bufferSizeMax ∧
      refixNewSize b.mSize n = some m ∧ d.self.mSize = m := by
  rcases call_self hd with ⟨fresh, src, n, a, ha, hself⟩ | hself | ⟨k, -, hself⟩ | hself
  · rw [hself]
    rcases append_cases ha with rfl | ⟨s, -, -, ⟨-, rfl⟩ | ⟨-, g, hg, hcases⟩⟩
    · exact Or.inl rfl
    · exact Or.inl (appendInPlace_members b s n.toInt).1
    · have hgrown : a.self.mSize = g.self.mSize := by
        rcases hcases with ⟨-, rfl⟩ | ⟨-, rfl⟩
        · rfl
        · exact (appendInPlace_members g.self s n.toInt).1
      rcases resize_outcomes hg with rfl | ⟨hvalid, ⟨-, rfl⟩ | ⟨m, hlt, hnew, hm, rfl⟩⟩
      · exact Or.inl hgrown
      · exact Or.inl hgrown
      · exact Or.inr ⟨_, m, hlt, (isValidSize_iff.mp hvalid).2, hnew,
          hgrown.trans (realloc_mSize b fresh (isValidSize_iff.mp hm).1)⟩
  · exact Or.inl (congrArg mSize hself)
  · rw [hself]
    exact Or.inl rfl
  · rw [hself]
    exact Or.inl rfl

lemma Loose.size_nonneg (h : Loose b) : 0 ≤ b.mSize := by
  rcases h with rfl | hbig | h
  · exact le_rfl
  · rw [bufferSizeMax_eq] at hbig
    omega
  · exact h.size_pos.le

/-- A rounded capacity stays rounded, and growth from nothing makes one. -/
lemma rounded_call {d : Done Answer} (h : Loose b) (hr : 0 < b.mSize → Rounded b.mSize)
    (hd : b.call c = some d) : 0 < d.self.mSize → Rounded d.self.mSize := by
  rcases call_mSize hd with hsame | ⟨n, m, hlt, hmax, hnew, hm⟩
  · rwa [hsame]
  · rw [hm]
    exact fun _ => rounded_refixNewSize hr h.size_nonneg hlt hmax hnew

/-- The constructor starts with a rounded capacity: from a size always, from a string
when it is the capacity booked for it. -/
def Construction.Rounds : Construction → Prop
  | .ofSize _ _ => True
  | .ofString _ s =>
      0 < int32 s.length → int32 s.length ≤ int32 (s.length + s.length / 2) →
        Rounded (int32 (s.length + s.length / 2))

lemma construct_rounded_iff {k : Construction} (hbuilt : construct k = some d₀) :
    (0 < d₀.self.mSize → Rounded d₀.self.mSize) ↔ k.Rounds := by
  cases k with
  | ofSize fresh n =>
      refine iff_of_true ?_ trivial
      obtain ⟨g, hg, rfl⟩ := Option.map_eq_some_iff.mp hbuilt
      rcases resize_outcomes hg with rfl | ⟨hvalid, ⟨-, rfl⟩ | ⟨m, hlt, hnew, hm, rfl⟩⟩
      · exact fun h => absurd h (lt_irrefl 0)
      · exact fun h => absurd h (lt_irrefl 0)
      · simp only [realloc_mSize cleanup fresh (isValidSize_iff.mp hm).1]
        exact fun _ => rounded_refixNewSize (fun h => absurd h (lt_irrefl 0)) le_rfl hlt
          (isValidSize_iff.mp hvalid).2 hnew
  | ofString fresh s =>
      obtain rfl := Option.some.inj hbuilt
      rcases ofString_cases fresh s with ⟨h0, h1, heq⟩ | ⟨hnot, heq⟩
      · rw [heq]
        exact ⟨fun h _ _ => h (h0.trans_le h1), fun h _ => h h0 h1⟩
      · rw [heq]
        exact iff_of_true (fun h => absurd h (lt_irrefl 0)) fun h0 h1 => absurd ⟨h0, h1⟩ hnot

/-- The new buffer does not reach past the limit unless its capacity does. -/
lemma construct_length_le {k : Construction} (hbuilt : construct k = some d₀)
    (hmax : d₀.self.mSize ≤ bufferSizeMax) : d₀.self.length ≤ d₀.self.mSize :=
  (construct_sound hbuilt (hmax.trans (by decide))).1.length_bounds.2.1

/-- **`append` takes up to one megabyte and no more exactly from rounded capacities.** In
every state with memory that runs of a new buffer reach, overruns included, `append` takes
what keeps the length within the limit and refuses the rest, if and only if the
constructor booked a rounded capacity; and in each such state with less than a megabyte stored
it does so if and only if the capacity there is rounded. -/
theorem accepts_upto_max_iff {k : Construction} (hbuilt : construct k = some d₀) :
    ((∀ cs os b, machine.Run d₀.self cs os b → 0 < b.mSize → Accepts b) ↔ k.Rounds) ∧
    ∀ cs os b, machine.Run d₀.self cs os b → 0 < b.mSize → b.length < bufferSizeMax →
      (Accepts b ↔ Rounded b.mSize) := by
  have hranged : ∀ {cs os b}, machine.Run d₀.self cs os b → 0 < b.mSize →
      b.mSize ≤ bufferSizeMax → Ranged b := by
    intro cs os b hrun hpos hmax
    rcases run_loose hbuilt hrun with rfl | hbig | h
    · exact absurd hpos (lt_irrefl 0)
    · exact absurd hmax (not_le.mpr hbig)
    · exact h
  refine ⟨⟨fun hall => ?_, fun hrounds => ?_⟩, fun cs os b hrun hpos hlen => ?_⟩
  · rw [← construct_rounded_iff hbuilt]
    intro hpos
    have hnil : machine.Run d₀.self [] [] d₀.self := .nil
    have ha := hall [] [] d₀.self hnil hpos
    have h := hranged hnil hpos ha.1
    have hle := construct_length_le hbuilt ha.1
    by_cases hlen : d₀.self.length < bufferSizeMax
    · exact h.rounded_of_accepts hlen ha
    · have heq : d₀.self.mSize = bufferSizeMax := le_antisymm ha.1 (by omega)
      rw [heq]
      exact rounded_max
  · intro cs os b hrun hpos
    have hinv : Loose b ∧ (0 < b.mSize → Rounded b.mSize) :=
      hrun.preserves (I := fun t => Loose t ∧ (0 < t.mSize → Rounded t.mSize))
        ⟨construct_loose hbuilt, (construct_rounded_iff hbuilt).mpr hrounds⟩
        fun t c u o ht hn => by
          obtain ⟨d, hd, rfl, -⟩ := machine_next hn
          exact ⟨ht.1.call hd, rounded_call ht.1 ht.2 hd⟩
    have hr := hinv.2 hpos
    exact (hranged hrun hpos hr.le_max).accepts_of_rounded hr
  · constructor
    · intro ha
      exact (hranged hrun hpos ha.1).rounded_of_accepts hlen ha
    · intro hr
      exact (hranged hrun hpos hr.le_max).accepts_of_rounded hr

/-- A new buffer of 64 cells takes a megabyte and nothing on top of it. -/
theorem accepts_upto_max_ofSize :
    ∃ d₀, construct (.ofSize (fun _ => 0) 64) = some d₀ ∧ Accepts d₀.self :=
  ⟨_, rfl, ((accepts_upto_max_iff (k := .ofSize (fun _ => 0) 64) rfl).1.mpr trivial) [] [] _ .nil
    (by decide)⟩

lemma not_rounded_three : ¬Rounded 3 := by
  simp only [Rounded, bufferSizeRaw]
  rintro (⟨k, hk, hpow⟩ | ⟨hdvd, -⟩)
  · interval_cases k <;> omega
  · omega

/-- **The steps can jump over the limit.** A buffer built from a string of two bytes has
three cells; asked to take the bytes that fill a megabyte, it refuses them. -/
theorem append_jumps_over_max :
    ∃ d₀ d, construct (.ofString (fun _ => 0) [120, 121]) = some d₀ ∧ d₀.self.mSize = 3 ∧
      d₀.self.append (fun _ => 0) (some fun _ => 0) (1048574 : Int32).toInt = some d ∧
      d₀.self.length + (1048574 : Int32).toInt = bufferSizeMax ∧ d.ret = 0 ∧
      ¬Accepts d₀.self := by
  have hsize : (ofString (fun _ => 0) [120, 121]).self.mSize = 3 := by decide
  have hlen : (ofString (fun _ => 0) [120, 121]).self.length = 2 := by decide
  have h : Ranged (ofString (fun _ => 0) [120, 121]).self :=
    ⟨by decide, by decide, by decide, by decide, by decide, by decide⟩
  obtain ⟨d, hd, hcases⟩ := h.append_ret (fun _ => 0) (fun _ => 0)
    (n := (1048574 : Int32).toInt) (by decide) (by decide)
  refine ⟨_, d, rfl, hsize, hd, by decide, ?_, fun ha => ?_⟩
  · rcases hcases with ⟨hle, -⟩ | ⟨-, hret⟩ | ⟨r, -, -, hnew, ⟨-, hmax⟩ | ⟨hret, -⟩⟩
    · exact absurd hle (by decide)
    · exact hret
    · rw [hlen, hsize, show (2 : ℤ) + (1048574 : Int32).toInt = bufferSizeMax from rfl] at hnew
      exact absurd ((refixNewSize_max_le_iff (by decide) hnew).mp hmax) not_rounded_three
    · exact hret
  · have hr := h.rounded_of_accepts (by decide) ha
    rw [hsize] at hr
    exact not_rounded_three hr

end Buffer

end Xsix

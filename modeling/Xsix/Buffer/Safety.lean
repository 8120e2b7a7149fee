import Xsix.Buffer.Growth

/-!
What holds along every run of a buffer that was built by a constructor.

A buffer is `Sound` when it has no memory yet, or is shaped with a capacity that
leaves room for the sums of positions. Every call keeps it so and stays inside the
array the code believes in (`Sound.call`), except one: `write_to` and `peek` refuse a
size of zero but not a negative one, which `memcpy` takes for an enormous one
(`Overrun`). `index_invariant` is the resulting law for runs.
-/

namespace Xsix

open CInt Memory
open List (forall_mem_append forall_mem_singleton forall_mem_flatMap)

namespace Buffer

variable {b : Buffer} {c : Call} {m n : ℤ} {d₀ : Done Unit}

/-! ### Sound states -/

/-- No memory yet, or the index invariant and a capacity that leaves room for the
sums of positions. -/
def Sound (b : Buffer) : Prop := b = cleanup ∨ (Shaped b ∧ b.mSize ≤ 2 ^ 30)

/-- The calls whose size reaches `memcpy` though it is negative: the guards of
`write_to` and `peek` only test for zero. -/
def Overrun (b : Buffer) : Call → Prop
  | .writeTo dst n => dst.isSome ∧ n.toInt < 0 ∧ b.empty = false
  | .peek dst n => dst.isSome ∧ n.toInt < 0 ∧ b.empty = false
  | _ => False

/-- Whatever length `retrieve_all_as_string`, `write_to` and `peek` go by, there is
something to read or the buffer is empty. -/
lemma Sound.shaped_of_not_empty (h : Sound b) (hempty : b.empty = false) :
    Shaped b ∧ b.mSize ≤ 2 ^ 30 ∧ 0 < b.length := by
  rcases h with rfl | ⟨hs, hsize⟩
  · simp [empty, full, cleanup] at hempty
  · exact ⟨hs, hsize, hs.length_pos hempty⟩

/-- The observers of a sound buffer are in range. -/
lemma Sound.length_bounds (h : Sound b) :
    0 ≤ b.length ∧ b.length ≤ b.mSize ∧ 0 ≤ b.getFreeSize := by
  rcases h with rfl | ⟨hs, -⟩
  · decide
  · have hle := hs.length_le
    refine ⟨hs.length_nonneg, hle, ?_⟩
    rw [hs.getFreeSize_eq]
    omega

/-! ### Calls -/

/-- `append` returns at once, writes in place, or does so after `resize`. -/
lemma append_cases {fresh : Bytes} {src : Option Bytes} {d : Done ℤ}
    (hd : b.append fresh src n = some d) :
    d = ⟨0, b, []⟩ ∨ ∃ s, src = some s ∧ 0 < n ∧
      ((n ≤ b.getFreeSize ∧ d = b.appendInPlace s n) ∨
        b.getFreeSize < n ∧ ∃ g, b.resize fresh (int32 (b.length + n)) = some g ∧
          ((g.ret = false ∧ d = ⟨0, g.self, g.touched⟩) ∨
            g.ret = true ∧ d = { g.self.appendInPlace s n with
              touched := g.touched ++ (g.self.appendInPlace s n).touched })) := by
  cases src with
  | none => exact Or.inl (by simpa [append] using hd.symm)
  | some s =>
      simp only [append] at hd
      by_cases hn : n ≤ 0
      · exact Or.inl (by simpa [if_pos hn] using hd.symm)
      · rw [if_neg hn] at hd
        refine Or.inr ⟨s, rfl, not_le.mp hn, ?_⟩
        by_cases hfree : b.getFreeSize < n
        · rw [if_pos hfree] at hd
          refine Or.inr ⟨hfree, ?_⟩
          cases hg : b.resize fresh (int32 (b.length + n)) with
          | none => simp [hg] at hd
          | some g =>
              refine ⟨g, rfl, ?_⟩
              cases hret : g.ret with
              | false => exact Or.inl ⟨rfl, by simpa [hg, hret] using hd.symm⟩
              | true => exact Or.inr ⟨rfl, by simpa [hg, hret] using hd.symm⟩
        · rw [if_neg hfree] at hd
          exact Or.inl ⟨not_lt.mp hfree, by simpa using hd.symm⟩

/-- Growing a sound buffer gives a shaped one that begins at cell 0, and stays
inside both arrays. -/
lemma Sound.realloc (h : Sound b) (fresh : Bytes) (hm : b.mSize < m) (hmax : m ≤ bufferSizeMax) :
    Shaped (b.realloc fresh m).1 ∧ (b.realloc fresh m).1.mSize = m ∧
      (b.realloc fresh m).1.mHead = 0 ∧ ∀ τ ∈ (b.realloc fresh m).2, InLimit τ := by
  have hlt : m < 2 ^ 31 := hmax.trans_lt (by decide)
  rcases h with rfl | ⟨hs, -⟩
  · have hpos : 0 < m := hm
    have hgrown : cleanup.realloc fresh m = (⟨some ⟨m, fresh⟩, m, 0, 0, false⟩, []) := by
      simp [Buffer.realloc, not_le.mpr hpos, hpos.ne, reallocData, cleanup, length, empty, full]
    rw [hgrown]
    exact ⟨⟨rfl, hpos, hlt, le_rfl, hpos, le_rfl, hpos, fun _ => rfl⟩, rfl, rfl, by simp⟩
  · obtain ⟨hshaped, hms, -, hhead, -⟩ := hs.realloc_shaped fresh hm hlt
    exact ⟨hshaped, hms, hhead, hs.reallocData_inLimit fresh hm⟩

/-- A sound buffer without room refuses to grow or grows to a capacity that takes
the new bytes. -/
lemma Sound.resize_cases (h : Sound b) (hn : IsInt32 n) (h0 : 0 < n) (hfree : b.getFreeSize < n)
    {fresh : Bytes} {g : Done Bool} (hg : b.resize fresh (int32 (b.length + n)) = some g) :
    g = ⟨false, b, []⟩ ∨ ∃ m, b.mSize < m ∧ n ≤ m ∧ m ≤ bufferSizeMax ∧
      g = ⟨true, (b.realloc fresh m).1, (b.realloc fresh m).2⟩ := by
  rcases h with rfl | ⟨hs, -⟩
  · have hsum : int32 (cleanup.length + n) = n := by
      rw [show cleanup.length = 0 from rfl, zero_add, int32_eq_self hn]
    rw [hsum] at hg
    rcases Buffer.resize_cases hg with hf | ⟨hle, -⟩ | ⟨m, hlt, hle, hmax, hm⟩
    · exact Or.inl hf
    · exact absurd h0 (not_lt.mpr hle)
    · exact Or.inr ⟨m, hlt.trans_le hle, hle, hmax, hm⟩
  · have hl0 := hs.length_nonneg
    rcases hs.resize_cases hn hfree hg with hf | ⟨m, hlt, hle, hmax, hm⟩
    · exact Or.inl hf
    · exact Or.inr ⟨m, hlt, by omega, hmax, hm⟩

/-- `append` keeps a buffer sound and inside its array, growth included. -/
lemma Sound.append (h : Sound b) {fresh : Bytes} {src : Option Bytes} {d : Done ℤ}
    (hn : IsInt32 n) (hd : b.append fresh src n = some d) :
    Sound d.self ∧ ∀ τ ∈ d.touched, InLimit τ := by
  rcases append_cases hd with rfl | ⟨s, -, h0, ⟨hfit, rfl⟩ | ⟨hfree, g, hg, hcases⟩⟩
  · exact ⟨h, by simp⟩
  · rcases h with rfl | ⟨hs, hsize⟩
    · exact absurd h0 (not_lt.mpr hfit)
    · have hroom : b.mTail < b.mHead → b.mTail + n ≤ b.mSize := by
        have hlt := hs.head_lt
        rw [hs.getFreeSize_eq] at hfit
        rcases hs.cases with ⟨-, he, hl⟩ | ⟨-, he, hl⟩ | ⟨-, he, hl⟩ <;> omega
      have hle : n ≤ b.mSize := by
        have hl0 := hs.length_nonneg
        rw [hs.getFreeSize_eq] at hfit
        omega
      obtain ⟨hshaped, hms, -, hin⟩ := hs.appendInPlace_shaped s h0 hle hsize hroom
      exact ⟨Or.inr ⟨hshaped, hms ▸ hsize⟩, hin⟩
  · rcases h.resize_cases hn h0 hfree hg with rfl | ⟨m, hlt, hle, hmax, rfl⟩
    · rcases hcases with ⟨-, rfl⟩ | ⟨hret, -⟩
      · exact ⟨h, by simp⟩
      · simp at hret
    · rcases hcases with ⟨hret, -⟩ | ⟨-, rfl⟩
      · simp at hret
      · -- the grown buffer begins at cell 0, so no tail lies before its head
        obtain ⟨hshaped, hms, hhead, hin⟩ := h.realloc fresh hlt hmax
        have hsize : (b.realloc fresh m).1.mSize ≤ 2 ^ 30 := by
          rw [hms]
          exact hmax.trans (by decide)
        have hroom : (b.realloc fresh m).1.mTail < (b.realloc fresh m).1.mHead →
            (b.realloc fresh m).1.mTail + n ≤ (b.realloc fresh m).1.mSize := by
          intro hwrapped
          have := hshaped.tail_nonneg
          omega
        obtain ⟨hshaped', hms', -, hin'⟩ :=
          hshaped.appendInPlace_shaped s h0 (by omega) hsize hroom
        exact ⟨Or.inr ⟨hshaped', hms' ▸ hsize⟩, forall_mem_append.mpr ⟨hin, hin'⟩⟩

/-- Moving the head over bytes that are there. -/
lemma Sound.advanceHead (hs : Shaped b) (hsize : b.mSize ≤ 2 ^ 30) (h0 : 0 ≤ n)
    (h1 : n ≤ b.length) : Sound (b.advanceHead n) :=
  Or.inr ⟨hs.advanceHead_shaped h0 h1 hsize, hsize⟩

/-- The number of bytes `write_to` and `peek` settle on is one that is there. -/
lemma deliverable {k : ℤ} (hk : k = if b.length < n then b.length else n) (h0 : 0 < n)
    (hpos : 0 < b.length) : 0 ≤ k ∧ k ≤ b.length := by
  split at hk <;> omega

/-- The copies of `retrieve_all_as_string` stay inside the array. -/
lemma Shaped.retrieveCopy_inLimit (h : Shaped b) : ∀ τ ∈ b.retrieveCopy.2, InLimit τ := by
  obtain ⟨-, hs0, hs1, hh0, hh1, ht0, ht1, -⟩ := id h
  have hl0 := h.length_nonneg
  have hl1 := h.length_le
  have hright := h.int32_right
  by_cases hlt : b.mHead < b.mTail
  · have hlen := h.length_of_lt hlt
    simp only [retrieveCopy, if_pos hlt]
    rw [load_eq hl0 (by omega)]
    simp only [List.forall_mem_cons, InLimit, List.not_mem_nil, false_imp_iff, implies_true,
      and_true]
    omega
  · simp only [retrieveCopy, if_neg hlt, hright]
    rw [load_eq (by omega) (by omega), load_eq ht0 (by omega)]
    simp only [List.cons_append, List.nil_append, List.forall_mem_cons, InLimit,
      List.not_mem_nil, false_imp_iff, implies_true, and_true, true_and]
    omega

/-- **One call keeps a buffer sound** and stays inside the array it believes in,
unless it hands a negative size to `memcpy`. -/
lemma Sound.call {d : Done Answer} (h : Sound b) (hno : ¬ Overrun b c)
    (hd : b.call c = some d) : Sound d.self ∧ ∀ τ ∈ d.touched, InLimit τ := by
  cases c with
  | append fresh src n =>
      obtain ⟨a, ha, rfl⟩ := Option.map_eq_some_iff.mp hd
      exact h.append (isInt32_toInt n) ha
  | writeTo dst n =>
      obtain rfl := Option.some.inj hd
      rcases deliver_cases b dst n.toInt with ⟨-, hw, -⟩ | ⟨m, k, hdst, hne, hempty, hk, hw, -⟩
      · simp only [hw]
        exact ⟨h, by simp⟩
      · obtain ⟨hs, hsize, hpos⟩ := h.shaped_of_not_empty hempty
        have hn : ¬ n.toInt < 0 := fun hneg => hno ⟨hdst ▸ rfl, hneg, hempty⟩
        obtain ⟨hk0, hk1⟩ := deliverable hk (by omega) hpos
        simp only [hw]
        exact ⟨Sound.advanceHead hs hsize hk0 hk1, forall_mem_append.mpr
          ⟨hs.copyOut_inLimit _ _ hk0 hk1, forall_mem_singleton.mpr hs.size_pos.ne'⟩⟩
  | peek dst n =>
      obtain rfl := Option.some.inj hd
      rcases deliver_cases b dst n.toInt with ⟨-, -, hp⟩ | ⟨m, k, hdst, hne, hempty, hk, -, hp⟩
      · simp only [hp]
        exact ⟨h, by simp⟩
      · obtain ⟨hs, -, hpos⟩ := h.shaped_of_not_empty hempty
        have hn : ¬ n.toInt < 0 := fun hneg => hno ⟨hdst ▸ rfl, hneg, hempty⟩
        obtain ⟨hk0, hk1⟩ := deliverable hk (by omega) hpos
        simp only [hp]
        exact ⟨h, hs.copyOut_inLimit _ _ hk0 hk1⟩
  | skip n =>
      obtain rfl := Option.some.inj hd
      simp only [skip]
      split_ifs with hn hlt
      · exact ⟨h, by simp⟩
      · exact ⟨h, by simp⟩
      · rcases h with rfl | ⟨hs, hsize⟩
        · have : cleanup.length = 0 := rfl
          omega
        · exact ⟨Sound.advanceHead hs hsize (by omega) (by omega),
            forall_mem_singleton.mpr hs.size_pos.ne'⟩
  | clear =>
      obtain rfl := Option.some.inj hd
      refine ⟨?_, by simp⟩
      rcases h with rfl | ⟨hs, hsize⟩
      · exact Or.inl rfl
      · exact Or.inr ⟨{ hs with
          head_nonneg := le_rfl
          head_lt := hs.size_pos
          tail_nonneg := le_rfl
          tail_lt := hs.size_pos
          full_imp := fun _ => rfl }, hsize⟩
  | retrieveAllAsString =>
      obtain rfl := Option.some.inj hd
      simp only [retrieveAllAsString]
      cases hempty : b.empty with
      | true =>
          simp only [if_true]
          exact ⟨h, by simp⟩
      | false =>
          obtain ⟨hs, -, -⟩ := h.shaped_of_not_empty hempty
          simp only [Bool.false_eq_true, if_false]
          exact ⟨h, forall_mem_append.mpr
            ⟨hs.retrieveCopy_inLimit, forall_mem_singleton.mpr trivial⟩⟩

/-! ### Construction -/

lemma copyFrom_eq (fresh src : Bytes) {len size : ℤ} (hlen : IsInt32 len) (h0 : 0 < len)
    (h1 : len ≤ size) : cleanup.copyFrom fresh (some src) len size
      = ⟨(), ⟨some ⟨len, copy fresh 0 src 0 len⟩, size, 0, len % size, false⟩,
        [.modulo size, .span .user len len 0 len, .span .data size len 0 len]⟩ := by
  have hmod : (int32 len).tmod size = len % size := by
    rw [int32_eq_self hlen, tmod_eq_emod h0.le]
  have hne : len % size ≠ size := (Int.emod_lt_of_pos _ (h0.trans_le h1)).ne
  have hu : uint64 len = len := by
    obtain ⟨-, hlt⟩ := hlen
    exact uint64_eq_self h0.le (by omega)
  simp [copyFrom, h0, h1, cleanup, store, hmod, hne, hu, withCells, allocated]

/-- The constructor from a string copies it, or leaves a buffer without memory. -/
lemma ofString_cases (fresh : Bytes) (s : List UInt8) :
    (0 < int32 s.length ∧ int32 s.length ≤ int32 (s.length + s.length / 2) ∧
      ofString fresh s
        = ⟨(), ⟨some ⟨int32 s.length, copy fresh 0 (cStr s) 0 (int32 s.length)⟩,
            int32 (s.length + s.length / 2), 0,
            int32 s.length % int32 (s.length + s.length / 2), false⟩,
          [.modulo (int32 (s.length + s.length / 2)),
            .span .user (int32 s.length) (int32 s.length) 0 (int32 s.length),
            .span .data (int32 (s.length + s.length / 2)) (int32 s.length) 0
              (int32 s.length)]⟩) ∨
    (¬(0 < int32 s.length ∧ int32 s.length ≤ int32 (s.length + s.length / 2)) ∧
      ofString fresh s = ⟨(), cleanup, []⟩) := by
  by_cases hcopies : 0 < int32 s.length ∧ int32 s.length ≤ int32 (s.length + s.length / 2)
  · obtain ⟨h0, h1⟩ := hcopies
    refine Or.inl ⟨h0, h1, ?_⟩
    rw [ofString, copyFrom_eq fresh _ (isInt32_int32 _) h0 h1]
  · refine Or.inr ⟨hcopies, ?_⟩
    rw [ofString, copyFrom, if_neg hcopies]

lemma ofSize_sound {fresh : Bytes} (hd : ofSize fresh n = some d₀) :
    Sound d₀.self ∧ ∀ τ ∈ d₀.touched, InLimit τ := by
  obtain ⟨g, hg, rfl⟩ := Option.map_eq_some_iff.mp hd
  rcases Buffer.resize_cases hg with rfl | ⟨-, rfl⟩ | ⟨m, hlt, hle, hmax, rfl⟩
  · exact ⟨Or.inl rfl, by simp⟩
  · exact ⟨Or.inl rfl, by simp⟩
  · obtain ⟨hshaped, hms, -, hin⟩ :=
      Sound.realloc (Or.inl rfl) fresh (hlt.trans_le hle) hmax
    refine ⟨Or.inr ⟨hshaped, ?_⟩, hin⟩
    simp only [hms]
    exact hmax.trans (by decide)

/-- What the constructor from a string leaves, when it copies at all. -/
lemma ofString_sound (fresh : Bytes) (s : List UInt8)
    (hsize : (ofString fresh s).self.mSize ≤ 2 ^ 30) :
    Sound (ofString fresh s).self ∧ ∀ τ ∈ (ofString fresh s).touched, InLimit τ := by
  rcases ofString_cases fresh s with ⟨h0, h1, heq⟩ | ⟨-, heq⟩
  · rw [heq] at hsize ⊢
    have hpos := h0.trans_le h1
    refine ⟨Or.inr ⟨⟨rfl, hpos, hsize.trans_lt (by norm_num), le_rfl, hpos,
      Int.emod_nonneg _ hpos.ne', Int.emod_lt_of_pos _ hpos, fun hf => absurd hf (by simp)⟩,
      hsize⟩, ?_⟩
    simp only [List.forall_mem_cons, InLimit, List.not_mem_nil, false_imp_iff, implies_true,
      and_true, true_and]
    omega
  · rw [heq]
    exact ⟨Or.inl rfl, by simp⟩

/-- **Every constructor that returns leaves a sound buffer**, unless its string is
too long for the sums of positions. -/
lemma construct_sound {k : Construction} (hbuilt : construct k = some d₀)
    (hsize : d₀.self.mSize ≤ 2 ^ 30) : Sound d₀.self ∧ ∀ τ ∈ d₀.touched, InLimit τ := by
  cases k with
  | ofSize fresh n => exact ofSize_sound hbuilt
  | ofString fresh s =>
      obtain rfl := Option.some.inj hbuilt
      exact ofString_sound fresh s hsize

/-! ### Runs -/

/-- The index invariant of a buffer with or without memory. -/
def Indexed (b : Buffer) : Prop :=
  (b.mSize = 0 ∧ b.mHead = 0 ∧ b.mTail = 0 ∧ b.mFull = false) ∨
    (0 ≤ b.mHead ∧ b.mHead < b.mSize ∧ 0 ≤ b.mTail ∧ b.mTail < b.mSize ∧
      (b.mFull = true → b.mHead = b.mTail))

/-- The calls that pass no negative size where the code has no guard for it. -/
def Ordinary : Call → Prop
  | .writeTo _ n => 0 ≤ n.toInt
  | .peek _ n => 0 ≤ n.toInt
  | .skip n => 0 ≤ n.toInt
  | _ => True

instance : DecidablePred Ordinary
  | .append _ _ _ => inferInstanceAs (Decidable True)
  | .writeTo _ n => inferInstanceAs (Decidable (0 ≤ n.toInt))
  | .peek _ n => inferInstanceAs (Decidable (0 ≤ n.toInt))
  | .skip n => inferInstanceAs (Decidable (0 ≤ n.toInt))
  | .clear => inferInstanceAs (Decidable True)
  | .retrieveAllAsString => inferInstanceAs (Decidable True)

lemma Ordinary.not_overrun (h : Ordinary c) : ¬ Overrun b c := by
  intro hover
  cases c with
  | writeTo dst n => exact absurd hover.2.1 (not_lt.mpr h)
  | peek dst n => exact absurd hover.2.1 (not_lt.mpr h)
  | append fresh src n => exact hover
  | skip n => exact hover
  | clear => exact hover
  | retrieveAllAsString => exact hover

lemma Sound.indexed (h : Sound b) : Indexed b := by
  rcases h with rfl | ⟨hs, -⟩
  · exact Or.inl ⟨rfl, rfl, rfl, rfl⟩
  · exact Or.inr ⟨hs.head_nonneg, hs.head_lt, hs.tail_nonneg, hs.tail_lt, hs.full_imp⟩

/-- What one step of a sequence of calls is. -/
lemma machine_next {t u : Buffer} {o : List Event} (hn : machine.next t c = some (u, o)) :
    ∃ d, t.call c = some d ∧ u = d.self ∧ o = [⟨t, c, d⟩] := by
  obtain ⟨d, hd, heq⟩ := Option.map_eq_some_iff.mp hn
  obtain ⟨rfl, rfl⟩ := Prod.mk.inj heq
  exact ⟨d, hd, rfl, rfl⟩

lemma forall_touches {os : List Event} {P : Touch → Prop} :
    (∀ τ ∈ touches os, P τ) ↔ ∀ e ∈ os, ∀ τ ∈ e.done.touched, P τ :=
  forall_mem_flatMap

/-- **The index invariant holds along every run.** A buffer that a constructor
returned, with at most `2 ^ 30` cells, keeps its positions in range through any
sequence of calls that return and pass no negative size to `write_to`, `peek` and
`skip`; its observers stay in range, no remainder is taken by zero, and every
`memcpy` of the constructor and of the calls stays inside the array it is made
on, old or new. -/
theorem index_invariant {k : Construction} (hbuilt : construct k = some d₀)
    (hsize : d₀.self.mSize ≤ 2 ^ 30) {cs : List Call} {os : List Event}
    (hrun : (machine.restrict fun _ c => Ordinary c).Run d₀.self cs os b) :
    Indexed b ∧ (0 ≤ b.length ∧ b.length ≤ b.mSize ∧ 0 ≤ b.getFreeSize) ∧
      ∀ τ ∈ d₀.touched ++ touches os, InLimit τ := by
  obtain ⟨hsound, hin⟩ := construct_sound hbuilt hsize
  obtain ⟨hsound', hin'⟩ : Sound b ∧ ∀ e ∈ os, ∀ τ ∈ e.done.touched, InLimit τ :=
    hrun.forall_events (C := fun _ => True) (fun _ _ => trivial) hsound
      fun t c u o ht hn _ => by
        obtain ⟨hord, hn⟩ := Machine.restrict_next_iff.mp hn
        obtain ⟨d, hd, rfl, rfl⟩ := machine_next hn
        obtain ⟨hu, hinu⟩ := ht.call hord.not_overrun hd
        exact ⟨hu, forall_mem_singleton.mpr hinu⟩
  exact ⟨hsound'.indexed, hsound'.length_bounds,
    forall_mem_append.mpr ⟨hin, forall_touches.mpr hin'⟩⟩

/-- Built with 64 cells, filled, half emptied and grown by a second `append`. -/
theorem index_invariant_grown :
    ∃ d₀ os b, construct (.ofSize (fun _ => 0) 10) = some d₀ ∧
      (machine.restrict fun _ c => Ordinary c).Run d₀.self
        [.append (fun _ => 0) (some fun _ => 1) 64, .writeTo (some fun _ => 0) 32,
          .append (fun _ => 0) (some fun _ => 2) 40] os b ∧
      Indexed b ∧ ∀ τ ∈ d₀.touched ++ touches os, InLimit τ := by
  obtain ⟨d₀, hbuilt, hsize⟩ : ∃ d₀, construct (.ofSize (fun _ => 0) 10) = some d₀ ∧
      d₀.self.mSize ≤ 2 ^ 30 := ⟨_, rfl, by decide⟩
  obtain ⟨os, b, hrun⟩ : ∃ os b, (machine.restrict fun _ c => Ordinary c).Run d₀.self
      [.append (fun _ => 0) (some fun _ => 1) 64, .writeTo (some fun _ => 0) 32,
        .append (fun _ => 0) (some fun _ => 2) 40] os b := by
    obtain rfl := Option.some.inj hbuilt
    exact ⟨_, _, Machine.run_iff_exec.mpr rfl⟩
  obtain ⟨hindexed, -, hin⟩ := index_invariant hbuilt hsize hrun
  exact ⟨d₀, os, b, hbuilt, hrun, hindexed, hin⟩

end Buffer

end Xsix

import Xsix.Buffer.Append

/-!
Growth: `realloc`, `resize` and the `append` that follows.

`realloc` copies the stored bytes to the start of a new block, but reads
`length()` for the new tail after `m_head` has been reset and before `m_size` and
`m_full` are. What it reads is `rebasedTail`, the old size of a full buffer and
the old tail of any other. So the new buffer is always shaped (`realloc_shaped`),
and it holds what the old one held exactly when that one was full or began at
cell 0 (`realloc_length_iff`, `realloc_content`): `growth_keeps_queue_iff`.
-/

namespace Xsix

open CInt Memory

namespace Buffer

variable {b : Buffer} {m n : ℤ} (fresh : Bytes)

/-! ### `resize`, by its outcomes -/

lemma isValidSize_iff : isValidSize n = true ↔ 0 < n ∧ n ≤ bufferSizeMax := by
  simp [isValidSize]

/-- `resize` refuses, or the capacity suffices, or it grows to the capacity that
`refix_new_size` computes. -/
lemma resize_outcomes {fresh : Bytes} {g : Done Bool} (hg : b.resize fresh n = some g) :
    g = ⟨false, b, []⟩ ∨ isValidSize n = true ∧ ((n ≤ b.mSize ∧ g = ⟨true, b, []⟩) ∨
      ∃ m, b.mSize < n ∧ refixNewSize b.mSize n = some m ∧ isValidSize m = true ∧
        g = ⟨true, (b.realloc fresh m).1, (b.realloc fresh m).2⟩) := by
  unfold resize at hg
  cases hvalid : isValidSize n with
  | false => exact Or.inl (by simpa [hvalid] using hg.symm)
  | true =>
      rw [if_neg (by simp [hvalid])] at hg
      by_cases hle : n ≤ b.size
      · rw [if_pos hle] at hg
        exact Or.inr ⟨rfl, Or.inl ⟨hle, by simpa using hg.symm⟩⟩
      · rw [if_neg hle] at hg
        cases hnew : refixNewSize b.mSize n with
        | none => simp [hnew] at hg
        | some m =>
            simp only [hnew] at hg
            cases hvalid' : isValidSize m with
            | false => exact Or.inl (by simpa [hvalid'] using hg.symm)
            | true =>
                rw [if_neg (by simp [hvalid'])] at hg
                exact Or.inr ⟨rfl, Or.inr ⟨m, not_le.mp hle, rfl, hvalid', by simpa using hg.symm⟩⟩

/-- `resize` refuses, or the capacity suffices, or it grows to a valid capacity
that suffices. -/
lemma resize_cases {fresh : Bytes} {g : Done Bool} (hg : b.resize fresh n = some g) :
    g = ⟨false, b, []⟩ ∨ (n ≤ b.mSize ∧ g = ⟨true, b, []⟩) ∨
      ∃ m, b.mSize < n ∧ n ≤ m ∧ m ≤ bufferSizeMax ∧
        g = ⟨true, (b.realloc fresh m).1, (b.realloc fresh m).2⟩ := by
  rcases resize_outcomes hg with h | ⟨-, h | ⟨m, hlt, hnew, hvalid, h⟩⟩
  · exact Or.inl h
  · exact Or.inr (Or.inl h)
  · exact Or.inr (Or.inr ⟨m, hlt, le_of_refixNewSize hnew, (isValidSize_iff.mp hvalid).2, h⟩)

/-! ### `realloc` -/

/-- What `length()` returns inside `realloc`: the size of a full buffer, the tail
of any other. -/
def rebasedTail (b : Buffer) : ℤ := if b.mFull then b.mSize else b.mTail

/-- `length()` with `m_head` reset and the other members still old. -/
lemma length_rebased (d : Option Block) (ht0 : 0 ≤ b.mTail) (ht1 : b.mTail < 2 ^ 31) :
    length { b with mData := d, mHead := 0 } = b.rebasedTail := by
  cases hfull : b.mFull with
  | true => simp [length, empty, full, rebasedTail, hfull]
  | false =>
      rcases ht0.eq_or_lt with hzero | hpos
      · simp [length, empty, full, rebasedTail, hfull, ← hzero]
      · simp only [length, empty, full, rebasedTail, hfull, beq_eq_false_iff_ne.mpr hpos.ne,
          if_pos hpos, sub_zero]
        exact int32_eq_self ⟨by omega, by omega⟩

/-- The members after `realloc`, of any buffer whose tail is in range. -/
lemma realloc_fst (hm : 0 < m) (ht0 : 0 ≤ b.mTail) (ht1 : b.mTail < 2 ^ 31) :
    (b.realloc fresh m).1
      = ⟨some ⟨m, (b.reallocData fresh m).1⟩, m, 0, b.rebasedTail,
        decide (b.rebasedTail = m)⟩ := by
  have hlen := length_rebased (some ⟨m, (b.reallocData fresh m).1⟩) ht0 ht1
  simp [realloc, if_neg (not_le.mpr hm), hlen]

namespace Shaped

lemma rebasedTail_nonneg (h : Shaped b) : 0 ≤ b.rebasedTail := by
  have := h.size_pos
  have := h.tail_nonneg
  unfold rebasedTail
  split <;> omega

lemma rebasedTail_le (h : Shaped b) : b.rebasedTail ≤ b.mSize := by
  have := h.tail_lt
  unfold rebasedTail
  split <;> omega

/-- The members after `realloc` to a larger block. -/
lemma realloc_fst (h : Shaped b) (hm : b.mSize < m) :
    (b.realloc fresh m).1
      = ⟨some ⟨m, (b.reallocData fresh m).1⟩, m, 0, b.rebasedTail, false⟩ := by
  have hs0 := h.size_pos
  have hs1 := h.size_lt
  have ht1 := h.tail_lt
  have hle := h.rebasedTail_le
  have hne : b.rebasedTail ≠ m := by omega
  rw [Buffer.realloc_fst fresh (by omega) h.tail_nonneg (by omega), decide_eq_false hne]

/-- The buffer after growing is shaped, not full and begins at cell 0. -/
lemma realloc_shaped (h : Shaped b) (hm : b.mSize < m) (hlt : m < 2 ^ 31) :
    Shaped (b.realloc fresh m).1 ∧ (b.realloc fresh m).1.mSize = m ∧
      (b.realloc fresh m).1.allocated = m ∧ (b.realloc fresh m).1.mHead = 0 ∧
      (b.realloc fresh m).1.length = b.rebasedTail := by
  have hs0 := h.size_pos
  have ht0 := h.rebasedTail_nonneg
  have ht1 := h.rebasedTail_le
  have hshaped : Shaped (b.realloc fresh m).1 := by
    rw [h.realloc_fst fresh hm]
    exact ⟨rfl, by simp only; omega, hlt, le_rfl, by simp only; omega, ht0, by simp only; omega,
      fun hf => absurd hf (by simp)⟩
  refine ⟨hshaped, by rw [h.realloc_fst fresh hm], by rw [h.realloc_fst fresh hm]; rfl,
    by rw [h.realloc_fst fresh hm], ?_⟩
  rw [h.realloc_fst fresh hm] at hshaped ⊢
  rcases hshaped.cases with ⟨hf, -, -⟩ | ⟨-, -, hl⟩ | ⟨-, he, -⟩
  · simp at hf
  · simpa using hl
  · simp only at he
    omega

/-- The copies of `realloc` read the old array and write the new one inside their
bounds. -/
lemma reallocData_inLimit (h : Shaped b) (hm : b.mSize < m) :
    ∀ τ ∈ (b.realloc fresh m).2, InLimit τ := by
  obtain ⟨hd, hs0, hs1, hh0, hh1, ht0, ht1, -⟩ := id h
  simp only [realloc, if_neg (by omega : ¬ m ≤ 0), reallocData, hd, if_true]
  by_cases hlt : b.mHead < b.mTail
  · have hlen : int32 (b.mTail - b.mHead) = b.mTail - b.mHead :=
      int32_eq_self ⟨by omega, by omega⟩
    simp only [if_pos hlt, hlen, uint64_eq_self (by omega : 0 ≤ b.mTail - b.mHead) (by omega),
      List.forall_mem_cons, InLimit, List.not_mem_nil, false_imp_iff, implies_true, and_true]
    omega
  · have hright := h.int32_right
    simp only [if_neg hlt, hright, uint64_eq_self (by omega : 0 ≤ b.mSize - b.mHead) (by omega),
      uint64_eq_self ht0 (by omega : b.mTail < 2 ^ 64), List.forall_mem_cons, InLimit,
      List.not_mem_nil, false_imp_iff, implies_true, and_true]
    omega

/-- `realloc` keeps the length exactly when the buffer was full or began at
cell 0. -/
lemma realloc_length_iff (h : Shaped b) (hm : b.mSize < m) (hlt : m < 2 ^ 31) :
    (b.realloc fresh m).1.length = b.length ↔ b.full = true ∨ b.mHead = 0 := by
  obtain ⟨-, hs0, hs1, hh0, hh1, ht0, ht1, -⟩ := id h
  rw [(h.realloc_shaped fresh hm hlt).2.2.2.2, rebasedTail, full]
  rcases h.cases with ⟨hf, he, hl⟩ | ⟨hf, he, hl⟩ | ⟨hf, he, hl⟩
  · simp [hf, hl]
  · simp only [hf, hl, Bool.false_eq_true, if_false, false_or]
    omega
  · simp only [hf, hl, Bool.false_eq_true, if_false, false_or]
    omega

/-- In those shapes it keeps the content as well. -/
lemma realloc_content (h : Shaped b) (hm : b.mSize < m) (hlt : m < 2 ^ 31)
    (hgood : b.full = true ∨ b.mHead = 0) : (b.realloc fresh m).1.content = b.content := by
  obtain ⟨hd, hs0, hs1, hh0, hh1, ht0, ht1, -⟩ := id h
  have hlen := (h.realloc_length_iff fresh hm hlt).mpr hgood
  have hl0 := h.length_nonneg
  have hl1 := h.length_le
  have hcells : (b.realloc fresh m).1.cells = (b.reallocData fresh m).1 := by
    rw [h.realloc_fst fresh hm]; rfl
  have hcontent : (b.realloc fresh m).1.content
      = read (b.reallocData fresh m).1 0 b.length := by
    obtain ⟨-, hms, -, hhead, -⟩ := h.realloc_shaped fresh hm hlt
    calc (b.realloc fresh m).1.content
        = cyclic (b.reallocData fresh m).1 m 0 b.length := by
          rw [content, hlen, hcells, hms, hhead]
      _ = read (b.reallocData fresh m).1 0 b.length := cyclic_eq_read le_rfl (by omega)
  rw [hcontent, content]
  simp only [reallocData, hd, if_true]
  by_cases hst : b.mHead < b.mTail
  · have hdiff : int32 (b.mTail - b.mHead) = b.mTail - b.mHead :=
      int32_eq_self ⟨by omega, by omega⟩
    have hfit := h.length_of_lt hst
    rw [if_pos hst, hdiff, uint64_eq_self (by omega) (by omega), read_copy le_rfl (by omega),
      cyclic_eq_read hh0 (by omega)]
    simp
  · have hright := h.int32_right
    rw [if_neg hst, hright, uint64_eq_self (by omega : 0 ≤ b.mSize - b.mHead) (by omega),
      uint64_eq_self ht0 (by omega)]
    simp only
    rcases h.cases with ⟨-, he, hl⟩ | ⟨hf, he, hl⟩ | ⟨hf, he, -⟩
    · -- full: the part up to the end of the array, then the part before the head
      have hsum : b.length = (b.mSize - b.mHead) + b.mTail := by omega
      rw [cyclic_eq_read_append hh0 hh1.le (by omega) (by omega), hsum,
        read_add (by omega) (by omega), read_copy_of_disjoint (by omega),
        read_copy le_rfl (by omega), read_copy (by omega) (by omega)]
      simp
    · -- empty: nothing is stored
      rw [show b.length = 0 from by omega]
      rfl
    · rcases hgood with hg | hg
      · simp [full, hf] at hg
      · omega

end Shaped

/-! ### `append` with growth -/

lemma append_of_resize (src : Bytes) {fresh : Bytes} {g : Done Bool} (h0 : 0 < n)
    (hfree : b.getFreeSize < n)
    (hg : b.resize fresh (int32 (b.length + n)) = some g) (hret : g.ret = true) :
    b.append fresh (some src) n = some { g.self.appendInPlace src n with
      touched := g.touched ++ (g.self.appendInPlace src n).touched } := by
  simp only [append, if_neg (not_le.mpr h0), if_pos hfree, hg, hret, if_true]

/-- A shaped buffer without room either refuses to grow or grows to a capacity
that holds what it should hold afterwards. -/
lemma Shaped.resize_cases (h : Shaped b) (hn : IsInt32 n) (hfree : b.getFreeSize < n)
    {fresh : Bytes} {g : Done Bool} (hg : b.resize fresh (int32 (b.length + n)) = some g) :
    g = ⟨false, b, []⟩ ∨ ∃ m, b.mSize < m ∧ b.length + n ≤ m ∧ m ≤ bufferSizeMax ∧
      g = ⟨true, (b.realloc fresh m).1, (b.realloc fresh m).2⟩ := by
  have hl0 := h.length_nonneg
  have hl1 := h.length_le
  have hs1 := h.size_lt
  rw [h.getFreeSize_eq] at hfree
  obtain ⟨hn0, hn1⟩ := hn
  rcases Buffer.resize_cases hg with hf | ⟨hle, hsame⟩ | ⟨m, hlt, hle, hmax, hm⟩
  · exact Or.inl hf
  · -- the sum is past the capacity, or it wraps to a negative size, which is refused
    by_cases hsum : b.length + n < 2 ^ 31
    · rw [int32_eq_self ⟨by omega, hsum⟩] at hle
      omega
    · have hneg : int32 (b.length + n) < 0 := by
        unfold int32
        omega
      have hinvalid : isValidSize (int32 (b.length + n)) = false := by
        simp [isValidSize, hneg.le]
      exact Or.inl (by simpa [resize, hinvalid] using hg.symm)
  · refine Or.inr ⟨m, by omega, ?_, hmax, hm⟩
    by_cases hsum : b.length + n < 2 ^ 31
    · rwa [int32_eq_self ⟨by omega, hsum⟩] at hle
    · have hneg : int32 (b.length + n) < 0 := by
        unfold int32
        omega
      have := h.size_pos
      omega

/-- **Growth keeps the queue exactly when the buffer is full or begins at cell 0.**
For a shaped buffer with less than `n` free cells for which `resize` succeeds, the
reallocation leaves content and length as they are and the `append` that follows
extends the content by the `n` bytes if and only if the buffer was full or its head
was 0. -/
theorem growth_keeps_queue_iff (h : Shaped b) (src : Bytes) (hn : IsInt32 n)
    (hfree : b.getFreeSize < n) {fresh : Bytes} {g : Done Bool}
    (hg : b.resize fresh (int32 (b.length + n)) = some g) (hret : g.ret = true) :
    ((g.self.content = b.content ∧ g.self.length = b.length) ∧
        ∃ d, b.append fresh (some src) n = some d ∧
          d.self.content = b.content ++ read src 0 n ∧ d.self.length = b.length + n)
      ↔ b.full = true ∨ b.mHead = 0 := by
  have hl1 := h.length_le
  have hn0 : 0 < n := by
    rw [h.getFreeSize_eq] at hfree
    omega
  have happend := append_of_resize src hn0 hfree hg hret
  rcases h.resize_cases hn hfree hg with rfl | ⟨m, hlt, hle, hmax, rfl⟩
  · simp at hret
  unfold bufferSizeMax bufferSizeRaw at hmax
  have hlt' : m < 2 ^ 31 := by omega
  obtain ⟨hshaped, hms, -, -, hlen⟩ := h.realloc_shaped fresh hlt hlt'
  constructor
  · rintro ⟨⟨-, hsame⟩, -⟩
    exact (h.realloc_length_iff fresh hlt hlt').mp hsame
  · intro hgood
    have hsame := (h.realloc_length_iff fresh hlt hlt').mpr hgood
    have hcontent := h.realloc_content fresh hlt hlt' hgood
    refine ⟨⟨hcontent, hsame⟩, _, happend, ?_⟩
    obtain ⟨hlen', hcontent'⟩ :=
      hshaped.appendInPlace_content src hn0 (by rw [hms, hsame]; omega) (by rw [hms]; omega)
    exact ⟨by rw [← hcontent]; exact hcontent', by rw [← hsame]; exact hlen'⟩

/-- Sixty bytes from cell 0 on, and ten more than the four free cells take. -/
theorem growth_keeps_queue_fromZero :
    ∃ b : Buffer, b.mSize = 64 ∧ b.length = 60 ∧
      ∃ g d, b.resize (fun _ => 0) (int32 (b.length + 10)) = some g ∧
        b.append (fun _ => 0) (some fun _ => 1) 10 = some d ∧
        g.self.content = b.content ∧ d.self.content = b.content ++ read (fun _ => 1) 0 10 := by
  let b : Buffer := ⟨some ⟨64, fun _ => 0⟩, 64, 0, 60, false⟩
  have hshaped : Shaped b :=
    ⟨rfl, by decide, by decide, by decide, by decide, by decide, by decide, by decide⟩
  obtain ⟨⟨hg, -⟩, d, hd, hcontent, -⟩ :=
    (growth_keeps_queue_iff (n := 10) hshaped (fun _ => 1) ⟨by decide, by decide⟩ (by decide)
      (show b.resize (fun _ => 0) (int32 (b.length + 10)) = some _ from rfl) rfl).mpr
      (Or.inr rfl)
  exact ⟨b, rfl, by decide, _, d, rfl, hd, hg, hcontent⟩

/-- **Growth loses the queue** of a buffer that holds ten bytes from cell 10 on:
built with 64 cells, given twenty bytes and rid of ten, it says it holds twenty once
fifty-five more have made it grow. -/
theorem growth_loses_queue :
    ∃ b : Buffer,
      (∃ d os, construct (.ofSize (fun _ => 0) 64) = some d ∧
        machine.Run d.self [.append (fun _ => 0) (some fun _ => 0) 20, .skip 10] os b) ∧
      Shaped b ∧ b.getFreeSize < 55 ∧
      ∃ g, b.resize (fun _ => 0) (int32 (b.length + 55)) = some g ∧ g.ret = true ∧
        ¬ ((g.self.content = b.content ∧ g.self.length = b.length) ∧
          ∃ d, b.append (fun _ => 0) (some fun _ => 0) 55 = some d ∧
            d.self.content = b.content ++ read (fun _ => 0) 0 55 ∧
            d.self.length = b.length + 55) := by
  refine ⟨_, ⟨_, _, rfl, Machine.run_iff_exec.mpr rfl⟩,
    ⟨rfl, by decide, by decide, by decide, by decide, by decide, by decide, by decide⟩,
    by decide, _, rfl, rfl, ?_⟩
  rintro ⟨⟨-, hlen⟩, -⟩
  exact absurd hlen (by decide)

end Buffer

end Xsix

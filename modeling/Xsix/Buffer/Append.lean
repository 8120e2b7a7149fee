import Xsix.Buffer.Shape

/-!
What one operation does to a shaped buffer.

Each operation has one lemma that says everything a caller may use: the shape,
the length and the content after it, and that it stays inside the array. `append`
without growth is `appendInPlace_content` when the bytes fit into the free part,
and `appendInPlace_shaped` for the weaker room a buffer has right after growing;
`write_to` and `skip` move the head by `advanceHead_content`, and `deliver_cases` says
when `write_to` and `peek` deliver at all.
-/

namespace Xsix

open CInt Memory

namespace Buffer

variable {b : Buffer} {n : ℤ} (src : Bytes)

/-! ### Copying in -/

/-- Copying in `n` bytes from the tail on is one `memcpy` up to the end of the
array, or, for a tail not before the head, one up to the end and one from its
start. -/
lemma Shaped.appendCopy_cases (h : Shaped b) (h0 : 0 < n) (h1 : n ≤ b.mSize)
    (hroom : b.mTail < b.mHead → b.mTail + n ≤ b.mSize) :
    (b.mTail + n ≤ b.mSize ∧
      b.appendCopy src n = (b.withCells fun m => copy m b.mTail src 0 n,
        [.span .user n n 0 n, .span .data b.mSize b.allocated b.mTail n])) ∨
    (∃ right rest, right = b.mSize - b.mTail ∧ rest = n - right ∧ 0 < rest ∧
      b.mHead ≤ b.mTail ∧
      b.appendCopy src n
        = (b.withCells fun m => copy (copy m b.mTail src 0 right) 0 src right rest,
          [.span .user n n 0 right, .span .data b.mSize b.allocated b.mTail right,
            .span .user n n right rest, .span .data b.mSize b.allocated 0 rest])) := by
  obtain ⟨-, hs0, hs1, hh0, hh1, ht0, ht1, -⟩ := id h
  have hright : int32 (b.mSize - b.mTail) = b.mSize - b.mTail :=
    int32_eq_self ⟨by omega, by omega⟩
  have hn : uint64 n = n := uint64_eq_self h0.le (by omega)
  by_cases hle : b.mHead ≤ b.mTail
  · by_cases hfit : n ≤ b.mSize - b.mTail
    · refine Or.inl ⟨by omega, ?_⟩
      simp only [appendCopy, if_pos hle, hright, if_pos hfit, store, hn]
    · have hrest : int32 (n - (b.mSize - b.mTail)) = n - (b.mSize - b.mTail) :=
        int32_eq_self ⟨by omega, by omega⟩
      refine Or.inr ⟨_, _, rfl, rfl, by omega, hle, ?_⟩
      simp only [appendCopy, if_pos hle, hright, if_neg hfit, hrest, store,
        uint64_eq_self (by omega : 0 ≤ b.mSize - b.mTail) (by omega),
        uint64_eq_self (by omega : 0 ≤ n - (b.mSize - b.mTail)) (by omega),
        withCells_withCells, withCells_mSize, withCells_allocated]
      rfl
  · refine Or.inl ⟨hroom (by omega), ?_⟩
    simp only [appendCopy, if_neg hle, store, hn]

/-- The copies stay inside the array. -/
lemma Shaped.appendCopy_inLimit (h : Shaped b) (h0 : 0 < n) (h1 : n ≤ b.mSize)
    (hroom : b.mTail < b.mHead → b.mTail + n ≤ b.mSize) :
    ∀ τ ∈ (b.appendCopy src n).2, InLimit τ := by
  obtain ⟨-, hs0, hs1, hh0, hh1, ht0, ht1, -⟩ := id h
  rcases h.appendCopy_cases src h0 h1 hroom with
    ⟨hfit, heq⟩ | ⟨right, rest, hr, hrest, hpos, hle, heq⟩
  · simp only [heq, List.forall_mem_cons, InLimit, List.not_mem_nil, false_imp_iff, implies_true,
      and_true, true_and]
    omega
  · simp only [heq, List.forall_mem_cons, InLimit, List.not_mem_nil, false_imp_iff, implies_true,
      and_true, true_and]
    omega

/-- The copies change nothing but cells. -/
lemma Shaped.appendCopy_fst (h : Shaped b) (h0 : 0 < n) (h1 : n ≤ b.mSize)
    (hroom : b.mTail < b.mHead → b.mTail + n ≤ b.mSize) :
    ∃ f, (b.appendCopy src n).1 = b.withCells f := by
  rcases h.appendCopy_cases src h0 h1 hroom with
    ⟨-, heq⟩ | ⟨right, rest, -, -, -, -, heq⟩
  · exact ⟨_, by rw [heq]⟩
  · exact ⟨_, by rw [heq]⟩

/-- **The law of `append`'s copies.** When the bytes fit into the free part of
the circle, what was stored stays and the next `n` cells receive `src`. -/
lemma Shaped.appendCopy_cells (h : Shaped b) (h0 : 0 < n) (h1 : n ≤ b.mSize - b.length) :
    (∀ i, 0 ≤ i → i < b.length →
      (b.appendCopy src n).1.cells ((b.mHead + i) % b.mSize)
        = b.cells ((b.mHead + i) % b.mSize)) ∧
    ∀ i, 0 ≤ i → i < n →
      (b.appendCopy src n).1.cells ((b.mHead + b.length + i) % b.mSize) = src i := by
  obtain ⟨-, hs0, hs1, hh0, hh1, ht0, ht1, -⟩ := id h
  have hl0 := h.length_nonneg
  have htail : ∀ i, (b.mHead + b.length + i) % b.mSize = (b.mTail + i) % b.mSize := fun i => by
    rw [← h.head_add_length, Int.emod_add_emod]
  have hshape : (b.mHead ≤ b.mTail ∧ b.length = b.mTail - b.mHead) ∨
      (b.mTail < b.mHead ∧ b.length = b.mSize - b.mHead + b.mTail) := by
    rcases h.cases with ⟨-, he, hl⟩ | ⟨-, he, hl⟩ | ⟨-, he, hl⟩
    · omega
    · exact Or.inl ⟨he, hl⟩
    · exact Or.inr ⟨he, hl⟩
  rcases h.appendCopy_cases src h0 (by omega) (by omega) with
    ⟨hfit, heq⟩ | ⟨right, rest, hr, hrest, hpos, hle, heq⟩
  · simp only [heq, withCells_cells h.data]
    constructor
    · intro i hi0 hi1
      rw [emod_eq_ite (by omega) (by omega)]
      exact copy_apply_of_notMem (by split <;> omega)
    · intro i hi0 hi1
      rw [htail, Int.emod_eq_of_lt (by omega) (by omega),
        copy_apply_of_mem (by omega) (by omega)]
      congr 1
      omega
  · simp only [heq, withCells_cells h.data]
    constructor
    · intro i hi0 hi1
      rw [emod_eq_ite (by omega) (by omega)]
      rw [copy_apply_of_notMem (by split <;> omega), copy_apply_of_notMem (by split <;> omega)]
    · intro i hi0 hi1
      rw [htail, emod_eq_ite (by omega) (by omega)]
      split
      · rw [copy_apply_of_notMem (by omega), copy_apply_of_mem (by omega) (by omega)]
        congr 1
        omega
      · rw [copy_apply_of_mem (by omega) (by omega)]
        congr 1
        omega

/-! ### `append` once there is room -/

/-- The members after `append` has copied: only the tail and the flag moved. -/
lemma Shaped.appendInPlace_self (h : Shaped b) (h0 : 0 < n) (h1 : n ≤ b.mSize)
    (hsize : b.mSize ≤ 2 ^ 30) :
    (b.appendInPlace src n).self
      = { (b.appendCopy src n).1 with
          mTail := (b.mTail + n) % b.mSize
          mFull := decide ((b.appendCopy src n).1.mHead = (b.mTail + n) % b.mSize) } := by
  obtain ⟨-, hs0, hs1, hh0, hh1, ht0, ht1, -⟩ := id h
  have hsum : int32 (b.mTail + n) = b.mTail + n := int32_eq_self ⟨by omega, by omega⟩
  simp only [appendInPlace, checkFullAfterAppend, hsum, tmod_eq_emod (by omega : 0 ≤ b.mTail + n)]
  split_ifs with heq <;> simp [heq]

/-- The shape after `append` has copied, for as much room as a buffer has right
after growing. -/
lemma Shaped.appendInPlace_shaped (h : Shaped b) (h0 : 0 < n) (h1 : n ≤ b.mSize)
    (hsize : b.mSize ≤ 2 ^ 30) (hroom : b.mTail < b.mHead → b.mTail + n ≤ b.mSize) :
    Shaped (b.appendInPlace src n).self ∧ (b.appendInPlace src n).self.mSize = b.mSize ∧
      (b.appendInPlace src n).self.allocated = b.allocated ∧
      ∀ τ ∈ (b.appendInPlace src n).touched, InLimit τ := by
  obtain ⟨f, hf⟩ := h.appendCopy_fst src h0 h1 hroom
  have hself := h.appendInPlace_self src h0 h1 hsize
  rw [hf] at hself
  refine ⟨?_, by rw [hself]; rfl, ?_, ?_⟩
  · rw [hself]
    exact {
      data := by simpa using h.data
      size_pos := h.size_pos
      size_lt := h.size_lt
      head_nonneg := h.head_nonneg
      head_lt := h.head_lt
      tail_nonneg := Int.emod_nonneg _ h.size_pos.ne'
      tail_lt := Int.emod_lt_of_pos _ h.size_pos
      full_imp := of_decide_eq_true }
  · rw [hself]
    exact withCells_allocated
  · intro τ hτ
    rcases List.mem_append.mp hτ with hτ | hτ
    · exact h.appendCopy_inLimit src h0 h1 hroom τ hτ
    · rw [List.mem_singleton.mp hτ]
      exact h.size_pos.ne'

/-- **`append` without growth**: the content is extended by the `n` bytes. -/
lemma Shaped.appendInPlace_content (h : Shaped b) (h0 : 0 < n) (h1 : n ≤ b.mSize - b.length)
    (hsize : b.mSize ≤ 2 ^ 30) :
    (b.appendInPlace src n).self.length = b.length + n ∧
      (b.appendInPlace src n).self.content = b.content ++ read src 0 n := by
  obtain ⟨-, hs0, hs1, hh0, hh1, ht0, ht1, -⟩ := id h
  have hl0 := h.length_nonneg
  have hroom : b.mTail < b.mHead → b.mTail + n ≤ b.mSize := by
    rcases h.cases with ⟨-, he, hl⟩ | ⟨-, he, hl⟩ | ⟨-, he, hl⟩ <;> omega
  obtain ⟨f, hf⟩ := h.appendCopy_fst src h0 (by omega) hroom
  have hself := h.appendInPlace_self src h0 (by omega) hsize
  obtain ⟨hshaped, hms, -, -⟩ := h.appendInPlace_shaped src h0 (by omega) hsize hroom
  have hhead : (b.appendInPlace src n).self.mHead = b.mHead := by rw [hself, hf]; rfl
  have htail : (b.appendInPlace src n).self.mTail = (b.mTail + n) % b.mSize := by rw [hself]
  have hfull : (b.appendInPlace src n).self.mFull = decide (b.mHead = (b.mTail + n) % b.mSize) := by
    rw [hself, hf]; rfl
  have hcells : (b.appendInPlace src n).self.cells = (b.appendCopy src n).1.cells := by
    rw [hself]; rfl
  have hlen : (b.appendInPlace src n).self.length = b.length + n := by
    rw [emod_eq_ite (by omega) (by omega)] at htail hfull
    rcases hshaped.cases with ⟨hf', he', hl'⟩ | ⟨hf', he', hl'⟩ | ⟨hf', he', hl'⟩ <;>
      rw [hfull] at hf' <;> simp only [decide_eq_true_eq, decide_eq_false_iff_not] at hf' <;>
      rcases h.cases with ⟨-, he, hl⟩ | ⟨-, he, hl⟩ | ⟨-, he, hl⟩ <;>
      split_ifs at htail hf' <;> omega
  refine ⟨hlen, ?_⟩
  obtain ⟨hold, hnew⟩ := h.appendCopy_cells src h0 h1
  calc (b.appendInPlace src n).self.content
      = cyclic (b.appendCopy src n).1.cells b.mSize b.mHead (b.length + n) := by
        rw [content, hlen, hms, hhead, hcells]
    _ = b.content ++ read src 0 n := store_cyclic hl0 h0.le hold hnew

/-! ### Moving the head -/

lemma Shaped.advanceHead_eq (h : Shaped b) (h0 : 0 ≤ n) (h1 : n ≤ b.length)
    (hsize : b.mSize ≤ 2 ^ 30) :
    b.advanceHead n = { b with mHead := (b.mHead + n) % b.mSize, mFull := false } := by
  have hhead := h.head_nonneg
  have hlt := h.head_lt
  have hle := h.length_le
  have hsum : int32 (b.mHead + n) = b.mHead + n := int32_eq_self ⟨by omega, by omega⟩
  simp only [advanceHead, checkFullAfterWriteto, hsum, tmod_eq_emod (by omega : 0 ≤ b.mHead + n)]

/-- The shape after bytes that are there have been taken. -/
lemma Shaped.advanceHead_shaped (h : Shaped b) (h0 : 0 ≤ n) (h1 : n ≤ b.length)
    (hsize : b.mSize ≤ 2 ^ 30) : Shaped (b.advanceHead n) := by
  rw [h.advanceHead_eq h0 h1 hsize]
  exact { h with
    head_nonneg := Int.emod_nonneg _ h.size_pos.ne'
    head_lt := Int.emod_lt_of_pos _ h.size_pos
    full_imp := fun hf => absurd hf (by simp) }

/-- **Taking `n > 0` bytes** drops them off the front of the content. -/
lemma Shaped.advanceHead_content (h : Shaped b) (h0 : 0 < n) (h1 : n ≤ b.length)
    (hsize : b.mSize ≤ 2 ^ 30) :
    (b.advanceHead n).length = b.length - n ∧
      (b.advanceHead n).content = b.content.drop n.toNat := by
  obtain ⟨-, hs0, hs1, hh0, hh1, ht0, ht1, -⟩ := id h
  have hle := h.length_le
  have hself := h.advanceHead_eq h0.le h1 hsize
  have hshaped := h.advanceHead_shaped h0.le h1 hsize
  have hms : (b.advanceHead n).mSize = b.mSize := by rw [hself]
  have hhead : (b.advanceHead n).mHead = (b.mHead + n) % b.mSize := by rw [hself]
  have htail : (b.advanceHead n).mTail = b.mTail := by rw [hself]
  have hfull : (b.advanceHead n).mFull = false := by rw [hself]
  have hcells : (b.advanceHead n).cells = b.cells := by rw [hself]; rfl
  have hlen : (b.advanceHead n).length = b.length - n := by
    have hwrap := emod_eq_ite (m := b.mSize) (by omega : 0 ≤ b.mHead + n) (by omega)
    rw [hwrap] at hhead
    rcases hshaped.cases with ⟨hf', he', hl'⟩ | ⟨-, he', hl'⟩ | ⟨-, he', hl'⟩
    · simp [hfull] at hf'
    · rcases h.cases with ⟨-, he, hl⟩ | ⟨-, he, hl⟩ | ⟨-, he, hl⟩ <;> split at hhead <;> omega
    · rcases h.cases with ⟨-, he, hl⟩ | ⟨-, he, hl⟩ | ⟨-, he, hl⟩ <;> split at hhead <;> omega
  refine ⟨hlen, ?_⟩
  calc (b.advanceHead n).content
      = cyclic b.cells b.mSize ((b.mHead + n) % b.mSize) (b.length - n) := by
        rw [content, hlen, hms, hhead, hcells]
    _ = cyclic b.cells b.mSize (b.mHead + n) (b.length - n) := cyclic_emod_head
    _ = b.content.drop n.toNat := (drop_cyclic h0.le h1).symm

/-! ### Reading -/

/-- What `write_to` and `peek` do: nothing, without an array, for size zero or on an
empty buffer, or the copies of the first bytes, at most `length()` of them. -/
lemma deliver_cases (b : Buffer) (dst : Option Bytes) (n : ℤ) :
    ((dst = none ∨ n = 0 ∨ b.empty = true) ∧ b.writeTo dst n = ⟨(0, dst), b, []⟩ ∧
      b.peek dst n = ⟨(0, dst), b, []⟩) ∨
    ∃ m k, dst = some m ∧ n ≠ 0 ∧ b.empty = false ∧ (k = if b.length < n then b.length else n) ∧
      b.writeTo dst n = ⟨(k, some (b.copyOut n m k).1), b.advanceHead k,
        (b.copyOut n m k).2 ++ [.modulo b.mSize]⟩ ∧
      b.peek dst n = ⟨(k, some (b.copyOut n m k).1), b, (b.copyOut n m k).2⟩ := by
  cases dst with
  | none => exact Or.inl ⟨Or.inl rfl, rfl, rfl⟩
  | some m =>
      by_cases hzero : n = 0
      · exact Or.inl ⟨Or.inr (Or.inl hzero), by simp [writeTo, hzero], by simp [peek, hzero]⟩
      · cases hempty : b.empty with
        | true =>
            exact Or.inl ⟨Or.inr (Or.inr rfl), by simp [writeTo, hzero, hempty],
              by simp [peek, hzero, hempty]⟩
        | false =>
            exact Or.inr ⟨m, _, rfl, hzero, rfl, rfl, by simp [writeTo, hzero, hempty],
              by simp [peek, hzero, hempty]⟩

end Buffer

end Xsix

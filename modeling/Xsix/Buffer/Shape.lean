import Xsix.Buffer.Model

/-!
The shapes of a buffer and what its observers say in each of them.

`Shaped` is the index invariant of a buffer that has memory: positions inside
`[0, m_size)`, and `m_full` only when they meet. A shaped buffer is full,
straight (head not past tail) or wrapped, and `Shaped.cases` gives `length()` in
each shape; every other fact about the observers is arithmetic on it. `content`
is the abstraction: the `length()` bytes met from `m_head` on around the circle.
`WellFormed` adds that the block has as many cells as `m_size` says.
-/

namespace Xsix

open CInt Memory

namespace Buffer

variable {b : Buffer} {n : ℤ}

/-- The index invariant of a buffer that has memory. -/
structure Shaped (b : Buffer) : Prop where
  data : b.mData.isSome
  size_pos : 0 < b.mSize
  size_lt : b.mSize < 2 ^ 31
  head_nonneg : 0 ≤ b.mHead
  head_lt : b.mHead < b.mSize
  tail_nonneg : 0 ≤ b.mTail
  tail_lt : b.mTail < b.mSize
  full_imp : b.mFull = true → b.mHead = b.mTail

/-- A well-formed state: shaped, of admissible capacity, with that many cells. -/
structure WellFormed (b : Buffer) : Prop extends Shaped b where
  size_le : b.mSize ≤ bufferSizeMax
  cells_eq : b.allocated = b.mSize

/-- The bytes a buffer holds, first in first: the `length()` bytes read
cyclically from `m_head`. -/
def content (b : Buffer) : List UInt8 := cyclic b.cells b.mSize b.mHead b.length

/-! ### The observers -/

/-- The part from the head to the end of the array is a count of 32 bits. -/
lemma Shaped.int32_right (h : Shaped b) : int32 (b.mSize - b.mHead) = b.mSize - b.mHead := by
  obtain ⟨-, hs0, hs1, hh0, hh1, -, -, -⟩ := h
  exact int32_eq_self ⟨by omega, by omega⟩

/-- The three shapes, with the length of each. -/
lemma Shaped.cases (h : Shaped b) :
    (b.mFull = true ∧ b.mHead = b.mTail ∧ b.length = b.mSize) ∨
    (b.mFull = false ∧ b.mHead ≤ b.mTail ∧ b.length = b.mTail - b.mHead) ∨
    (b.mFull = false ∧ b.mTail < b.mHead ∧ b.length = b.mSize - b.mHead + b.mTail) := by
  obtain ⟨-, hs0, hs1, hh0, hh1, ht0, ht1, hf⟩ := id h
  cases hfull : b.mFull with
  | true => exact Or.inl ⟨rfl, hf hfull, by simp [length, empty, full, hfull]⟩
  | false =>
      rcases lt_trichotomy b.mHead b.mTail with hlt | heq | hgt
      · refine Or.inr (Or.inl ⟨rfl, hlt.le, ?_⟩)
        simp only [length, empty, full, hfull, beq_eq_false_iff_ne.mpr hlt.ne, if_pos hlt]
        exact int32_eq_self ⟨by omega, by omega⟩
      · exact Or.inr (Or.inl ⟨rfl, heq.le, by simp [length, empty, full, hfull, heq]⟩)
      · refine Or.inr (Or.inr ⟨rfl, hgt, ?_⟩)
        simp only [length, empty, full, hfull, beq_eq_false_iff_ne.mpr hgt.ne',
          if_neg (not_lt.mpr hgt.le), h.int32_right]
        exact int32_eq_self ⟨by omega, by omega⟩

namespace Shaped

lemma length_nonneg (h : Shaped b) : 0 ≤ b.length := by
  obtain ⟨-, hs0, hs1, hh0, hh1, ht0, ht1, -⟩ := id h
  rcases h.cases with ⟨-, he, hl⟩ | ⟨-, he, hl⟩ | ⟨-, he, hl⟩ <;> omega

lemma length_le (h : Shaped b) : b.length ≤ b.mSize := by
  obtain ⟨-, hs0, hs1, hh0, hh1, ht0, ht1, -⟩ := id h
  rcases h.cases with ⟨-, he, hl⟩ | ⟨-, he, hl⟩ | ⟨-, he, hl⟩ <;> omega

/-- A buffer in one piece. -/
lemma length_of_lt (h : Shaped b) (hlt : b.mHead < b.mTail) : b.length = b.mTail - b.mHead := by
  obtain ⟨-, hs0, hs1, hh0, hh1, ht0, ht1, -⟩ := id h
  rcases h.cases with ⟨-, he, hl⟩ | ⟨-, he, hl⟩ | ⟨-, he, hl⟩ <;> omega

lemma getFreeSize_eq (h : Shaped b) : b.getFreeSize = b.mSize - b.length :=
  have hl0 := h.length_nonneg
  have hl1 := h.length_le
  have hs1 := h.size_lt
  int32_eq_self ⟨by omega, by omega⟩

lemma full_iff (h : Shaped b) : b.full = true ↔ b.length = b.mSize := by
  obtain ⟨-, hs0, hs1, hh0, hh1, ht0, ht1, -⟩ := id h
  rw [full]
  rcases h.cases with ⟨hf, he, hl⟩ | ⟨hf, he, hl⟩ | ⟨hf, he, hl⟩
  · simp [hf, hl]
  · simp only [hf, hl, Bool.false_eq_true, false_iff]; omega
  · simp only [hf, hl, Bool.false_eq_true, false_iff]; omega

lemma empty_iff (h : Shaped b) : b.empty = true ↔ b.length = 0 := by
  obtain ⟨-, hs0, hs1, hh0, hh1, ht0, ht1, -⟩ := id h
  rw [empty, full]
  rcases h.cases with ⟨hf, he, hl⟩ | ⟨hf, he, hl⟩ | ⟨hf, he, hl⟩ <;>
    simp only [hf, hl, Bool.not_true, Bool.not_false, Bool.and_false, Bool.and_true,
      Bool.false_eq_true, false_iff, beq_iff_eq] <;> omega

lemma length_pos (h : Shaped b) (hempty : b.empty = false) : 0 < b.length := by
  have hne : b.length ≠ 0 := fun hz => by
    simp [h.empty_iff.mpr hz] at hempty
  exact h.length_nonneg.lt_of_ne' hne

/-- A buffer in two pieces: the part up to the end of the array, then `m_tail` bytes. -/
lemma length_of_not_lt (h : Shaped b) (hempty : b.empty = false) (hlt : ¬b.mHead < b.mTail) :
    b.length = (b.mSize - b.mHead) + b.mTail := by
  have hpos := h.length_pos hempty
  rcases h.cases with ⟨-, he, hl⟩ | ⟨-, he, hl⟩ | ⟨-, he, hl⟩ <;> omega

/-- The tail is where the content ends. -/
lemma head_add_length (h : Shaped b) : (b.mHead + b.length) % b.mSize = b.mTail := by
  obtain ⟨-, hs0, hs1, hh0, hh1, ht0, ht1, -⟩ := id h
  have hl0 := h.length_nonneg
  have hl1 := h.length_le
  rw [emod_eq_ite (by omega) (by omega)]
  rcases h.cases with ⟨-, he, hl⟩ | ⟨-, he, hl⟩ | ⟨-, he, hl⟩ <;> split <;> omega

/-- The content has `length()` bytes. -/
lemma length_content (h : Shaped b) : (b.content.length : ℤ) = b.length := by
  have := h.length_nonneg
  simp only [content, length_cyclic]
  omega

lemma empty_iff_content (h : Shaped b) : b.empty = true ↔ b.content = [] := by
  rw [h.empty_iff, ← h.length_content, ← List.length_eq_zero_iff]
  omega

end Shaped

/-! ### What a touch may reach -/

/-- The touch stays inside the cells the code takes the buffer's array to have,
and no remainder divides by zero. -/
def InLimit : Touch → Prop
  | .span .data limit _ off len => 0 ≤ off ∧ 0 ≤ len ∧ off + len ≤ limit
  | .span .fresh limit _ off len => 0 ≤ off ∧ 0 ≤ len ∧ off + len ≤ limit
  | .span .user _ _ _ _ => True
  | .span .tmp _ _ _ _ => True
  | .modulo divisor => divisor ≠ 0

/-- The touch stays inside the cells the buffer's array has. -/
def InAllocated : Touch → Prop
  | .span .data _ allocated off len => 0 ≤ off ∧ 0 ≤ len ∧ off + len ≤ allocated
  | .span .fresh _ allocated off len => 0 ≤ off ∧ 0 ≤ len ∧ off + len ≤ allocated
  | .span .user _ _ _ _ => True
  | .span .tmp _ _ _ _ => True
  | .modulo _ => True

/-! ### Writing the cells -/

section WithCells

variable {f g : Bytes → Bytes}

@[simp] lemma withCells_mSize : (b.withCells f).mSize = b.mSize := rfl

@[simp] lemma withCells_mHead : (b.withCells f).mHead = b.mHead := rfl

@[simp] lemma withCells_mTail : (b.withCells f).mTail = b.mTail := rfl

@[simp] lemma withCells_mFull : (b.withCells f).mFull = b.mFull := rfl

@[simp] lemma withCells_isSome : (b.withCells f).mData.isSome = b.mData.isSome := by
  simp [withCells]

@[simp] lemma withCells_allocated : (b.withCells f).allocated = b.allocated := by
  cases h : b.mData <;> simp [withCells, allocated, h]

lemma withCells_cells (h : b.mData.isSome) : (b.withCells f).cells = f b.cells := by
  obtain ⟨d, hd⟩ := Option.isSome_iff_exists.mp h
  simp [withCells, cells, hd]

lemma withCells_withCells : (b.withCells f).withCells g = b.withCells (g ∘ f) := by
  cases h : b.mData <;> simp [withCells, h]

end WithCells

/-! ### Copying out of the buffer -/

lemma load_eq {place : Place} {limit dstOff off len : ℤ} {dst : Bytes} (h0 : 0 ≤ len)
    (h1 : len < 2 ^ 64) : b.load place limit dst dstOff off len
      = (copy dst dstOff b.cells off len,
        [.span .data b.mSize b.allocated off len, .span place limit limit dstOff len]) := by
  rw [load, uint64_eq_self h0 h1]

/-- Copying out `n` bytes that are there is one `memcpy` up to the end of the
array, or one up to the end and one from its start. -/
lemma Shaped.copyOut_cases (h : Shaped b) (limit : ℤ) (dst : Bytes) (h0 : 0 ≤ n)
    (h1 : n ≤ b.length) :
    (b.mHead + n ≤ b.mSize ∧
      b.copyOut limit dst n = (copy dst 0 b.cells b.mHead n,
        [.span .data b.mSize b.allocated b.mHead n, .span .user limit limit 0 n])) ∨
    (∃ right rest, right = b.mSize - b.mHead ∧ rest = n - right ∧ 0 < rest ∧
      b.copyOut limit dst n = (copy (copy dst 0 b.cells b.mHead right) right b.cells 0 rest,
        [.span .data b.mSize b.allocated b.mHead right, .span .user limit limit 0 right,
          .span .data b.mSize b.allocated 0 rest, .span .user limit limit right rest])) := by
  obtain ⟨-, hs0, hs1, hh0, hh1, ht0, ht1, -⟩ := id h
  have hle := h.length_le
  have hright := h.int32_right
  by_cases hlt : b.mHead < b.mTail
  · refine Or.inl ⟨?_, ?_⟩
    · have hlen := h.length_of_lt hlt
      omega
    · simp only [copyOut, if_pos hlt]
      exact load_eq h0 (by omega)
  · by_cases hfit : n ≤ b.mSize - b.mHead
    · refine Or.inl ⟨by omega, ?_⟩
      simp only [copyOut, if_neg hlt, hright, if_pos hfit]
      exact load_eq h0 (by omega)
    · have hrest : int32 (n - (b.mSize - b.mHead)) = n - (b.mSize - b.mHead) :=
        int32_eq_self ⟨by omega, by omega⟩
      refine Or.inr ⟨_, _, rfl, rfl, by omega, ?_⟩
      simp only [copyOut, if_neg hlt, hright, if_neg hfit, hrest]
      rw [load_eq (by omega) (by omega), load_eq (by omega) (by omega)]
      rfl

/-- A prefix of the walk from the head stays inside the array. -/
lemma Shaped.copyOut_inLimit (h : Shaped b) (limit : ℤ) (dst : Bytes) (h0 : 0 ≤ n)
    (h1 : n ≤ b.length) : ∀ τ ∈ (b.copyOut limit dst n).2, InLimit τ := by
  obtain ⟨-, hs0, hs1, hh0, hh1, ht0, ht1, -⟩ := id h
  have hle := h.length_le
  rcases h.copyOut_cases limit dst h0 h1 with
    ⟨hfit, heq⟩ | ⟨right, rest, hr, hrest, hpos, heq⟩
  · simp only [heq, List.forall_mem_cons, InLimit, List.not_mem_nil, false_imp_iff, implies_true,
      and_true]
    omega
  · simp only [heq, List.forall_mem_cons, InLimit, List.not_mem_nil, false_imp_iff, implies_true,
      and_true, true_and]
    omega

/-- **What is delivered**: the first `n` bytes of the walk from the head. -/
lemma Shaped.read_copyOut (h : Shaped b) (limit : ℤ) (dst : Bytes) (h0 : 0 ≤ n)
    (h1 : n ≤ b.length) :
    read (b.copyOut limit dst n).1 0 n = cyclic b.cells b.mSize b.mHead n := by
  obtain ⟨-, hs0, hs1, hh0, hh1, ht0, ht1, -⟩ := id h
  have hle := h.length_le
  rcases h.copyOut_cases limit dst h0 h1 with
    ⟨hfit, heq⟩ | ⟨right, rest, hr, hrest, hpos, heq⟩
  · rw [heq, read_copy le_rfl (by omega), cyclic_eq_read hh0 hfit]
    simp
  · have hn : n = right + rest := by omega
    rw [heq, cyclic_eq_read_append hh0 hh1.le (by omega) (by omega), ← hr, ← hrest]
    conv_lhs => rw [hn]
    rw [read_add (by omega) (by omega), read_copy_of_disjoint (by omega),
      read_copy le_rfl (by omega), read_copy (by omega) (by omega)]
    simp

/-- The caller's array is untouched outside the delivered bytes. -/
lemma Shaped.copyOut_outside (h : Shaped b) (limit : ℤ) (dst : Bytes) (h0 : 0 ≤ n)
    (h1 : n ≤ b.length) {i : ℤ} (hi : i < 0 ∨ n ≤ i) :
    (b.copyOut limit dst n).1 i = dst i := by
  have hhead := h.head_lt
  rcases h.copyOut_cases limit dst h0 h1 with
    ⟨hfit, heq⟩ | ⟨right, rest, hr, hrest, hpos, heq⟩
  · simp only [heq]
    exact copy_apply_of_notMem (by omega)
  · simp only [heq]
    rw [copy_apply_of_notMem (by omega), copy_apply_of_notMem (by omega)]

end Buffer

end Xsix

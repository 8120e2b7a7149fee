import Mathlib.Data.List.TakeWhile
import Xsix.Buffer.Queue

/-!
`retrieve_all_as_string` beside `peek`.

It repeats the wrapped read of `peek` into a local array of `4096` bytes, and makes the
string from that array as from a C string. The copies are those of `peek(dst, length())`
(`retrieveCopy_fst`), so the string is the content up to its first zero byte, and the array is
outgrown by a content of `4096` bytes or more. `retrieve_agrees_iff` puts both together.
-/

namespace Xsix

open CInt Memory
open List (forall_mem_append forall_mem_singleton)

namespace Buffer

variable {b : Buffer}

/-- The touch stays inside the local array. -/
def InTmp : Touch → Prop
  | .span .tmp _ _ off len => 0 ≤ off ∧ 0 ≤ len ∧ off + len ≤ tmpSize
  | _ => True

/-- `retrieve_all_as_string` returns what `peek(dst, length())` delivers into any array,
stays inside its local array and leaves the buffer as it is. -/
structure AgreesWithPeek (b : Buffer) : Prop where
  text_eq : ∀ m : Bytes, ∃ m', (b.peek (some m) b.length).ret = (b.length, some m') ∧
    b.retrieveAllAsString.ret = Memory.read m' 0 b.length
  in_tmp : ∀ τ ∈ b.retrieveAllAsString.touched, InTmp τ
  unchanged : b.retrieveAllAsString.self = b

namespace Shaped

/-- The copies fill the local array as `peek` would an array of the caller. -/
lemma retrieveCopy_fst (h : Shaped b) (hempty : b.empty = false) (limit : ℤ) :
    b.retrieveCopy.1 = (b.copyOut limit (fun _ => 0) b.length).1 := by
  obtain ⟨-, hs0, hs1, hh0, hh1, ht0, ht1, -⟩ := id h
  have hright := h.int32_right
  by_cases hlt : b.mHead < b.mTail
  · simp only [retrieveCopy, copyOut, if_pos hlt]
    rfl
  · -- wrapped or full: the part up to the end of the array, then `m_tail` bytes
    have hlen := h.length_of_not_lt hempty hlt
    simp only [retrieveCopy, copyOut, if_neg hlt, hright]
    rw [load_eq ht0 (by omega), load_eq (by omega) (by omega)]
    by_cases htail : b.mTail = 0
    · rw [if_pos (by omega), load_eq (by omega) (by omega), htail, copy_zero]
      rw [show b.length = b.mSize - b.mHead by omega]
    · have hrest : int32 (b.length - (b.mSize - b.mHead)) = b.mTail := by
        rw [int32_eq_self ⟨by omega, by omega⟩]
        omega
      rw [if_neg (by omega), hrest, load_eq ht0 (by omega), load_eq (by omega) (by omega)]

/-- The copies stay inside the local array when the content does. -/
lemma retrieveCopy_inTmp (h : Shaped b) (hempty : b.empty = false) (hfit : b.length ≤ tmpSize) :
    ∀ τ ∈ b.retrieveCopy.2, InTmp τ := by
  obtain ⟨-, hs0, hs1, hh0, hh1, ht0, ht1, -⟩ := id h
  have hl0 := h.length_nonneg
  have hl1 := h.length_le
  have hright := h.int32_right
  by_cases hlt : b.mHead < b.mTail
  · simp only [retrieveCopy, if_pos hlt]
    rw [load_eq hl0 (by omega)]
    simp only [List.forall_mem_cons, InTmp, List.not_mem_nil, false_imp_iff, implies_true,
      and_true, true_and]
    omega
  · have hlen := h.length_of_not_lt hempty hlt
    simp only [retrieveCopy, if_neg hlt, hright]
    rw [load_eq (by omega) (by omega), load_eq ht0 (by omega)]
    simp only [List.cons_append, List.nil_append, List.forall_mem_cons, InTmp, List.not_mem_nil,
      false_imp_iff, implies_true, and_true, true_and]
    omega

/-- The string is the content up to its first zero byte. -/
lemma retrieve_ret (h : Shaped b) : b.retrieveAllAsString.ret = b.content.takeWhile (· ≠ 0) := by
  cases hempty : b.empty with
  | true =>
      rw [h.empty_iff_content.mp hempty]
      simp [retrieveAllAsString, hempty]
  | false =>
      simp only [retrieveAllAsString, hempty, Bool.false_eq_true, if_false]
      rw [h.retrieveCopy_fst hempty tmpSize, h.read_copyOut _ _ h.length_nonneg le_rfl]
      rfl

/-- What `peek(dst, length())` delivers is the content. -/
lemma peek_length (h : Shaped b) (m : Bytes) :
    ∃ m', (b.peek (some m) b.length).ret = (b.length, some m') ∧
      Memory.read m' 0 b.length = b.content := by
  have hl0 := h.length_nonneg
  rcases deliver_cases b (some m) b.length with
    ⟨hnone, -, hp⟩ | ⟨m', k, hm, -, -, hk, -, hp⟩
  · have hzero : b.length = 0 := by
      rcases hnone with hnone | hzero | hempty
      · simp at hnone
      · exact hzero
      · exact h.empty_iff.mp hempty
    refine ⟨m, by rw [hp, hzero], ?_⟩
    rw [content, hzero]
    rfl
  · obtain rfl : m = m' := Option.some.inj hm
    obtain rfl : k = b.length := by rw [hk, if_neg (lt_irrefl _)]
    refine ⟨_, by rw [hp], ?_⟩
    rw [h.read_copyOut _ _ hl0 le_rfl]
    rfl

end Shaped

/-- The terminator is written at `length()`, so it fits exactly when the content leaves a
byte of the local array. -/
lemma Shaped.retrieve_inTmp_iff (h : Shaped b) :
    (∀ τ ∈ b.retrieveAllAsString.touched, InTmp τ) ↔ b.length < tmpSize := by
  have hl0 := h.length_nonneg
  cases hempty : b.empty with
  | true =>
      have hzero := h.empty_iff.mp hempty
      simp [retrieveAllAsString, hempty, hzero, tmpSize]
  | false =>
      have htouched : b.retrieveAllAsString.touched
          = b.retrieveCopy.2 ++ [.span .tmp tmpSize tmpSize b.length 1] := by
        simp only [retrieveAllAsString, hempty, Bool.false_eq_true, if_false]
      rw [htouched, forall_mem_append, forall_mem_singleton]
      constructor
      · rintro ⟨-, -, -, hle⟩
        omega
      · intro hlt
        exact ⟨h.retrieveCopy_inTmp hempty hlt.le, hl0, by omega, by omega⟩

/-- **`retrieve_all_as_string` agrees with `peek` exactly when** the content has fewer than
`4096` bytes and none of them is zero. -/
theorem retrieve_agrees_iff (h : WellFormed b) :
    AgreesWithPeek b ↔ b.length < tmpSize ∧ 0 ∉ b.content := by
  have hs := h.toShaped
  have hself : b.retrieveAllAsString.self = b := by
    simp only [retrieveAllAsString]
    split <;> rfl
  have htext : b.content.takeWhile (· ≠ 0) = b.content ↔ 0 ∉ b.content := by
    rw [List.takeWhile_eq_self_iff]
    constructor
    · intro hall hmem
      simpa using hall 0 hmem
    · intro hnot x hx
      simpa using fun h0 : x = 0 => hnot (h0 ▸ hx)
  constructor
  · rintro ⟨hret, htmp, -⟩
    refine ⟨hs.retrieve_inTmp_iff.mp htmp, htext.mp ?_⟩
    obtain ⟨m', hpeek, hread⟩ := hret fun _ => 0
    obtain ⟨m'', hpeek', hcontent⟩ := hs.peek_length fun _ => 0
    obtain rfl : m' = m'' := by
      have heq := hpeek.symm.trans hpeek'
      simpa using heq
    calc b.content.takeWhile (· ≠ 0) = b.retrieveAllAsString.ret := hs.retrieve_ret.symm
      _ = Memory.read m' 0 b.length := hread
      _ = b.content := hcontent
  · rintro ⟨hlt, hzero⟩
    refine ⟨fun m => ?_, hs.retrieve_inTmp_iff.mpr hlt, hself⟩
    obtain ⟨m', hpeek, hcontent⟩ := hs.peek_length m
    refine ⟨m', hpeek, ?_⟩
    calc b.retrieveAllAsString.ret = b.content.takeWhile (· ≠ 0) := hs.retrieve_ret
      _ = b.content := htext.mpr hzero
      _ = Memory.read m' 0 b.length := hcontent.symm

/-- A wrapped ring of four cells that holds three bytes. -/
def ringOfThree : Buffer := ⟨some ⟨4, cStr [2, 3, 0, 1]⟩, 4, 3, 2, false⟩

lemma wellFormed_ringOfThree : WellFormed ringOfThree :=
  ⟨⟨rfl, by decide, by decide, by decide, by decide, by decide, by decide, by decide⟩,
    by decide, rfl⟩

theorem retrieve_agrees_ringOfThree :
    ringOfThree.content = [1, 2, 3] ∧ AgreesWithPeek ringOfThree :=
  ⟨by decide, (retrieve_agrees_iff wellFormed_ringOfThree).mpr ⟨by decide, by decide⟩⟩

/-- With a zero byte in the middle `peek` delivers three bytes and the string has one. -/
theorem retrieve_stops_at_zero :
    ∃ b : Buffer, (∃ d os, construct (.ofSize (fun _ => 0) 64) = some d ∧
        machine.Run d.self [.append (fun _ => 0) (some (cStr [1, 0, 3])) 3] os b) ∧
      WellFormed b ∧ b.length = 3 ∧ b.content = [1, 0, 3] ∧
      b.retrieveAllAsString.ret = [1] ∧ ¬AgreesWithPeek b := by
  refine ⟨_, ⟨_, _, rfl, Machine.run_iff_exec.mpr rfl⟩, ?_, by decide, by decide, by decide, ?_⟩
  · exact ⟨⟨rfl, by decide, by decide, by decide, by decide, by decide, by decide, by decide⟩,
      by decide, rfl⟩
  · rintro ⟨hret, -, -⟩
    obtain ⟨m', -, hread⟩ := hret fun _ => 0
    have hlen := congrArg List.length hread
    rw [length_read] at hlen
    exact absurd hlen (by decide)

end Buffer

end Xsix

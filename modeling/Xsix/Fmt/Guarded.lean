import Xsix.Fmt.Rendering
import Mathlib.Data.List.TakeWhile

/-!
What all callers of `fmt` in the repository rely on.

They hand it an array of zeros and read the array as a C string afterwards: `Logger::log`, the
function template `log` and the overload for strings. Not every call of `fmt` ends the string,
and escapes are left where the terminator should be; but only terminators ever go to the last
byte (`Guarded`), whatever the format and the arguments.

* `guarded_fmt`: a buffer whose last byte is zero keeps it.
-/

namespace Xsix

namespace Fmt

open CInt

/-- Nothing was written outside of the buffer, and its last byte is zero. -/
structure Guarded (s : Sheet) (size : ℤ) : Prop where
  inside : ∀ i ∈ s.written, 0 ≤ i ∧ i < size
  last : s.cells (size - 1) = 0

section Bytes

variable {s : Sheet} {size i : ℤ} {c : UInt8} {text : List UInt8}

/-- A byte inside of the buffer, and a terminator if it is the last. -/
lemma Guarded.put (h : Guarded s size) (hnonneg : 0 ≤ i) (hlt : i < size)
    (hlast : i = size - 1 → c = 0) : Guarded (s.put i c) size where
  inside j hj := by
    rcases List.mem_append.mp hj with hj | hj
    · exact h.inside j hj
    · rw [List.mem_singleton.mp hj]
      exact ⟨hnonneg, hlt⟩
  last := by
    rw [Sheet.put_cells]
    split_ifs with heq
    · exact hlast heq.symm
    · exact h.last

/-- A text and its terminator. -/
lemma Guarded.puts (h : Guarded s size) (hnonneg : 0 ≤ i) (hroom : i + text.length ≤ size - 1) :
    Guarded (s.puts i (text ++ [0])) size := by
  induction text generalizing s i with
  | nil => exact h.put hnonneg (by simp at hroom; omega) fun _ => rfl
  | cons c text ih =>
      rw [List.length_cons] at hroom
      push_cast at hroom
      exact ih (h.put hnonneg (by omega) (by omega)) (by omega) (by omega)

/-- A string that begins inside of the buffer ends there. -/
lemma Guarded.cString_lt (h : Guarded s size) (hpos : 1 ≤ size) :
    (s.cString size.toNat).length < size.toNat := by
  rw [Sheet.cString]
  set cs := (List.range size.toNat).map fun i : ℕ => s.cells i with hcs
  have hlen : cs.length = size.toNat := by simp [hcs]
  refine lt_of_le_of_ne (hlen ▸ (List.takeWhile_prefix _).length_le) fun heq => ?_
  -- the whole buffer would be characters, the last byte too
  have hall : cs.takeWhile (· ≠ 0) = cs :=
    (List.takeWhile_prefix _).eq_of_length (by rw [heq, hlen])
  have hmem : (0 : UInt8) ∈ cs :=
    List.mem_map.mpr ⟨(size - 1).toNat, List.mem_range.mpr (by omega), by
      rw [Int.toNat_of_nonneg (by omega)]
      exact h.last⟩
  exact absurd (List.takeWhile_eq_self_iff.mp hall 0 hmem) (by decide)

end Bytes

/-! ### The loops -/

variable {s s' : Sheet} {size cur : ℤ} {format : List UInt8}

/-- What the loop of the variadic `fmt` keeps: the last byte, and a cursor before it at a
placeholder. -/
def Scanned.Guards (size : ℤ) : Scanned → Prop
  | .finished s => Guarded s size
  | .placeholder s cur _ => Guarded s size ∧ 0 ≤ cur ∧ cur < size - 1

lemma scanFormat_guards (format : List UInt8) (h : Guarded s size) (hnonneg : 0 ≤ cur) :
    (scanFormat s (size - 1) cur format).Guards size := by
  induction format using tokens.induct generalizing s cur with
  | case1 => exact h
  | case2 =>
      rw [scanFormat, if_pos rfl]
      split_ifs with hlt
      · exact ⟨h, hnonneg, hlt⟩
      · exact h
  | case3 c hc =>
      rw [scanFormat, if_neg hc]
      split_ifs with hlt
      · exact h.put hnonneg (by omega) (by omega)
      · exact h
  | case4 format ih =>
      rw [scanFormat, if_pos rfl, if_pos rfl]
      split_ifs with hlt
      · exact ih (h.put hnonneg (by omega) (by omega)) hnonneg
      · exact h
  | case5 d format hd ih =>
      rw [scanFormat, if_pos rfl, if_neg hd]
      split_ifs with hlt
      · exact ⟨h, hnonneg, hlt⟩
      · exact h
  | case6 c d format hc ih =>
      rw [scanFormat, if_neg hc]
      split_ifs with hlt
      · exact ih (h.put hnonneg (by omega) (by omega)) (by omega)
      · exact h

/-- The copying loop stops before the last byte. -/
lemma copyFormat_guards (format : List UInt8) (h : Guarded s size) (hnonneg : 0 ≤ cur) :
    Guarded (copyFormat s (size - 1) cur format).1 size ∧
      0 ≤ (copyFormat s (size - 1) cur format).2 := by
  induction format generalizing s cur with
  | nil => exact ⟨h, hnonneg⟩
  | cons c format ih =>
      rw [copyFormat]
      split_ifs with hlt
      · exact ih (h.put hnonneg (by omega) (by omega)) (by omega)
      · exact ⟨h, hnonneg⟩

lemma fmtEnd_guards {n : ℕ} (h : Guarded s size) (hroom : (n : ℤ) ≤ size - 1)
    (hfmt : fmtEnd s n (size - n) format = .ok s') : Guarded s' size := by
  have hend : (n : ℤ) + (size - n) - 1 = size - 1 := by ring
  obtain ⟨hcopy, hcur⟩ := copyFormat_guards format h (Int.natCast_nonneg n)
  rw [fmtEnd, hend] at hfmt
  split_ifs at hfmt
  obtain rfl := Except.ok.inj hfmt
  split_ifs with hlt
  · exact (hcopy.put hcur (by omega) fun _ => rfl).put (by omega) (by omega) fun _ => rfl
  · exact hcopy.put (by omega) (by omega) fun _ => rfl

/-! ### The calls -/

/-- **One argument after the other**, the last byte stays. -/
lemma fmt_guards {args : List Text} {n : ℕ} (h : Guarded s size) (hroom : (n : ℤ) ≤ size - 1)
    (hsize : IsInt32 size) (hfmt : fmt s n (size - n) format (args.map Text.bytes) = .ok s') :
    Guarded s' size := by
  induction args generalizing s n format with
  | nil =>
      rw [List.map_nil, fmt] at hfmt
      exact fmtEnd_guards h hroom hfmt
  | cons val args ih =>
      have hend : (n : ℤ) + (size - n) - 1 = size - 1 := by ring
      have hscanned := scanFormat_guards format h (Int.natCast_nonneg n)
      rw [List.map_cons, fmt, hend] at hfmt
      split_ifs at hfmt
      · obtain rfl := Except.ok.inj hfmt
        exact h
      · cases hscan : scanFormat s (size - 1) n format with
        | finished t =>
            rw [hscan] at hscanned
            simp only [hscan] at hfmt
            obtain rfl := Except.ok.inj hfmt
            exact hscanned
        | placeholder t cur format' =>
            rw [hscan] at hscanned
            obtain ⟨ht, hnonneg, hlt⟩ := hscanned
            lift cur to ℕ using hnonneg
            -- the text is cut before the last byte, and its terminator may go there
            simp only [hscan, v2s_eq _ hlt hsize val] at hfmt
            simp only [remain_eq hsize hlt.le, step_eq hlt] at hfmt
            rw [remain_eq hsize (by omega)] at hfmt
            exact ih (ht.puts (by omega) (by rw [List.length_take]; omega)) (by omega) hfmt

end Fmt

end Xsix

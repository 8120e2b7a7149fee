import Xsix.Library.CInt

/-!
Memories as functions from an index to a cell, read straight or around a circle.

* `read m off len`: the `len` cells from `off` on.
* `cyclic m size head len`: the `len` cells met from `head` on when walking
  around a circle of `size` cells. It is a straight read while it stays below
  `size` (`cyclic_eq_read`), two reads once it wraps (`cyclic_eq_read_append`),
  splits at any point (`cyclic_add`), and a shorter walk is its front
  (`take_cyclic`, `drop_cyclic`).
* `copy dst off src srcOff len`: `dst` after `memcpy`; what was copied reads back
  (`read_copy`), the rest is untouched (`read_copy_of_disjoint`).
* `write dst off xs`: `dst` after a list was copied to `off`; it reads back
  (`read_write`), and cells before it are untouched (`read_write_of_le`).
* `store_cyclic` is the law of a circular write: cells written in the free part
  of a circle extend the walk at its end.
-/

namespace Memory

open CInt

variable {α : Type*} {m m' dst src : ℤ → α} {size head off srcOff len a b : ℤ}

/-- The `len` cells from `off` on. -/
def read (m : ℤ → α) (off len : ℤ) : List α :=
  (List.range len.toNat).map fun i : ℕ => m (off + (i : ℤ))

/-- The `len` cells met from `head` on around a circle of `size` cells. -/
def cyclic (m : ℤ → α) (size head len : ℤ) : List α :=
  (List.range len.toNat).map fun i : ℕ => m ((head + (i : ℤ)) % size)

/-- `dst` after `len` cells were copied to `off` from `srcOff` of `src`. -/
def copy (dst : ℤ → α) (off : ℤ) (src : ℤ → α) (srcOff len : ℤ) : ℤ → α :=
  fun i => if off ≤ i ∧ i < off + len then src (srcOff + (i - off)) else dst i

/-- `dst` after the elements of `xs` were copied to `off`. -/
def write (dst : ℤ → α) (off : ℤ) (xs : List α) : ℤ → α :=
  fun i => if off ≤ i then xs.getD (i - off).toNat (dst i) else dst i

/-! ### Lengths, congruence and splitting -/

@[simp] lemma length_read : (read m off len).length = len.toNat := by simp [read]

@[simp] lemma length_cyclic : (cyclic m size head len).length = len.toNat := by simp [cyclic]

@[simp] lemma read_zero : read m off 0 = [] := rfl

@[simp] lemma cyclic_zero : cyclic m size head 0 = [] := rfl

lemma read_congr (h : ∀ i, 0 ≤ i → i < len → m (off + i) = m' (srcOff + i)) :
    read m off len = read m' srcOff len := by
  refine List.map_congr_left fun i hi => ?_
  have hlt := List.mem_range.mp hi
  exact h i (by omega) (by omega)

lemma cyclic_congr (h : ∀ i, 0 ≤ i → i < len → m ((head + i) % size) = m' ((head + i) % size)) :
    cyclic m size head len = cyclic m' size head len := by
  refine List.map_congr_left fun i hi => ?_
  have hlt := List.mem_range.mp hi
  exact h i (by omega) (by omega)

lemma read_add (ha : 0 ≤ a) (hb : 0 ≤ b) :
    read m off (a + b) = read m off a ++ read m (off + a) b := by
  have hn : (a + b).toNat = a.toNat + b.toNat := by omega
  rw [read, hn, List.range_add, List.map_append, List.map_map]
  refine congrArg _ (List.map_congr_left fun i _ => ?_)
  simp only [Function.comp_apply]
  congr 1
  push_cast
  omega

/-- A walk splits at any of its points. -/
lemma cyclic_add (ha : 0 ≤ a) (hb : 0 ≤ b) :
    cyclic m size head (a + b) = cyclic m size head a ++ cyclic m size (head + a) b := by
  have hn : (a + b).toNat = a.toNat + b.toNat := by omega
  rw [cyclic, hn, List.range_add, List.map_append, List.map_map]
  refine congrArg _ (List.map_congr_left fun i _ => ?_)
  simp only [Function.comp_apply]
  congr 2
  push_cast
  omega

/-- A walk may start one turn later. -/
@[simp] lemma cyclic_emod_head : cyclic m size (head % size) len = cyclic m size head len := by
  simp [cyclic, Int.emod_add_emod]

/-- The front of a walk is a shorter walk. -/
lemma take_cyclic (ha : 0 ≤ a) (h : a ≤ len) :
    (cyclic m size head len).take a.toNat = cyclic m size head a := by
  obtain ⟨b, rfl⟩ : ∃ b, len = a + b := ⟨len - a, by omega⟩
  rw [cyclic_add ha (by omega), List.take_left' (by simp)]

/-- What a shorter walk leaves is the walk from where it stopped. -/
lemma drop_cyclic (ha : 0 ≤ a) (h : a ≤ len) :
    (cyclic m size head len).drop a.toNat = cyclic m size (head + a) (len - a) := by
  obtain ⟨b, rfl⟩ : ∃ b, len = a + b := ⟨len - a, by omega⟩
  rw [cyclic_add ha (by omega), List.drop_left' (by simp)]
  congr 1
  omega

/-! ### Straight and wrapped walks -/

/-- A walk that stays below the end of the circle is a straight read. -/
lemma cyclic_eq_read (h0 : 0 ≤ head) (h : head + len ≤ size) :
    cyclic m size head len = read m head len := by
  refine List.map_congr_left fun i hi => ?_
  have hlt := List.mem_range.mp hi
  rw [Int.emod_eq_of_lt (by omega) (by omega)]

/-- A walk that passes the end once is two straight reads. -/
lemma cyclic_eq_read_append (h0 : 0 ≤ head) (h1 : head ≤ size) (h2 : size ≤ head + len)
    (h3 : head + len ≤ 2 * size) :
    cyclic m size head len
      = read m head (size - head) ++ read m 0 (len - (size - head)) := by
  have hsplit : len = (size - head) + (len - (size - head)) := by omega
  have hwrap : cyclic m size (head + (size - head)) (len - (size - head))
      = read m 0 (len - (size - head)) := by
    rw [show head + (size - head) = 0 + size from by omega,
      ← cyclic_emod_head, Int.add_emod_right, cyclic_emod_head]
    exact cyclic_eq_read le_rfl (by omega)
  conv_lhs => rw [hsplit]
  rw [cyclic_add (by omega) (by omega), cyclic_eq_read h0 (by omega), hwrap]

/-! ### `memcpy` -/

lemma copy_apply_of_mem {i : ℤ} (h0 : off ≤ i) (h1 : i < off + len) :
    copy dst off src srcOff len i = src (srcOff + (i - off)) := by
  rw [copy, if_pos ⟨h0, h1⟩]

lemma copy_apply_of_notMem {i : ℤ} (h : i < off ∨ off + len ≤ i) :
    copy dst off src srcOff len i = dst i := by
  rw [copy, if_neg (by omega)]

@[simp] lemma copy_zero : copy dst off src srcOff 0 = dst :=
  funext fun _ => copy_apply_of_notMem (by omega)

/-- What was copied reads back, from any part of the copied range. -/
lemma read_copy (h0 : off ≤ a) (h1 : a + b ≤ off + len) :
    read (copy dst off src srcOff len) a b = read src (srcOff + (a - off)) b := by
  refine read_congr fun i hi0 hi1 => ?_
  rw [copy_apply_of_mem (by omega) (by omega)]
  congr 1
  omega

/-- A read that misses the copied range sees the old cells. -/
lemma read_copy_of_disjoint (h : a + b ≤ off ∨ off + len ≤ a) :
    read (copy dst off src srcOff len) a b = read dst a b :=
  read_congr fun i hi0 hi1 => copy_apply_of_notMem (by omega)

/-- A read that ends where a list was written sees the old cells. -/
lemma read_write_of_le {xs : List α} (h : a + b ≤ off) :
    read (write dst off xs) a b = read dst a b :=
  read_congr fun i hi0 hi1 => if_neg (by omega)

/-- A list that was written reads back. -/
lemma read_write {xs : List α} : read (write dst off xs) off xs.length = xs := by
  refine List.ext_getElem (by simp) fun i hi _ => ?_
  have hlt : i < xs.length := by simpa using hi
  simp [read, write, hlt]

/-- **The law of a circular write.** If the cells of a circle outside the next
`n` after a walk keep their contents and those next `n` receive `src`, the walk
is extended by what `src` held. -/
lemma store_cyclic {n : ℤ} (hlen : 0 ≤ len) (hn : 0 ≤ n)
    (hold : ∀ i, 0 ≤ i → i < len → m' ((head + i) % size) = m ((head + i) % size))
    (hnew : ∀ i, 0 ≤ i → i < n → m' ((head + len + i) % size) = src i) :
    cyclic m' size head (len + n) = cyclic m size head len ++ read src 0 n := by
  rw [cyclic_add hlen hn, cyclic_congr hold]
  refine congrArg _ (List.map_congr_left fun i hi => ?_)
  have hlt := List.mem_range.mp hi
  rw [hnew i (by omega) (by omega), zero_add]

end Memory

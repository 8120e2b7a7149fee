import Xsix.Buffer.Safety
import Xsix.Buffer.Queue

/-!
The buffer a string builds.

`copy_from` takes the length of the string and a capacity of half as much again, and
sets `m_full` by a test of its own, of the tail it has just reduced modulo the capacity
against that capacity. `HoldsString` says what a queue that holds the string would answer. As
long as the capacity exceeds the length the tail is the length and the answers are those
(`holdsString_of_lt`); where half the length rounds to nothing the tail comes back to the
head, the flag stays off, and they are not: `ofString_holds_iff`.
-/

namespace Xsix

open CInt Memory

namespace Buffer

variable {b : Buffer} {fresh : Bytes} {s : List UInt8}

/-- `ret` is what a reading call returns that delivers `xs`, and nothing else, into the
array `m`. -/
def Delivers (m : Bytes) (xs : List UInt8) (ret : ℤ × Option Bytes) : Prop :=
  ∃ m', ret = ((xs.length : ℤ), some m') ∧ Received m m' xs

/-- The observers and the reading calls describe a queue that holds `s`. -/
structure HoldsString (b : Buffer) (s : List UInt8) : Prop where
  length_eq : b.length = s.length
  empty_iff : b.empty = true ↔ s = []
  full_iff : b.full = true ↔ b.length = b.size
  free_eq : b.getFreeSize = b.size - s.length
  peek : ∀ (n : Int32) (m : Bytes), 0 < n.toInt →
    Delivers m (s.take n.toInt.toNat) (b.peek (some m) n.toInt).ret
  writeTo : ∀ (n : Int32) (m : Bytes), 0 < n.toInt →
    Delivers m (s.take n.toInt.toNat) (b.writeTo (some m) n.toInt).ret

/-- A shaped buffer with the content `s` holds `s`. -/
lemma Shaped.holdsString (h : Shaped b) (hs : b.content = s) : HoldsString b s := by
  have hlen : b.length = s.length := by rw [← hs, h.length_content]
  have hl1 := h.length_le
  -- both calls settle on the same array
  have hboth : ∀ (n : Int32) (m : Bytes), 0 < n.toInt →
      Delivers m (s.take n.toInt.toNat) (b.peek (some m) n.toInt).ret ∧
      Delivers m (s.take n.toInt.toNat) (b.writeTo (some m) n.toInt).ret := by
    intro n m hn
    rcases h.delivered m hn with ⟨hnil, hw, hp⟩ | ⟨hpos, hw, -, hp, -⟩
    · have htake : s.take n.toInt.toNat = [] := by rw [← hs, hnil, List.take_nil]
      have hgot : Delivers m [] (0, some m) := ⟨m, rfl, rfl, fun i _ => rfl⟩
      rw [hw, hp, htake]
      exact ⟨hgot, hgot⟩
    · have htake : b.content.take (min n.toInt b.length).toNat = s.take n.toInt.toNat := by
        rw [hs, List.take_eq_take_iff]
        omega
      have hcount : ((s.take n.toInt.toNat).length : ℤ) = min n.toInt b.length := by
        rw [List.length_take]
        omega
      have hreceived := h.received_copyOut n.toInt m hpos.le (min_le_right _ _)
      rw [htake] at hreceived
      rw [hw, hp]
      exact ⟨⟨_, by rw [hcount], hreceived⟩, ⟨_, by rw [hcount], hreceived⟩⟩
  exact {
    length_eq := hlen
    empty_iff := by rw [h.empty_iff_content, hs]
    full_iff := h.full_iff
    free_eq := by rw [h.getFreeSize_eq, size, hlen]
    peek := fun n m hn => (hboth n m hn).1
    writeTo := fun n m hn => (hboth n m hn).2 }

/-- The first `len` bytes of a string, read behind its `c_str()`. -/
lemma read_cStr (s : List UInt8) : Memory.read (cStr s) 0 s.length = s := by
  refine List.ext_getElem (by simp) fun i hi _ => ?_
  have hlt : i < s.length := by simpa using hi
  simp [Memory.read, cStr, hlt]

/-- The members of a buffer built from a string that is not empty. -/
lemma ofString_self (fresh : Bytes) (hpos : 0 < s.length)
    (hlen : s.length + s.length / 2 ≤ 2 ^ 31 - 1) :
    (ofString fresh s).self
      = ⟨some ⟨s.length, copy fresh 0 (cStr s) 0 s.length⟩, (s.length + s.length / 2 : ℕ), 0,
        (s.length : ℤ) % (s.length + s.length / 2 : ℕ), false⟩ := by
  have h0 : int32 s.length = s.length := int32_eq_self ⟨by omega, by omega⟩
  have h1 : int32 ((s.length : ℤ) + (s.length : ℤ) / 2) = (s.length + s.length / 2 : ℕ) := by
    rw [int32_eq_self ⟨by omega, by omega⟩]
    push_cast
    rfl
  rw [ofString, h0, h1, copyFrom_eq fresh _ ⟨by omega, by omega⟩ (by omega) (by omega)]

/-- **Where the capacity exceeds the length** the buffer is a queue that holds the
string. -/
lemma holdsString_of_lt (fresh : Bytes) (htwo : 2 ≤ s.length)
    (hlen : s.length + s.length / 2 ≤ 2 ^ 31 - 1) : HoldsString (ofString fresh s).self s := by
  have hself := ofString_self fresh (by omega) hlen
  have htail : (s.length : ℤ) % (s.length + s.length / 2 : ℕ) = s.length :=
    Int.emod_eq_of_lt (by omega) (by omega)
  rw [htail] at hself
  have hshaped : Shaped (ofString fresh s).self := by
    rw [hself]
    exact ⟨rfl, by simp only; omega, by simp only; omega, le_rfl, by simp only; omega,
      by simp only; omega, by simp only; omega, fun hf => absurd hf (by simp)⟩
  have hcount : (ofString fresh s).self.length = s.length := by
    rw [hself] at hshaped ⊢
    rcases hshaped.cases with ⟨hf, -, -⟩ | ⟨-, -, hl⟩ | ⟨-, he, -⟩
    · simp at hf
    · rw [hl]
      exact sub_zero _
    · simp only at he
      omega
  refine hshaped.holdsString ?_
  calc (ofString fresh s).self.content
      = cyclic (copy fresh 0 (cStr s) 0 s.length) (s.length + s.length / 2 : ℕ) 0 s.length := by
        rw [content, hcount, hself]
        rfl
    _ = read (copy fresh 0 (cStr s) 0 s.length) 0 s.length := cyclic_eq_read le_rfl (by omega)
    _ = read (cStr s) 0 s.length := by
        rw [read_copy le_rfl le_rfl]
        simp
    _ = s := read_cStr s

/-- **A string-constructed buffer starts as a queue holding that string exactly when
the string has two bytes or more.** Below that the capacity is the length, and the flag that
would tell a full buffer is not set. -/
theorem ofString_holds_iff (fresh : Bytes) (s : List UInt8)
    (hlen : s.length + s.length / 2 ≤ 2 ^ 31 - 1) :
    HoldsString (ofString fresh s).self s ↔ 2 ≤ s.length := by
  constructor
  · intro h
    by_contra hshort
    -- the capacity is the length, so the queue would have to be full, and its flag is off
    have hoff : (ofString fresh s).self.full = false ∧ (ofString fresh s).self.size = s.length := by
      rcases s.length.eq_zero_or_pos with hzero | hpos
      · obtain rfl := List.length_eq_zero_iff.mp hzero
        exact ⟨rfl, rfl⟩
      · rw [ofString_self fresh hpos hlen]
        refine ⟨rfl, ?_⟩
        simp only [size]
        omega
    have hfull := h.full_iff.mpr (h.length_eq.trans hoff.2.symm)
    rw [hoff.1] at hfull
    exact absurd hfull (by simp)
  · intro htwo
    exact holdsString_of_lt fresh htwo hlen

theorem ofString_holds_iff_helloworld :
    let s : List UInt8 := [104, 101, 108, 108, 111, 119, 111, 114, 108, 100]
    s.length + s.length / 2 ≤ 2 ^ 31 - 1 ∧ HoldsString (ofString (fun _ => 0) s).self s :=
  ⟨by decide, (ofString_holds_iff (fun _ => 0) _ (by decide)).mpr (by decide)⟩

/-- The buffer built from a string of one byte calls itself empty. -/
theorem ofString_one_byte :
    ([120] : List UInt8).length + ([120] : List UInt8).length / 2 ≤ 2 ^ 31 - 1 ∧
      (ofString (fun _ => 0) [120]).self.length = 0 ∧
      (ofString (fun _ => 0) [120]).self.empty = true ∧
      (ofString (fun _ => 0) [120]).self.size = 1 ∧
      ¬HoldsString (ofString (fun _ => 0) [120]).self [120] := by
  refine ⟨by decide, by decide, by decide, by decide, fun h => ?_⟩
  have hlen : (ofString (fun _ => 0) [120]).self.length = 0 := by decide
  exact absurd (hlen.symm.trans h.length_eq) (by decide)

end Buffer

end Xsix

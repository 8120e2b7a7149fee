import Xsix.Library.CInt

/-!
`xsix::bits<SlotCount>` (`bits.hpp`): an array of booleans packed into bytes.

The indices are `int32_t`; a byte that is read or changed is promoted to `int`, combined with
the mask `0x01 << bit_index` and cut back to its eight bits. An access outside `m_bytes`
is `none`, so an operation that returns has stayed inside. The counts modelled are those
below `2 ^ 31 - 8`, where the enumerators are values of `int` and the loops over them end.

* `Bits.set`, `Bits.get`, `Bits.toggle`, `Bits.getBitString`: the members.
* `bit_set`: a write changes the bit it names and no other, in its own byte or elsewhere.
* `Made`: the objects that construction, copies, assignments, `set` and `toggle` make, with
  the operations their content goes back to.
* `made_independent`: such an object is the array of booleans its history describes.
-/

namespace Xsix

/-- `BITS_COUNT`, an `int`. -/
def bitsCount (slotCount : UInt32) : ℤ := slotCount.toNat

/-- `BYTE_COUNT`, computed in the `uint32_t` of the template parameter. -/
def byteCount (slotCount : UInt32) : ℕ := ((slotCount + 7) / 8).toNat

/-- A `bits<SlotCount>`. -/
structure Bits (slotCount : UInt32) where
  mBytes : Vector (BitVec 8) (byteCount slotCount)
  deriving DecidableEq

namespace Bits

variable {N : UInt32}

/-- The byte `m_bytes[i]`, `none` when there is no such byte. -/
def byte? (b : Bits N) (i : ℤ) : Option (BitVec 8) :=
  if 0 ≤ i then b.mBytes[i.toNat]? else none

/-- `m_bytes[i] = x`, `none` when there is no such byte. -/
def store (b : Bits N) (i : ℤ) (x : BitVec 8) : Option (Bits N) :=
  if h : 0 ≤ i ∧ i.toNat < byteCount N then some ⟨b.mBytes.set i.toNat x h.2⟩ else none

/-- `0x01 << bit_index`, an `int`. -/
def mask (bitIndex : ℤ) : BitVec 32 := 1#32 <<< bitIndex.toNat

/-- The guard of every operation: `index >= 0 && index < BITS_COUNT`. -/
def InRange (N : UInt32) (index : Int32) : Prop :=
  0 ≤ index.toInt ∧ index.toInt < bitsCount N

instance {index : Int32} : Decidable (InRange N index) :=
  inferInstanceAs (Decidable (_ ∧ _))

/-- `set(index, v)`. -/
def set (b : Bits N) (index : Int32) (v : Bool) : Option (Bits N) :=
  if InRange N index then do
    let byteIndex := index.toInt.tdiv 8
    let bitIndex := index.toInt.tmod 8
    let old ← b.byte? byteIndex
    if v then
      b.store byteIndex ((old.setWidth 32 ||| mask bitIndex).setWidth 8)
    else
      b.store byteIndex ((old.setWidth 32 &&& ~~~mask bitIndex).setWidth 8)
  else some b

/-- `get(index)`. -/
def get (b : Bits N) (index : Int32) : Option Bool :=
  if InRange N index then do
    let byteIndex := index.toInt.tdiv 8
    let bitIndex := index.toInt.tmod 8
    let old ← b.byte? byteIndex
    some ((old.setWidth 32 &&& mask bitIndex) != 0)
  else some false

/-- `toggle(index)`. -/
def toggle (b : Bits N) (index : Int32) : Option (Bits N) :=
  if InRange N index then do
    let v ← b.get index
    b.set index !v
  else some b

/-- `get_bit_string()`. -/
def getBitString (b : Bits N) : Option (List Char) :=
  (List.range N.toNat).mapM fun i => do
    let v ← b.get (Int32.ofNat i)
    some (if v then '1' else '0')

/-- `clear_all()`. -/
def clearAll (b : Bits N) : Option (Bits N) :=
  (List.range (byteCount N)).foldlM (fun b (i : ℕ) => b.store i 0) b

/-- The constructor `bits()`, over whatever the memory of the bytes holds. -/
def construct (raw : Bits N) : Option (Bits N) := raw.clearAll

/-- The copy constructor: `memcpy` of all the bytes. -/
def copy (rhs : Bits N) : Bits N := ⟨rhs.mBytes⟩

/-- `*this = rhs`, where `self` says that both are one object. -/
def assign (b rhs : Bits N) (self : Bool) : Bits N := if self then b else ⟨rhs.mBytes⟩

end Bits

open Bits

variable {N : UInt32} {b b' : Bits N} {i j : Int32} {k m : ℕ} {v : Bool}

/-! ### Bytes and bits -/

/-- The count of bytes does not wrap. -/
lemma byteCount_eq (hN : N.toNat < 2 ^ 31 - 8) : byteCount N = (N.toNat + 7) / 8 := by
  have hsum : (N + 7).toNat = N.toNat + 7 := by
    rw [UInt32.toNat_add, show (7 : UInt32).toNat = 7 from rfl]
    omega
  rw [byteCount, UInt32.toNat_div, hsum]
  rfl

/-- The byte of a bit below the count is one of the bytes. -/
lemma div_lt_byteCount (hN : N.toNat < 2 ^ 31 - 8) (hk : k < N.toNat) : k / 8 < byteCount N := by
  rw [byteCount_eq hN]
  omega

/-- The bit `k` of the packed array. -/
def Bits.bit (b : Bits N) (k : ℕ) : Bool := (b.mBytes[k / 8]?.getD 0).getLsbD (k % 8)

/-- An index in range, as the number of its bit. -/
lemma exists_of_inRange (h : InRange N i) : ∃ k : ℕ, i.toInt = (k : ℤ) ∧ k < N.toNat := by
  obtain ⟨h0, hlt⟩ := h
  simp only [bitsCount] at hlt
  exact ⟨i.toInt.toNat, by omega, by omega⟩

lemma inRange_of_lt (hi : i.toInt = (k : ℤ)) (hk : k < N.toNat) : InRange N i := by
  simp only [InRange, bitsCount]
  omega

lemma tdiv_eight (k : ℕ) : (k : ℤ).tdiv 8 = ((k / 8 : ℕ) : ℤ) := rfl

lemma tmod_eight (k : ℕ) : (k : ℤ).tmod 8 = ((k % 8 : ℕ) : ℤ) := rfl

lemma byte?_eq (hk : k < byteCount N) : b.byte? (k : ℤ) = some b.mBytes[k] := by
  simp [Bits.byte?, hk]

lemma store_eq (hk : k < byteCount N) (x : BitVec 8) :
    b.store (k : ℤ) x = some ⟨b.mBytes.set k x hk⟩ := by
  simp [Bits.store, hk]

/-- The value of the mask, bit by bit. -/
lemma getLsbD_mask (hk : k < 8) : (mask (k : ℤ)).getLsbD m = decide (m = k) := by
  simp only [mask, Int.toNat_natCast, BitVec.getLsbD_shiftLeft, BitVec.getLsbD_one]
  by_cases hm : m = k
  · simp [hm, show k < 32 by omega]
  · simp only [hm, decide_false, Bool.and_eq_false_imp]
    intro h
    simp only [Bool.and_eq_true, decide_eq_true_eq, Bool.not_eq_true', decide_eq_false_iff_not]
      at h
    simp only [decide_eq_false_iff_not]
    omega

/-- Or-ing the mask in sets its bit and keeps the others. -/
lemma getLsbD_or_mask (x : BitVec 8) (hk : k < 8) (hm : m < 8) :
    ((x.setWidth 32 ||| mask (k : ℤ)).setWidth 8).getLsbD m
      = if m = k then true else x.getLsbD m := by
  rw [BitVec.getLsbD_setWidth, BitVec.getLsbD_or, BitVec.getLsbD_setWidth, getLsbD_mask hk]
  split
  · next h => simp [h, hk]
  · next h => simp [h, hm, show m < 32 by omega]

/-- And-ing with the complement of the mask clears its bit and keeps the others. -/
lemma getLsbD_and_not_mask (x : BitVec 8) (hk : k < 8) (hm : m < 8) :
    ((x.setWidth 32 &&& ~~~mask (k : ℤ)).setWidth 8).getLsbD m
      = if m = k then false else x.getLsbD m := by
  rw [BitVec.getLsbD_setWidth, BitVec.getLsbD_and, BitVec.getLsbD_setWidth, BitVec.getLsbD_not,
    getLsbD_mask hk]
  split
  · next h => simp [h]
  · next h => simp [h, hm, show m < 32 by omega]

/-- The test of `get` reads the bit under the mask. -/
lemma and_mask_ne_zero (x : BitVec 8) (hk : k < 8) :
    ((x.setWidth 32 &&& mask (k : ℤ)) != 0) = x.getLsbD k := by
  have hbit : ∀ m, (x.setWidth 32 &&& mask (k : ℤ)).getLsbD m
      = (decide (m = k) && x.getLsbD k) := by
    intro m
    rw [BitVec.getLsbD_and, BitVec.getLsbD_setWidth, getLsbD_mask hk]
    by_cases h : m = k
    · simp [h, show k < 32 by omega]
    · simp [h]
  cases hx : x.getLsbD k with
  | true =>
      rw [bne_iff_ne]
      intro hzero
      have hk' := hbit k
      rw [hzero, hx] at hk'
      simp at hk'
  | false =>
      rw [bne_eq_false_iff_eq]
      refine BitVec.eq_of_getLsbD_eq fun m _ => ?_
      rw [hbit m, hx]
      simp

/-! ### What the members do to the bits -/

/-- `get` in range reads its bit. -/
lemma get_of_inRange (hN : N.toNat < 2 ^ 31 - 8) (hi : i.toInt = (k : ℤ)) (hk : k < N.toNat) :
    b.get i = some (b.bit k) := by
  have hrange := inRange_of_lt hi hk
  have hbyte := div_lt_byteCount hN hk
  rw [Bits.get, if_pos hrange]
  simp only [hi, tdiv_eight, tmod_eight, byte?_eq hbyte, Option.bind_eq_bind, Option.bind_some,
    and_mask_ne_zero _ (Nat.mod_lt k (by omega))]
  simp [Bits.bit, hbyte]

/-- `get` outside the range is `false`. -/
lemma get_of_not_inRange (hi : ¬InRange N i) : b.get i = some false := if_neg hi

/-- **A write sets its bit and no other.** -/
lemma bit_set (hN : N.toNat < 2 ^ 31 - 8) (hi : i.toInt = (k : ℤ)) (hk : k < N.toNat) :
    ∃ b', b.set i v = some b' ∧ ∀ m, b'.bit m = if m = k then v else b.bit m := by
  have hrange := inRange_of_lt hi hk
  have hbyte := div_lt_byteCount hN hk
  -- the byte that is stored back, whichever branch computes it
  have hstored : ∃ x : BitVec 8, b.set i v = b.store ((k / 8 : ℕ) : ℤ) x ∧
      ∀ m, m < 8 → x.getLsbD m = if m = k % 8 then v else b.mBytes[k / 8].getLsbD m := by
    rw [Bits.set, if_pos hrange]
    simp only [hi, tdiv_eight, tmod_eight, byte?_eq hbyte, Option.bind_eq_bind, Option.bind_some]
    cases v with
    | true => exact ⟨_, rfl, fun m hm => getLsbD_or_mask _ (Nat.mod_lt k (by omega)) hm⟩
    | false => exact ⟨_, rfl, fun m hm => getLsbD_and_not_mask _ (Nat.mod_lt k (by omega)) hm⟩
  obtain ⟨x, hset, hx⟩ := hstored
  rw [store_eq hbyte] at hset
  refine ⟨_, hset, fun m => ?_⟩
  by_cases hsame : m / 8 = k / 8
  · -- a bit of the same byte: the two agree as soon as their places in it do
    have hplace : m % 8 = k % 8 ↔ m = k := by omega
    simp only [Bits.bit, hsame, hbyte, Vector.getElem?_eq_getElem, Option.getD_some,
      Vector.getElem_set_self, hx _ (Nat.mod_lt m (by omega)), hplace]
  · have hne : m ≠ k := fun heq => hsame (heq ▸ rfl)
    rw [if_neg hne]
    simp only [Bits.bit, Vector.getElem?_set_ne _ (Ne.symm hsame)]

/-- `clear_all` clears every bit, whatever the bytes held. -/
lemma exists_clearAll (b : Bits N) : ∃ b', b.clearAll = some b' ∧ ∀ m, b'.bit m = false := by
  have hloop : ∀ n ≤ byteCount N, ∃ b' : Bits N,
      (List.range n).foldlM (fun b (i : ℕ) => b.store i 0) b = some b' ∧
      ∀ l, l < n → b'.mBytes[l]?.getD 0 = 0 := by
    intro n
    induction n with
    | zero => exact fun _ => ⟨b, rfl, by omega⟩
    | succ n ih =>
        intro hn
        obtain ⟨b', hb', hzero⟩ := ih (by omega)
        refine ⟨⟨b'.mBytes.set n 0⟩, ?_, fun l hl => ?_⟩
        · rw [List.range_succ, List.foldlM_append, hb']
          simp [store_eq (show n < byteCount N by omega)]
        · by_cases h : l = n
          · simp [h, show n < byteCount N by omega]
          · simp only [Vector.getElem?_set_ne _ (Ne.symm h)]
            exact hzero l (by omega)
  obtain ⟨b', hb', hzero⟩ := hloop _ le_rfl
  refine ⟨b', hb', fun m => ?_⟩
  by_cases hm : m / 8 < byteCount N
  · rw [Bits.bit, hzero _ hm]
    simp
  · simp [Bits.bit, hm]

/-! ### Objects and their histories -/

/-- The operations that change an object. -/
inductive BitOp
  | set (index : Int32) (v : Bool)
  | toggle (index : Int32)
  deriving DecidableEq, Repr

/-- The index an operation is called with. -/
def BitOp.index : BitOp → Int32
  | .set i _ => i
  | .toggle i => i

/-- The object after an operation. -/
def Bits.apply (b : Bits N) : BitOp → Option (Bits N)
  | .set i v => b.set i v
  | .toggle i => b.toggle i

/-- The value the operations give to index `j`, in their order: at first `false`, then what
the last `set` of `j` gave, negated by every `toggle` of `j` since. -/
def valueAt (j : Int32) (ops : List BitOp) : Bool :=
  ops.foldl (fun old op =>
    match op with
    | .set i v => if i = j then v else old
    | .toggle i => if i = j then !old else old) false

/-- The objects of a program that constructs, copies, assigns and changes them, each with
the operations its content goes back to. -/
inductive Made (N : UInt32) : List BitOp → Bits N → Prop
  | fresh {raw b : Bits N} : raw.construct = some b → Made N [] b
  | copied {ops : List BitOp} {rhs : Bits N} : Made N ops rhs → Made N ops rhs.copy
  | assigned {ops ops' : List BitOp} {b rhs : Bits N} :
      Made N ops b → Made N ops' rhs → Made N ops' (b.assign rhs false)
  | selfAssigned {ops : List BitOp} {b : Bits N} : Made N ops b → Made N ops (b.assign b true)
  | applied {ops : List BitOp} {b b' : Bits N} {op : BitOp} :
      Made N ops b → b.apply op = some b' → Made N (ops ++ [op]) b'

/-- One operation on the array of booleans: the bit it names takes the new value. -/
lemma exists_apply (hN : N.toNat < 2 ^ 31 - 8) (b : Bits N) (op : BitOp) :
    ∃ b', b.apply op = some b' ∧ ∀ (j : Int32) (k : ℕ), j.toInt = (k : ℤ) → k < N.toNat →
      b'.bit k = match op with
        | .set i v => if i = j then v else b.bit k
        | .toggle i => if i = j then !b.bit k else b.bit k := by
  by_cases hrange : InRange N op.index
  · obtain ⟨l, hl, hlN⟩ := exists_of_inRange hrange
    have hindex : ∀ (j : Int32) (k : ℕ), j.toInt = (k : ℤ) → (k = l ↔ op.index = j) := by
      intro j k hj
      rw [← Int32.toInt_inj, hl, hj]
      omega
    cases op with
    | set i v =>
        obtain ⟨b', hset, hbit⟩ := bit_set (b := b) (v := v) hN hl hlN
        refine ⟨b', hset, fun j k hj _ => ?_⟩
        simp only [hbit, hindex j k hj, BitOp.index]
    | toggle i =>
        obtain ⟨b', hset, hbit⟩ := bit_set (b := b) (v := !b.bit l) hN hl hlN
        refine ⟨b', ?_, fun j k hj _ => ?_⟩
        · have hget : b.get i = some (b.bit l) := get_of_inRange hN hl hlN
          change b.toggle i = some b'
          rw [Bits.toggle, if_pos (show InRange N i from hrange), hget]
          exact hset
        · rw [hbit]
          by_cases hk : k = l
          · have hij : i = j := (hindex j k hj).mp hk
            simp [hk, hij]
          · have hne : ¬i = j := fun heq => hk ((hindex j k hj).mpr heq)
            simp [hk, hne]
  · -- outside the range nothing changes, and no bit has that index
    have hne : ∀ (j : Int32) (k : ℕ), j.toInt = (k : ℤ) → k < N.toNat → ¬op.index = j := by
      rintro j k hj hk rfl
      refine hrange ?_
      simp only [InRange, bitsCount]
      omega
    refine ⟨b, ?_, fun j k hj hk => ?_⟩
    · cases op <;> exact if_neg hrange
    · have hij := hne j k hj hk
      cases op with
      | set i v => exact (if_neg hij).symm
      | toggle i => exact (if_neg hij).symm

/-- The bits of an object are the values its history gives. -/
lemma Made.bit_eq (hN : N.toNat < 2 ^ 31 - 8) {ops : List BitOp} (h : Made N ops b)
    (hj : j.toInt = (k : ℤ)) (hk : k < N.toNat) : b.bit k = valueAt j ops := by
  induction h with
  | @fresh raw b hb =>
      obtain ⟨b', hb', hzero⟩ := exists_clearAll raw
      obtain rfl : b' = b := Option.some.inj (hb'.symm.trans hb)
      exact hzero k
  | copied _ ih => exact ih
  | assigned _ _ _ ih => exact ih
  | selfAssigned _ ih => exact ih
  | @applied ops b b' op _ hb ih =>
      obtain ⟨b'', hb'', hbit⟩ := exists_apply hN b op
      obtain rfl : b'' = b' := Option.some.inj (hb''.symm.trans hb)
      rw [hbit j k hj hk, valueAt, List.foldl_append, List.foldl_cons, List.foldl_nil, ih,
        valueAt]

/-- What `get` returns for any index. -/
lemma Made.get_eq (hN : N.toNat < 2 ^ 31 - 8) {ops : List BitOp} (h : Made N ops b)
    (j : Int32) : b.get j = some (if InRange N j then valueAt j ops else false) := by
  split
  · next hrange =>
      obtain ⟨k, hj, hk⟩ := exists_of_inRange hrange
      rw [get_of_inRange hN hj hk, h.bit_eq hN hj hk]
  · next hrange => exact get_of_not_inRange hrange

/-- An operation never changes what `get` returns for another index. -/
lemma apply_get_of_ne (hN : N.toNat < 2 ^ 31 - 8) {op : BitOp} (h : b.apply op = some b')
    (hne : op.index ≠ j) : b'.get j = b.get j := by
  by_cases hrange : InRange N j
  · obtain ⟨k, hj, hk⟩ := exists_of_inRange hrange
    obtain ⟨b'', hb'', hbit⟩ := exists_apply hN b op
    obtain rfl : b'' = b' := Option.some.inj (hb''.symm.trans h)
    rw [get_of_inRange hN hj hk, get_of_inRange hN hj hk, hbit j k hj hk]
    cases op with
    | set i v => exact congrArg some (if_neg hne)
    | toggle i => exact congrArg some (if_neg hne)
  · rw [get_of_not_inRange hrange, get_of_not_inRange hrange]

/-- The bit string has a character for each bit. -/
lemma getBitString_eq (hN : N.toNat < 2 ^ 31 - 8) (b : Bits N) :
    b.getBitString = some ((List.range N.toNat).map fun k => if b.bit k then '1' else '0') := by
  have hget : ∀ k ∈ List.range N.toNat, (do
      let v ← b.get (Int32.ofNat k)
      some (if v then '1' else '0')) = some (if b.bit k then '1' else '0') := by
    intro k hk
    have hlt := List.mem_range.mp hk
    have hint : (Int32.ofNat k).toInt = (k : ℤ) := Int32.toInt_ofNat_of_lt (by omega)
    rw [get_of_inRange hN hint hlt]
    rfl
  rw [Bits.getBitString]
  generalize List.range N.toNat = ks at hget
  induction ks with
  | nil => rfl
  | cons k ks ih =>
      rw [List.mapM_cons, hget k (by simp), ih fun l hl => hget l (by simp [hl])]
      rfl

/-- **`bits<N>` is an array of `N` independent booleans.** No operation on an object, nor
the constructor, uses a byte outside its `(N + 7) / 8`. After any history `get(j)` is the
value the last operation with index `j` gave it when `0 <= j < N`, and `false`
otherwise; an operation with another index leaves it as it was; and the bit string has `N`
characters, the `j`-th a `1` exactly when `get(j)`. -/
theorem made_independent (hN : N.toNat < 2 ^ 31 - 8) :
    byteCount N = (N.toNat + 7) / 8 ∧ (∀ raw : Bits N, ∃ b, raw.construct = some b) ∧
    ∀ ops (b : Bits N), Made N ops b →
      (∀ op, ∃ b', b.apply op = some b' ∧ ∀ j, op.index ≠ j → b'.get j = b.get j) ∧
      (∀ j, b.get j = some
        (if 0 ≤ j.toInt ∧ j.toInt < N.toNat then valueAt j ops else false)) ∧
      ∃ text, b.getBitString = some text ∧ text.length = N.toNat ∧
        ∀ j : Int32, 0 ≤ j.toInt → j.toInt < N.toNat →
          (text[j.toInt.toNat]? = some '1' ↔ b.get j = some true) := by
  refine ⟨byteCount_eq hN, fun raw => ?_, fun ops b h => ⟨fun op => ?_, h.get_eq hN, ?_⟩⟩
  · obtain ⟨b, hb, -⟩ := exists_clearAll raw
    exact ⟨b, hb⟩
  · obtain ⟨b', hb', -⟩ := exists_apply hN b op
    exact ⟨b', hb', fun j hne => apply_get_of_ne hN hb' hne⟩
  · refine ⟨_, getBitString_eq hN b, by simp, fun j h0 hlt => ?_⟩
    obtain ⟨k, hj⟩ : ∃ k : ℕ, j.toInt = (k : ℤ) := ⟨j.toInt.toNat, by omega⟩
    have hk : k < N.toNat := by omega
    rw [get_of_inRange hN hj hk, hj, Int.toNat_natCast, List.getElem?_map,
      List.getElem?_range hk, Option.map_some, Option.some_inj, Option.some_inj]
    cases b.bit k with
    | true => simp
    | false => simp

/-- Bits 8, 9 and 11 of twelve share a byte. -/
theorem made_independent_twelve : byteCount 12 = 2 ∧ ∃ b : Bits 12,
    Made 12 [.set 9 true, .set 8 true, .toggle 9, .set 12 true, .toggle 11] b ∧
      b.mBytes.toArray = #[0, 0b00001001] ∧ b.get 8 = some true ∧ b.get 9 = some false ∧
      b.get 11 = some true ∧ b.get 12 = some false ∧
      ∃ text, b.getBitString = some text ∧ text.length = 12 ∧ text[8]? = some '1' := by
  obtain ⟨hbytes, -, h⟩ := made_independent (N := 12) (by decide)
  have h₀ : Made 12 _ ⟨#[0, 0], by decide⟩ :=
    @Made.fresh 12 ⟨#[0xFF, 0xA5], by decide⟩ _ (by decide)
  have h₁ : Made 12 _ ⟨#[0, 0b00000010], by decide⟩ :=
    @Made.applied 12 _ _ _ (.set 9 true) h₀ (by decide)
  have h₂ : Made 12 _ ⟨#[0, 0b00000011], by decide⟩ :=
    @Made.applied 12 _ _ _ (.set 8 true) h₁ (by decide)
  have h₃ : Made 12 _ ⟨#[0, 0b00000001], by decide⟩ :=
    @Made.applied 12 _ _ _ (.toggle 9) h₂ (by decide)
  -- index 12 is out of range
  have h₄ : Made 12 _ ⟨#[0, 0b00000001], by decide⟩ :=
    @Made.applied 12 _ _ _ (.set 12 true) h₃ (by decide)
  have h₅ : Made 12 _ ⟨#[0, 0b00001001], by decide⟩ :=
    @Made.applied 12 _ _ _ (.toggle 11) h₄ (by decide)
  obtain ⟨-, hget, text, htext, hlength, hchar⟩ := h _ _ h₅
  exact ⟨hbytes, _, h₅, rfl, hget 8, hget 9, hget 11, hget 12, text, htext, hlength,
    (hchar 8 (by decide) (by decide)).mpr (hget 8)⟩

end Xsix

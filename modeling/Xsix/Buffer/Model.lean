import Xsix.Library.Memory
import Xsix.Library.Machine

/-!
`buffer.hpp`: the growing ring buffer, function by function.

The fields are the integers and the flag of the class, `int32_t` sums being
taken modulo `2 ^ 32`. `m_data` is a block of `allocated` bytes or the null
pointer; an index outside the block reads and writes the memory around it, so
that a call always has a result, and every range a call touches is recorded next
to that result (`Touch`), together with the divisor of each remainder it takes.
Whether the ranges lie where they should is then a theorem and not an
assumption. `XMALLOC` is taken to succeed, as the `XASSERT` after it demands; the
contents of a fresh block are the `fresh` argument of the calls that may grow.

* `Buffer.refixNewSize`: the growth loop, `none` when it does not stop
  (`refixLoop_mono` and `refixLoop_complete` justify its bound).
* `Buffer.append`, `writeTo`, `peek`, `skip`, `clear`, `retrieveAllAsString`: the
  public operations; `Buffer.ofSize` and `Buffer.ofString`: the constructors.
* `Buffer.machine`: any sequence of calls, each step emitting what was called, in
  which state, and what came of it.
-/

namespace Xsix

open CInt Memory

/-- The bytes behind a pointer, by offset. -/
abbrev Bytes := ℤ → UInt8

/-- `buffer::BUFFER_SIZE_SMALL`. -/
def bufferSizeSmall : ℤ := 64

/-- `buffer::BUFFER_SIZE_RAW`, one kilobyte. -/
def bufferSizeRaw : ℤ := 1024

/-- `buffer::BUFFER_SIZE_MAX`, one megabyte. -/
def bufferSizeMax : ℤ := bufferSizeRaw * bufferSizeRaw

/-- A block handed out by `XMALLOC`: the number of bytes asked for, and what an
index into it meets. -/
structure Block where
  allocated : ℤ
  cells : Bytes

/-- The arrays the buffer copies between: `m_data`, the `new_data` of `realloc`,
the array of the caller and the local array of `retrieve_all_as_string`. -/
inductive Place where
  | data
  | fresh
  | user
  | tmp
  deriving DecidableEq, Repr

/-- What a call does to memory: a `memcpy` touches the `len` cells from `off` on
of an array the code takes to have `limit` cells and which has `allocated`; a
remainder divides by `divisor`. -/
inductive Touch where
  | span (place : Place) (limit allocated off len : ℤ)
  | modulo (divisor : ℤ)
  deriving DecidableEq, Repr

/-- The members of `buffer`. -/
structure Buffer where
  mData : Option Block
  mSize : ℤ
  mHead : ℤ
  mTail : ℤ
  mFull : Bool

/-- What a call returns, the buffer after it and the memory it touched. -/
structure Done (α : Type) where
  ret : α
  self : Buffer
  touched : List Touch

namespace Buffer

/-! ### Observers -/

/-- The bytes behind `m_data`. -/
def cells (b : Buffer) : Bytes :=
  match b.mData with
  | some d => d.cells
  | none => fun _ => 0

/-- The number of bytes asked for when `m_data` was allocated. -/
def allocated (b : Buffer) : ℤ :=
  match b.mData with
  | some d => d.allocated
  | none => 0

/-- `buffer::full`. -/
def full (b : Buffer) : Bool := b.mFull

/-- `buffer::empty`. -/
def empty (b : Buffer) : Bool := (b.mHead == b.mTail) && !b.full

/-- `buffer::size`. -/
def size (b : Buffer) : ℤ := b.mSize

/-- `buffer::length`. -/
def length (b : Buffer) : ℤ :=
  if b.empty then 0
  else if b.full then b.mSize
  else if b.mHead < b.mTail then int32 (b.mTail - b.mHead)
  else int32 (int32 (b.mSize - b.mHead) + b.mTail)

/-- `buffer::get_free_size`. -/
def getFreeSize (b : Buffer) : ℤ := int32 (b.mSize - b.length)

/-! ### `memcpy` out of and into `m_data` -/

/-- `memcpy(dst + dstOff, &m_data[off], len)`, `dst` being `limit` bytes at
`place`. -/
def load (b : Buffer) (place : Place) (limit : ℤ) (dst : Bytes) (dstOff off len : ℤ) :
    Bytes × List Touch :=
  (copy dst dstOff b.cells off (uint64 len),
    [.span .data b.mSize b.allocated off (uint64 len),
      .span place limit limit dstOff (uint64 len)])

/-- The buffer with the bytes behind `m_data` changed by `f`. -/
def withCells (b : Buffer) (f : Bytes → Bytes) : Buffer :=
  { b with mData := b.mData.map fun d => { d with cells := f d.cells } }

/-- `memcpy(&m_data[off], src + srcOff, len)`, `src` being `limit` bytes of the
caller. -/
def store (b : Buffer) (off limit : ℤ) (src : Bytes) (srcOff len : ℤ) : Buffer × List Touch :=
  (b.withCells fun m => copy m off src srcOff (uint64 len),
    [.span .user limit limit srcOff (uint64 len),
      .span .data b.mSize b.allocated off (uint64 len)])

/-! ### Growth -/

/-- `buffer::is_valid_size`. -/
def isValidSize (size : ℤ) : Bool := decide (0 < size) && decide (size ≤ bufferSizeMax)

/-- The body of the `while` loop of `buffer::refix_new_size`. -/
def refixStep (tmp : ℤ) : ℤ :=
  if tmp < bufferSizeRaw then int32 (tmp * 2)
  else if tmp < bufferSizeMax then int32 (tmp + bufferSizeRaw)
  else tmp

/-- The `while` loop of `buffer::refix_new_size`, at most `fuel` tests of it. -/
def refixLoop : ℕ → ℤ → ℤ → Option ℤ
  | 0, _, _ => none
  | fuel + 1, tmp, newsize =>
      if tmp < newsize then refixLoop fuel (refixStep tmp) newsize else some tmp

/-- `buffer::refix_new_size`, `none` when the loop does not stop. A loop that
stops makes progress at each test, so `newsize + 1` tests decide. -/
def refixNewSize (oldsize newsize : ℤ) : Option ℤ :=
  if newsize ≤ bufferSizeSmall then some bufferSizeSmall
  else refixLoop (newsize.toNat + 1) oldsize newsize

/-- The body of the loop leaves the capacity as it is or raises it. -/
lemma refixStep_eq_or_lt {tmp : ℤ} (h0 : 0 ≤ tmp) : refixStep tmp = tmp ∨ tmp < refixStep tmp := by
  unfold refixStep int32 bufferSizeMax bufferSizeRaw
  split_ifs <;> omega

/-- More tests of the loop do not change what it returns. -/
lemma refixLoop_mono {fuel fuel' : ℕ} {tmp newsize r : ℤ} (h : refixLoop fuel tmp newsize = some r)
    (hle : fuel ≤ fuel') : refixLoop fuel' tmp newsize = some r := by
  induction fuel generalizing fuel' tmp with
  | zero => simp [refixLoop] at h
  | succ fuel ih =>
      obtain ⟨fuel', rfl⟩ : ∃ k, fuel' = k + 1 := ⟨fuel' - 1, by omega⟩
      by_cases hlt : tmp < newsize
      · simp only [refixLoop, if_pos hlt] at h ⊢
        exact ih h (by omega)
      · simpa only [refixLoop, if_neg hlt] using h

/-- From a capacity that is not negative, a loop that ever stops does so within
the tests `refixNewSize` allows it. -/
lemma refixLoop_complete {fuel : ℕ} {tmp newsize r : ℤ} (h0 : 0 ≤ tmp)
    (h : refixLoop fuel tmp newsize = some r) :
    refixLoop ((newsize - tmp).toNat + 1) tmp newsize = some r := by
  induction fuel generalizing tmp with
  | zero => simp [refixLoop] at h
  | succ fuel ih =>
      by_cases hlt : tmp < newsize
      · simp only [refixLoop, if_pos hlt] at h ⊢
        rcases refixStep_eq_or_lt h0 with hfix | hup
        · -- no progress: the same test again, which cannot have been the last
          rw [hfix] at h
          have hsame := ih h0 h
          simp only [refixLoop, if_pos hlt] at hsame
          exact hsame
        · exact refixLoop_mono (ih (by omega) h) (by omega)
      · simpa only [refixLoop, if_neg hlt] using h

/-- The loop returns no less than was asked for. -/
lemma le_of_refixLoop {fuel : ℕ} {tmp newsize r : ℤ} (h : refixLoop fuel tmp newsize = some r) :
    newsize ≤ r := by
  induction fuel generalizing tmp with
  | zero => simp [refixLoop] at h
  | succ fuel ih =>
      simp only [refixLoop] at h
      split_ifs at h with hlt
      · exact ih h
      · have : tmp = r := by simpa using h
        omega

lemma le_of_refixNewSize {oldsize newsize r : ℤ} (h : refixNewSize oldsize newsize = some r) :
    newsize ≤ r := by
  unfold refixNewSize at h
  split_ifs at h with hsmall
  · have : bufferSizeSmall = r := by simpa using h
    omega
  · exact le_of_refixLoop h

/-- The new block `buffer::realloc` fills before it releases the old one, and
what it touches doing so. -/
def reallocData (b : Buffer) (fresh : Bytes) (newsize : ℤ) : Bytes × List Touch :=
  if b.mData.isSome then
    if b.mHead < b.mTail then
      let len := uint64 (int32 (b.mTail - b.mHead))
      (copy fresh 0 b.cells b.mHead len,
        [.span .data b.mSize b.allocated b.mHead len, .span .fresh newsize newsize 0 len])
    else
      let rightFree := int32 (b.mSize - b.mHead)
      let len := uint64 rightFree
      let len' := uint64 b.mTail
      (copy (copy fresh 0 b.cells b.mHead len) rightFree b.cells 0 len',
        [.span .data b.mSize b.allocated b.mHead len, .span .fresh newsize newsize 0 len,
          .span .data b.mSize b.allocated 0 len', .span .fresh newsize newsize rightFree len'])
  else (fresh, [])

/-- `buffer::realloc`. The members are assigned one by one: `length()` is read
after `m_head` is reset and before `m_size` and `m_full` are. -/
def realloc (b : Buffer) (fresh : Bytes) (newsize : ℤ) : Buffer × List Touch :=
  if newsize ≤ 0 then (b, [])
  else
    let new := b.reallocData fresh newsize
    let b₁ := { b with mData := some ⟨newsize, new.1⟩ }
    let b₂ := { b₁ with mHead := 0 }
    let b₃ := { b₂ with mTail := b₂.length }
    let b₄ := { b₃ with mSize := newsize }
    ({ b₄ with mFull := decide (b₄.mTail = b₄.mSize) }, new.2)

/-- `buffer::resize`, `none` when `refix_new_size` does not return. -/
def resize (b : Buffer) (fresh : Bytes) (newsize : ℤ) : Option (Done Bool) :=
  if !isValidSize newsize then some ⟨false, b, []⟩
  else if newsize ≤ b.size then some ⟨true, b, []⟩
  else
    match refixNewSize b.mSize newsize with
    | none => none
    | some newsize' =>
        if !isValidSize newsize' then some ⟨false, b, []⟩
        else
          let grown := b.realloc fresh newsize'
          some ⟨true, grown.1, grown.2⟩

/-! ### Appending -/

/-- `buffer::check_full_after_append`. -/
def checkFullAfterAppend (b : Buffer) (_oldtail newtail : ℤ) : Buffer :=
  if b.mHead = newtail then { b with mFull := true } else { b with mFull := false }

/-- The copies of `buffer::append`, conditions (1), (2) and (3) of its comments. -/
def appendCopy (b : Buffer) (src : Bytes) (size : ℤ) : Buffer × List Touch :=
  if b.mHead ≤ b.mTail then
    let rightFree := int32 (b.mSize - b.mTail)
    if size ≤ rightFree then b.store b.mTail size src 0 size
    else
      let one := b.store b.mTail size src 0 rightFree
      let two := one.1.store 0 size src rightFree (int32 (size - rightFree))
      (two.1, one.2 ++ two.2)
  else b.store b.mTail size src 0 size

/-- `buffer::append` once there is room: the copies, the new tail, the flag. -/
def appendInPlace (b : Buffer) (src : Bytes) (size : ℤ) : Done ℤ :=
  let copied := b.appendCopy src size
  let oldtail := b.mTail
  let newtail := (int32 (b.mTail + size)).tmod b.mSize
  ⟨size, { copied.1 with mTail := newtail }.checkFullAfterAppend oldtail newtail,
    copied.2 ++ [.modulo b.mSize]⟩

/-- `buffer::append`. -/
def append (b : Buffer) (fresh : Bytes) (src : Option Bytes) (size : ℤ) : Option (Done ℤ) :=
  match src with
  | none => some ⟨0, b, []⟩
  | some src =>
      if size ≤ 0 then some ⟨0, b, []⟩
      else if b.getFreeSize < size then
        match b.resize fresh (int32 (b.length + size)) with
        | none => none
        | some grown =>
            if grown.ret then
              let done := grown.self.appendInPlace src size
              some { done with touched := grown.touched ++ done.touched }
            else some ⟨0, grown.self, grown.touched⟩
      else some (b.appendInPlace src size)

/-! ### Reading -/

/-- `buffer::check_full_after_writeto`. -/
def checkFullAfterWriteto (b : Buffer) (_oldhead _newhead : ℤ) : Buffer :=
  { b with mFull := false }

/-- The copies `buffer::write_to` and `buffer::peek` share: `size` bytes from
`m_head` on, to an array of the caller of which `limit` bytes were offered. -/
def copyOut (b : Buffer) (limit : ℤ) (dst : Bytes) (size : ℤ) : Bytes × List Touch :=
  if b.mHead < b.mTail then b.load .user limit dst 0 b.mHead size
  else
    let rightFree := int32 (b.mSize - b.mHead)
    if size ≤ rightFree then b.load .user limit dst 0 b.mHead size
    else
      let one := b.load .user limit dst 0 b.mHead rightFree
      let two := b.load .user limit one.1 rightFree 0 (int32 (size - rightFree))
      (two.1, one.2 ++ two.2)

/-- The new head of `buffer::write_to` and `buffer::skip`, and the flag. -/
def advanceHead (b : Buffer) (size : ℤ) : Buffer :=
  let oldhead := b.mHead
  let newhead := (int32 (b.mHead + size)).tmod b.mSize
  { b with mHead := newhead }.checkFullAfterWriteto oldhead newhead

/-- `buffer::write_to`: the number of bytes and the caller's array after it. -/
def writeTo (b : Buffer) (dst : Option Bytes) (size : ℤ) : Done (ℤ × Option Bytes) :=
  match dst with
  | none => ⟨(0, none), b, []⟩
  | some dst =>
      if size = 0 then ⟨(0, some dst), b, []⟩
      else if b.empty then ⟨(0, some dst), b, []⟩
      else
        let n := if b.length < size then b.length else size
        let out := b.copyOut size dst n
        ⟨(n, some out.1), b.advanceHead n, out.2 ++ [.modulo b.mSize]⟩

/-- `buffer::peek`. -/
def peek (b : Buffer) (dst : Option Bytes) (size : ℤ) : Done (ℤ × Option Bytes) :=
  match dst with
  | none => ⟨(0, none), b, []⟩
  | some dst =>
      if size = 0 then ⟨(0, some dst), b, []⟩
      else if b.empty then ⟨(0, some dst), b, []⟩
      else
        let n := if b.length < size then b.length else size
        let out := b.copyOut size dst n
        ⟨(n, some out.1), b, out.2⟩

/-- `buffer::skip`. -/
def skip (b : Buffer) (size : ℤ) : Done Bool :=
  if size ≤ 0 then ⟨false, b, []⟩
  else if b.length < size then ⟨false, b, []⟩
  else ⟨true, b.advanceHead size, [.modulo b.mSize]⟩

/-- `buffer::clear`. -/
def clear (b : Buffer) : Buffer :=
  { b with mTail := 0, mHead := 0, mFull := false }

/-- The number of cells of the local array of `retrieve_all_as_string`. -/
def tmpSize : ℤ := 4096

/-- The copies of `buffer::retrieve_all_as_string` into its local array. -/
def retrieveCopy (b : Buffer) : Bytes × List Touch :=
  let tmp : Bytes := fun _ => 0
  if b.mHead < b.mTail then b.load .tmp tmpSize tmp 0 b.mHead b.length
  else
    let rightFree := int32 (b.mSize - b.mHead)
    let one := b.load .tmp tmpSize tmp 0 b.mHead rightFree
    let two := b.load .tmp tmpSize one.1 rightFree 0 b.mTail
    (two.1, one.2 ++ two.2)

/-- `buffer::retrieve_all_as_string`. The string is read off the array up to its
first zero byte, which is at `length()` at the latest. -/
def retrieveAllAsString (b : Buffer) : Done (List UInt8) :=
  if b.empty then ⟨[], b, []⟩
  else
    let filled := b.retrieveCopy
    ⟨(Memory.read filled.1 0 b.length).takeWhile (· ≠ 0), b,
      filled.2 ++ [.span .tmp tmpSize tmpSize b.length 1]⟩

/-! ### Construction -/

/-- The members after `buffer::cleanup`. -/
def cleanup : Buffer := ⟨none, 0, 0, 0, false⟩

/-- `buffer::buffer(int32_t)`. -/
def ofSize (fresh : Bytes) (initSize : ℤ) : Option (Done Unit) :=
  let initSize := if initSize > bufferSizeSmall then initSize else bufferSizeSmall
  let initSize := if initSize > bufferSizeMax then bufferSizeMax else initSize
  (cleanup.resize fresh initSize).map fun d => ⟨(), d.self, d.touched⟩

/-- `buffer::copy_from`. -/
def copyFrom (b : Buffer) (fresh : Bytes) (src : Option Bytes) (len size : ℤ) : Done Unit :=
  match src with
  | none => ⟨(), b, []⟩
  | some src =>
      if 0 < len ∧ len ≤ size then
        let b₁ := { b with mData := some ⟨len, fresh⟩, mSize := size, mHead := 0 }
        let b₂ := { b₁ with mTail := (int32 (b₁.mTail + len)).tmod b₁.mSize }
        let copied := b₂.store 0 len src 0 len
        ⟨(), { copied.1 with mFull := decide (copied.1.mTail = copied.1.mSize) },
          .modulo size :: copied.2⟩
      else ⟨(), b, []⟩

/-- The bytes of `s.c_str()`: those of the string, then zeros. -/
def cStr (s : List UInt8) : Bytes := fun i => if 0 ≤ i then s.getD i.toNat 0 else 0

/-- `buffer::buffer(const std::string&)`. The lengths are `size_t` values cast
to the `int32_t` parameters of `copy_from`. -/
def ofString (fresh : Bytes) (s : List UInt8) : Done Unit :=
  cleanup.copyFrom fresh (some (cStr s)) (int32 s.length) (int32 (s.length + s.length / 2))

/-! ### Sequences of calls -/

/-- A call of a public operation, with its arguments; `append` also names what a
block it may allocate holds. -/
inductive Call where
  | append (fresh : Bytes) (src : Option Bytes) (size : Int32)
  | writeTo (dst : Option Bytes) (size : Int32)
  | peek (dst : Option Bytes) (size : Int32)
  | skip (size : Int32)
  | clear
  | retrieveAllAsString

/-- What a call answers. -/
inductive Answer where
  | count (n : ℤ)
  | delivered (n : ℤ) (dst : Option Bytes)
  | flag (ok : Bool)
  | text (s : List UInt8)
  | none

/-- Making a call, `none` when it does not return. -/
def call (b : Buffer) : Call → Option (Done Answer)
  | .append fresh src n =>
      (b.append fresh src n.toInt).map fun d => ⟨.count d.ret, d.self, d.touched⟩
  | .writeTo dst n =>
      let d := b.writeTo dst n.toInt
      some ⟨.delivered d.ret.1 d.ret.2, d.self, d.touched⟩
  | .peek dst n =>
      let d := b.peek dst n.toInt
      some ⟨.delivered d.ret.1 d.ret.2, d.self, d.touched⟩
  | .skip n =>
      let d := b.skip n.toInt
      some ⟨.flag d.ret, d.self, d.touched⟩
  | .clear => some ⟨.none, b.clear, []⟩
  | .retrieveAllAsString =>
      let d := b.retrieveAllAsString
      some ⟨.text d.ret, d.self, d.touched⟩

/-- One call in a sequence: the buffer it was made on, the call, and what came
of it. -/
structure Event where
  before : Buffer
  call : Call
  done : Done Answer

/-- Any sequence of calls on one buffer. -/
def machine : Machine Buffer Call Event where
  next b c := (b.call c).map fun d => (d.self, [⟨b, c, d⟩])

/-- The memory a sequence of calls touched. -/
def touches (os : List Event) : List Touch := os.flatMap fun e => e.done.touched

/-- How a buffer is built. -/
inductive Construction where
  | ofSize (fresh : Bytes) (initSize : Int32)
  | ofString (fresh : Bytes) (s : List UInt8)

/-- Building a buffer, `none` when the constructor does not return. -/
def construct : Construction → Option (Done Unit)
  | .ofSize fresh n => ofSize fresh n.toInt
  | .ofString fresh s => some (ofString fresh s)

end Buffer

end Xsix

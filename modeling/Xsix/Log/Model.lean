import Xsix.Fmt
import Xsix.Library.Memory

/-!
`logger.h` and `logger.cc`: one logger, function by function.

A cache block is a `std::array` of one megabyte, made of zeros by `make_shared`; a
block is told from another by the number of its allocation. `std::copy` goes where
its iterator points: what it writes at or past `end()` lands in the memory after the
block and not in its cells. `fopen` is left to the environment, `fwrite` writes all it
is given.

`Logger::log` and `Logger::flush` are given by the sections they run under
`m_mutex`: `logSection`, `swapCacheBlock` and `writeReady`.
-/

namespace Xsix

open CInt Memory Fmt

/-- The number of cells of a `CacheBlock`, `1024 * 1024`. -/
def cacheBlockSize : ℤ := 1024 * 1024

/-- A `CacheBlock`: when it was allocated, and the memory around it. -/
structure CacheBlock where
  serial : ℕ
  cells : ℤ → UInt8

namespace CacheBlock

/-- `std::array::size`. -/
def size (_ : CacheBlock) : ℤ := cacheBlockSize

/-- `std::array::max_size`. -/
def maxSize (_ : CacheBlock) : ℤ := cacheBlockSize

/-- `std::array::end`, as an index. -/
def endIndex (_ : CacheBlock) : ℤ := cacheBlockSize

/-- `size()` bytes from `data()` on. -/
def data (b : CacheBlock) : List UInt8 := read b.cells 0 b.size

/-- `std::copy` of `text` to the iterator at index `i`. What it writes past the array is kept in
cells of the block's own. -/
def copyTo (b : CacheBlock) (i : ℤ) (text : List UInt8) : CacheBlock :=
  { b with cells := write b.cells i text }

end CacheBlock

/-- The members of `Logger` other than its manager and its mutex, and the number of
blocks allocated so far. -/
structure Logger where
  mLogFileName : String
  mLogFilePath : String
  mCurrCacheBlock : Option CacheBlock
  mReadyFlushCacheBlockList : List CacheBlock
  allocated : ℕ

namespace Logger

/-- `Logger::get_available_cache_block`, the `serial`-th allocation. -/
def getAvailableCacheBlock (serial : ℕ) : CacheBlock := ⟨serial, fun _ => 0⟩

/-- `Logger::Logger`. -/
def built (logFileName : String) : Logger :=
  ⟨logFileName, "./log/" ++ logFileName ++ ".log", some (getAvailableCacheBlock 0), [], 1⟩

/-- `Logger::get_curr_cache_block_usable_size`: unsigned arithmetic, returned as an
`int`. -/
def getCurrCacheBlockUsableSize (lg : Logger) : ℤ :=
  match lg.mCurrCacheBlock with
  | none => 0
  | some b => int32 (uint64 (b.maxSize - b.size - 1))

/-- `Logger::swap_cache_block`, and the block it moved to the list. -/
def swapCacheBlock (lg : Logger) : Logger × List CacheBlock :=
  match lg.mCurrCacheBlock with
  | none => (lg, [])
  | some b =>
      ({ lg with
          mReadyFlushCacheBlockList := lg.mReadyFlushCacheBlockList ++ [b]
          mCurrCacheBlock := some (getAvailableCacheBlock lg.allocated)
          allocated := lg.allocated + 1 }, [b])

/-- The three copies of `Logger::log`, all to the end of the block. -/
def copyRecord (lg : Logger) (logPrefix logstr logSuffix : List UInt8) : Logger :=
  { lg with mCurrCacheBlock := lg.mCurrCacheBlock.map fun b =>
      ((b.copyTo b.endIndex logPrefix).copyTo b.endIndex logstr).copyTo b.endIndex logSuffix }

/-- The section of `Logger::log`, and the blocks it moved to the list. The usable
size is an `int` kept in a `size_t`. -/
def logSection (lg : Logger) (logPrefix logstr logSuffix : List UInt8) :
    Logger × List CacheBlock :=
  let logTotalSize := uint64 (logPrefix.length + logstr.length + logSuffix.length)
  let swapped :=
    if uint64 lg.getCurrCacheBlockUsableSize ≤ logTotalSize then lg.swapCacheBlock else (lg, [])
  if logTotalSize < uint64 swapped.1.getCurrCacheBlockUsableSize
  then (swapped.1.copyRecord logPrefix logstr logSuffix, swapped.2)
  else swapped

/-- What `Logger::log` formats before it takes the mutex, `logtime` being the text of
the time stamp. -/
def logParts (logtime : List UInt8) : Except String (List UInt8 × List UInt8) := do
  let logPrefix ← fmt blank 0 64 (chars "\x7b\"logtime\":\"%\", ") [logtime]
  let logSuffix ← fmt blank 0 4 (chars "\x7d\n") []
  return (logPrefix.cString 64, logSuffix.cString 4)

/-- `Logger::log`, `none` being the null pointer. -/
def log (lg : Logger) (logtime : List UInt8) (logstr : Option (List UInt8)) :
    Except String (Logger × List CacheBlock) :=
  match logstr with
  | none => .ok (lg, [])
  | some logstr => do
      let parts ← logParts logtime
      return lg.logSection parts.1 logstr parts.2

/-- The second section of `Logger::flush`, and the blocks it wrote. -/
def writeReady (lg : Logger) : Logger × List CacheBlock :=
  ({ lg with mReadyFlushCacheBlockList := [] }, lg.mReadyFlushCacheBlockList)

/-- `Logger::flush` run alone, `opened` saying whether `fopen` succeeds, and the blocks
it wrote. -/
def flush (lg : Logger) (opened : Bool) : Logger × List CacheBlock :=
  let swapped := lg.swapCacheBlock
  if opened then swapped.1.writeReady else (swapped.1, [])

/-- The bytes of blocks written one after the other. -/
def fileBytes (blocks : List CacheBlock) : List UInt8 := blocks.flatMap CacheBlock.data

/-! ### The text of a record -/

/-- `Logger::log` never throws, and every record ends with a brace and a new line. -/
lemma logParts_ok (logtime : List UInt8) :
    ∃ logPrefix, logParts logtime = .ok (logPrefix, [125, 10]) := by
  obtain ⟨t, hscan⟩ : ∃ t, scanFormat blank (0 + 64 - 1) 0 (chars "\x7b\"logtime\":\"%\", ")
      = .placeholder t 12 (chars "\", ") := ⟨_, rfl⟩
  obtain ⟨s, hs⟩ : ∃ s, fmt blank 0 64 (chars "\x7b\"logtime\":\"%\", ") [logtime] = .ok s := by
    rw [fmt, if_neg (by decide)]
    simp only [hscan, fmt]
    exact fmtEnd_ok (by decide)
  obtain ⟨r, hr, hsuffix⟩ : ∃ r, fmt blank 0 4 (chars "\x7d\n") [] = .ok r ∧
      r.cString 4 = [125, 10] := ⟨_, rfl, rfl⟩
  refine ⟨s.cString 64, ?_⟩
  rw [logParts, hs, hr, ← hsuffix]
  rfl

example : logParts (chars "2024-02-29 23:59:59")
    = .ok (chars "\x7b\"logtime\":\"2024-02-29 23:59:59\", ", chars "\x7d\n") := by rfl

/-! ### What the sections do to the blocks -/

variable {lg : Logger} {b : CacheBlock}

lemma swapCacheBlock_eq (h : lg.mCurrCacheBlock = some b) : lg.swapCacheBlock
    = ({ lg with
        mReadyFlushCacheBlockList := lg.mReadyFlushCacheBlockList ++ [b]
        mCurrCacheBlock := some (getAvailableCacheBlock lg.allocated)
        allocated := lg.allocated + 1 }, [b]) := by
  rw [swapCacheBlock, h]

/-- A flush that runs alone and can open the file writes the blocks of the list and
then the current one. -/
lemma flush_eq (h : lg.mCurrCacheBlock = some b) :
    (lg.flush true).1.mReadyFlushCacheBlockList = [] ∧
      (lg.flush true).2 = lg.mReadyFlushCacheBlockList ++ [b] := by
  rw [flush, if_pos rfl, swapCacheBlock_eq h]
  exact ⟨rfl, rfl⟩

/-- What `Logger::log` can do: nothing to the blocks but to the memory after the
current one, after swapping it or not. -/
lemma log_cases {logtime : List UInt8} {logstr : Option (List UInt8)}
    {r : Logger × List CacheBlock} (h : lg.log logtime logstr = .ok r) :
    ∃ swapped, (swapped = (lg, []) ∨ swapped = lg.swapCacheBlock) ∧
      (r = swapped ∨ ∃ logPrefix logstr logSuffix,
        r = (swapped.1.copyRecord logPrefix logstr logSuffix, swapped.2)) := by
  cases logstr with
  | none => exact ⟨(lg, []), Or.inl rfl, Or.inl (Except.ok.inj h).symm⟩
  | some logstr =>
      obtain ⟨logPrefix, hparts⟩ := logParts_ok logtime
      have hr : lg.logSection logPrefix logstr [125, 10] = r := by
        rw [log, hparts] at h
        exact Except.ok.inj h
      simp only [logSection] at hr
      split_ifs at hr with hswap hfits hfits
      · exact ⟨_, Or.inr rfl, Or.inr ⟨_, _, _, hr.symm⟩⟩
      · exact ⟨_, Or.inr rfl, Or.inl hr.symm⟩
      · exact ⟨_, Or.inl rfl, Or.inr ⟨_, _, _, hr.symm⟩⟩
      · exact ⟨_, Or.inl rfl, Or.inl hr.symm⟩

/-- What a section does to the list and to the numbering of the blocks: it moves none
to the list, or the current one, which the next allocation replaces. -/
inductive Retires (lg lg' : Logger) : List CacheBlock → Prop
  | none (hready : lg'.mReadyFlushCacheBlockList = lg.mReadyFlushCacheBlockList)
      (halloc : lg'.allocated = lg.allocated)
      (hserial : lg'.mCurrCacheBlock.map CacheBlock.serial
        = lg.mCurrCacheBlock.map CacheBlock.serial) : Retires lg lg' []
  | one {b : CacheBlock} (hcurr : lg.mCurrCacheBlock = some b)
      (hready : lg'.mReadyFlushCacheBlockList = lg.mReadyFlushCacheBlockList ++ [b])
      (halloc : lg'.allocated = lg.allocated + 1)
      (hserial : lg'.mCurrCacheBlock.map CacheBlock.serial = some lg.allocated) :
      Retires lg lg' [b]

lemma Retires.ready_eq {lg' : Logger} {bs : List CacheBlock} (h : Retires lg lg' bs) :
    lg'.mReadyFlushCacheBlockList = lg.mReadyFlushCacheBlockList ++ bs := by
  cases h with
  | none hready => rw [hready, List.append_nil]
  | one _ hready => exact hready

lemma retires_swap : Retires lg lg.swapCacheBlock.1 lg.swapCacheBlock.2 := by
  cases hcurr : lg.mCurrCacheBlock with
  | none =>
      rw [swapCacheBlock, hcurr]
      exact .none rfl rfl rfl
  | some b =>
      rw [swapCacheBlock_eq hcurr]
      exact .one hcurr rfl rfl rfl

lemma Retires.copyRecord {lg' : Logger} {bs : List CacheBlock} (h : Retires lg lg' bs)
    (logPrefix logstr logSuffix : List UInt8) :
    Retires lg (lg'.copyRecord logPrefix logstr logSuffix) bs := by
  have hsame : (lg'.copyRecord logPrefix logstr logSuffix).mCurrCacheBlock.map CacheBlock.serial
      = lg'.mCurrCacheBlock.map CacheBlock.serial := by
    rw [Logger.copyRecord, Option.map_map]
    rfl
  cases h with
  | none hready halloc hserial => exact .none hready halloc (hsame.trans hserial)
  | one hcurr hready halloc hserial => exact .one hcurr hready halloc (hsame.trans hserial)

lemma retires_log {logtime : List UInt8} {logstr : Option (List UInt8)}
    {r : Logger × List CacheBlock} (h : lg.log logtime logstr = .ok r) : Retires lg r.1 r.2 := by
  obtain ⟨swapped, hswapped, hr⟩ := log_cases h
  have hretires : Retires lg swapped.1 swapped.2 := by
    rcases hswapped with rfl | rfl
    · exact .none rfl rfl rfl
    · exact retires_swap
  rcases hr with rfl | ⟨logPrefix, logstr', logSuffix, rfl⟩
  · exact hretires
  · exact hretires.copyRecord logPrefix logstr' logSuffix

end Logger

end Xsix

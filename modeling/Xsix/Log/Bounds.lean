import Mathlib.Data.List.GetD
import Xsix.Log.Content

/-!
Where the three copies of `Logger::log` go.

`sectionSpans` follows `logSection` and notes, for each copy it makes, the cells the
iterator runs over; every other cell is as it was in the block that is current then
(`logSection_cells`). `storedSpans` keeps, call after call, what has been copied to the
current block. `Confined` is what one call owes the block: to stay inside its cells, to spare
what is stored there, and to write nothing of a record no block can hold.

The copies start at `end()`, so a call that makes them leaves the block. It makes them
whatever the length, the usable size being the largest `size_t`, short of a record of exactly
that length: `log_confined_iff`.
-/

namespace Xsix

open CInt Memory Fmt

namespace Logger

/-- The cells that `std::copy` of `len` characters to the iterator at `off` runs over. -/
structure Span where
  off : ℤ
  len : ℤ
  deriving DecidableEq, Repr

/-- The indices of those cells. -/
def Span.cells (s : Span) : Set ℤ := Set.Ico s.off (s.off + s.len)

/-- The spans of the three copies of `Logger::log`. -/
def copySpans (lg : Logger) (logPrefix logstr logSuffix : List UInt8) : List Span :=
  match lg.mCurrCacheBlock with
  | none => []
  | some b => [⟨b.endIndex, logPrefix.length⟩, ⟨b.endIndex, logstr.length⟩,
      ⟨b.endIndex, logSuffix.length⟩]

/-- `log_total_size`. -/
def logTotalSize (logPrefix logstr logSuffix : List UInt8) : ℤ :=
  uint64 (logPrefix.length + logstr.length + logSuffix.length)

/-- The logger when the section of `Logger::log` has swapped the block, or has not. -/
def swappedFor (lg : Logger) (total : ℤ) : Logger × List CacheBlock :=
  if uint64 lg.getCurrCacheBlockUsableSize ≤ total then lg.swapCacheBlock else (lg, [])

/-- The spans that the section of `Logger::log` writes, in the block that is current
then. -/
def sectionSpans (lg : Logger) (logPrefix logstr logSuffix : List UInt8) : List Span :=
  let total := logTotalSize logPrefix logstr logSuffix
  let swapped := lg.swappedFor total
  if total < uint64 swapped.1.getCurrCacheBlockUsableSize
  then swapped.1.copySpans logPrefix logstr logSuffix
  else []

/-- What is left stored in the block that is current when the copies are made, `stored` being
what was in the block before. -/
def keptSpans (lg : Logger) (stored : List Span) (total : ℤ) : List Span :=
  if (lg.swappedFor total).2 = [] then stored else []

/-- What is stored in the current block after a call, `stored` being what was before. -/
def storedSpans (lg : Logger) (stored : List Span) : Call → List Span
  | .log logtime (some logstr) =>
      match logParts logtime with
      | .ok parts =>
          lg.keptSpans stored (logTotalSize parts.1 logstr parts.2) ++
            lg.sectionSpans parts.1 logstr parts.2
      | .error _ => stored
  | .log _ none => stored
  | .flush _ => if lg.swapCacheBlock.2 = [] then stored else []

/-- What is stored in the current block after a sequence of calls. -/
def storedAfter : Logger → List Span → List Call → List Span
  | _, stored, [] => stored
  | lg, stored, c :: cs => storedAfter (lg.perform c).1 (lg.storedSpans stored c) cs

/-- What writing a record of `total` characters owes a block in which `stored` is
stored. -/
structure Confined (stored spans : List Span) (total : ℕ) : Prop where
  inside : ∀ s ∈ spans, s.cells ⊆ Set.Ico 0 cacheBlockSize
  apart : ∀ s ∈ spans, ∀ t ∈ stored, ∀ i ∈ s.cells, i ∉ t.cells
  dropped : cacheBlockSize < total → spans = []

variable {lg : Logger} {b : CacheBlock} {logPrefix logstr logSuffix : List UInt8}

/-! ### The spans are those of the section -/

/-- The section is the swap, or not, and the copies, or not. -/
lemma logSection_eq : lg.logSection logPrefix logstr logSuffix =
    if logTotalSize logPrefix logstr logSuffix <
        uint64 (lg.swappedFor (logTotalSize logPrefix logstr
          logSuffix)).1.getCurrCacheBlockUsableSize
    then ((lg.swappedFor (logTotalSize logPrefix logstr logSuffix)).1.copyRecord logPrefix logstr
      logSuffix, (lg.swappedFor (logTotalSize logPrefix logstr logSuffix)).2)
    else lg.swappedFor (logTotalSize logPrefix logstr logSuffix) := rfl

/-- A copy leaves the cells it does not run over. -/
lemma copyTo_cells_of_notMem {i j : ℤ} {text : List UInt8}
    (h : j ∉ Span.cells ⟨i, text.length⟩) : (b.copyTo i text).cells j = b.cells j := by
  simp only [Span.cells, Set.mem_Ico] at h
  change write b.cells i text j = b.cells j
  simp only [write]
  split
  · next hle => exact List.getD_eq_default _ _ (by omega)
  · rfl

/-- **The cells of no span are as they were** in the block current at the copies. -/
lemma logSection_cells {b' : CacheBlock} {j : ℤ}
    (hb : (lg.swappedFor (logTotalSize logPrefix logstr logSuffix)).1.mCurrCacheBlock = some b)
    (hb' : (lg.logSection logPrefix logstr logSuffix).1.mCurrCacheBlock = some b')
    (hj : ∀ s ∈ lg.sectionSpans logPrefix logstr logSuffix, j ∉ s.cells) :
    b'.cells j = b.cells j := by
  rw [logSection_eq] at hb'
  simp only [sectionSpans] at hj
  split_ifs at hb' hj with hfits
  · rw [copySpans, hb] at hj
    have hprefix := hj ⟨b.endIndex, logPrefix.length⟩ (by simp)
    have hmsg := hj ⟨b.endIndex, logstr.length⟩ (by simp)
    have hsuffix := hj ⟨b.endIndex, logSuffix.length⟩ (by simp)
    rw [copyRecord, hb, Option.map_some, Option.some_inj] at hb'
    rw [← hb']
    calc (((b.copyTo b.endIndex logPrefix).copyTo b.endIndex logstr).copyTo b.endIndex
            logSuffix).cells j
        = ((b.copyTo b.endIndex logPrefix).copyTo b.endIndex logstr).cells j :=
          copyTo_cells_of_notMem hsuffix
      _ = (b.copyTo b.endIndex logPrefix).cells j := copyTo_cells_of_notMem hmsg
      _ = b.cells j := copyTo_cells_of_notMem hprefix
  · rw [hb] at hb'
    rw [Option.some.inj hb']

/-! ### What a call writes -/

/-- The usable size of a block is the largest `size_t`. -/
lemma usable_eq (hcurr : lg.mCurrCacheBlock = some b) :
    uint64 lg.getCurrCacheBlockUsableSize = 2 ^ 64 - 1 := by
  rw [getCurrCacheBlockUsableSize, hcurr]
  rfl

/-- Short of a record of that length, the section makes its copies without swapping. -/
lemma sectionSpans_of_lt (hcurr : lg.mCurrCacheBlock = some b)
    (hlt : logTotalSize logPrefix logstr logSuffix < 2 ^ 64 - 1) :
    lg.sectionSpans logPrefix logstr logSuffix = lg.copySpans logPrefix logstr logSuffix := by
  have hsame : lg.swappedFor (logTotalSize logPrefix logstr logSuffix) = (lg, []) := by
    rw [swappedFor, usable_eq hcurr, if_neg (not_le.mpr hlt)]
  simp only [sectionSpans, hsame]
  rw [usable_eq hcurr, if_pos hlt]

/-- A record of that length makes it swap the block and copy nothing. -/
lemma sectionSpans_of_eq (hcurr : lg.mCurrCacheBlock = some b)
    (heq : logTotalSize logPrefix logstr logSuffix = 2 ^ 64 - 1) :
    lg.sectionSpans logPrefix logstr logSuffix = [] := by
  have hswapped : lg.swappedFor (logTotalSize logPrefix logstr logSuffix) = lg.swapCacheBlock := by
    rw [swappedFor, usable_eq hcurr, if_pos heq.ge]
  have hfresh : lg.swapCacheBlock.1.mCurrCacheBlock
      = some (getAvailableCacheBlock lg.allocated) := by
    rw [swapCacheBlock_eq hcurr]
  simp only [sectionSpans, hswapped]
  rw [usable_eq hfresh, if_neg (not_lt.mpr heq.ge)]

lemma logTotalSize_le : logTotalSize logPrefix logstr logSuffix ≤ 2 ^ 64 - 1 := by
  simp only [logTotalSize, uint64]
  omega

/-- A call confines its record to the block exactly when it copies nothing of it. -/
lemma confined_iff (hcurr : lg.mCurrCacheBlock = some b) (hsuffix : logSuffix ≠ [])
    (stored : List Span) (total : ℕ) :
    Confined stored (lg.sectionSpans logPrefix logstr logSuffix) total ↔
      logTotalSize logPrefix logstr logSuffix = 2 ^ 64 - 1 := by
  constructor
  · intro h
    by_contra hne
    have hlt := lt_of_le_of_ne logTotalSize_le hne
    -- the first character of the suffix goes to the cell at `end()`
    have hmem : (⟨b.endIndex, logSuffix.length⟩ : Span) ∈
        lg.sectionSpans logPrefix logstr logSuffix := by
      rw [sectionSpans_of_lt hcurr hlt, copySpans, hcurr]
      simp
    have hpos := List.length_pos_iff.mpr hsuffix
    have hcell : cacheBlockSize ∈ Span.cells ⟨b.endIndex, logSuffix.length⟩ :=
      ⟨le_rfl, by simp only [CacheBlock.endIndex]; omega⟩
    exact lt_irrefl _ (h.inside _ hmem hcell).2
  · intro heq
    rw [sectionSpans_of_eq hcurr heq]
    exact ⟨by simp, by simp, fun _ => rfl⟩

/-- **Logging always leaves the block.** In every state that calls of `log` and `flush` bring a
logger to, and for every message, the copies of `Logger::log` stay inside the current
block, spare what is stored there and leave out a record that no block can hold, if and only
if the record is as long as the largest `size_t`, so that nothing is copied. -/
theorem log_confined_iff (logFileName : String) (cs : List Call) (logtime logstr : List UInt8) :
    ∃ parts, logParts logtime = .ok parts ∧
      let lg := (session (built logFileName) cs).1
      let total := logTotalSize parts.1 logstr parts.2
      (Confined (lg.keptSpans (storedAfter (built logFileName) [] cs) total)
          (lg.sectionSpans parts.1 logstr parts.2)
          (parts.1.length + logstr.length + parts.2.length) ↔
        total = 2 ^ 64 - 1) := by
  obtain ⟨logPrefix, hparts⟩ := logParts_ok logtime
  obtain ⟨b, hcurr, -⟩ := ((zeroed_built logFileName).session cs).1.current
  exact ⟨_, hparts, confined_iff hcurr (by simp) _ _⟩

/-- **The first record of a logger** is copied past the end of its block. -/
theorem first_record_outside :
    ∃ parts, logParts (chars "2024-02-29 23:59:59") = .ok parts ∧
      (built "server").sectionSpans parts.1 (chars "a") parts.2
        = [⟨1048576, 34⟩, ⟨1048576, 1⟩, ⟨1048576, 2⟩] ∧
      ¬Confined [] ((built "server").sectionSpans parts.1 (chars "a") parts.2) 37 := by
  refine ⟨(chars "\x7b\"logtime\":\"2024-02-29 23:59:59\", ", chars "\x7d\n"), rfl, ?_, fun h => ?_⟩
  · decide
  have hcell : (1048576 : ℤ) ∈ Span.cells ⟨1048576, 1⟩ := ⟨le_rfl, by norm_num⟩
  exact absurd (h.inside ⟨1048576, 1⟩ (by decide) hcell).2 (by decide)

end Logger

end Xsix

import Xsix.Log.Model

/-!
What reaches the file when one thread logs and flushes.

A `std::array` is as large as it can be, so the usable size of a block is minus one
as an `int` and the largest `size_t` there is: `Logger::log` always finds room, and its
three copies go to the end of the array, past its cells. The cells stay the zeros they
were made of, and every flush writes a whole block of them. So no file ever holds what
was logged: `log_never_reaches_file`.
-/

namespace Xsix

open Memory Fmt

namespace Logger

/-- A call of a public operation; `flush` says whether `fopen` succeeds. -/
inductive Call where
  | log (logtime : List UInt8) (logstr : Option (List UInt8))
  | flush (opened : Bool)

/-- Making a call: the logger after it and the bytes appended to the file. A call of
`Logger::log` that threw would leave both as they are. -/
def perform (lg : Logger) : Call → Logger × List UInt8
  | .log logtime logstr =>
      match lg.log logtime logstr with
      | .ok r => (r.1, [])
      | .error _ => (lg, [])
  | .flush opened =>
      let r := lg.flush opened
      (r.1, fileBytes r.2)

/-- Making calls one after the other: the logger after them and the bytes appended to
the file. -/
def session : Logger → List Call → Logger × List UInt8
  | lg, [] => (lg, [])
  | lg, c :: cs =>
      let r := lg.perform c
      let rest := session r.1 cs
      (rest.1, r.2 ++ rest.2)

/-- The record a call is to leave in the file. -/
def record : Call → List UInt8
  | .log logtime (some logstr) =>
      match logParts logtime with
      | .ok parts => parts.1 ++ logstr ++ parts.2
      | .error _ => []
  | _ => []

variable {lg : Logger} {b : CacheBlock} {cs : List Call}

/-- Every cell of every block is zero. -/
structure Zeroed (lg : Logger) : Prop where
  current : ∃ b, lg.mCurrCacheBlock = some b ∧ ∀ x ∈ b.data, x = 0
  ready : ∀ b ∈ lg.mReadyFlushCacheBlockList, ∀ x ∈ b.data, x = 0

lemma mem_data_available {serial : ℕ} : ∀ x ∈ (getAvailableCacheBlock serial).data, x = 0 := by
  intro x hx
  obtain ⟨i, -, rfl⟩ := List.mem_map.mp hx
  rfl

lemma data_ne_nil (b : CacheBlock) : b.data ≠ [] := by
  intro hnil
  have hlen : b.data.length = cacheBlockSize.toNat := length_read
  rw [hnil] at hlen
  exact absurd hlen (by decide)

/-- A copy to the end of a block misses its cells. -/
lemma data_copyTo_end {text : List UInt8} : (b.copyTo b.endIndex text).data = b.data :=
  read_write_of_le (by simp [CacheBlock.size, CacheBlock.endIndex])

lemma zeroed_built (logFileName : String) : Zeroed (built logFileName) :=
  ⟨⟨_, rfl, mem_data_available⟩, by simp [built]⟩

lemma Zeroed.swapCacheBlock (h : Zeroed lg) : Zeroed lg.swapCacheBlock.1 := by
  obtain ⟨b, hcurr, hb⟩ := h.current
  rw [swapCacheBlock_eq hcurr]
  refine ⟨⟨_, rfl, mem_data_available⟩, fun d hd => ?_⟩
  rcases List.mem_append.mp hd with hd | hd
  · exact h.ready d hd
  · rw [List.mem_singleton.mp hd]
    exact hb

lemma Zeroed.copyRecord (h : Zeroed lg) (logPrefix logstr logSuffix : List UInt8) :
    Zeroed (lg.copyRecord logPrefix logstr logSuffix) := by
  obtain ⟨b, hcurr, hb⟩ := h.current
  refine ⟨⟨((b.copyTo b.endIndex logPrefix).copyTo b.endIndex logstr).copyTo b.endIndex logSuffix,
    by rw [Logger.copyRecord, hcurr, Option.map_some], ?_⟩, h.ready⟩
  have hsame : (((b.copyTo b.endIndex logPrefix).copyTo b.endIndex logstr).copyTo b.endIndex
      logSuffix).data = b.data := by
    calc _ = ((b.copyTo b.endIndex logPrefix).copyTo b.endIndex logstr).data := data_copyTo_end
      _ = (b.copyTo b.endIndex logPrefix).data := data_copyTo_end
      _ = b.data := data_copyTo_end
  rw [hsame]
  exact hb

/-- **One call leaves the blocks zero** and appends nothing but zeros. -/
lemma Zeroed.perform (h : Zeroed lg) (c : Call) :
    Zeroed (lg.perform c).1 ∧ ∀ x ∈ (lg.perform c).2, x = 0 := by
  cases c with
  | log logtime logstr =>
      rw [Logger.perform]
      cases hlog : lg.log logtime logstr with
      | error e => exact ⟨h, by simp⟩
      | ok r =>
          refine ⟨?_, by simp⟩
          obtain ⟨swapped, hswapped, hr⟩ := log_cases hlog
          have hz : Zeroed swapped.1 := by
            rcases hswapped with rfl | rfl
            · exact h
            · exact h.swapCacheBlock
          rcases hr with rfl | ⟨logPrefix, logstr', logSuffix, rfl⟩
          · exact hz
          · exact hz.copyRecord logPrefix logstr' logSuffix
  | flush opened =>
      have hz := h.swapCacheBlock
      cases opened with
      | false => exact ⟨hz, by simp [Logger.perform, flush, fileBytes]⟩
      | true =>
          refine ⟨⟨hz.current, by simp [Logger.perform, flush, writeReady]⟩, ?_⟩
          intro x hx
          obtain ⟨d, hd, hx⟩ := List.mem_flatMap.mp hx
          exact hz.ready d hd x hx

lemma session_append {cs' : List Call} : (session lg (cs ++ cs')).2
    = (session lg cs).2 ++ (session (session lg cs).1 cs').2 := by
  induction cs generalizing lg with
  | nil => rfl
  | cons c cs ih => simp [session, ih]

/-- The file only ever receives zeros. -/
lemma Zeroed.session (h : Zeroed lg) (cs : List Call) :
    Zeroed (lg.session cs).1 ∧ ∀ x ∈ (lg.session cs).2, x = 0 := by
  induction cs generalizing lg with
  | nil => exact ⟨h, by simp [Logger.session]⟩
  | cons c cs ih =>
      obtain ⟨hz, hbytes⟩ := h.perform c
      obtain ⟨hz', hrest⟩ := ih hz
      refine ⟨hz', fun x hx => ?_⟩
      rcases List.mem_append.mp hx with hx | hx
      · exact hbytes x hx
      · exact hrest x hx

/-- A flush that can open the file appends something. -/
lemma Zeroed.flush_ne_nil (h : Zeroed lg) : (lg.session [.flush true]).2 ≠ [] := by
  obtain ⟨b, hcurr, -⟩ := h.current
  have hbytes : (lg.session [.flush true]).2 = fileBytes (lg.mReadyFlushCacheBlockList ++ [b]) := by
    rw [← (flush_eq hcurr).2]
    simp [Logger.session, Logger.perform]
  rw [hbytes]
  intro hnil
  rw [fileBytes, List.flatMap_append, List.append_eq_nil_iff] at hnil
  exact data_ne_nil b (by simpa using hnil.2)

/-- What is to be recorded is nothing, or has bytes that are not zero. -/
lemma records_cases (cs : List Call) : cs.flatMap record = [] ∨ ∃ x ∈ cs.flatMap record, x ≠ 0 := by
  by_cases h : ∃ c ∈ cs, record c ≠ []
  · right
    obtain ⟨c, hc, hne⟩ := h
    refine ⟨10, List.mem_flatMap.mpr ⟨c, hc, ?_⟩, by decide⟩
    cases c with
    | flush opened => exact absurd rfl hne
    | log logtime logstr =>
        cases logstr with
        | none => exact absurd rfl hne
        | some logstr =>
            obtain ⟨logPrefix, hparts⟩ := logParts_ok logtime
            simp [record, hparts]
  · left
    rw [List.flatMap_eq_nil_iff]
    intro c hc
    by_contra hne
    exact h ⟨c, hc, hne⟩

/-- **Nothing that is logged reaches the file.** Whatever was logged and flushed,
after a final flush that could open the file its bytes are not the records in the
order of the calls. -/
theorem log_never_reaches_file (logFileName : String) (cs : List Call) :
    (session (built logFileName) (cs ++ [.flush true])).2 ≠ cs.flatMap record := by
  have hbuilt := zeroed_built logFileName
  have hzero := (hbuilt.session (cs ++ [.flush true])).2
  intro heq
  rcases records_cases cs with hnil | ⟨x, hx, hne⟩
  · rw [hnil, session_append, List.append_eq_nil_iff] at heq
    exact (hbuilt.session cs).1.flush_ne_nil heq.2
  · exact hne (hzero x (heq ▸ hx))

/-- **One record, one flush**: the file has a million zeros and not the record. -/
theorem one_record_lost :
    let cs := [Call.log (chars "2024-02-29 23:59:59") (some (chars "a"))]
    (session (built "server") (cs ++ [.flush true])).2 ≠ cs.flatMap record ∧
      ∀ x ∈ (session (built "server") (cs ++ [.flush true])).2, x = 0 := by
  intro cs
  have hzero := ((zeroed_built "server").session (cs ++ [.flush true])).2
  refine ⟨fun heq => ?_, hzero⟩
  have hmem : (97 : UInt8) ∈ cs.flatMap record := by decide
  exact absurd (hzero 97 (heq ▸ hmem)) (by decide)

end Logger

end Xsix

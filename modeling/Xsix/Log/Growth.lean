import Xsix.Log.Bounds
import Xsix.Log.Threads

/-!
The file of a logger that any number of threads use.

The threads log through the function template `log` of `logger.h`, which formats into an array
of 4096 bytes, and flush; `fmt` may throw, and `fopen` may fail. What is formatted is far too
short for `Logger::log` to swap a block, so only `Logger::flush` retires blocks, however much was
logged.

* `file_grows`: the file has a megabyte for each flush, but for those whose block is still in
  the list, and there is none once a flush has written.
-/

namespace Xsix

open CInt Memory Fmt

/-- The function template `log`, the arguments being given by their texts. -/
def log (lg : Logger) (logtime format : List UInt8) (args : List (List UInt8)) :
    Except String (Logger × List CacheBlock) := do
  let tmpbuf ← fmt blank 0 4096 format args
  lg.log logtime (some (tmpbuf.cString 4096))

namespace Logger

variable {lg : Logger} {b : CacheBlock} {logPrefix logstr logSuffix : List UInt8}

lemma length_cString_le (s : Sheet) (n : ℕ) : (s.cString n).length ≤ n := by
  calc (s.cString n).length
      ≤ ((List.range n).map fun i : ℕ => s.cells i).length := (List.takeWhile_prefix _).length_le
    _ = n := by simp

lemma length_logPrefix_le {logtime : List UInt8} {parts : List UInt8 × List UInt8}
    (h : logParts logtime = .ok parts) : parts.1.length ≤ 64 := by
  rw [logParts] at h
  cases hlead : fmt blank 0 64 (chars "\x7b\"logtime\":\"%\", ") [logtime] with
  | error e =>
      rw [hlead] at h
      cases h
  | ok s =>
      rw [hlead] at h
      cases htail : fmt blank 0 4 (chars "\x7d\n") [] with
      | error e =>
          rw [htail] at h
          cases h
      | ok t =>
          rw [htail] at h
          obtain rfl := Except.ok.inj h
          exact length_cString_le s 64

/-- Short of a record as long as the largest `size_t`, no block is swapped. -/
lemma logSection_of_lt (hcurr : lg.mCurrCacheBlock = some b)
    (hlt : logTotalSize logPrefix logstr logSuffix < 2 ^ 64 - 1) :
    lg.logSection logPrefix logstr logSuffix = (lg.copyRecord logPrefix logstr logSuffix, []) := by
  have hsame : lg.swappedFor (logTotalSize logPrefix logstr logSuffix) = (lg, []) := by
    rw [swappedFor, usable_eq hcurr, if_neg (not_le.mpr hlt)]
  rw [logSection_eq, hsame, usable_eq hcurr, if_pos hlt]

/-- **What `log` formats is copied without a swap.** -/
lemma log_copies {logtime format : List UInt8} {args : List (List UInt8)}
    {r : Logger × List CacheBlock} (hcurr : lg.mCurrCacheBlock = some b)
    (h : Xsix.log lg logtime format args = .ok r) :
    ∃ logPrefix logstr logSuffix, r = (lg.copyRecord logPrefix logstr logSuffix, []) := by
  rw [Xsix.log] at h
  cases hfmt : fmt blank 0 4096 format args with
  | error e =>
      rw [hfmt] at h
      cases h
  | ok tmpbuf =>
      rw [hfmt] at h
      obtain ⟨logPrefix, hparts⟩ := logParts_ok logtime
      have hr : lg.logSection logPrefix (tmpbuf.cString 4096) [125, 10] = r := by
        change lg.log logtime (some (tmpbuf.cString 4096)) = .ok r at h
        rw [Logger.log, hparts] at h
        exact Except.ok.inj h
      have hlead := length_logPrefix_le hparts
      have hmsg := length_cString_le tmpbuf 4096
      refine ⟨logPrefix, tmpbuf.cString 4096, [125, 10], ?_⟩
      rw [← hr, logSection_of_lt hcurr]
      simp only [logTotalSize, uint64, List.length_cons, List.length_nil] at hlead ⊢
      omega

lemma length_data (b : CacheBlock) : b.data.length = 1048576 := length_read

end Logger

namespace Logging

open Logger

variable {T : Type*}

/-- The calls of the threads, `Logger::flush` in its sections. -/
inductive Call (T : Type*) where
  | log (t : T) (logtime format : List UInt8) (args : List (List UInt8))
  | swap (t : T)
  | fopen (t : T) (opened : Bool)
  | write (t : T)

/-- The calls that begin a flush. -/
def Call.flushes : Call T → Bool
  | .swap _ => true
  | _ => false

section Program

variable [DecidableEq T]

/-- The threads of a program: a call of `log` that throws leaves the logger as it is. -/
def program : Machine (Logging T) (Call T) Event where
  next s
    | .log t logtime format args =>
        if s.flushing t = .idle then
          match Xsix.log s.logger logtime format args with
          | .ok r => some ({ s with logger := r.1 }, r.2.map .retired)
          | .error _ => some (s, [])
        else none
    | .swap t => machine.next s (.swap t)
    | .fopen t opened => machine.next s (.fopen t opened)
    | .write t => machine.next s (.write t)

variable {s u : Logging T} {i : Call T} {is : List (Call T)} {os o : List Event}

/-- There is a current block, and one was retired by each flush. -/
structure Grown (is : List (Call T)) (os : List Event) (lg : Logger) : Prop where
  current : ∃ b, lg.mCurrCacheBlock = some b
  flushes : (written os).length + lg.mReadyFlushCacheBlockList.length = is.countP Call.flushes

/-- **One step keeps a block for each flush.** -/
lemma Grown.step (h : Grown is os s.logger) (hn : program.next s i = some (u, o)) :
    Grown (is ++ [i]) (os ++ o) u.logger := by
  obtain ⟨⟨b, hcurr⟩, hflushes⟩ := h
  cases i with
  | log t logtime format args =>
      simp only [program] at hn
      split_ifs at hn with hidle
      cases hlog : Xsix.log s.logger logtime format args with
      | error e =>
          simp only [hlog] at hn
          obtain ⟨rfl, rfl⟩ := Prod.mk.inj (Option.some.inj hn)
          exact ⟨⟨b, hcurr⟩, by simpa [Call.flushes] using hflushes⟩
      | ok r =>
          simp only [hlog] at hn
          obtain ⟨rfl, rfl⟩ := Prod.mk.inj (Option.some.inj hn)
          obtain ⟨logPrefix, logstr, logSuffix, rfl⟩ := log_copies hcurr hlog
          refine ⟨⟨_, by rw [copyRecord, hcurr, Option.map_some]⟩, ?_⟩
          simpa [copyRecord, Call.flushes] using hflushes
  | swap t =>
      obtain ⟨hlogger, rfl⟩ := next_swap hn
      rw [hlogger, swapCacheBlock_eq hcurr]
      refine ⟨⟨_, rfl⟩, ?_⟩
      simp only [List.map_singleton, written_append, written, List.append_nil, List.length_append,
        List.length_singleton, List.countP_append, List.countP_singleton, Call.flushes, if_true]
      omega
  | fopen t opened =>
      obtain ⟨hlogger, rfl⟩ := next_fopen hn
      exact ⟨⟨b, hlogger ▸ hcurr⟩, by simpa [hlogger, Call.flushes] using hflushes⟩
  | write t =>
      obtain ⟨hlogger, rfl⟩ := next_write hn
      refine ⟨⟨b, hlogger ▸ hcurr⟩, ?_⟩
      simpa [hlogger, writeReady, Call.flushes] using hflushes

lemma grown_of_run {logFileName : String} (hrun : program.Run (launched logFileName) is os s) :
    Grown is os s.logger := by
  induction hrun with
  | nil => exact ⟨⟨_, rfl⟩, rfl⟩
  | snoc _ hn ih => exact ih.step hn

lemma length_fileBytes (bs : List CacheBlock) : (fileBytes bs).length = 1048576 * bs.length := by
  simp [fileBytes, List.length_flatMap, length_data, mul_comm]

/-- **The file grows by a megabyte for each flush, however much is logged.** In every run of any
number of threads that log and flush, some calls of `log` throwing and some of `fopen` failing:
the file has a megabyte for each block written, the blocks written and those in the list are
together as many as the flushes begun, and when a flush has just written there are none in the
list. -/
theorem file_grows {logFileName : String} (hrun : program.Run (launched logFileName) is os s) :
    (fileBytes (written os)).length = 1048576 * (written os).length ∧
      (written os).length + s.logger.mReadyFlushCacheBlockList.length =
        is.countP Call.flushes ∧
      ∀ t, is.getLast? = some (.write t) →
        (fileBytes (written os)).length = 1048576 * is.countP Call.flushes := by
  have hflushes := (grown_of_run hrun).flushes
  refine ⟨length_fileBytes _, hflushes, fun t hlast => ?_⟩
  have hnone : s.logger.mReadyFlushCacheBlockList = [] := by
    cases hrun with
    | nil => simp at hlast
    | snoc _ hn =>
        obtain rfl : _ = Call.write t := by simpa using hlast
        rw [(next_write hn).1]
        rfl
  rw [length_fileBytes, ← hflushes, hnone, List.length_nil, Nat.add_zero]

/-- One thread logs and flushes while the other, whose message cannot be formatted, begins to
flush as well: both blocks go to the file. -/
theorem file_grows_two :
    ∃ os, ∃ s : Logging Bool,
      program.Run (launched "server") ([.log true (chars "2024-02-29") (chars "a%") [chars "b"]] ++
        [.swap true, .log false (chars "2024-02-29") (chars "%") [], .fopen true true, .swap false,
          .write true]) os s ∧
      (fileBytes (written os)).length = 1048576 * 2 := by
  obtain ⟨r, hlog⟩ : ∃ r, Xsix.log (built "server") (chars "2024-02-29") (chars "a%") [chars "b"] =
      .ok r := ⟨_, rfl⟩
  obtain ⟨logPrefix, logstr, logSuffix, rfl⟩ := log_copies rfl hlog
  have hfirst : program.Run (launched "server") [.log true (chars "2024-02-29") (chars "a%")
      [chars "b"]] [] (⟨(built "server").copyRecord logPrefix logstr logSuffix, fun _ => .idle⟩ :
        Logging Bool) :=
    .snoc .nil (by simp [program, launched, hlog])
  obtain ⟨os, s, hrest⟩ : ∃ os, ∃ s : Logging Bool,
      program.Run ⟨(built "server").copyRecord logPrefix logstr logSuffix, fun _ => .idle⟩
        [.swap true, .log false (chars "2024-02-29") (chars "%") [], .fopen true true, .swap false,
          .write true] os s :=
    ⟨_, _, Machine.run_iff_exec.mpr rfl⟩
  have hrun := hfirst.append hrest
  exact ⟨os, s, hrun, (file_grows hrun).2.2 true rfl⟩

end Program

end Logging

end Xsix

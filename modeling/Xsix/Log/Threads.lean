import Xsix.Library.Fifo
import Xsix.Log.Model

/-!
One logger used by any number of threads.

`Logger::log` runs in one section. `Logger::flush` swaps the current block in one
section, opens the file outside of any, and writes the list in a second section;
between the two other threads may log, retire more blocks or flush the same list, and
`fopen` may fail. Each step emits the blocks it moved to the list and those it wrote.

`retired_written_once`: the list is a queue between the two, in which a block is
known by the number of its allocation and never occurs twice.
-/

namespace Xsix

/-- Where a thread stands with respect to `Logger::flush`. -/
inductive Flush where
  | idle
  | swapped
  | opened
  deriving DecidableEq

/-- A logger and its threads. -/
structure Logging (T : Type*) where
  logger : Logger
  flushing : T → Flush

namespace Logging

open Logger

variable {T : Type*}

/-- The steps of the threads; `fopen` carries its outcome. -/
inductive Input (T : Type*) where
  | log (t : T) (logtime : List UInt8) (logstr : Option (List UInt8))
  | swap (t : T)
  | fopen (t : T) (opened : Bool)
  | write (t : T)

/-- What is observed: a block moved to the list, a block written to the file. -/
inductive Event where
  | retired (b : CacheBlock)
  | wrote (b : CacheBlock)

/-- The blocks moved to the list, in order. -/
def retired : List Event → List CacheBlock
  | [] => []
  | .retired b :: os => b :: retired os
  | .wrote _ :: os => retired os

/-- The blocks written to the file, in order. -/
def written : List Event → List CacheBlock
  | [] => []
  | .retired _ :: os => written os
  | .wrote b :: os => b :: written os

/-- The queue event an event stands for. -/
def transfer : Event → List (Fifo.Event CacheBlock)
  | .retired b => [.accept [b]]
  | .wrote b => [.release [b]]

section Events

variable {os o : List Event} {bs : List CacheBlock}

@[simp] lemma retired_append : retired (os ++ o) = retired os ++ retired o := by
  induction os with
  | nil => rfl
  | cons e os ih => cases e <;> simp [retired, ih]

@[simp] lemma written_append : written (os ++ o) = written os ++ written o := by
  induction os with
  | nil => rfl
  | cons e os ih => cases e <;> simp [written, ih]

@[simp] lemma retired_map_retired : retired (bs.map .retired) = bs := by
  induction bs with
  | nil => rfl
  | cons b bs ih => simp [retired, ih]

@[simp] lemma written_map_wrote : written (bs.map .wrote) = bs := by
  induction bs with
  | nil => rfl
  | cons b bs ih => simp [written, ih]

@[simp] lemma retired_map_wrote : retired (bs.map .wrote) = [] := by
  induction bs with
  | nil => rfl
  | cons b bs ih => simp [retired, ih]

@[simp] lemma written_map_retired : written (bs.map .retired) = [] := by
  induction bs with
  | nil => rfl
  | cons b bs ih => simp [written, ih]

lemma flatMap_retired : (bs.map .retired).flatMap transfer = bs.map fun b => .accept [b] := by
  induction bs with
  | nil => rfl
  | cons b bs ih => simp [transfer, ih]

lemma flatMap_wrote : (bs.map .wrote).flatMap transfer = bs.map fun b => .release [b] := by
  induction bs with
  | nil => rfl
  | cons b bs ih => simp [transfer, ih]

lemma accepted_transfer : Fifo.accepted (os.flatMap transfer) = retired os :=
  Fifo.accepted_flatMap rfl (fun e _ => by cases e <;> rfl) os

lemma released_transfer : Fifo.released (os.flatMap transfer) = written os :=
  Fifo.released_flatMap rfl (fun e _ => by cases e <;> rfl) os

end Events

section Machine

variable [DecidableEq T]

/-- The sections of `Logger::log` and `Logger::flush`, by any threads. A call of
`Logger::log` that threw would not reach its section. -/
def machine : Machine (Logging T) (Input T) Event where
  next s
    | .log t logtime logstr =>
        if s.flushing t = .idle then
          match s.logger.log logtime logstr with
          | .ok r => some ({ s with logger := r.1 }, r.2.map .retired)
          | .error _ => none
        else none
    | .swap t =>
        if s.flushing t = .idle then
          let r := s.logger.swapCacheBlock
          some (⟨r.1, Function.update s.flushing t .swapped⟩, r.2.map .retired)
        else none
    | .fopen t opened =>
        if s.flushing t = .swapped then
          let next := if opened then .opened else .idle
          some ({ s with flushing := Function.update s.flushing t next }, [])
        else none
    | .write t =>
        if s.flushing t = .opened then
          let r := s.logger.writeReady
          some (⟨r.1, Function.update s.flushing t .idle⟩, r.2.map .wrote)
        else none

/-- A logger just built, no thread flushing it. -/
def launched (logFileName : String) : Logging T := ⟨.built logFileName, fun _ => .idle⟩

variable {s u : Logging T} {i : Input T} {os o : List Event}

/-! ### One step -/

lemma next_swap {t : T} (hn : machine.next s (.swap t) = some (u, o)) :
    u.logger = s.logger.swapCacheBlock.1 ∧ o = s.logger.swapCacheBlock.2.map .retired := by
  simp only [machine] at hn
  split_ifs at hn with hidle
  obtain ⟨rfl, rfl⟩ := Prod.mk.inj (Option.some.inj hn)
  exact ⟨rfl, rfl⟩

/-- Opening the file, or failing to, leaves the logger as it is. -/
lemma next_fopen {t : T} {opened : Bool} (hn : machine.next s (.fopen t opened) = some (u, o)) :
    u.logger = s.logger ∧ o = [] := by
  simp only [machine] at hn
  split_ifs at hn with hswapped
  · obtain ⟨rfl, rfl⟩ := Prod.mk.inj (Option.some.inj hn)
    exact ⟨rfl, rfl⟩
  · obtain ⟨rfl, rfl⟩ := Prod.mk.inj (Option.some.inj hn)
    exact ⟨rfl, rfl⟩

lemma next_write {t : T} (hn : machine.next s (.write t) = some (u, o)) :
    u.logger = s.logger.writeReady.1 ∧ o = s.logger.mReadyFlushCacheBlockList.map .wrote := by
  simp only [machine] at hn
  split_ifs at hn with hopened
  obtain ⟨rfl, rfl⟩ := Prod.mk.inj (Option.some.inj hn)
  exact ⟨rfl, rfl⟩

/-- What a step does to the logger: a section that may move the current block to the
list, one that writes the list, or nothing. -/
lemma step_cases (hn : machine.next s i = some (u, o)) :
    (∃ bs, Retires s.logger u.logger bs ∧ o = bs.map .retired) ∨
      (u.logger = s.logger.writeReady.1 ∧ o = s.logger.mReadyFlushCacheBlockList.map .wrote) ∨
      (u.logger = s.logger ∧ o = []) := by
  cases i with
  | log t logtime logstr =>
      simp only [machine] at hn
      split_ifs at hn with hidle
      cases hlog : s.logger.log logtime logstr with
      | error e => simp [hlog] at hn
      | ok r =>
          simp only [hlog] at hn
          obtain ⟨rfl, rfl⟩ := Prod.mk.inj (Option.some.inj hn)
          exact Or.inl ⟨r.2, retires_log hlog, rfl⟩
  | swap t =>
      obtain ⟨hlogger, rfl⟩ := next_swap hn
      exact Or.inl ⟨_, hlogger ▸ retires_swap, rfl⟩
  | fopen t opened => exact Or.inr (Or.inr (next_fopen hn))
  | write t => exact Or.inr (Or.inl (next_write hn))

/-- Each section is a legal step of the queue the list is. -/
lemma step_legal (hn : machine.next s i = some (u, o)) :
    Fifo.Legal s.logger.mReadyFlushCacheBlockList (o.flatMap transfer)
      u.logger.mReadyFlushCacheBlockList := by
  rcases step_cases hn with ⟨bs, hretires, rfl⟩ | ⟨hlogger, rfl⟩ | ⟨hlogger, rfl⟩
  · rw [hretires.ready_eq, flatMap_retired]
    exact Fifo.legal_accept_each bs
  · rw [hlogger, flatMap_wrote]
    simpa [writeReady] using
      Fifo.legal_release_each (q := []) s.logger.mReadyFlushCacheBlockList
  · rw [hlogger]
    rfl

/-- The blocks moved to the list so far are the first allocations, and the current
block is the next and last one. -/
def Numbered (os : List Event) (lg : Logger) : Prop :=
  ∃ b, lg.mCurrCacheBlock = some b ∧ lg.allocated = b.serial + 1 ∧
    (retired os).map CacheBlock.serial = List.range b.serial

lemma Numbered.step (h : Numbered os s.logger) (hn : machine.next s i = some (u, o)) :
    Numbered (os ++ o) u.logger := by
  obtain ⟨b, hcurr, halloc, hserials⟩ := h
  rcases step_cases hn with ⟨bs, hretires, rfl⟩ | ⟨hlogger, rfl⟩ | ⟨hlogger, rfl⟩
  · cases hretires with
    | none hready halloc' hserial =>
        rw [hcurr] at hserial
        obtain ⟨b', hcurr', hb'⟩ := Option.map_eq_some_iff.mp hserial
        exact ⟨b', hcurr', by omega, by simpa [hb'] using hserials⟩
    | @one c hc hready halloc' hserial =>
        obtain rfl : c = b := Option.some.inj (hc.symm.trans hcurr)
        obtain ⟨b', hcurr', hb'⟩ := Option.map_eq_some_iff.mp hserial
        refine ⟨b', hcurr', by omega, ?_⟩
        calc (retired (os ++ [c].map .retired)).map CacheBlock.serial
            = (retired os).map CacheBlock.serial ++ [c.serial] := by
              rw [retired_append, retired_map_retired, List.map_append]
              rfl
          _ = List.range (c.serial + 1) := by rw [hserials, List.range_succ]
          _ = List.range b'.serial := by rw [hb', halloc]
  · rw [hlogger]
    exact ⟨b, hcurr, halloc, by simpa using hserials⟩
  · rw [hlogger]
    exact ⟨b, hcurr, halloc, by simpa using hserials⟩

/-! ### Runs -/

/-- The three steps of a flush that runs alone do what `Logger::flush` does. -/
lemma run_alone {t : T} (hrun : machine.Run s [.swap t, .fopen t true, .write t] o u) :
    u.logger = (s.logger.flush true).1 ∧ written o = (s.logger.flush true).2 := by
  obtain ⟨s₁, o₁, os₁, hswap, hrun₁, rfl⟩ := hrun.exists_cons
  obtain ⟨s₂, o₂, os₂, hopen, hrun₂, rfl⟩ := hrun₁.exists_cons
  obtain ⟨s₃, o₃, os₃, hwrite, hrun₃, rfl⟩ := hrun₂.exists_cons
  obtain ⟨rfl, rfl⟩ := hrun₃.det .nil
  obtain ⟨hlogger₁, rfl⟩ := next_swap hswap
  obtain ⟨hlogger₂, rfl⟩ := next_fopen hopen
  obtain ⟨hlogger₃, rfl⟩ := next_write hwrite
  rw [hlogger₃, hlogger₂, hlogger₁]
  exact ⟨rfl, by simp [Logger.flush, writeReady]⟩

/-- **Retired blocks are written exactly once and in order.** In every run of any
number of threads that log and flush, whether or not the file opens: the blocks moved
to the list are those written to the file followed by those still in the list, and no
two of them are the same block; a flush that cannot open the file changes nothing of
this; and a flush that runs alone and can leaves the list empty, having written every
block that was current or in the list. -/
theorem retired_written_once {logFileName : String} {is : List (Input T)}
    (hrun : machine.Run (launched logFileName) is os s) :
    (retired os = written os ++ s.logger.mReadyFlushCacheBlockList ∧
        ((retired os).map CacheBlock.serial).Nodup) ∧
      (∀ t u o, machine.next s (.fopen t false) = some (u, o) → u.logger = s.logger ∧ o = []) ∧
      ∀ t u o, machine.Run s [.swap t, .fopen t true, .write t] o u →
        u.logger.mReadyFlushCacheBlockList = [] ∧
          ∀ b, b ∈ s.logger.mReadyFlushCacheBlockList ∨ s.logger.mCurrCacheBlock = some b →
            b ∈ written o := by
  have hlegal : Fifo.Legal [] (os.flatMap transfer) s.logger.mReadyFlushCacheBlockList :=
    hrun.legal (I := fun _ => True) (fun t => t.logger.mReadyFlushCacheBlockList) transfer
      trivial (fun _ _ _ _ _ _ => trivial) fun t i u o _ hn => step_legal hn
  have hnumbered : Numbered os s.logger :=
    hrun.invariant (I := fun os t => Numbered os t.logger) ⟨_, rfl, rfl, rfl⟩
      fun os t i u o ht hn => ht.step hn
  obtain ⟨b, hcurr, -, hserials⟩ := hnumbered
  refine ⟨⟨?_, ?_⟩, fun t u o hn => next_fopen hn, fun t u o halone => ?_⟩
  · calc retired os = [] ++ Fifo.accepted (os.flatMap transfer) := accepted_transfer.symm
      _ = Fifo.released (os.flatMap transfer) ++ s.logger.mReadyFlushCacheBlockList :=
        hlegal.conservation
      _ = written os ++ s.logger.mReadyFlushCacheBlockList := by rw [released_transfer]
  · rw [hserials]
    exact List.nodup_range
  · obtain ⟨hlogger, hwritten⟩ := run_alone halone
    obtain ⟨hready, hall⟩ := flush_eq hcurr
    refine ⟨hlogger ▸ hready, fun c hc => ?_⟩
    rw [hwritten, hall]
    rcases hc with hc | hc
    · exact List.mem_append_left _ hc
    · obtain rfl : b = c := Option.some.inj (hcurr.symm.trans hc)
      simp

/-- Two threads flush: the second retires a block while the first opens the file, the
first writes both blocks and the second cannot open it. -/
theorem retired_written_once_two :
    ∃ os, ∃ s : Logging Bool,
      machine.Run (launched "server") [.swap true, .fopen true true, .swap false, .write true,
        .fopen false false] os s ∧
      (retired os).map CacheBlock.serial = [0, 1] ∧
      retired os = written os ++ s.logger.mReadyFlushCacheBlockList ∧
      ((retired os).map CacheBlock.serial).Nodup := by
  obtain ⟨os, s, hrun, hserials⟩ : ∃ os, ∃ s : Logging Bool,
      machine.Run (launched "server") [.swap true, .fopen true true, .swap false, .write true,
        .fopen false false] os s ∧ (retired os).map CacheBlock.serial = [0, 1] :=
    ⟨_, _, Machine.run_iff_exec.mpr rfl, rfl⟩
  have hretired := (retired_written_once hrun).1
  exact ⟨os, s, hrun, hserials, hretired.1, hretired.2⟩

end Machine

end Logging

end Xsix

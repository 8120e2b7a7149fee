import Xsix.Library.Machine
import Xsix.Library.OrderedMap

/-!
`LoggerManager` and the loggers that come and go.

A logger registers itself under its file name when it is constructed, unless the name is
taken, and does nothing about it when it is destroyed. A logger is known by its address,
which may be used again after it was destroyed. Beside the manager the state keeps, for
the statements only, which loggers are alive and which of them were removed by name.

`manager_tracks_iff`: the map holds live loggers only, and `flush_all_logger` reaches all
of them that were not removed, exactly as long as no name is used twice at a time and no
logger is destroyed while it is in the map.
-/

namespace Xsix

open Std OrderedMap

/-- `LoggerManager`, the values of the map being addresses of loggers. -/
structure LoggerManager (P : Type*) where
  mLoggerMap : TreeMap String P

namespace LoggerManager

variable {P : Type*}

/-- `LoggerManager::add_logger`, a logger being given by its address and file name and
`none` being the null pointer. -/
def addLogger (m : LoggerManager P) (lg : Option (P × String)) : LoggerManager P :=
  match lg with
  | none => m
  | some (p, logFileName) =>
      match m.mLoggerMap[logFileName]? with
      | none => ⟨m.mLoggerMap.insert logFileName p⟩
      | some _ => m

/-- `LoggerManager::remove_logger`. -/
def removeLogger (m : LoggerManager P) (loggerName : String) : LoggerManager P :=
  match m.mLoggerMap[loggerName]? with
  | none => m
  | some _ => ⟨m.mLoggerMap.erase loggerName⟩

/-- `LoggerManager::flush_all_logger`: the loggers it calls `flush` on, in order. -/
def flushAllLogger (m : LoggerManager P) : List P := elements m.mLoggerMap

variable {m : LoggerManager P}

lemma addLogger_getElem {p : P} {name : String}
    (hfree : m.mLoggerMap[name]? = none) (key : String) :
    (m.addLogger (some (p, name))).mLoggerMap[key]?
      = if name = key then some p else m.mLoggerMap[key]? := by
  simp only [addLogger, hfree, TreeMap.getElem?_insert,
    LawfulEqCmp.compare_eq_iff_eq]

lemma removeLogger_getElem {name : String} (key : String) :
    (m.removeLogger name).mLoggerMap[key]?
      = if name = key then none else m.mLoggerMap[key]? := by
  cases hfound : m.mLoggerMap[name]? with
  | none =>
      simp only [removeLogger, hfound]
      split_ifs with hkey
      · rw [← hkey, hfound]
      · rfl
  | some p =>
      simp only [removeLogger, hfound, TreeMap.getElem?_erase,
        LawfulEqCmp.compare_eq_iff_eq]

end LoggerManager

/-- A manager and its loggers: the file names of those alive, by their addresses, and
whether `remove_logger` was called with that name since. -/
structure Loggers (P : Type*) where
  manager : LoggerManager P
  live : P → Option String
  removed : P → Bool

namespace Loggers

variable {P : Type*} [DecidableEq P]

/-- What may happen next. -/
inductive Input (P : Type*) where
  | construct (p : P) (logFileName : String)
  | destroy (p : P)
  | removeLogger (loggerName : String)
  | flushAllLogger

/-- Constructors and destructors of loggers with the manager and calls of its
operations. A step emits the loggers that `flush_all_logger` calls `flush` on. -/
def machine : Machine (Loggers P) (Input P) P where
  next s
    | .construct p logFileName =>
        if s.live p = none then
          some (⟨s.manager.addLogger (some (p, logFileName)),
            Function.update s.live p (some logFileName), Function.update s.removed p false⟩, [])
        else none
    | .destroy p =>
        if s.live p = none then none
        else some ({ s with live := Function.update s.live p none }, [])
    | .removeLogger loggerName =>
        some ({ s with
          manager := s.manager.removeLogger loggerName
          removed := fun p => s.removed p || s.live p == some loggerName }, [])
    | .flushAllLogger => some (s, s.manager.flushAllLogger)

/-- A new manager, no logger alive. -/
def launched : Loggers P := ⟨⟨∅⟩, fun _ => none, fun _ => false⟩

/-- Every pointer in the map refers to a live logger, and `flush_all_logger` calls
`flush` once on every live logger that was not removed. -/
def Tracks (s : Loggers P) : Prop :=
  (∀ (loggerName : String) (p : P), s.manager.mLoggerMap[loggerName]? = some p → s.live p ≠ none) ∧
    ∀ p, s.live p ≠ none → s.removed p = false → s.manager.flushAllLogger.count p = 1

/-- A step that does not take a name that is in the map, or a logger that the map points
at. -/
def Keeps (s : Loggers P) : Input P → Prop
  | .construct _ logFileName => s.manager.mLoggerMap[logFileName]? = none
  | .destroy p => ∀ loggerName : String, s.manager.mLoggerMap[loggerName]? ≠ some p
  | _ => True

/-- The map has each live logger that was not removed, under its file name, and nothing
else. -/
def InSync (s : Loggers P) : Prop :=
  ∀ (loggerName : String) (p : P), s.manager.mLoggerMap[loggerName]? = some p ↔
    s.live p = some loggerName ∧ s.removed p = false

variable {s u : Loggers P} {i : Input P} {o : List P}

omit [DecidableEq P] in
lemma InSync.nodup (h : InSync s) : s.manager.flushAllLogger.Nodup := by
  refine nodup_elements fun k k' p hk hk' => ?_
  have hname := ((h k p).mp hk).1.symm.trans ((h k' p).mp hk').1
  exact Option.some.inj hname

lemma InSync.tracks (h : InSync s) : Tracks s := by
  constructor
  · intro name p hp hnone
    rw [(h name p).mp hp |>.1] at hnone
    cases hnone
  · intro p hlive hkept
    obtain ⟨name, hname⟩ := Option.ne_none_iff_exists'.mp hlive
    have hmem : p ∈ s.manager.flushAllLogger :=
      mem_elements_iff.mpr ⟨name, (h name p).mpr ⟨hname, hkept⟩⟩
    exact List.count_eq_one_of_mem h.nodup hmem

/-! ### One step -/

/-- **A step that keeps to the condition keeps the map in step with the loggers.** -/
lemma InSync.step (h : InSync s) (hn : machine.next s i = some (u, o)) (hkeep : Keeps s i) :
    InSync u := by
  cases i with
  | construct p name =>
      simp only [machine] at hn
      split_ifs at hn with hdead
      obtain ⟨rfl, -⟩ := Prod.mk.inj (Option.some.inj hn)
      intro key q
      rw [LoggerManager.addLogger_getElem hkeep]
      by_cases hq : q = p
      · subst hq
        simp only [Function.update_self, and_true, Option.some.injEq]
        split_ifs with hkey
        · simp [hkey]
        · rw [h key q, hdead]
          simp [hkey]
      · simp only [Function.update_of_ne hq]
        split_ifs with hkey
        · subst hkey
          have hnone : s.manager.mLoggerMap[name]? ≠ some q := by rw [hkeep]; simp
          rw [← h name q]
          simp [hnone, Ne.symm hq]
        · exact h key q
  | destroy p =>
      simp only [machine] at hn
      split_ifs at hn with hdead
      obtain ⟨rfl, -⟩ := Prod.mk.inj (Option.some.inj hn)
      intro key q
      by_cases hq : q = p
      · subst hq
        simp [hkeep key]
      · simp only [Function.update_of_ne hq]
        exact h key q
  | removeLogger name =>
      obtain ⟨rfl, -⟩ := Prod.mk.inj (Option.some.inj hn)
      intro key q
      rw [LoggerManager.removeLogger_getElem]
      split_ifs with hkey
      · subst hkey
        constructor
        · intro hnone
          cases hnone
        · rintro ⟨hlive, hkept⟩
          have hother : s.live q ≠ some name := by simpa using (Bool.or_eq_false_iff.mp hkept).2
          exact absurd hlive hother
      · rw [h key q]
        have hother : s.live q = some key → s.live q ≠ some name := by
          intro hlive hname
          exact hkey (Option.some.inj (hname.symm.trans hlive))
        constructor
        · rintro ⟨hlive, hkept⟩
          exact ⟨hlive, by simp [hkept, hother hlive]⟩
        · rintro ⟨hlive, hkept⟩
          exact ⟨hlive, by simp at hkept; exact hkept.1⟩
  | flushAllLogger =>
      obtain ⟨rfl, -⟩ := Prod.mk.inj (Option.some.inj hn)
      exact h

/-- **A step between two states that track the loggers keeps to the condition.** -/
lemma Tracks.keeps (h : Tracks s) (hn : machine.next s i = some (u, o)) (hu : Tracks u) :
    Keeps s i := by
  cases i with
  | construct p name =>
      simp only [machine] at hn
      split_ifs at hn with hdead
      obtain ⟨rfl, -⟩ := Prod.mk.inj (Option.some.inj hn)
      by_contra htaken
      obtain ⟨q, hq⟩ := Option.ne_none_iff_exists'.mp htaken
      -- the map stays as it is, so it has the new logger among the old ones
      have hcount := hu.2 p (by simp) (by simp)
      have hsame : (s.manager.addLogger (some (p, name))) = s.manager := by
        simp only [LoggerManager.addLogger, hq]
      rw [hsame] at hcount
      obtain ⟨key, hkey⟩ := mem_elements_iff.mp (List.count_pos_iff.mp (hcount ▸ one_pos))
      exact h.1 key p hkey hdead
  | destroy p =>
      simp only [machine] at hn
      split_ifs at hn with hdead
      obtain ⟨rfl, -⟩ := Prod.mk.inj (Option.some.inj hn)
      intro key hkey
      exact hu.1 key p hkey (Function.update_self ..)
  | removeLogger name => trivial
  | flushAllLogger => trivial

/-! ### Runs -/

/-- **When the manager tracks exactly the live loggers**: throughout a run exactly if no
logger is constructed under a name that is in the map, and none is destroyed while the
map points at it. -/
theorem manager_tracks_iff {is : List (Input P)} {os : List P}
    (hrun : machine.Run launched is os s) :
    (machine.Throughout launched is fun _ t => Tracks t) ↔
      machine.EachStep launched is fun _ t i => Keeps t i :=
  hrun.throughout_iff (I := fun _ t => InSync t) (fun name p => by simp [launched])
    (fun _ _ h => h.tracks) (fun _ _ _ _ _ h hn hkeep => h.step hn hkeep)
    fun _ _ _ _ _ h hn hu => h.keeps hn hu

/-- Two loggers; the first is removed by name and then destroyed. -/
theorem manager_tracks_removed :
    ∃ os, ∃ s : Loggers ℕ,
      machine.Run launched [.construct 0 "a", .construct 1 "b", .removeLogger "a", .destroy 0,
        .flushAllLogger] os s ∧ Tracks s ∧ os = [1] := by
  obtain ⟨os, s, hrun, hos⟩ : ∃ os, ∃ s : Loggers ℕ,
      machine.Run launched [.construct 0 "a", .construct 1 "b", .removeLogger "a", .destroy 0,
        .flushAllLogger] os s ∧ os = [1] := ⟨_, _, Machine.run_iff_exec.mpr rfl, rfl⟩
  have hkeeps : machine.EachStep (launched : Loggers ℕ) [.construct 0 "a", .construct 1 "b",
      .removeLogger "a", .destroy 0, .flushAllLogger] fun _ t i => Keeps t i := by
    refine Machine.eachStep_cons rfl rfl (Machine.eachStep_cons rfl rfl (Machine.eachStep_cons rfl
      trivial (Machine.eachStep_cons rfl ?_ (Machine.eachStep_cons rfl trivial
        Machine.eachStep_nil))))
    intro name hname
    exact absurd (mem_elements_iff.mpr ⟨name, hname⟩) (by decide)
  exact ⟨os, s, hrun, (manager_tracks_iff hrun).mpr hkeeps _ _ _ List.prefix_rfl hrun, hos⟩

/-- **A destroyed logger stays in the map, and a second logger of one name is never in
it.** -/
theorem logger_dangles :
    (∃ os, ∃ s : Loggers ℕ, machine.Run launched [.construct 0 "a", .destroy 0] os s ∧ ¬ Tracks s) ∧
    ∃ os, ∃ s : Loggers ℕ,
      machine.Run launched [.construct 0 "a", .construct 1 "a", .flushAllLogger] os s ∧
        os = [0] ∧ ¬ Tracks s := by
  refine ⟨⟨_, _, Machine.run_iff_exec.mpr rfl, fun h => h.1 "a" 0 rfl rfl⟩,
    ⟨_, _, Machine.run_iff_exec.mpr rfl, rfl, fun h => ?_⟩⟩
  have hcount := h.2 1 (by decide) rfl
  exact absurd hcount (by decide)

end Loggers

end Xsix

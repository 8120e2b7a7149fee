import Xsix.Actor.Base
import Xsix.Library.Census
import Xsix.Library.Machine

/-!
`ActorCore::run` and its thread pool.

One thread scans the registered actors over and over and posts a task for each one
that is ready; the threads of the pool take the tasks in any order and run them. A
ready actor is checked, marked as ticking, stamped and posted in four separate
steps; a task starts, marks its actor once more, ticks and marks it ready again.
The steps of the scan and of the workers interleave freely.

The invariant counts, for each actor, its tasks in the pool, the workers busy with
it and the scan between marking and posting it: together one while the actor is
ticking, none while it is ready (`Balanced`). With the time stamps beside it
(`Paced`) this gives `tick_exclusive_and_paced`.
-/

namespace Xsix

open CInt Census

/-- Where the scan stands: the reading of the clock, the actor in hand and those
that follow. -/
inductive Scan (A : Type*) where
  | idle
  | scanning (now : ℤ) (rest : List A)
  | checked (now : ℤ) (a : A) (rest : List A)
  | marked (now : ℤ) (a : A) (rest : List A)
  | stamped (now : ℤ) (a : A) (rest : List A)

/-- What a thread of the pool is doing. -/
inductive Worker (A : Type*) where
  | idle
  | started (a : A)
  | ticking (a : A)
  | ticked (a : A)
  deriving DecidableEq

/-- The actor of the task a worker runs. -/
def Worker.task {A : Type*} : Worker A → Option A
  | .idle => none
  | .started a => some a
  | .ticking a => some a
  | .ticked a => some a

/-- The actors, the scan, the posted tasks and the threads of the pool. -/
structure ActorCore (A W μ : Type*) where
  actor : A → ActorBase μ
  scan : Scan A
  pool : List A
  worker : W → Worker A

namespace ActorCore

variable {A W μ : Type*}

/-- The steps of the scan and of the workers. -/
inductive Input (A W : Type*) where
  | now (ts : ℤ)
  | readyTick
  | setTicking
  | setLastTickTimestamp
  | post
  | endScan
  | start (w : W) (a : A)
  | tick (w : W)
  | endTick (w : W)
  | setReady (w : W)

variable [DecidableEq A] [DecidableEq W]

/-- Changing one actor. -/
def modify (s : ActorCore A W μ) (a : A) (f : ActorBase μ → ActorBase μ) : ActorCore A W μ :=
  { s with actor := Function.update s.actor a (f (s.actor a)) }

/-- Changing what one worker does. -/
def assign (s : ActorCore A W μ) (w : W) (x : Worker A) : ActorCore A W μ :=
  { s with worker := Function.update s.worker w x }

/-- `ActorCore::run` over the actors of `m_actor_map`, in the order of their ids,
with the lambda it posts. A step emits what was posted, with the reading of the
clock it was posted at. -/
def machine (mActorMap : List A) (tickInterval : A → ℤ) :
    Machine (ActorCore A W μ) (Input A W) (A × ℤ) where
  next s
    | .now ts =>
        match s.scan with
        | .idle => some ({ s with scan := .scanning ts mActorMap }, [])
        | _ => none
    | .readyTick =>
        match s.scan with
        | .scanning ts (a :: rest) =>
            if (s.actor a).readyTick (tickInterval a) ts
            then some ({ s with scan := .checked ts a rest }, [])
            else some ({ s with scan := .scanning ts rest }, [])
        | _ => none
    | .setTicking =>
        match s.scan with
        | .checked ts a rest =>
            some ({ s.modify a (·.setState stateTicking) with scan := .marked ts a rest }, [])
        | _ => none
    | .setLastTickTimestamp =>
        match s.scan with
        | .marked ts a rest =>
            some ({ s.modify a (·.setLastTickTimestamp ts) with scan := .stamped ts a rest }, [])
        | _ => none
    | .post =>
        match s.scan with
        | .stamped ts a rest =>
            some ({ s with scan := .scanning ts rest, pool := s.pool ++ [a] }, [(a, ts)])
        | _ => none
    | .endScan =>
        match s.scan with
        | .scanning _ [] => some ({ s with scan := .idle }, [])
        | _ => none
    | .start w a =>
        if s.worker w = .idle ∧ a ∈ s.pool
        then some ({ s.assign w (.started a) with pool := s.pool.erase a }, [])
        else none
    | .tick w =>
        match s.worker w with
        | .started a => some ((s.modify a (·.setState stateTicking)).assign w (.ticking a), [])
        | _ => none
    | .endTick w =>
        match s.worker w with
        | .ticking a => some (s.assign w (.ticked a), [])
        | _ => none
    | .setReady w =>
        match s.worker w with
        | .ticked a => some ((s.modify a (·.setState stateReadyTick)).assign w .idle, [])
        | _ => none

/-- Before `run` is called: every actor as its constructor left it, with whatever
time stamp. -/
def launched (ts : A → ℤ) : ActorCore A W μ :=
  ⟨fun a => .built (ts a), .idle, [], fun _ => .idle⟩

/-- The readings at which an actor was posted. -/
def readings (a : A) (os : List (A × ℤ)) : List ℤ :=
  os.filterMap fun o => if o.1 = a then some o.2 else none

/-- The workers busy with a task of an actor. -/
def busy [Fintype W] (worker : W → Worker A) (a : A) : ℕ :=
  census (fun x => x.task = some a) worker

/-- The ticks of an actor that are posted or running. -/
def inFlight [Fintype W] (s : ActorCore A W μ) (a : A) : ℕ := s.pool.count a + busy s.worker a

/-- The tick of an actor that the scan has marked and not yet posted. -/
def claimed (scan : Scan A) (a : A) : ℕ :=
  match scan with
  | .marked _ b _ => if b = a then 1 else 0
  | .stamped _ b _ => if b = a then 1 else 0
  | _ => 0

/-! ### One step -/

variable {mActorMap : List A} {tickInterval : A → ℤ} {s u : ActorCore A W μ} {i : Input A W}
  {o : List (A × ℤ)}

/-- What a step can be, by its effect. -/
inductive Step (mActorMap : List A) (tickInterval : A → ℤ) (s : ActorCore A W μ) :
    ActorCore A W μ → List (A × ℤ) → Prop
  | now {ts : ℤ} (h : s.scan = .idle) :
      Step mActorMap tickInterval s { s with scan := .scanning ts mActorMap } []
  | checked {ts : ℤ} {a : A} {rest : List A} (h : s.scan = .scanning ts (a :: rest))
      (hready : (s.actor a).readyTick (tickInterval a) ts = true) :
      Step mActorMap tickInterval s { s with scan := .checked ts a rest } []
  | passed {ts : ℤ} {a : A} {rest : List A} (h : s.scan = .scanning ts (a :: rest)) :
      Step mActorMap tickInterval s { s with scan := .scanning ts rest } []
  | marked {ts : ℤ} {a : A} {rest : List A} (h : s.scan = .checked ts a rest) :
      Step mActorMap tickInterval s
        { s.modify a (·.setState stateTicking) with scan := .marked ts a rest } []
  | stamped {ts : ℤ} {a : A} {rest : List A} (h : s.scan = .marked ts a rest) :
      Step mActorMap tickInterval s
        { s.modify a (·.setLastTickTimestamp ts) with scan := .stamped ts a rest } []
  | posted {ts : ℤ} {a : A} {rest : List A} (h : s.scan = .stamped ts a rest) :
      Step mActorMap tickInterval s
        { s with scan := .scanning ts rest, pool := s.pool ++ [a] } [(a, ts)]
  | ended {ts : ℤ} (h : s.scan = .scanning ts []) :
      Step mActorMap tickInterval s { s with scan := .idle } []
  | started {w : W} {a : A} (h : s.worker w = .idle) (hmem : a ∈ s.pool) :
      Step mActorMap tickInterval s
        { s.assign w (.started a) with pool := s.pool.erase a } []
  | ticking {w : W} {a : A} (h : s.worker w = .started a) :
      Step mActorMap tickInterval s
        ((s.modify a (·.setState stateTicking)).assign w (.ticking a)) []
  | ticked {w : W} {a : A} (h : s.worker w = .ticking a) :
      Step mActorMap tickInterval s (s.assign w (.ticked a)) []
  | released {w : W} {a : A} (h : s.worker w = .ticked a) :
      Step mActorMap tickInterval s
        ((s.modify a (·.setState stateReadyTick)).assign w .idle) []

lemma step_of_next (hn : (machine mActorMap tickInterval).next s i = some (u, o)) :
    Step mActorMap tickInterval s u o := by
  cases i with
  | now ts =>
      simp only [machine] at hn
      split at hn
      · next hscan =>
          obtain ⟨rfl, rfl⟩ := Prod.mk.inj (Option.some.inj hn)
          exact .now hscan
      · cases hn
  | readyTick =>
      simp only [machine] at hn
      split at hn
      · next ts a rest hscan =>
          split_ifs at hn with hready
          · obtain ⟨rfl, rfl⟩ := Prod.mk.inj (Option.some.inj hn)
            exact .checked hscan hready
          · obtain ⟨rfl, rfl⟩ := Prod.mk.inj (Option.some.inj hn)
            exact .passed hscan
      · cases hn
  | setTicking =>
      simp only [machine] at hn
      split at hn
      · next ts a rest hscan =>
          obtain ⟨rfl, rfl⟩ := Prod.mk.inj (Option.some.inj hn)
          exact .marked hscan
      · cases hn
  | setLastTickTimestamp =>
      simp only [machine] at hn
      split at hn
      · next ts a rest hscan =>
          obtain ⟨rfl, rfl⟩ := Prod.mk.inj (Option.some.inj hn)
          exact .stamped hscan
      · cases hn
  | post =>
      simp only [machine] at hn
      split at hn
      · next ts a rest hscan =>
          obtain ⟨rfl, rfl⟩ := Prod.mk.inj (Option.some.inj hn)
          exact .posted hscan
      · cases hn
  | endScan =>
      simp only [machine] at hn
      split at hn
      · next ts hscan =>
          obtain ⟨rfl, rfl⟩ := Prod.mk.inj (Option.some.inj hn)
          exact .ended hscan
      · cases hn
  | start w a =>
      simp only [machine] at hn
      split_ifs at hn with hstart
      obtain ⟨rfl, rfl⟩ := Prod.mk.inj (Option.some.inj hn)
      exact .started hstart.1 hstart.2
  | tick w =>
      simp only [machine] at hn
      split at hn
      · next a hw =>
          obtain ⟨rfl, rfl⟩ := Prod.mk.inj (Option.some.inj hn)
          exact .ticking hw
      · cases hn
  | endTick w =>
      simp only [machine] at hn
      split at hn
      · next a hw =>
          obtain ⟨rfl, rfl⟩ := Prod.mk.inj (Option.some.inj hn)
          exact .ticked hw
      · cases hn
  | setReady w =>
      simp only [machine] at hn
      split at hn
      · next a hw =>
          obtain ⟨rfl, rfl⟩ := Prod.mk.inj (Option.some.inj hn)
          exact .released hw
      · cases hn

omit [DecidableEq W] in
lemma setState_mState {a b : A} {x : ℤ} :
    ((s.modify a (·.setState x)).actor b).mState = if b = a then x else (s.actor b).mState := by
  simp only [modify, Function.update_apply]
  split_ifs with hb
  · rfl
  · rfl

omit [DecidableEq W] in
lemma setState_mLast {a b : A} {x : ℤ} :
    ((s.modify a (·.setState x)).actor b).mLastTickTimestamp
      = (s.actor b).mLastTickTimestamp := by
  simp only [modify, Function.update_apply]
  split_ifs with hb
  · rw [hb]
    rfl
  · rfl

omit [DecidableEq W] in
lemma setLast_mState {a b : A} {ts : ℤ} :
    ((s.modify a (·.setLastTickTimestamp ts)).actor b).mState = (s.actor b).mState := by
  simp only [modify, Function.update_apply]
  split_ifs with hb
  · rw [hb]
    rfl
  · rfl

omit [DecidableEq W] in
lemma setLast_mLast {a b : A} {ts : ℤ} :
    ((s.modify a (·.setLastTickTimestamp ts)).actor b).mLastTickTimestamp
      = if b = a then ts else (s.actor b).mLastTickTimestamp := by
  simp only [modify, Function.update_apply]
  split_ifs with hb
  · rfl
  · rfl

/-! ### The balance of tasks and states -/

section Balance

variable [Fintype W]

/-- Each actor is ready and has nothing posted, running or about to be posted, or
it is ticking and has exactly one such thing; and the actor the scan has found
ready is ready. -/
structure Balanced (s : ActorCore A W μ) : Prop where
  tally : ∀ a, s.inFlight a + claimed s.scan a
    = if (s.actor a).mState = stateReadyTick then 0 else 1
  checked : ∀ ts a rest, s.scan = .checked ts a rest → (s.actor a).mState = stateReadyTick

/-- A worker that turns to something else. -/
lemma busy_update (worker : W → Worker A) (w : W) (x : Worker A) (a : A) :
    busy (Function.update worker w x) a + (if (worker w).task = some a then 1 else 0)
      = busy worker a + (if x.task = some a then 1 else 0) :=
  census_update

/-- A worker that goes on with its task. -/
lemma busy_update_of_task {worker : W → Worker A} {w : W} {x : Worker A} {a b : A}
    (hw : (worker w).task = some a) (hx : x.task = some a) :
    busy (Function.update worker w x) b = busy worker b := by
  have hturn := busy_update worker w x b
  rw [hw, hx] at hturn
  exact Nat.add_right_cancel hturn

omit [DecidableEq W] in
lemma busy_pos {worker : W → Worker A} {w : W} {a : A} (h : (worker w).task = some a) :
    0 < busy worker a :=
  census_pos_iff.mpr ⟨w, h⟩

omit [DecidableEq W] in
/-- A worker has the actor of its task all to itself. -/
lemma Balanced.of_busy (h : Balanced s) {w : W} {a : A} (hw : (s.worker w).task = some a) :
    s.inFlight a = 1 ∧ claimed s.scan a = 0 ∧ (s.actor a).mState ≠ stateReadyTick := by
  have htally := h.tally a
  have hpos := busy_pos hw
  rw [inFlight] at htally ⊢
  split_ifs at htally with hready
  · omega
  · exact ⟨by omega, by omega, hready⟩

omit [DecidableEq W] in
lemma balanced_launched (ts : A → ℤ) : Balanced (launched ts : ActorCore A W μ) where
  tally a := by
    have hnone : busy (fun _ : W => Worker.idle) a = 0 :=
      census_eq_zero_iff.mpr fun _ => by simp [Worker.task]
    simp [inFlight, claimed, launched, ActorBase.built, hnone]
  checked := by simp [launched]

/-- **One step keeps the balance.** -/
lemma Balanced.step (h : Balanced s) (hs : Step mActorMap tickInterval s u o) : Balanced u := by
  have hbusy : stateTicking ≠ stateReadyTick := by decide
  cases hs with
  | now hscan =>
      refine ⟨fun b => ?_, by simp⟩
      have htally := h.tally b
      rwa [hscan] at htally
  | checked hscan hready =>
      refine ⟨fun b => ?_, ?_⟩
      · have htally := h.tally b
        rwa [hscan] at htally
      · intro ts' a' rest' heq
        obtain ⟨rfl, rfl, rfl⟩ := Scan.checked.inj heq
        exact (ActorBase.readyTick_iff.mp hready).1
  | passed hscan =>
      refine ⟨fun b => ?_, by simp⟩
      have htally := h.tally b
      rwa [hscan] at htally
  | @marked ts a rest hscan =>
      refine ⟨fun b => ?_, by simp⟩
      have htally := h.tally b
      have hready := h.checked ts a rest hscan
      rw [hscan] at htally
      change s.inFlight b + 0 = _ at htally
      change s.inFlight b + (if a = b then 1 else 0) = _
      rw [setState_mState]
      by_cases hab : b = a
      · subst hab
        rw [if_pos hready] at htally
        rw [if_pos rfl, if_pos rfl, if_neg hbusy]
        omega
      · rwa [if_neg (Ne.symm hab), if_neg hab]
  | stamped hscan =>
      refine ⟨fun b => ?_, by simp⟩
      have htally := h.tally b
      rw [hscan] at htally
      rw [setLast_mState]
      exact htally
  | @posted ts a rest hscan =>
      refine ⟨fun b => ?_, by simp⟩
      have htally := h.tally b
      rw [hscan] at htally
      change s.pool.count b + busy s.worker b + (if a = b then 1 else 0) = _ at htally
      change (s.pool ++ [a]).count b + busy s.worker b + 0
        = if (s.actor b).mState = stateReadyTick then 0 else 1
      have hcount : (s.pool ++ [a]).count b = s.pool.count b + (if a = b then 1 else 0) := by
        simp [List.count_append, List.count_singleton]
      omega
  | ended hscan =>
      refine ⟨fun b => ?_, by simp⟩
      have htally := h.tally b
      rwa [hscan] at htally
  | @started w a hw hmem =>
      refine ⟨fun b => ?_, h.checked⟩
      have htally := h.tally b
      have hturn := busy_update s.worker w (.started a) b
      have hpos : 0 < s.pool.count a := List.count_pos_iff.mpr hmem
      rw [hw] at hturn
      simp only [Worker.task, reduceCtorEq, if_false, Option.some.injEq] at hturn
      rw [inFlight] at htally
      change (s.pool.erase a).count b + busy (Function.update s.worker w (.started a)) b
        + claimed s.scan b = if (s.actor b).mState = stateReadyTick then 0 else 1
      by_cases hab : a = b
      · subst hab
        rw [List.count_erase_self]
        rw [if_pos rfl] at hturn
        omega
      · rw [List.count_erase_of_ne (Ne.symm hab)]
        rw [if_neg hab] at hturn
        omega
  | @ticking w a hw =>
      have htask : (s.worker w).task = some a := by rw [hw]; rfl
      obtain ⟨hone, hclaim, hstate⟩ := h.of_busy htask
      refine ⟨fun b => ?_, fun ts a' rest hscan => ?_⟩
      · have htally := h.tally b
        change s.pool.count b + busy (Function.update s.worker w (.ticking a)) b
          + claimed s.scan b = if ((s.modify a (·.setState stateTicking)).actor b).mState
            = stateReadyTick then 0 else 1
        rw [busy_update_of_task htask rfl, setState_mState]
        by_cases hab : b = a
        · subst hab
          rw [if_neg hstate] at htally
          rw [if_pos rfl, if_neg hbusy]
          exact htally
        · rw [if_neg hab]
          exact htally
      · have hready := h.checked ts a' rest hscan
        have hne : a' ≠ a := fun heq => hstate (heq ▸ hready)
        change ((s.modify a (·.setState stateTicking)).actor a').mState = stateReadyTick
        rw [setState_mState, if_neg hne]
        exact hready
  | @ticked w a hw =>
      have htask : (s.worker w).task = some a := by rw [hw]; rfl
      refine ⟨fun b => ?_, h.checked⟩
      have htally := h.tally b
      change s.pool.count b + busy (Function.update s.worker w (.ticked a)) b
        + claimed s.scan b = if (s.actor b).mState = stateReadyTick then 0 else 1
      rw [busy_update_of_task htask rfl]
      exact htally
  | @released w a hw =>
      have htask : (s.worker w).task = some a := by rw [hw]; rfl
      obtain ⟨hone, hclaim, hstate⟩ := h.of_busy htask
      refine ⟨fun b => ?_, fun ts a' rest hscan => ?_⟩
      · have htally := h.tally b
        have hturn := busy_update s.worker w .idle b
        rw [htask] at hturn
        simp only [Worker.task, reduceCtorEq, if_false, Option.some.injEq] at hturn
        rw [inFlight] at htally hone
        change s.pool.count b + busy (Function.update s.worker w .idle) b
          + claimed s.scan b = if ((s.modify a (·.setState stateReadyTick)).actor b).mState
            = stateReadyTick then 0 else 1
        rw [setState_mState]
        by_cases hab : b = a
        · subst hab
          rw [if_pos rfl] at hturn
          rw [if_pos rfl, if_pos rfl]
          omega
        · rw [if_neg (Ne.symm hab)] at hturn
          rw [if_neg hab]
          omega
      · change ((s.modify a (·.setState stateReadyTick)).actor a').mState = stateReadyTick
        rw [setState_mState]
        split_ifs with hab
        · rfl
        · exact h.checked ts a' rest hscan

end Balance

/-! ### The readings of consecutive posts -/

/-- Two readings are apart by the interval, as far as their difference is one the
program can compute. -/
def Apart (interval t₁ t₂ : ℤ) : Prop := IsInt64 (t₂ - t₁) → interval ≤ t₂ - t₁

/-- Consecutive posts of an actor are apart by its interval; the last one is on its
time stamp, unless a later reading has just been stamped on it; and a reading the
scan holds for it has passed the check against the last one. -/
structure Paced (tickInterval : A → ℤ) (os : List (A × ℤ)) (s : ActorCore A W μ) : Prop where
  chain : ∀ a, (readings a os).IsChain (Apart (tickInterval a))
  stamp : ∀ ts a rest, s.scan = .stamped ts a rest → (s.actor a).mLastTickTimestamp = ts
  last : ∀ a t, (readings a os).getLast? = some t →
    (∀ ts rest, s.scan ≠ .stamped ts a rest) → (s.actor a).mLastTickTimestamp = t
  passed : ∀ a t, (readings a os).getLast? = some t → ∀ ts rest,
    s.scan = .checked ts a rest ∨ s.scan = .marked ts a rest ∨ s.scan = .stamped ts a rest →
      tickInterval a ≤ int64 (ts - t)

omit [DecidableEq W] in
lemma paced_launched (ts : A → ℤ) : Paced tickInterval [] (launched ts : ActorCore A W μ) where
  chain a := List.isChain_nil
  stamp := by simp [launched]
  last := by simp [readings]
  passed := by simp [readings]

omit [DecidableEq W] in
/-- A step that emits nothing and leaves the scan and the time stamps alone. -/
lemma Paced.of_same {os : List (A × ℤ)} (h : Paced tickInterval os s) (hscan : u.scan = s.scan)
    (hlast : ∀ a, (u.actor a).mLastTickTimestamp = (s.actor a).mLastTickTimestamp) :
    Paced tickInterval os u where
  chain := h.chain
  stamp ts a rest heq := by
    rw [hlast]
    exact h.stamp ts a rest (hscan ▸ heq)
  last a t ht hne := by
    rw [hlast]
    exact h.last a t ht fun ts rest => hscan ▸ hne ts rest
  passed a t ht ts rest heq := h.passed a t ht ts rest (hscan ▸ heq)

lemma readings_snoc {os : List (A × ℤ)} {a b : A} {ts : ℤ} :
    readings b (os ++ [(a, ts)]) = readings b os ++ (if a = b then [ts] else []) := by
  simp only [readings, List.filterMap_append, List.filterMap_cons, List.filterMap_nil]
  split_ifs <;> simp_all

/-- **One step keeps the pace.** -/
lemma Paced.step {os : List (A × ℤ)} (h : Paced tickInterval os s)
    (hs : Step mActorMap tickInterval s u o) : Paced tickInterval (os ++ o) u := by
  cases hs with
  | now hscan =>
      rw [List.append_nil]
      exact ⟨h.chain, by simp, fun a t ht _ => h.last a t ht (by simp [hscan]), by simp⟩
  | @checked ts a rest hscan hready =>
      rw [List.append_nil]
      refine ⟨h.chain, by simp, fun b t ht _ => h.last b t ht (by simp [hscan]), ?_⟩
      intro b t ht ts' rest' heq
      obtain ⟨rfl, rfl, rfl⟩ : ts = ts' ∧ a = b ∧ rest = rest' := by simpa using heq
      rw [← h.last a t ht (by simp [hscan])]
      exact (ActorBase.readyTick_iff.mp hready).2
  | passed hscan =>
      rw [List.append_nil]
      exact ⟨h.chain, by simp, fun a t ht _ => h.last a t ht (by simp [hscan]), by simp⟩
  | @marked ts a rest hscan =>
      rw [List.append_nil]
      refine ⟨h.chain, by simp, fun b t ht _ => ?_, ?_⟩
      · exact setState_mLast.trans (h.last b t ht (by simp [hscan]))
      · intro b t ht ts' rest' heq
        obtain ⟨rfl, rfl, rfl⟩ : ts = ts' ∧ a = b ∧ rest = rest' := by simpa using heq
        exact h.passed a t ht ts rest (Or.inl hscan)
  | @stamped ts a rest hscan =>
      rw [List.append_nil]
      refine ⟨h.chain, ?_, fun b t ht hne => ?_, ?_⟩
      · intro ts' b rest' heq
        obtain ⟨rfl, rfl, rfl⟩ := Scan.stamped.inj heq
        exact setLast_mLast.trans (if_pos rfl)
      · have hab : b ≠ a := fun hba => hne ts rest (by rw [hba])
        calc ((s.modify a (·.setLastTickTimestamp ts)).actor b).mLastTickTimestamp
            = (s.actor b).mLastTickTimestamp := setLast_mLast.trans (if_neg hab)
          _ = t := h.last b t ht (by simp [hscan])
      · intro b t ht ts' rest' heq
        obtain ⟨rfl, rfl, rfl⟩ : ts = ts' ∧ a = b ∧ rest = rest' := by simpa using heq
        exact h.passed a t ht ts rest (Or.inr (Or.inl hscan))
  | @posted ts a rest hscan =>
      refine ⟨fun b => ?_, by simp, fun b t ht _ => ?_, by simp⟩
      · rw [readings_snoc]
        split_ifs with hab
        · subst hab
          refine List.isChain_append.mpr ⟨h.chain a, List.isChain_singleton _, ?_⟩
          intro t ht t' ht' hfits
          obtain rfl : t' = ts := by simpa using ht'.symm
          have hpassed := h.passed a t ht t' rest (Or.inr (Or.inr hscan))
          rwa [int64_eq_self hfits] at hpassed
        · rw [List.append_nil]
          exact h.chain b
      · rw [readings_snoc] at ht
        split_ifs at ht with hab
        · subst hab
          obtain rfl : ts = t := by simpa using ht
          exact h.stamp ts a rest hscan
        · rw [List.append_nil] at ht
          refine h.last b t ht fun ts' rest' heq => hab ?_
          rw [hscan] at heq
          exact (Scan.stamped.inj heq).2.1
  | ended hscan =>
      rw [List.append_nil]
      exact ⟨h.chain, by simp, fun a t ht _ => h.last a t ht (by simp [hscan]), by simp⟩
  | started hw hmem =>
      rw [List.append_nil]
      exact h.of_same rfl fun _ => rfl
  | ticking hw =>
      rw [List.append_nil]
      exact h.of_same rfl fun _ => setState_mLast
  | ticked hw =>
      rw [List.append_nil]
      exact h.of_same rfl fun _ => rfl
  | released hw =>
      rw [List.append_nil]
      exact h.of_same rfl fun _ => setState_mLast

/-! ### Runs -/

/-- **No actor is ticked twice at once, or more often than its interval.** In every
run of the scan and any number of workers over any registered actors, from whatever
the time stamps held and for any readings of the clock: an actor has at most one
tick posted or running, it is ready only when it has none, and the readings of its
consecutive posts are apart by its interval. -/
theorem tick_exclusive_and_paced [Fintype W] {ts : A → ℤ} {is : List (Input A W)}
    {os : List (A × ℤ)}
    (hrun : (machine mActorMap tickInterval).Run (launched ts : ActorCore A W μ) is os s) (a : A) :
    s.inFlight a ≤ 1 ∧ ((s.actor a).mState = stateReadyTick → s.inFlight a = 0) ∧
      (readings a os).IsChain fun t₁ t₂ =>
        IsInt64 (t₂ - t₁) → tickInterval a ≤ t₂ - t₁ := by
  have hbalanced : Balanced s :=
    hrun.preserves (balanced_launched ts) fun t i u o ht hn => ht.step (step_of_next hn)
  have hpaced : Paced tickInterval os s :=
    hrun.invariant (paced_launched ts) fun os t i u o ht hn => ht.step (step_of_next hn)
  have htally := hbalanced.tally a
  refine ⟨?_, fun hready => ?_, hpaced.chain a⟩
  · split_ifs at htally <;> omega
  · rw [if_pos hready] at htally
    omega

/-- One actor with an interval of 100 and one worker; the clock reads 100 and 250. -/
theorem tick_exclusive_and_paced_twice :
    ∃ s : ActorCore Unit Unit Unit, ∃ os,
      (machine [()] fun _ => 100).Run (launched fun _ => 0)
        [.now 100, .readyTick, .setTicking, .setLastTickTimestamp, .post, .endScan,
          .start () (), .tick (), .endTick (), .setReady (),
          .now 250, .readyTick, .setTicking, .setLastTickTimestamp, .post] os s ∧
      readings () os = [100, 250] ∧ s.inFlight () ≤ 1 ∧
      (readings () os).IsChain fun t₁ t₂ => IsInt64 (t₂ - t₁) → 100 ≤ t₂ - t₁ := by
  obtain ⟨s, os, hrun, hos⟩ : ∃ s : ActorCore Unit Unit Unit, ∃ os,
      (machine [()] fun _ => 100).Run (launched fun _ => 0)
        [.now 100, .readyTick, .setTicking, .setLastTickTimestamp, .post, .endScan,
          .start () (), .tick (), .endTick (), .setReady (),
          .now 250, .readyTick, .setTicking, .setLastTickTimestamp, .post] os s ∧
      readings () os = [100, 250] :=
    ⟨_, _, Machine.run_iff_exec.mpr rfl, rfl⟩
  have hexclusive := tick_exclusive_and_paced hrun ()
  exact ⟨s, os, hrun, hos, hexclusive.1, hexclusive.2.2⟩

end ActorCore

end Xsix

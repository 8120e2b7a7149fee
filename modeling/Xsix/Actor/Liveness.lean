import Xsix.Actor.Schedule

/-!
That `ActorCore::run` and its pool get on with the actors.

* `due_posted`: an actor that is ready and due when a pass of the scan begins is posted in that
  pass, whatever the workers do meanwhile.
* `tasks_finish`: the workers are never stuck while there is a task, and they need four steps
  for each; so what is posted is ticked.
-/

namespace Xsix

open CInt Machine

/-- The steps a worker has left with its task. -/
def Worker.left {A : Type*} : Worker A → ℕ
  | .idle => 0
  | .started _ => 3
  | .ticking _ => 2
  | .ticked _ => 1

namespace ActorCore

variable {A W μ : Type*} [DecidableEq A] [DecidableEq W] {mActorMap : List A}
  {tickInterval : A → ℤ} {s t u : ActorCore A W μ} {i : Input A W} {is : List (Input A W)}
  {o os : List (A × ℤ)} {a : A} {ts : ℤ}

/-! ### A pass of the scan -/

section Pass

/-- An actor that was ready and due when the pass at `ts` began: it was posted, or the pass is
not over, and it is about to be posted, or still to be visited and still due. -/
def Awaited (tickInterval : A → ℤ) (a : A) (ts : ℤ) (os : List (A × ℤ)) (s : ActorCore A W μ) :
    Prop :=
  (a, ts) ∈ os ∨ s.scan.now = some ts ∧ ((a, ts) ∈ s.scan.decided ∨
    a ∈ s.scan.rest ∧ (s.actor a).readyTick (tickInterval a) ts = true)

omit [DecidableEq A] [DecidableEq W] in
/-- A step that neither the scan nor the actor sees. -/
lemma Awaited.of_same (h : Awaited tickInterval a ts os s) (hscan : u.scan = s.scan)
    (hactor : (s.actor a).mState = stateReadyTick → u.actor a = s.actor a) :
    Awaited tickInterval a ts os u := by
  rcases h with hposted | ⟨hnow, hdecided | ⟨hrest, hready⟩⟩
  · exact .inl hposted
  · exact .inr ⟨hscan ▸ hnow, .inl (hscan ▸ hdecided)⟩
  · rw [← hactor (ActorBase.readyTick_iff.mp hready).1] at hready
    exact .inr ⟨hscan ▸ hnow, .inr ⟨hscan ▸ hrest, hready⟩⟩

variable [Fintype W]

/-- **No step takes an actor off the pass** before it is posted: the workers turn to actors that
are not ready. -/
lemma Awaited.step (h : Awaited tickInterval a ts os s) (hb : Balanced s)
    (hn : (machine mActorMap tickInterval).next s i = some (u, o)) :
    Awaited tickInterval a ts (os ++ o) u := by
  have hother : ∀ {w b} (f : ActorBase μ → ActorBase μ), (s.worker w).task = some b →
      (s.actor a).mState = stateReadyTick → (s.modify b f).actor a = s.actor a := by
    intro w b f hw hready
    have hne : a ≠ b := by
      rintro rfl
      exact (hb.of_busy hw).2.2 hready
    simp [modify, Function.update_of_ne hne]
  have hvisit : ∀ {b ts'} {rest : List A} (f : ActorBase μ → ActorBase μ), ts' = ts →
      ((a, ts) ∈ [(b, ts')] ∨ a ∈ rest ∧ (s.actor a).readyTick (tickInterval a) ts = true) →
      (a, ts) ∈ [(b, ts')] ∨
        a ∈ rest ∧ ((s.modify b f).actor a).readyTick (tickInterval a) ts = true := by
    rintro b ts' rest f rfl (hdecided | hrest)
    · exact .inl hdecided
    · by_cases hab : a = b
      · exact .inl (hab ▸ List.mem_singleton_self _)
      · exact .inr (by simpa [modify, Function.update_of_ne hab] using hrest)
  rcases h with hposted | ⟨hnow, hcases⟩
  · exact .inl (List.mem_append_left _ hposted)
  have h : Awaited tickInterval a ts os s := .inr ⟨hnow, hcases⟩
  cases i with
  | now ts' =>
      simp only [machine] at hn
      split at hn
      · next hscan => simp [hscan, Scan.now] at hnow
      · cases hn
  | readyTick =>
      simp only [machine] at hn
      split at hn
      · next ts' b rest hscan =>
        simp only [hscan, Scan.now, Option.some.injEq, Scan.decided, List.not_mem_nil, Scan.rest,
          List.mem_cons, false_or] at hnow hcases
        subst hnow
        obtain ⟨hmem, hready⟩ := hcases
        split_ifs at hn with hfound
        · obtain ⟨rfl, rfl⟩ := Prod.mk.inj (Option.some.inj hn)
          refine .inr ⟨rfl, ?_⟩
          rcases hmem with rfl | hmem
          · exact .inl (List.mem_singleton_self _)
          · exact .inr ⟨hmem, hready⟩
        · obtain ⟨rfl, rfl⟩ := Prod.mk.inj (Option.some.inj hn)
          refine .inr ⟨rfl, .inr ⟨hmem.resolve_left ?_, hready⟩⟩
          rintro rfl
          exact hfound hready
      · cases hn
  | setTicking =>
      simp only [machine] at hn
      split at hn
      · next ts' b rest hscan =>
        simp only [hscan, Scan.now, Option.some.injEq, Scan.decided, Scan.rest] at hnow hcases
        obtain ⟨rfl, rfl⟩ := Prod.mk.inj (Option.some.inj hn)
        rw [List.append_nil]
        exact .inr ⟨congrArg some hnow, hvisit (·.setState stateTicking) hnow hcases⟩
      · cases hn
  | setLastTickTimestamp =>
      simp only [machine] at hn
      split at hn
      · next ts' b rest hscan =>
        simp only [hscan, Scan.now, Option.some.injEq, Scan.decided, Scan.rest] at hnow hcases
        obtain ⟨rfl, rfl⟩ := Prod.mk.inj (Option.some.inj hn)
        rw [List.append_nil]
        exact .inr ⟨congrArg some hnow, hvisit (·.setLastTickTimestamp ts') hnow hcases⟩
      · cases hn
  | post =>
      simp only [machine] at hn
      split at hn
      · next ts' b rest hscan =>
        simp only [hscan, Scan.now, Option.some.injEq, Scan.decided, Scan.rest] at hnow hcases
        obtain ⟨rfl, rfl⟩ := Prod.mk.inj (Option.some.inj hn)
        rcases hcases with hdecided | hrest
        · exact .inl (List.mem_append_right _ hdecided)
        · exact .inr ⟨congrArg some hnow, .inr hrest⟩
      · cases hn
  | endScan =>
      simp only [machine] at hn
      split at hn
      · next ts' hscan => simp [hscan, Scan.decided, Scan.rest] at hcases
      · cases hn
  | start w b =>
      simp only [machine] at hn
      split_ifs at hn
      obtain ⟨rfl, rfl⟩ := Prod.mk.inj (Option.some.inj hn)
      rw [List.append_nil]
      exact h.of_same rfl fun _ => rfl
  | tick w =>
      simp only [machine] at hn
      split at hn
      · next b hw =>
        obtain ⟨rfl, rfl⟩ := Prod.mk.inj (Option.some.inj hn)
        rw [List.append_nil]
        exact h.of_same rfl (hother (·.setState stateTicking) (by rw [hw]; rfl))
      · cases hn
  | endTick w =>
      simp only [machine] at hn
      split at hn
      · obtain ⟨rfl, rfl⟩ := Prod.mk.inj (Option.some.inj hn)
        rw [List.append_nil]
        exact h.of_same rfl fun _ => rfl
      · cases hn
  | setReady w =>
      simp only [machine] at hn
      split at hn
      · next b hw =>
        obtain ⟨rfl, rfl⟩ := Prod.mk.inj (Option.some.inj hn)
        rw [List.append_nil]
        exact h.of_same rfl (hother (·.setState stateReadyTick) (by rw [hw]; rfl))
      · cases hn

/-- **No due actor is passed over**: an actor that is ready and due when a pass of the scan
begins is posted before the pass is over. -/
theorem due_posted {ts₀ : A → ℤ} {is₀ : List (Input A W)} {os₀ : List (A × ℤ)}
    (hrun : (machine mActorMap tickInterval).Run (launched ts₀ : ActorCore A W μ) is₀ os₀ s)
    (hpass : (machine mActorMap tickInterval).Run s (.now ts :: is) os u)
    (hdone : u.scan.now ≠ some ts) (ha : a ∈ mActorMap)
    (hdue : (s.actor a).readyTick (tickInterval a) ts = true) : (a, ts) ∈ os := by
  have hbalanced : Balanced s :=
    hrun.preserves (balanced_launched ts₀) fun t i u o ht hn => ht.step (step_of_next hn)
  obtain ⟨t, o, os', hfirst, hrest, rfl⟩ := hpass.exists_cons
  have hb : Balanced t := hbalanced.step (step_of_next hfirst)
  have hstart : Awaited tickInterval a ts [] t := by
    simp only [machine] at hfirst
    split at hfirst
    · obtain ⟨rfl, -⟩ := Prod.mk.inj (Option.some.inj hfirst)
      exact .inr ⟨rfl, .inr ⟨ha, hdue⟩⟩
    · cases hfirst
  have hend : Balanced u ∧ Awaited tickInterval a ts os' u :=
    hrest.invariant (I := fun os t => Balanced t ∧ Awaited tickInterval a ts os t) ⟨hb, hstart⟩
      fun os t i u o h hn => ⟨h.1.step (step_of_next hn), h.2.step h.1 hn⟩
  rcases hend.2 with hposted | ⟨hnow, -⟩
  · exact List.mem_append_right _ hposted
  · exact absurd hnow hdone

/-- Two actors, the second due, while a worker still ticks the first. -/
theorem due_posted_second :
    ∃ os, ∃ u : ActorCore Bool Unit Unit, ∃ s : ActorCore Bool Unit Unit,
      (machine [false, true] fun a => if a then 150 else 100).Run s
        [.now 180, .readyTick, .tick (), .readyTick, .setTicking, .setLastTickTimestamp, .post,
          .endScan] os u ∧
      s.inFlight false = 1 ∧ (true, 180) ∈ os := by
  obtain ⟨os₀, s, os, u, hrun, hpass, hdone, hflight, hdue⟩ : ∃ os₀, ∃ s : ActorCore Bool Unit Unit,
      ∃ os, ∃ u : ActorCore Bool Unit Unit,
        (machine [false, true] fun a => if a then 150 else 100).Run (launched fun _ => 0)
          [.now 100, .readyTick, .setTicking, .setLastTickTimestamp, .post, .readyTick, .endScan,
            .start () false] os₀ s ∧
        (machine [false, true] fun a => if a then 150 else 100).Run s
          [.now 180, .readyTick, .tick (), .readyTick, .setTicking, .setLastTickTimestamp, .post,
            .endScan] os u ∧
        u.scan.now ≠ some 180 ∧ s.inFlight false = 1 ∧ (s.actor true).readyTick 150 180 = true :=
    ⟨_, _, _, _, run_iff_exec.mpr rfl, run_iff_exec.mpr rfl, by decide, by decide, by decide⟩
  exact ⟨os, u, s, hpass, hflight, due_posted hrun hpass hdone (by decide) hdue⟩

end Pass

/-! ### The tasks of the pool -/

section Pool

variable [Fintype W]

/-- The steps the workers are to make: four for each task in the pool, and what is left of
those they have taken. -/
def backlog (s : ActorCore A W μ) : ℕ := 4 * s.pool.length + ∑ w, (s.worker w).left

/-- The steps of the workers. -/
def Input.ofWorker : Input A W → Bool
  | .start _ _ | .tick _ | .endTick _ | .setReady _ => true
  | _ => false

omit [DecidableEq A] in
/-- A worker takes a step. -/
lemma sum_left_update (worker : W → Worker A) (w : W) (x : Worker A) :
    ∑ w', (Function.update worker w x w').left + (worker w).left =
      ∑ w', (worker w').left + x.left := by
  have hrest : ∑ w' ∈ Finset.univ.erase w, (Function.update worker w x w').left =
      ∑ w' ∈ Finset.univ.erase w, (worker w').left :=
    Finset.sum_congr rfl fun w' hw' => by
      rw [Function.update_of_ne (Finset.ne_of_mem_erase hw')]
  rw [← Finset.add_sum_erase _ _ (Finset.mem_univ w),
    ← Finset.add_sum_erase _ (fun w' => (worker w').left) (Finset.mem_univ w), hrest,
    Function.update_self]
  omega

omit [DecidableEq A] in
lemma backlog_assign {w : W} {x : Worker A} (y : Worker A) (hw : s.worker w = x) :
    (s.assign w y).backlog + x.left = s.backlog + y.left := by
  have hsum := sum_left_update s.worker w y
  rw [hw] at hsum
  simp only [backlog, assign]
  omega

/-- **What a step makes of the backlog**: a step of a worker takes one off, a post adds four. -/
lemma backlog_step (hn : (machine mActorMap tickInterval).next s i = some (u, o)) :
    u.backlog + (if i.ofWorker then 1 else 0) = s.backlog + 4 * o.length := by
  cases i with
  | now | setTicking | setLastTickTimestamp | endScan =>
      simp only [machine] at hn
      split at hn
      · obtain ⟨rfl, rfl⟩ := Prod.mk.inj (Option.some.inj hn)
        rfl
      · cases hn
  | readyTick =>
      simp only [machine] at hn
      split at hn
      · split_ifs at hn
        all_goals
          obtain ⟨rfl, rfl⟩ := Prod.mk.inj (Option.some.inj hn)
          rfl
      · cases hn
  | post =>
      simp only [machine] at hn
      split at hn
      · obtain ⟨rfl, rfl⟩ := Prod.mk.inj (Option.some.inj hn)
        simp only [backlog, Input.ofWorker, List.length_append, List.length_singleton,
          Bool.false_eq_true, if_false]
        omega
      · cases hn
  | start w b =>
      simp only [machine] at hn
      split_ifs at hn with hstart
      obtain ⟨rfl, rfl⟩ := Prod.mk.inj (Option.some.inj hn)
      have hassign : (s.assign w (.started b)).backlog + 0 = s.backlog + 3 :=
        backlog_assign _ hstart.1
      have hpos := List.length_pos_of_mem hstart.2
      simp only [backlog, assign, Input.ofWorker, List.length_erase_of_mem hstart.2,
        List.length_nil, if_true] at hassign ⊢
      omega
  | tick w =>
      simp only [machine] at hn
      split at hn
      · next b hw =>
        obtain ⟨rfl, rfl⟩ := Prod.mk.inj (Option.some.inj hn)
        have hassign := backlog_assign (s := s.modify b (·.setState stateTicking)) (.ticking b) hw
        change _ + 3 = s.backlog + 2 at hassign
        change _ + 1 = s.backlog + 0
        omega
      · cases hn
  | endTick w =>
      simp only [machine] at hn
      split at hn
      · next b hw =>
        obtain ⟨rfl, rfl⟩ := Prod.mk.inj (Option.some.inj hn)
        have hassign := backlog_assign (.ticked b) hw
        change _ + 2 = s.backlog + 1 at hassign
        change _ + 1 = s.backlog + 0
        omega
      · cases hn
  | setReady w =>
      simp only [machine] at hn
      split at hn
      · next b hw =>
        obtain ⟨rfl, rfl⟩ := Prod.mk.inj (Option.some.inj hn)
        have hassign := backlog_assign (s := s.modify b (·.setState stateReadyTick)) .idle hw
        change _ + 1 = s.backlog + 0 at hassign
        exact hassign
      · cases hn

omit [Fintype W] in
/-- A worker with a task can go on with it. -/
lemma exists_next_of_busy {w : W} (hw : s.worker w ≠ .idle) : ∃ i v o, Input.ofWorker i = true ∧
    (machine mActorMap tickInterval).next s i = some (v, o) := by
  cases h : s.worker w with
  | idle => exact absurd h hw
  | started b => exact ⟨.tick w, _, _, rfl, by simp only [machine, h]; rfl⟩
  | ticking b => exact ⟨.endTick w, _, _, rfl, by simp only [machine, h]; rfl⟩
  | ticked b => exact ⟨.setReady w, _, _, rfl, by simp only [machine, h]; rfl⟩

/-- **The tasks are finished**: the workers make four steps for each post and no more, and while
there is a task one of them can make a step. -/
theorem tasks_finish [Nonempty W] (hrun : (machine mActorMap tickInterval).Run s is os u) :
    is.countP Input.ofWorker + u.backlog = s.backlog + 4 * os.length ∧
      (0 < u.backlog → ∃ i v o, i.ofWorker = true ∧
        (machine mActorMap tickInterval).next u i = some (v, o)) := by
  constructor
  · induction hrun with
    | nil => simp
    | @snoc is os t i u o _ hn ih =>
        have hstep := backlog_step hn
        simp only [List.countP_append, List.countP_singleton, List.length_append]
        omega
  · intro hpos
    by_cases hbusy : ∃ w, u.worker w ≠ .idle
    · obtain ⟨w, hw⟩ := hbusy
      exact exists_next_of_busy hw
    · -- all workers are free, so there is a task in the pool
      have hidle : ∀ w, u.worker w = .idle := by simpa using hbusy
      have hpool : u.pool ≠ [] := by
        intro hnil
        simp [backlog, hnil, hidle, Worker.left] at hpos
      obtain ⟨b, rest, hcons⟩ := List.exists_cons_of_ne_nil hpool
      obtain ⟨w⟩ := ‹Nonempty W›
      refine ⟨.start w b, { u.assign w (.started b) with pool := u.pool.erase b }, [], rfl, ?_⟩
      simp [machine, hidle w, hcons]

/-- One task, taken and ticked. -/
theorem tasks_finish_one :
    ∃ os, ∃ u : ActorCore Unit Unit Unit,
      (machine [()] fun _ => 100).Run (launched fun _ => 0)
        [.now 100, .readyTick, .setTicking, .setLastTickTimestamp, .post, .endScan,
          .start () (), .tick ()] os u ∧ u.backlog = 2 ∧
      ∃ i v o, i.ofWorker = true ∧ (machine [()] fun _ => 100).next u i = some (v, o) := by
  obtain ⟨os, u, hrun, hbacklog⟩ : ∃ os, ∃ u : ActorCore Unit Unit Unit,
      (machine [()] fun _ => 100).Run (launched fun _ => 0)
        [.now 100, .readyTick, .setTicking, .setLastTickTimestamp, .post, .endScan,
          .start () (), .tick ()] os u ∧ u.backlog = 2 :=
    ⟨_, _, run_iff_exec.mpr rfl, by decide⟩
  exact ⟨os, u, hrun, hbacklog, (tasks_finish hrun).2 (by omega)⟩

end Pool

end ActorCore

end Xsix

import Mathlib.Tactic

/-!
Guarded machines that emit events, and what holds along their runs.

A machine is an executable step function: `next s i` is the state the input `i`
leads to from `s`, with the events the step emits, and `none` when `i` is not
enabled. Choices of the environment (a scheduler, a clock, an allocator) are
part of the input, so one definition serves the replay of a fixed schedule and
the proofs about all of them.

* `Machine.Run`, `Machine.exec`: the runs as a relation, grown at the end, and
  as a function; `run_iff_exec` says that they agree, so runs are deterministic
  (`Run.det`).
* `Run.invariant`: a relation between the events emitted so far and the state
  holds along every run once one step preserves it.
* `Run.forall_events`: what one step guarantees of its events, in a state with an
  invariant, a run guarantees of all of them.
* `Run.exists_step`: the step of a run that emitted a given event.
* `Run.project`: if each step of one machine is matched by a run of another, so is each run.
* `Run.potential`: what a run costs, when each step pays for its cost out of a potential.
* `Machine.restrict`: the runs all of whose steps meet a condition.
* `Machine.Throughout`, `Machine.EachStep`: what holds of every state a run passes and
  of every step it takes; `Run.invariant_of_steps` is the induction rule under a
  condition on the steps, and `Run.throughout_iff` says when the condition is the exact
  one.
* `Machine.trace`: what an observer of the steps sees along a run, with its induction
  rule `Run.invariant_trace`.
-/

/-- A guarded machine over states `σ`, inputs `ι` and emitted events `ω`. -/
structure Machine (σ ι ω : Type*) where
  next : σ → ι → Option (σ × List ω)

namespace Machine

variable {σ ι ω : Type*} {M : Machine σ ι ω} {s t u : σ} {is is' : List ι}
  {os os' : List ω} {i : ι} {o : List ω}

/-- `M.Run s is os t`: fed the inputs `is` from `s`, the machine emits `os` and
stops in `t`. -/
inductive Run (M : Machine σ ι ω) (s : σ) : List ι → List ω → σ → Prop
  | nil : Run M s [] [] s
  | snoc {is : List ι} {os : List ω} {t : σ} {i : ι} {u : σ} {o : List ω} :
      Run M s is os t → M.next t i = some (u, o) → Run M s (is ++ [i]) (os ++ o) u

/-- The run on a list of inputs, computed. -/
def exec (M : Machine σ ι ω) (s : σ) : List ι → Option (σ × List ω)
  | [] => some (s, [])
  | i :: is =>
      match M.next s i with
      | none => none
      | some (t, o) => (M.exec t is).map fun r => (r.1, o ++ r.2)

lemma exec_cons_iff : M.exec s (i :: is) = some (u, os) ↔
    ∃ t o os', M.next s i = some (t, o) ∧ M.exec t is = some (u, os') ∧ os = o ++ os' := by
  rw [exec]
  cases hn : M.next s i with
  | none => simp
  | some r =>
      obtain ⟨t, o⟩ := r
      simp only [Option.map_eq_some_iff, Prod.mk.injEq, Option.some.injEq, Prod.exists]
      constructor
      · rintro ⟨v, os', hv, rfl, rfl⟩
        exact ⟨t, o, os', ⟨rfl, rfl⟩, hv, rfl⟩
      · rintro ⟨t', o', os', ⟨rfl, rfl⟩, hv, rfl⟩
        exact ⟨u, os', hv, rfl, rfl⟩

/-- A run can be grown at its front. -/
lemma Run.cons (hn : M.next s i = some (t, o)) (h : M.Run t is os u) :
    M.Run s (i :: is) (o ++ os) u := by
  induction h with
  | nil => simpa using Run.snoc (Run.nil (M := M) (s := s)) hn
  | snoc _ hlast ih => simpa [List.append_assoc] using ih.snoc hlast

/-- Computing a run on `is ++ is'` is computing the two runs in turn. -/
lemma exec_append (h : M.exec s is = some (t, os)) (h' : M.exec t is' = some (u, os')) :
    M.exec s (is ++ is') = some (u, os ++ os') := by
  induction is generalizing s os with
  | nil =>
      simp only [exec, Option.some.injEq, Prod.mk.injEq] at h
      obtain ⟨rfl, rfl⟩ := h
      simpa using h'
  | cons i is ih =>
      obtain ⟨v, o, os₁, hn, hrest, rfl⟩ := exec_cons_iff.mp h
      rw [List.cons_append, exec_cons_iff]
      exact ⟨v, o, os₁ ++ os', hn, ih hrest, by simp⟩

/-- The relation and the function describe the same runs. -/
theorem run_iff_exec : M.Run s is os t ↔ M.exec s is = some (t, os) := by
  constructor
  · intro h
    induction h with
    | nil => rfl
    | snoc _ hn ih =>
        exact exec_append ih (exec_cons_iff.mpr ⟨_, _, [], hn, rfl, by simp⟩)
  · intro h
    induction is generalizing s os with
    | nil =>
        simp only [exec, Option.some.injEq, Prod.mk.injEq] at h
        obtain ⟨rfl, rfl⟩ := h
        exact .nil
    | cons i is ih =>
        obtain ⟨v, o, os', hn, hrest, rfl⟩ := exec_cons_iff.mp h
        exact (ih hrest).cons hn

/-- Two runs in turn. -/
lemma Run.append (h : M.Run s is os t) (h' : M.Run t is' os' u) :
    M.Run s (is ++ is') (os ++ os') u :=
  run_iff_exec.mpr (exec_append (run_iff_exec.mp h) (run_iff_exec.mp h'))

/-- The first step of a run on a nonempty list of inputs. -/
lemma Run.exists_cons (h : M.Run s (i :: is) os u) :
    ∃ t o os', M.next s i = some (t, o) ∧ M.Run t is os' u ∧ os = o ++ os' := by
  obtain ⟨t, o, os', hn, hrest, rfl⟩ := exec_cons_iff.mp (run_iff_exec.mp h)
  exact ⟨t, o, os', hn, run_iff_exec.mpr hrest, rfl⟩

/-- Runs are deterministic: the environment's choices are in the inputs. -/
lemma Run.det (h : M.Run s is os t) (h' : M.Run s is os' u) : t = u ∧ os = os' := by
  have heq := (run_iff_exec.mp h).symm.trans (run_iff_exec.mp h')
  simpa using heq

/-- **The induction rule of runs.** A relation between the events emitted so far
and the state holds at the end of every run once it holds at the start and one
step preserves it. -/
theorem Run.invariant {I : List ω → σ → Prop} (h : M.Run s is os t) (hinit : I [] s)
    (hstep : ∀ os t i u o, I os t → M.next t i = some (u, o) → I (os ++ o) u) : I os t := by
  induction h with
  | nil => exact hinit
  | snoc _ hn ih => exact hstep _ _ _ _ _ ih hn

/-- A property of states that every step preserves holds at the end of every run
from a state that has it. -/
theorem Run.preserves {I : σ → Prop} (h : M.Run s is os t) (hinit : I s)
    (hstep : ∀ t i u o, I t → M.next t i = some (u, o) → I u) : I t :=
  h.invariant (I := fun _ t => I t) hinit fun _ t i u o => hstep t i u o

/-- **The rule of events.** If, from a state with the invariant `I`, a step whose
events meet `C` keeps the invariant and its events meet `P`, then along a run whose
events all meet `C` they all meet `P`. -/
theorem Run.forall_events {I : σ → Prop} {C P : ω → Prop} (h : M.Run s is os t)
    (hC : ∀ e ∈ os, C e) (hinit : I s)
    (hstep : ∀ t i u o, I t → M.next t i = some (u, o) → (∀ e ∈ o, C e) →
      I u ∧ ∀ e ∈ o, P e) : I t ∧ ∀ e ∈ os, P e := by
  induction h with
  | nil => exact ⟨hinit, by simp⟩
  | snoc _ hn ih =>
      obtain ⟨hbefore, hnow⟩ := List.forall_mem_append.mp hC
      obtain ⟨hI, hP⟩ := ih hbefore
      obtain ⟨hI', hP'⟩ := hstep _ _ _ _ hI hn hnow
      exact ⟨hI', List.forall_mem_append.mpr ⟨hP, hP'⟩⟩

/-- **The step that emitted an event** splits a run into the run before it and the
run after it. -/
lemma Run.exists_step {os₁ os₂ : List ω} {a : ω} (h : M.Run s is os t)
    (hos : os = os₁ ++ a :: os₂) :
    ∃ is₁ i is₂ o₁ u p q v o₂, is = is₁ ++ i :: is₂ ∧ M.Run s is₁ o₁ u ∧
      M.next u i = some (v, p ++ a :: q) ∧ M.Run v is₂ o₂ t ∧ os₁ = o₁ ++ p ∧
      os₂ = q ++ o₂ := by
  induction h generalizing os₂ with
  | nil => simp at hos
  | @snoc is os t i u o hrun hn ih =>
      rcases List.append_eq_append_iff.mp hos with ⟨p, hos₁, ho⟩ | ⟨rest, hos', hcons⟩
      · exact ⟨is, i, [], os, t, p, os₂, u, [], rfl, hrun, ho ▸ hn, .nil, hos₁, by simp⟩
      · cases rest with
        | nil =>
            rw [List.nil_append] at hcons
            rw [List.append_nil] at hos'
            exact ⟨is, i, [], os, t, [], os₂, u, [], rfl, hrun, hcons ▸ hn, .nil, by simp [hos'],
              by simp⟩
        | cons a' rest =>
            obtain ⟨rfl, hos₂⟩ := List.cons_eq_cons.mp hcons
            obtain ⟨is₁, j, is₂, o₁, v, p, q, w, o₂, rfl, hbefore, hat, hafter, h₁, h₂⟩ := ih hos'
            exact ⟨is₁, j, is₂ ++ [i], o₁, v, p, q, w, o₂ ++ o, by simp, hbefore, hat,
              hafter.snoc hn, h₁, by simp [hos₂, h₂]⟩

/-- **The rule of projections.** If each step of `M` is matched by a run of `N` that emits
what `g` makes of the events of the step, so is each run. -/
theorem Run.project {τ κ υ : Type*} {N : Machine τ κ υ} {R : σ → τ → Prop} {g : ω → List υ}
    {p : τ} (h : M.Run s is os t) (hinit : R s p)
    (hstep : ∀ t i u o q, R t q → M.next t i = some (u, o) →
      ∃ js r, N.Run q js (o.flatMap g) r ∧ R u r) :
    ∃ js q, N.Run p js (os.flatMap g) q ∧ R t q := by
  induction h with
  | nil => exact ⟨[], p, .nil, hinit⟩
  | snoc _ hn ih =>
      obtain ⟨js, q, hrun, hR⟩ := ih
      obtain ⟨js', r, hrun', hR'⟩ := hstep _ _ _ _ _ hR hn
      exact ⟨js ++ js', r, by simpa using hrun.append hrun', hR'⟩

/-- **The rule of potentials.** If each step pays its cost out of its credit and of the potential
that it takes off, so does each run. -/
theorem Run.potential {I : σ → Prop} {Φ : σ → ℕ} {cost : ω → ℕ} {credit : ι → ℕ}
    (h : M.Run s is os t) (hinit : I s)
    (hstep : ∀ t i u o, I t → M.next t i = some (u, o) →
      I u ∧ (o.map cost).sum + Φ u ≤ credit i + Φ t) :
    (os.map cost).sum + Φ t ≤ (is.map credit).sum + Φ s := by
  have hrun : I t ∧ (os.map cost).sum + Φ t ≤ (is.map credit).sum + Φ s := by
    induction h with
    | nil => exact ⟨hinit, le_rfl⟩
    | snoc _ hn ih =>
        obtain ⟨hI, hle⟩ := ih
        obtain ⟨hI', hle'⟩ := hstep _ _ _ _ hI hn
        simp only [List.map_append, List.sum_append, List.map_singleton, List.sum_singleton]
        exact ⟨hI', by omega⟩
  exact hrun.2

/-- The machine that takes only the steps that meet `C`. -/
def restrict (M : Machine σ ι ω) (C : σ → ι → Prop) [∀ s i, Decidable (C s i)] :
    Machine σ ι ω where
  next s i := if C s i then M.next s i else none

section Restrict

variable {C : σ → ι → Prop} [∀ s i, Decidable (C s i)]

lemma restrict_next_iff {r : σ × List ω} :
    (M.restrict C).next s i = some r ↔ C s i ∧ M.next s i = some r := by
  simp only [restrict]
  split <;> simp_all

end Restrict

/-! ### Conditions on the steps of a run -/

/-- `P` holds, of the events emitted so far and the state, wherever the run on `is` from
`s` has come to. -/
def Throughout (M : Machine σ ι ω) (s : σ) (is : List ι) (P : List ω → σ → Prop) : Prop :=
  ∀ is' os t, is' <+: is → M.Run s is' os t → P os t

/-- `C` holds, of the events emitted so far, the state and the input, at every step of
the run on `is` from `s`. -/
def EachStep (M : Machine σ ι ω) (s : σ) (is : List ι) (C : List ω → σ → ι → Prop) : Prop :=
  ∀ is' i os t, is' ++ [i] <+: is → M.Run s is' os t → C os t i

section Steps

variable {P I : List ω → σ → Prop} {C : List ω → σ → ι → Prop}

lemma throughout_snoc_iff : M.Throughout s (is ++ [i]) P ↔
    M.Throughout s is P ∧ ∀ os t, M.Run s (is ++ [i]) os t → P os t := by
  constructor
  · intro h
    exact ⟨fun is' os t hpre => h is' os t (hpre.trans (List.prefix_append _ _)),
      fun os t => h _ os t List.prefix_rfl⟩
  · rintro ⟨hbefore, hlast⟩ is' os t hpre hrun
    rcases List.prefix_concat_iff.mp hpre with rfl | hpre
    · exact hlast os t hrun
    · exact hbefore is' os t hpre hrun

lemma eachStep_snoc_iff : M.EachStep s (is ++ [i]) C ↔
    M.EachStep s is C ∧ ∀ os t, M.Run s is os t → C os t i := by
  constructor
  · intro h
    exact ⟨fun is' j os t hpre => h is' j os t (hpre.trans (List.prefix_append _ _)),
      fun os t => h is i os t List.prefix_rfl⟩
  · rintro ⟨hbefore, hlast⟩ is' j os t hpre hrun
    rcases List.prefix_concat_iff.mp hpre with heq | hpre
    · obtain ⟨rfl, rfl⟩ := List.append_singleton_inj.mp heq
      exact hlast os t hrun
    · exact hbefore is' j os t hpre hrun

lemma eachStep_nil : M.EachStep s [] C := fun _ _ _ _ hpre => by simp at hpre

/-- The steps of a run on a nonempty list of inputs are the first one and those of the
rest. -/
lemma eachStep_cons (hn : M.next s i = some (t, o)) (hi : C [] s i)
    (h : M.EachStep t is fun os => C (o ++ os)) : M.EachStep s (i :: is) C := by
  intro is' j os u hpre hrun
  cases is' with
  | nil =>
      obtain ⟨rfl, rfl⟩ := hrun.det .nil
      obtain rfl : j = i := by simpa using hpre
      exact hi
  | cons i' is' =>
      obtain ⟨rfl, hpre'⟩ := List.cons_prefix_cons.mp hpre
      obtain ⟨t', o', os', hn', hrest, rfl⟩ := hrun.exists_cons
      obtain ⟨rfl, rfl⟩ := Prod.mk.inj (Option.some.inj (hn.symm.trans hn'))
      exact h is' j os' u hpre' hrest

/-- **The induction rule under a condition**: what every step that meets `C` preserves
holds at the end of every run all of whose steps meet `C`. -/
theorem Run.invariant_of_steps (h : M.Run s is os t) (hC : M.EachStep s is C) (hinit : I [] s)
    (hstep : ∀ os t i u o, I os t → M.next t i = some (u, o) → C os t i → I (os ++ o) u) :
    I os t := by
  induction h with
  | nil => exact hinit
  | snoc hrun hn ih =>
      obtain ⟨hbefore, hlast⟩ := eachStep_snoc_iff.mp hC
      exact hstep _ _ _ _ _ (ih hbefore) hn (hlast _ _ hrun)

/-- **The rule of exact conditions.** If steps that meet `C` keep the invariant `I`, which
implies `P`, and a step between two states with `P` meets `C`, then `P` holds
throughout a run exactly when each of its steps meets `C`. -/
theorem Run.throughout_iff (h : M.Run s is os t) (hinit : I [] s) (hP : ∀ os t, I os t → P os t)
    (hkeep : ∀ os t i u o, I os t → M.next t i = some (u, o) → C os t i → I (os ++ o) u)
    (hnec : ∀ os t i u o, P os t → M.next t i = some (u, o) → P (os ++ o) u → C os t i) :
    M.Throughout s is P ↔ M.EachStep s is C := by
  induction h with
  | nil =>
      constructor
      · intro _ is' i os t hpre
        simp at hpre
      · intro _ is' os t hpre hrun
        obtain rfl := List.prefix_nil.mp hpre
        obtain ⟨rfl, rfl⟩ := hrun.det .nil
        exact hP _ _ hinit
  | @snoc is os t i u o hrun hn ih =>
      rw [throughout_snoc_iff, eachStep_snoc_iff]
      constructor
      · rintro ⟨hbefore, hlast⟩
        refine ⟨ih.mp hbefore, fun os' t' hrun' => ?_⟩
        obtain ⟨rfl, rfl⟩ := hrun.det hrun'
        exact hnec _ _ _ _ _ (hbefore _ _ _ List.prefix_rfl hrun) hn (hlast _ _ (hrun.snoc hn))
      · rintro ⟨hbefore, hlast⟩
        refine ⟨ih.mpr hbefore, fun os' u' hrun' => ?_⟩
        obtain ⟨rfl, rfl⟩ := (hrun.snoc hn).det hrun'
        exact hP _ _ (hkeep _ _ _ _ _ (hrun.invariant_of_steps hbefore hinit hkeep) hn
          (hlast _ _ hrun))

end Steps

/-! ### Observing the steps of a run -/

section Trace

variable {κ : Type*} {g : σ → ι → List κ}

/-- What an observer, who sees `g s i` of the step on `i` from `s`, sees along a run. -/
def trace (M : Machine σ ι ω) (g : σ → ι → List κ) (s : σ) : List ι → List κ
  | [] => []
  | i :: is =>
      match M.next s i with
      | none => []
      | some (t, _) => g s i ++ M.trace g t is

lemma Run.trace_snoc (h : M.Run s is os t) (hn : M.next t i = some (u, o)) :
    M.trace g s (is ++ [i]) = M.trace g s is ++ g t i := by
  induction is generalizing s os with
  | nil =>
      obtain ⟨rfl, -⟩ := h.det .nil
      simp [trace, hn]
  | cons j is ih =>
      obtain ⟨v, o', os', hfirst, hrest, -⟩ := h.exists_cons
      simp only [List.cons_append, trace, hfirst, ih hrest, List.append_assoc]

/-- **The induction rule of observed runs**: a relation between what was seen, the events
emitted and the state. -/
theorem Run.invariant_trace {I : List κ → List ω → σ → Prop} (h : M.Run s is os t)
    (hinit : I [] [] s)
    (hstep : ∀ ks os t i u o, I ks os t → M.next t i = some (u, o) →
      I (ks ++ g t i) (os ++ o) u) : I (M.trace g s is) os t := by
  induction h with
  | nil => exact hinit
  | snoc hrun hn ih =>
      rw [hrun.trace_snoc hn]
      exact hstep _ _ _ _ _ _ ih hn

end Trace

end Machine

import Xsix.BlockQueue

/-!
That the calls of `take` are served.

A call of `take` enters, runs its section once and then once for each time it is woken, and
leaves with an element. Three accounts follow these through a run: of the elements, of the
calls, and of the sections that are still to be run (`Tally`).

* `take_served`: no more sections are run than calls were made and consumers woken; while there
  is an element and a call, one of the sections to be run takes it; and when none is left, as
  many elements were taken as there were elements and calls for them.
-/

namespace Xsix

open Census

namespace BlockQueue

variable {γ α : Type*}

/-- A call of `take`. -/
def Input.entered : Input γ α → Bool
  | .enter _ => true
  | _ => false

/-- A section of `take`. -/
def Input.section : Input γ α → Bool
  | .take _ => true
  | _ => false

/-- A waiting consumer is woken, by a `put` or by itself. -/
def Input.woken : Input γ α → Bool
  | .put _ (some _) | .putMove _ (some _) | .wake _ => true
  | _ => false

section Accounts

variable [DecidableEq γ] [Fintype γ] {s u : BlockQueue γ α} {i : Input γ α}
  {is : List (Input γ α)} {os o : List (Event γ α)}

/-- The consumers inside `take`. -/
def calls (s : BlockQueue γ α) : ℕ := census (· ≠ .outside) s.consumer

/-- The consumers inside `take` that do not wait. -/
def eager (s : BlockQueue γ α) : ℕ :=
  census (fun x => x = .running ∨ x = .notified) s.consumer

omit [DecidableEq γ] in
lemma eager_pos_iff : 0 < s.eager ↔ ∃ c, s.consumer c = .running ∨ s.consumer c = .notified :=
  census_pos_iff

omit [DecidableEq γ] in
lemma calls_built : (built : BlockQueue γ α).calls = 0 :=
  census_eq_zero_iff.mpr fun _ => by simp [built]

omit [DecidableEq γ] in
lemma eager_built : (built : BlockQueue γ α).eager = 0 :=
  census_eq_zero_iff.mpr fun _ => by simp [built]

/-- What inputs did to the elements, to the calls and to the sections to be run. -/
structure Tally (s : BlockQueue γ α) (is : List (Input γ α)) (os : List (Event γ α))
    (u : BlockQueue γ α) : Prop where
  elements : u.mQueue.length + (takes os).length = s.mQueue.length + (puts os).length
  calls : u.calls + (takes os).length = s.calls + is.countP Input.entered
  sections : u.eager + is.countP Input.section =
    s.eager + is.countP Input.entered + is.countP Input.woken

omit [DecidableEq γ] [Fintype γ] in
@[simp] lemma takes_append : takes (os ++ o) = takes os ++ takes o := by
  induction os with
  | nil => rfl
  | cons e os ih => cases e <;> simp [takes, ih]

omit [DecidableEq γ] [Fintype γ] in
@[simp] lemma puts_append : puts (os ++ o) = puts os ++ puts o := by
  induction os with
  | nil => rfl
  | cons e os ih => cases e <;> simp [puts, ih]

omit [DecidableEq γ] in
lemma Tally.nil : Tally s [] [] s := ⟨rfl, rfl, rfl⟩

omit [DecidableEq γ] in
/-- The accounts of two stretches add up. -/
lemma Tally.append {t : BlockQueue γ α} {is' : List (Input γ α)} {os' : List (Event γ α)}
    (h : Tally s is os t) (h' : Tally t is' os' u) : Tally s (is ++ is') (os ++ os') u := by
  obtain ⟨helements, hcalls, hsections⟩ := h
  obtain ⟨helements', hcalls', hsections'⟩ := h'
  constructor
  · simp only [takes_append, puts_append, List.length_append]
    omega
  · simp only [takes_append, List.length_append, List.countP_append]
    omega
  · simp only [List.countP_append]
    omega

/-- A consumer that turns to something else. -/
lemma calls_update (s : BlockQueue γ α) (q : List α) (c : γ) (x : Consumer) :
    BlockQueue.calls ⟨q, Function.update s.consumer c x⟩ +
        (if s.consumer c ≠ .outside then 1 else 0) =
      s.calls + (if x ≠ .outside then 1 else 0) :=
  census_update

lemma eager_update (s : BlockQueue γ α) (q : List α) (c : γ) (x : Consumer) :
    BlockQueue.eager ⟨q, Function.update s.consumer c x⟩ +
        (if s.consumer c = .running ∨ s.consumer c = .notified then 1 else 0) =
      s.eager + (if x = .running ∨ x = .notified then 1 else 0) :=
  census_update

/-- A consumer that waits and is woken. -/
lemma tally_wake {c : γ} (hc : s.consumer c = .waiting) (q : List α) :
    BlockQueue.calls ⟨q, Function.update s.consumer c .notified⟩ = s.calls ∧
      BlockQueue.eager ⟨q, Function.update s.consumer c .notified⟩ = s.eager + 1 := by
  have hcalls := calls_update s q c .notified
  have heager := eager_update s q c .notified
  simp only [hc, ne_eq, reduceCtorEq, not_false_eq_true, or_self, or_true, if_true, if_false]
    at hcalls heager
  omega

lemma tally_putSection {e : α} {woken : Option γ} (hn : s.putSection e woken = some (u, o)) :
    o = [.put e] ∧ u.mQueue = s.mQueue ++ [e] ∧ u.calls = s.calls ∧
      u.eager = s.eager + (if woken.isSome then 1 else 0) := by
  obtain ⟨v, hv, heq⟩ := Option.map_eq_some_iff.mp hn
  obtain ⟨rfl, rfl⟩ := Prod.mk.inj heq
  cases woken with
  | some c =>
      simp only [notifyOne] at hv
      split_ifs at hv with hc
      obtain rfl := Option.some.inj hv
      obtain ⟨hcalls, heager⟩ := tally_wake hc (s.mQueue ++ [e])
      exact ⟨rfl, rfl, hcalls, heager⟩
  | none =>
      simp only [notifyOne] at hv
      split_ifs at hv
      obtain rfl := Option.some.inj hv
      exact ⟨rfl, rfl, rfl, rfl⟩

/-- **One step keeps the accounts.** -/
lemma tally_of_next (hn : machine.next s i = some (u, o)) : Tally s [i] o u := by
  cases i with
  | put e woken =>
      obtain ⟨rfl, hqueue, hcalls, heager⟩ := tally_putSection hn
      refine ⟨by simp [hqueue, takes, puts], by simp [hcalls, takes, Input.entered], ?_⟩
      cases woken <;> simp [heager, Input.entered, Input.section, Input.woken]
  | putMove e woken =>
      obtain ⟨rfl, hqueue, hcalls, heager⟩ := tally_putSection hn
      refine ⟨by simp [hqueue, takes, puts], by simp [hcalls, takes, Input.entered], ?_⟩
      cases woken <;> simp [heager, Input.entered, Input.section, Input.woken]
  | enter c =>
      simp only [machine] at hn
      split_ifs at hn with hc
      obtain ⟨rfl, rfl⟩ := Prod.mk.inj (Option.some.inj hn)
      have hcalls := calls_update s s.mQueue c .running
      have heager := eager_update s s.mQueue c .running
      simp only [hc, ne_eq, reduceCtorEq, not_true_eq_false, not_false_eq_true, or_self, or_false,
        if_true, if_false] at hcalls heager
      exact ⟨rfl, by simpa [assign, takes, Input.entered] using hcalls,
        by simpa [assign, Input.entered, Input.section, Input.woken] using heager⟩
  | take c =>
      simp only [machine] at hn
      split_ifs at hn with hc
      have hinside : s.consumer c ≠ .outside := by
        rcases hc with hc | hc <;> rw [hc] <;> decide
      have htake := Option.some.inj hn
      cases hq : s.mQueue with
      | nil =>
          -- the section finds nothing, and the consumer waits
          simp only [takeSection, hq, List.isEmpty_nil, if_true] at htake
          obtain ⟨rfl, rfl⟩ := Prod.mk.inj htake
          have hcalls := calls_update s s.mQueue c .waiting
          have heager := eager_update s s.mQueue c .waiting
          rw [if_pos hinside, if_pos (by decide)] at hcalls
          rw [if_pos hc, if_neg (by decide)] at heager
          refine ⟨rfl, ?_, ?_⟩
          · simpa [assign, takes, Input.entered] using hcalls
          · simpa [assign, Input.entered, Input.section, Input.woken] using heager
      | cons e rest =>
          simp only [takeSection, hq, List.isEmpty_cons, Bool.false_eq_true, if_false,
            List.head?_cons, List.tail_cons] at htake
          obtain ⟨rfl, rfl⟩ := Prod.mk.inj htake
          have hcalls := calls_update s rest c .outside
          have heager := eager_update s rest c .outside
          rw [if_pos hinside, if_neg (by decide)] at hcalls
          rw [if_pos hc, if_neg (by decide)] at heager
          refine ⟨by simp [hq, takes, puts], ?_, ?_⟩
          · simpa [assign, takes, Input.entered] using hcalls
          · simpa [assign, Input.entered, Input.section, Input.woken] using heager
  | wake c =>
      simp only [machine] at hn
      split_ifs at hn with hc
      obtain ⟨rfl, rfl⟩ := Prod.mk.inj (Option.some.inj hn)
      obtain ⟨hcalls, heager⟩ := tally_wake hc s.mQueue
      exact ⟨rfl, by simpa [assign, takes, Input.entered] using hcalls,
        by simpa [assign, Input.entered, Input.section, Input.woken] using heager⟩

lemma tally_of_run (hrun : machine.Run s is os u) : Tally s is os u := by
  induction hrun with
  | nil => exact .nil
  | snoc _ hn ih => exact ih.append (tally_of_next hn)

/-! ### Serving the calls -/

/-- A section that finds an element takes it. -/
lemma next_take {c : γ} (hc : s.consumer c = .running ∨ s.consumer c = .notified)
    (hq : s.mQueue ≠ []) : ∃ e v, machine.next s (.take c) = some (v, [.took c e]) := by
  obtain ⟨e, rest, hcons⟩ := List.exists_cons_of_ne_nil hq
  refine ⟨e, { s.assign c .outside with mQueue := s.mQueue.tail }, ?_⟩
  simp [machine, hc, takeSection, hcons]

omit [DecidableEq γ] in
/-- While there is an element, a call that waits is not alone: another has been notified. -/
lemma Attended.eager_pos (h : Attended s) (hq : s.mQueue ≠ [])
    (hinside : ∃ c, s.consumer c ≠ .outside) : 0 < s.eager := by
  obtain ⟨c, hc⟩ := hinside
  rw [eager_pos_iff]
  cases hstate : s.consumer c with
  | outside => exact absurd hstate hc
  | running => exact ⟨c, .inl hstate⟩
  | notified => exact ⟨c, .inr hstate⟩
  | waiting =>
      have hlen := h ⟨c, hstate⟩
      have hpos := List.length_pos_iff.mpr hq
      obtain ⟨d, hd⟩ := census_pos_iff.mp (show 0 < notifiedCount s.consumer by omega)
      exact ⟨d, .inr hd⟩

/-- **The calls of `take` are served.** In every run of any number of producers and consumers:
the sections of `take` run and to be run are the calls and the wake-ups; while there is an
element and a call, some section can be run and takes one; and when no section is to be run, the
elements taken are as many as the elements put or as the calls, whichever is less. -/
theorem take_served (hrun : machine.Run built is os s) :
    is.countP Input.section + s.eager = is.countP Input.entered + is.countP Input.woken ∧
      (s.mQueue ≠ [] → (∃ c, s.consumer c ≠ .outside) →
        ∃ c e v, machine.next s (.take c) = some (v, [.took c e])) ∧
      (s.eager = 0 →
        (takes os).length = min (puts os).length (is.countP Input.entered)) := by
  have hattended : Attended s :=
    hrun.preserves (fun hwait => by simp [built] at hwait) fun t i u o ht hn =>
      ht.step (step_of_next hn)
  obtain ⟨helements, hcalls, hsections⟩ := tally_of_run hrun
  rw [calls_built] at hcalls
  rw [eager_built] at hsections
  have hempty : (built : BlockQueue γ α).mQueue.length = 0 := rfl
  refine ⟨by omega, fun hq hinside => ?_, fun hnone => ?_⟩
  · obtain ⟨c, hc⟩ := eager_pos_iff.mp (hattended.eager_pos hq hinside)
    obtain ⟨e, v, hnext⟩ := next_take hc hq
    exact ⟨c, e, v, hnext⟩
  · by_cases hinside : ∃ c, s.consumer c ≠ .outside
    · -- the calls that are left wait, so the queue is empty
      have hq : s.mQueue = [] := by
        by_contra hq
        have hpos := hattended.eager_pos hq hinside
        omega
      rw [hq, List.length_nil] at helements
      omega
    · have hout : s.calls = 0 := census_eq_zero_iff.mpr fun c hc => hinside ⟨c, hc⟩
      omega

/-- Two calls wait, one element is put and taken, and the other call goes on waiting. -/
theorem take_served_one :
    ∃ os, ∃ s : BlockQueue Bool ℕ,
      machine.Run built [.enter true, .take true, .enter false, .take false, .put 1 (some false),
        .take false] os s ∧
      s.eager = 0 ∧ s.consumer true = .waiting ∧ (takes os).length = min (puts os).length 2 := by
  obtain ⟨os, s, hrun, hnone, hwait⟩ : ∃ os, ∃ s : BlockQueue Bool ℕ,
      machine.Run built [.enter true, .take true, .enter false, .take false, .put 1 (some false),
        .take false] os s ∧ s.eager = 0 ∧ s.consumer true = .waiting :=
    ⟨_, _, Machine.run_iff_exec.mpr rfl, by decide, rfl⟩
  exact ⟨os, s, hrun, hnone, hwait, (take_served hrun).2.2 hnone⟩

end Accounts

end BlockQueue

end Xsix

import Xsix.Actor.Base
import Xsix.Library.Machine
import Mathlib.Data.List.ReduceOption

/-!
The messages of one actor, added by any threads while it ticks.

A tick sets the state, copies the vector of messages under the lock, handles the
copy one message after the other and returns; `addmsg` may come between any two of
these steps, from another thread or from the message being handled. The vector is
copied and never emptied, so every tick handles every message ever added. What
holds without condition is that each copy is handled completely and in order
(`snapshot_handled`); that no message is handled twice needs every copy to be
taken before anything was handled (`handled_in_order_iff`).
-/

namespace Xsix

variable {μ : Type*}

/-- Where the tick of an actor stands. -/
inductive Tick (μ : Type*) where
  | idle
  | entered
  | handling (msglist : List (Option μ))

/-- An actor and its tick. -/
structure Mailbox (μ : Type*) where
  actor : ActorBase μ
  tick : Tick μ

namespace Mailbox

/-- What may happen next: a message is added, or the tick takes a step. -/
inductive Input (μ : Type*) where
  | addmsg (msgptr : Option μ)
  | enter
  | snapshot
  | iterate
  | leave

/-- What is observed of a step. -/
inductive Event (μ : Type*) where
  | added (msgptr : Option μ)
  | snapshot
  | handled (msg : μ)
  | ticked
  deriving DecidableEq

/-- The atomic steps of `addmsg`, and of `ActorBase::tick` with `handle_all_msg`
inside. -/
def machine : Machine (Mailbox μ) (Input μ) (Event μ) where
  next s i :=
    match i, s.tick with
    | .addmsg msgptr, _ => some ({ s with actor := s.actor.addmsg msgptr }, [.added msgptr])
    | .enter, .idle => some (⟨s.actor.setState stateTicking, .entered⟩, [])
    | .snapshot, .entered => some ({ s with tick := .handling s.actor.mMsgVec }, [.snapshot])
    | .iterate, .handling (some msg :: rest) =>
        some ({ s with tick := .handling rest }, [.handled msg])
    | .iterate, .handling (none :: rest) => some ({ s with tick := .handling rest }, [])
    | .leave, .handling [] => some ({ s with tick := .idle }, [.ticked])
    | _, _ => none

/-- The actor as its constructor leaves it. -/
def built (ts : ℤ) : Mailbox μ := ⟨.built ts, .idle⟩

/-- The pointers passed to `addmsg`, in order. -/
def added : List (Event μ) → List (Option μ)
  | [] => []
  | .added msgptr :: os => msgptr :: added os
  | _ :: os => added os

/-- The messages `handle_msg` was called on, in order. -/
def handled : List (Event μ) → List μ
  | [] => []
  | .handled msg :: os => msg :: handled os
  | _ :: os => handled os

/-- The non-null messages the tick has still to handle. -/
def pending (s : Mailbox μ) : List μ :=
  match s.tick with
  | .handling msglist => msglist.reduceOption
  | _ => []

variable {os os₁ os₂ : List (Event μ)} {s u : Mailbox μ} {i : Input μ} {o : List (Event μ)}

@[simp] lemma added_append : added (os₁ ++ os₂) = added os₁ ++ added os₂ := by
  induction os₁ with
  | nil => rfl
  | cons e os₁ ih => cases e <;> simp [added, ih]

@[simp] lemma handled_append : handled (os₁ ++ os₂) = handled os₁ ++ handled os₂ := by
  induction os₁ with
  | nil => rfl
  | cons e os₁ ih => cases e <;> simp [handled, ih]

/-! ### One step -/

/-- What a step does to the vector of messages and to what is pending: a snapshot
makes the whole vector pending, any other step handles what it takes off. -/
lemma step_spec (hn : machine.next s i = some (u, o)) :
    u.actor.mMsgVec = s.actor.mMsgVec ++ added o ∧
      ((o = [.snapshot] ∧ s.pending = [] ∧ u.pending = s.actor.mMsgVec.reduceOption) ∨
        (.snapshot ∉ o ∧ s.pending = handled o ++ u.pending ∧
          (.ticked ∈ o → u.pending = []))) := by
  cases i with
  | addmsg msgptr =>
      obtain ⟨rfl, rfl⟩ := Prod.mk.inj (Option.some.inj hn)
      exact ⟨rfl, Or.inr ⟨by simp, rfl, by simp⟩⟩
  | enter =>
      cases htick : s.tick <;> simp only [machine, htick, reduceCtorEq] at hn
      obtain ⟨rfl, rfl⟩ := Prod.mk.inj (Option.some.inj hn)
      exact ⟨(List.append_nil _).symm, Or.inr ⟨by simp, by simp [pending, htick, handled], by simp⟩⟩
  | snapshot =>
      cases htick : s.tick <;> simp only [machine, htick, reduceCtorEq] at hn
      obtain ⟨rfl, rfl⟩ := Prod.mk.inj (Option.some.inj hn)
      exact ⟨(List.append_nil _).symm, Or.inl ⟨rfl, by simp [pending, htick], rfl⟩⟩
  | iterate =>
      rcases htick : s.tick with - | - | - | ⟨- | msg, rest⟩ <;>
        simp only [machine, htick, reduceCtorEq] at hn
      · obtain ⟨rfl, rfl⟩ := Prod.mk.inj (Option.some.inj hn)
        exact ⟨(List.append_nil _).symm,
          Or.inr ⟨by simp, by simp [pending, htick, handled], by simp⟩⟩
      · obtain ⟨rfl, rfl⟩ := Prod.mk.inj (Option.some.inj hn)
        exact ⟨(List.append_nil _).symm,
          Or.inr ⟨by simp, by simp [pending, htick, handled], by simp⟩⟩
  | leave =>
      rcases htick : s.tick with - | - | - | ⟨msgptr, rest⟩ <;>
        simp only [machine, htick, reduceCtorEq] at hn
      obtain ⟨rfl, rfl⟩ := Prod.mk.inj (Option.some.inj hn)
      exact ⟨(List.append_nil _).symm,
        Or.inr ⟨by simp, by simp [pending, htick, handled], fun _ => rfl⟩⟩

/-! ### Runs -/

section Runs

variable {ts : ℤ} {is : List (Input μ)}

/-- The vector holds everything ever added: nothing takes it out. -/
lemma vec_eq_added (hrun : machine.Run (built ts) is os s) : s.actor.mMsgVec = added os :=
  hrun.invariant (I := fun os t => t.actor.mMsgVec = added os) rfl fun os t i u o hI hn => by
    rw [added_append, ← hI]
    exact (step_spec hn).1

/-- A run up to the point where a tick took its copy, and the run from there on. -/
lemma snapshot_step (hrun : machine.Run (built ts) is os s)
    (hos : os = os₁ ++ .snapshot :: os₂) :
    ∃ is₁ t is₂ v, machine.Run (built ts) is₁ os₁ t ∧
      v.pending = (added os₁).reduceOption ∧ machine.Run v is₂ os₂ s := by
  obtain ⟨is₁, i, is₂, o₁, t, p, q, v, o₂, -, hbefore, hat, hafter, rfl, rfl⟩ :=
    hrun.exists_step hos
  rcases (step_spec hat).2 with ⟨ho, -, hcopy⟩ | ⟨hnone, -⟩
  · obtain ⟨rfl, hq⟩ : p = [] ∧ .snapshot :: q = [Event.snapshot] := by
      cases p with
      | nil => exact ⟨rfl, ho⟩
      | cons e p => simp at ho
    obtain rfl : q = [] := by simpa using hq
    rw [vec_eq_added hbefore] at hcopy
    exact ⟨is₁, t, is₂, v, by simpa using hbefore, by simpa using hcopy, hafter⟩
  · exact absurd (by simp) hnone

/-- **Each copy of the vector is handled completely and in order.** After the
point where a tick took its copy, `handle_msg` was called, from the front on, on the
non-null messages added before that point, and on all of them once the tick is
over. -/
theorem snapshot_handled (hrun : machine.Run (built ts) is os s)
    (hos : os = os₁ ++ .snapshot :: os₂) :
    (added os₁).reduceOption <+: handled os₂ ++ s.pending ∧
      (.ticked ∈ os₂ → (added os₁).reduceOption <+: handled os₂) := by
  obtain ⟨is₁, t, is₂, v, -, hcopy, hafter⟩ := snapshot_step hrun hos
  rw [← hcopy]
  refine hafter.invariant (I := fun os t => v.pending <+: handled os ++ t.pending ∧
    (.ticked ∈ os → v.pending <+: handled os)) ⟨List.prefix_rfl, by simp⟩ fun os t i u o hI hn => ?_
  rw [handled_append]
  rcases (step_spec hn).2 with ⟨rfl, hidle, -⟩ | ⟨-, hflow, hover⟩
  · -- a later tick takes its copy: this one is over
    have hall := hI.1
    rw [hidle, List.append_nil] at hall
    have hpre := hall.trans (List.prefix_append _ (handled [.snapshot]))
    exact ⟨hpre.trans (List.prefix_append _ _), fun _ => hpre⟩
  · have hpre := hI.1
    rw [hflow, ← List.append_assoc] at hpre
    refine ⟨hpre, fun hticked => ?_⟩
    rcases List.mem_append.mp hticked with hbefore | hnow
    · exact (hI.2 hbefore).trans (List.prefix_append _ _)
    · rwa [hover hnow, List.append_nil] at hpre

/-- Only what was added is handled or pending. -/
lemma mem_added (hrun : machine.Run (built ts) is os s) :
    ∀ msg ∈ handled os ++ s.pending, msg ∈ (added os).reduceOption := by
  have key : s.actor.mMsgVec = added os ∧
      ∀ msg ∈ handled os ++ s.pending, msg ∈ (added os).reduceOption :=
    hrun.invariant (I := fun os t => t.actor.mMsgVec = added os ∧
        ∀ msg ∈ handled os ++ t.pending, msg ∈ (added os).reduceOption)
      ⟨rfl, by simp [handled, built, pending]⟩ fun os t i u o hI hn => by
        obtain ⟨hvec, hcases⟩ := step_spec hn
        refine ⟨by rw [added_append, ← hI.1, hvec], fun msg hmsg => ?_⟩
        rw [added_append, List.reduceOption_append]
        rcases hcases with ⟨rfl, hidle, hcopy⟩ | ⟨-, hflow, -⟩
        · rw [hcopy, hI.1, handled_append] at hmsg
          rcases List.mem_append.mp hmsg with hmsg | hmsg
          · refine List.mem_append_left _ (hI.2 msg (List.mem_append_left _ ?_))
            simpa [handled] using hmsg
          · exact List.mem_append_left _ hmsg
        · rw [handled_append, List.append_assoc, ← hflow] at hmsg
          exact List.mem_append_left _ (hI.2 msg hmsg)
  exact key.2

/-- Every tick so far took its copy of the vector before any message was handled. -/
def FreshSnapshots (os : List (Event μ)) : Prop :=
  ∀ os₁ os₂, os = os₁ ++ .snapshot :: os₂ → handled os₁ = []

/-- Messages are handled at most once and in the order they were added, and those
added before a tick took its copy are handled once that tick is over. -/
def HandledInOrder (os : List (Event μ)) : Prop :=
  handled os <+: (added os).reduceOption ∧
    ∀ os₁ os₂, os = os₁ ++ .snapshot :: os₂ → .ticked ∈ os₂ →
      (added os₁).reduceOption <+: handled os

lemma FreshSnapshots.of_append (h : FreshSnapshots (os ++ o)) : FreshSnapshots os := by
  rintro os₁ os₂ rfl
  exact h os₁ (os₂ ++ o) (by simp)

/-- While every copy is fresh, what is handled and what is pending are the front of
what was added. -/
lemma FreshSnapshots.prefix_added (hrun : machine.Run (built ts) is os s)
    (hfresh : FreshSnapshots os) : handled os ++ s.pending <+: (added os).reduceOption := by
  have key : s.actor.mMsgVec = added os ∧
      (FreshSnapshots os → handled os ++ s.pending <+: (added os).reduceOption) :=
    hrun.invariant (I := fun os t => t.actor.mMsgVec = added os ∧
        (FreshSnapshots os → handled os ++ t.pending <+: (added os).reduceOption))
      ⟨rfl, fun _ => List.prefix_rfl⟩ fun os t i u o hI hn => by
        obtain ⟨hvec, hcases⟩ := step_spec hn
        refine ⟨by rw [added_append, ← hI.1, hvec], fun hf => ?_⟩
        rw [added_append, List.reduceOption_append, handled_append]
        rcases hcases with ⟨rfl, -, hcopy⟩ | ⟨-, hflow, -⟩
        · have hnone : handled os = [] := hf os [] rfl
          rw [hcopy, hI.1, hnone]
          exact List.prefix_append _ _
        · rw [List.append_assoc, ← hflow]
          exact (hI.2 hf.of_append).trans (List.prefix_append _ _)
  exact key.2 hfresh

/-- **When messages are handled exactly once and in order.** They are in every run
in which each tick took its copy of the messages before any was handled; and a run of
distinct messages that has come to rest handles them so only if that is the case. -/
theorem handled_in_order_iff (hrun : machine.Run (built ts) is os s) :
    (FreshSnapshots os → HandledInOrder os) ∧
      (s.tick = .idle → (added os).reduceOption.Nodup → HandledInOrder os →
        FreshSnapshots os) := by
  constructor
  · intro hfresh
    refine ⟨(List.prefix_append _ _).trans (hfresh.prefix_added hrun), ?_⟩
    intro os₁ os₂ hos hticked
    have hnone : handled os₁ = [] := hfresh os₁ os₂ hos
    have hall := (snapshot_handled hrun hos).2 hticked
    have hsame : handled os = handled os₂ := by
      rw [hos, handled_append, hnone]
      rfl
    rwa [hsame]
  · intro hidle hnodup horder os₁ os₂ hos
    by_contra hne
    obtain ⟨msg, hfirst⟩ := List.exists_mem_of_ne_nil _ hne
    have hpending : s.pending = [] := by simp [pending, hidle]
    -- handled before the copy, hence added before it, hence handled again after it
    have hadded : msg ∈ (added os₁).reduceOption := by
      obtain ⟨is₁, t, -, -, hbefore, -, -⟩ := snapshot_step hrun hos
      exact mem_added hbefore msg (List.mem_append_left _ hfirst)
    have hagain : msg ∈ handled os₂ := by
      have hpre := (snapshot_handled hrun hos).1
      rw [hpending, List.append_nil] at hpre
      exact hpre.subset hadded
    have hdup : (handled os).Nodup := hnodup.sublist horder.1.sublist
    rw [hos, handled_append] at hdup
    exact (List.nodup_append.mp hdup).2.2 msg hfirst msg (by simpa [handled] using hagain) rfl

end Runs

/-- One message, one tick. -/
theorem handled_in_order_once :
    ∃ os, ∃ s : Mailbox Unit,
      machine.Run (built 0) [.addmsg (some ()), .enter, .snapshot, .iterate, .leave] os s ∧
      s.tick = .idle ∧ HandledInOrder os := by
  obtain ⟨os, s, hrun, hidle, hos⟩ : ∃ os, ∃ s : Mailbox Unit,
      machine.Run (built 0) [.addmsg (some ()), .enter, .snapshot, .iterate, .leave] os s ∧
      s.tick = .idle ∧ os = [.added (some ()), .snapshot, .handled (), .ticked] :=
    ⟨_, _, Machine.run_iff_exec.mpr rfl, rfl, rfl⟩
  have hfresh : FreshSnapshots os := by
    intro os₁ os₂ h
    rw [hos] at h
    rcases os₁ with - | ⟨e, - | ⟨e', os₁⟩⟩
    · rfl
    · obtain ⟨rfl, -⟩ := List.cons_eq_cons.mp h
      rfl
    · -- the only copy is the second event
      obtain ⟨-, -, htail⟩ : _ ∧ _ ∧ [.handled (), .ticked] = os₁ ++ .snapshot :: os₂ := by
        simpa using h
      have hmem : Event.snapshot ∈ [Event.handled (), .ticked] := by simp [htail]
      simp at hmem
  exact ⟨os, s, hrun, hidle, (handled_in_order_iff hrun).1 hfresh⟩

/-- **The second tick handles the message again.** -/
theorem handled_twice :
    ∃ os, ∃ s : Mailbox Unit,
      machine.Run (built 0) [.addmsg (some ()), .enter, .snapshot, .iterate, .leave,
        .enter, .snapshot, .iterate, .leave] os s ∧
      (added os).reduceOption = [()] ∧ handled os = [(), ()] ∧ ¬ HandledInOrder os := by
  refine ⟨_, _, Machine.run_iff_exec.mpr rfl, rfl, rfl, ?_⟩
  intro h
  exact absurd h.1.length_le (by decide)

end Mailbox

end Xsix

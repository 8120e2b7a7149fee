import Xsix.Library.Census
import Xsix.Library.Fifo

/-!
`block_queue.hpp`: a queue that producers fill and consumers wait at.

Each section run under `m_mutex` is one step. A consumer inside `take` is running,
waits at `m_cond_not_empty`, or has been notified and not yet resumed; a running or
resumed consumer that gets the mutex tests the queue, waits again when it is empty
and takes its front otherwise. `notify_one` wakes one of the waiting consumers,
whichever, and a waiting consumer may wake by itself at any time.

* `queue_linearizable`: the elements come out in the order they went in, the queue
  holds the rest, and the front of an empty queue is never asked for.
* `no_lost_wakeup`: while a consumer waits, there are at least as many notified ones
  as elements.
-/

namespace Xsix

open Census

/-- Where a thread stands with respect to `take`. -/
inductive Consumer where
  | outside
  | running
  | waiting
  | notified
  deriving DecidableEq

/-- The deque and the consumers. -/
structure BlockQueue (γ α : Type*) where
  mQueue : List α
  consumer : γ → Consumer

namespace BlockQueue

variable {γ α : Type*}

/-- The steps; a `put` names the consumer its `notify_one` wakes. -/
inductive Input (γ α : Type*) where
  | put (e : α) (woken : Option γ)
  | putMove (e : α) (woken : Option γ)
  | enter (c : γ)
  | take (c : γ)
  | wake (c : γ)

/-- What is observed: an element put, an element taken, or `front()` and
`pop_front()` called on an empty deque. -/
inductive Event (γ α : Type*) where
  | put (e : α)
  | took (c : γ) (e : α)
  | emptyAccess (c : γ)
  deriving DecidableEq

section Machine

variable [DecidableEq γ] [Fintype γ]

/-- A consumer turns to something else. -/
def assign (s : BlockQueue γ α) (c : γ) (x : Consumer) : BlockQueue γ α :=
  { s with consumer := Function.update s.consumer c x }

/-- `m_cond_not_empty.notify_one()`, waking `woken`: a waiting consumer, or none
when none waits. -/
def notifyOne (s : BlockQueue γ α) (woken : Option γ) : Option (BlockQueue γ α) :=
  match woken with
  | some c => if s.consumer c = .waiting then some (s.assign c .notified) else none
  | none => if ∀ c, s.consumer c ≠ .waiting then some s else none

/-- The section of either `put`. -/
def putSection (s : BlockQueue γ α) (e : α) (woken : Option γ) :
    Option (BlockQueue γ α × List (Event γ α)) :=
  ({ s with mQueue := s.mQueue ++ [e] }.notifyOne woken).map fun u => (u, [.put e])

/-- The section of `take` from the moment the mutex is held to the moment it is
released: the test of the loop, then `wait` or `front()` and `pop_front()`. -/
def takeSection (s : BlockQueue γ α) (c : γ) : BlockQueue γ α × List (Event γ α) :=
  if s.mQueue.isEmpty then (s.assign c .waiting, [])
  else
    match s.mQueue.head? with
    | some e => ({ s.assign c .outside with mQueue := s.mQueue.tail }, [.took c e])
    | none => (s.assign c .outside, [.emptyAccess c])

/-- Any number of producers and of consumers. -/
def machine : Machine (BlockQueue γ α) (Input γ α) (Event γ α) where
  next s
    | .put e woken => s.putSection e woken
    | .putMove e woken => s.putSection e woken
    | .enter c =>
        if s.consumer c = .outside then some (s.assign c .running, []) else none
    | .take c =>
        if s.consumer c = .running ∨ s.consumer c = .notified then some (s.takeSection c)
        else none
    | .wake c =>
        if s.consumer c = .waiting then some (s.assign c .notified, []) else none

/-- A queue just built, with no thread inside `take`. -/
def built : BlockQueue γ α := ⟨[], fun _ => .outside⟩

/-- The elements put, in the order of the sections of `put`. -/
def puts : List (Event γ α) → List α
  | [] => []
  | .put e :: os => e :: puts os
  | _ :: os => puts os

/-- The elements taken, in the order of the sections of `take`. -/
def takes : List (Event γ α) → List α
  | [] => []
  | .took _ e :: os => e :: takes os
  | _ :: os => takes os

/-- The queue event an event stands for. -/
def transfer : Event γ α → List (Fifo.Event α)
  | .put e => [.accept [e]]
  | .took _ e => [.release [e]]
  | .emptyAccess _ => []

variable {s u : BlockQueue γ α} {i : Input γ α} {os o : List (Event γ α)}

/-! ### One step -/

/-- What a step can be, by its effect. -/
inductive Step (s : BlockQueue γ α) : BlockQueue γ α → List (Event γ α) → Prop
  | putWaking {e : α} {c : γ} (hc : s.consumer c = .waiting) :
      Step s ⟨s.mQueue ++ [e], Function.update s.consumer c .notified⟩ [.put e]
  | putAlone {e : α} (hnone : ∀ c, s.consumer c ≠ .waiting) :
      Step s ⟨s.mQueue ++ [e], s.consumer⟩ [.put e]
  | enter {c : γ} (hc : s.consumer c = .outside) : Step s (s.assign c .running) []
  | block {c : γ} (hc : s.consumer c = .running ∨ s.consumer c = .notified)
      (hq : s.mQueue = []) : Step s (s.assign c .waiting) []
  | take {c : γ} {e : α} {rest : List α}
      (hc : s.consumer c = .running ∨ s.consumer c = .notified) (hq : s.mQueue = e :: rest) :
      Step s ⟨rest, Function.update s.consumer c .outside⟩ [.took c e]
  | wake {c : γ} (hc : s.consumer c = .waiting) : Step s (s.assign c .notified) []

lemma step_of_putSection {e : α} {woken : Option γ} (hn : s.putSection e woken = some (u, o)) :
    Step s u o := by
  obtain ⟨v, hv, heq⟩ := Option.map_eq_some_iff.mp hn
  obtain ⟨rfl, rfl⟩ := Prod.mk.inj heq
  cases woken with
  | some c =>
      simp only [notifyOne] at hv
      split_ifs at hv with hc
      obtain rfl := Option.some.inj hv
      exact .putWaking hc
  | none =>
      simp only [notifyOne] at hv
      split_ifs at hv with hnone
      obtain rfl := Option.some.inj hv
      exact .putAlone hnone

lemma step_of_next (hn : machine.next s i = some (u, o)) : Step s u o := by
  cases i with
  | put e woken => exact step_of_putSection hn
  | putMove e woken => exact step_of_putSection hn
  | enter c =>
      simp only [machine] at hn
      split_ifs at hn with hc
      obtain ⟨rfl, rfl⟩ := Prod.mk.inj (Option.some.inj hn)
      exact .enter hc
  | take c =>
      simp only [machine] at hn
      split_ifs at hn with hc
      have htake := Option.some.inj hn
      cases hq : s.mQueue with
      | nil =>
          simp only [takeSection, hq, List.isEmpty_nil, if_true] at htake
          obtain ⟨rfl, rfl⟩ := Prod.mk.inj htake
          exact .block hc hq
      | cons e rest =>
          simp only [takeSection, hq, List.isEmpty_cons, Bool.false_eq_true, if_false,
            List.head?_cons, List.tail_cons] at htake
          obtain ⟨rfl, rfl⟩ := Prod.mk.inj htake
          exact .take hc hq
  | wake c =>
      simp only [machine] at hn
      split_ifs at hn with hc
      obtain ⟨rfl, rfl⟩ := Prod.mk.inj (Option.some.inj hn)
      exact .wake hc

/-! ### The order of the elements -/

omit [DecidableEq γ] [Fintype γ] in
lemma accepted_transfer : Fifo.accepted (os.flatMap transfer) = puts os :=
  Fifo.accepted_flatMap rfl (fun e _ => by cases e <;> rfl) os

omit [DecidableEq γ] [Fintype γ] in
lemma released_transfer : Fifo.released (os.flatMap transfer) = takes os :=
  Fifo.released_flatMap rfl (fun e _ => by cases e <;> rfl) os

omit [Fintype γ] in
/-- Each section is a legal step of a queue, and none asks an empty deque for its
front. -/
lemma Step.legal (hs : Step s u o) :
    Fifo.Legal s.mQueue (o.flatMap transfer) u.mQueue ∧ ∀ c, .emptyAccess c ∉ o := by
  cases hs with
  | putWaking hc => exact ⟨rfl, by simp⟩
  | putAlone hnone => exact ⟨rfl, by simp⟩
  | enter hc => exact ⟨rfl, by simp⟩
  | block hc hq => exact ⟨rfl, by simp⟩
  | take hc hq => exact ⟨⟨_, hq, rfl⟩, by simp⟩
  | wake hc => exact ⟨rfl, by simp⟩

/-- **The queue is linearizable.** In every run of any number of producers and
consumers, with spurious wake-ups: the elements taken are a prefix of those put, each
in the order of its section, the queue holds the rest, and no section reads or pops
the front of an empty deque. -/
theorem queue_linearizable {is : List (Input γ α)} (hrun : machine.Run built is os s) :
    takes os <+: puts os ∧ puts os = takes os ++ s.mQueue ∧ ∀ c, .emptyAccess c ∉ os := by
  have hlegal : Fifo.Legal [] (os.flatMap transfer) s.mQueue :=
    hrun.legal (I := fun _ => True) mQueue transfer trivial (fun _ _ _ _ _ _ => trivial)
      fun t i u o _ hn => (step_of_next hn).legal.1
  have hconserve : puts os = takes os ++ s.mQueue := by
    calc puts os = [] ++ Fifo.accepted (os.flatMap transfer) := accepted_transfer.symm
      _ = Fifo.released (os.flatMap transfer) ++ s.mQueue := hlegal.conservation
      _ = takes os ++ s.mQueue := by rw [released_transfer]
  have hempty : ∀ c, .emptyAccess c ∉ os :=
    hrun.invariant (I := fun os _ => ∀ c, .emptyAccess c ∉ os) (by simp)
      fun os t i u o hI hn c hmem => by
        rcases List.mem_append.mp hmem with hmem | hmem
        · exact hI c hmem
        · exact (step_of_next hn).legal.2 c hmem
  exact ⟨⟨s.mQueue, hconserve.symm⟩, hconserve, hempty⟩

/-- One consumer waits, is notified by the first of two puts, loses its element to
another consumer and takes the next. -/
theorem queue_linearizable_overtaken :
    ∃ os, ∃ s : BlockQueue Bool ℕ,
      machine.Run built [.enter true, .take true, .put 1 (some true), .enter false, .take false,
        .putMove 2 none, .take true] os s ∧
      takes os = [1, 2] ∧ takes os <+: puts os ∧ puts os = takes os ++ s.mQueue := by
  obtain ⟨os, s, hrun, htakes⟩ : ∃ os, ∃ s : BlockQueue Bool ℕ,
      machine.Run built [.enter true, .take true, .put 1 (some true), .enter false, .take false,
        .putMove 2 none, .take true] os s ∧ takes os = [1, 2] :=
    ⟨_, _, Machine.run_iff_exec.mpr rfl, rfl⟩
  have hqueue := queue_linearizable hrun
  exact ⟨os, s, hrun, htakes, hqueue.1, hqueue.2.1⟩

/-! ### Notifications -/

/-- The consumers that have been notified and not yet resumed. -/
def notifiedCount (consumer : γ → Consumer) : ℕ := census (· = .notified) consumer

/-- While a consumer waits, every element has a notified consumer to take it. -/
def Attended (s : BlockQueue γ α) : Prop :=
  (∃ c, s.consumer c = .waiting) → s.mQueue.length ≤ notifiedCount s.consumer

/-- A consumer that turns to something else. -/
lemma notifiedCount_update (consumer : γ → Consumer) (c : γ) (x : Consumer) :
    notifiedCount (Function.update consumer c x) + (if consumer c = .notified then 1 else 0)
      = notifiedCount consumer + (if x = .notified then 1 else 0) :=
  census_update

/-- A consumer that is woken is one more that is notified. -/
lemma notifiedCount_wake {consumer : γ → Consumer} {c : γ} (hc : consumer c = .waiting) :
    notifiedCount (Function.update consumer c .notified) = notifiedCount consumer + 1 := by
  have hturn := notifiedCount_update consumer c .notified
  rwa [if_neg (by rw [hc]; decide), if_pos rfl, add_zero] at hturn

omit [Fintype γ] in
/-- A consumer that was waiting before another turned to something that is not
waiting. -/
lemma waiting_of_update {consumer : γ → Consumer} {c : γ} {x : Consumer} (hx : x ≠ .waiting)
    (h : ∃ d, Function.update consumer c x d = .waiting) : ∃ d, consumer d = .waiting := by
  obtain ⟨d, hd⟩ := h
  rw [Function.update_apply] at hd
  split_ifs at hd with heq
  · exact absurd hd hx
  · exact ⟨d, hd⟩

/-- **One step keeps every element attended to** as long as a consumer waits. -/
lemma Attended.step (h : Attended s) (hs : Step s u o) : Attended u := by
  cases hs with
  | @putWaking e c hc =>
      intro _
      have hlen := h ⟨c, hc⟩
      have hturn := notifiedCount_wake hc
      change (s.mQueue ++ [e]).length ≤ notifiedCount (Function.update s.consumer c .notified)
      rw [List.length_append, List.length_singleton]
      omega
  | putAlone hnone =>
      intro hwait
      obtain ⟨c, hc⟩ := hwait
      exact absurd hc (hnone c)
  | @enter c hc =>
      intro hwait
      have hlen := h (waiting_of_update (by decide) hwait)
      have hturn := notifiedCount_update s.consumer c .running
      rw [if_neg (by rw [hc]; decide), if_neg (by decide)] at hturn
      simp only [assign]
      omega
  | block hc hq =>
      intro _
      simp [assign, hq]
  | @take c e rest hc hq =>
      intro hwait
      have hlen := h (waiting_of_update (by decide) hwait)
      have hturn := notifiedCount_update s.consumer c .outside
      rw [if_neg (by decide : Consumer.outside ≠ .notified)] at hturn
      rw [hq, List.length_cons] at hlen
      change rest.length ≤ notifiedCount (Function.update s.consumer c .outside)
      split_ifs at hturn <;> omega
  | @wake c hc =>
      intro _
      have hlen := h ⟨c, hc⟩
      have hturn := notifiedCount_wake hc
      simp only [assign]
      omega

/-- **No wake-up is lost.** In every reachable state, if a consumer is waiting then
at least as many consumers are notified and not yet resumed as the queue has elements;
so the queue is never left with elements while every consumer inside `take` waits. -/
theorem no_lost_wakeup {is : List (Input γ α)} (hrun : machine.Run built is os s) :
    ((∃ c, s.consumer c = .waiting) → s.mQueue.length ≤ notifiedCount s.consumer) ∧
      ¬ (s.mQueue ≠ [] ∧ (∃ c, s.consumer c ≠ .outside) ∧
        ∀ c, s.consumer c ≠ .outside → s.consumer c = .waiting) := by
  have hattended : Attended s :=
    hrun.preserves (fun hwait => by simp [built] at hwait) fun t i u o ht hn =>
      ht.step (step_of_next hn)
  refine ⟨hattended, ?_⟩
  rintro ⟨hne, ⟨c, hc⟩, hall⟩
  have hlen := hattended ⟨c, hall c hc⟩
  have hnone : notifiedCount s.consumer = 0 := census_eq_zero_iff.mpr fun d hd => by
    have hwait := hall d (by rw [hd]; decide)
    rw [hd] at hwait
    exact absurd hwait (by decide)
  have hpos := List.length_pos_iff.mpr hne
  omega

/-- Two consumers wait and one element is put: one of them is notified. -/
theorem no_lost_wakeup_two :
    ∃ os, ∃ s : BlockQueue Bool ℕ,
      machine.Run built [.enter true, .take true, .enter false, .take false,
        .put 1 (some false)] os s ∧
      s.consumer true = .waiting ∧ s.mQueue.length ≤ notifiedCount s.consumer := by
  obtain ⟨os, s, hrun, hwait⟩ : ∃ os, ∃ s : BlockQueue Bool ℕ,
      machine.Run built [.enter true, .take true, .enter false, .take false,
        .put 1 (some false)] os s ∧ s.consumer true = .waiting :=
    ⟨_, _, Machine.run_iff_exec.mpr rfl, rfl⟩
  exact ⟨os, s, hrun, hwait, (no_lost_wakeup hrun).1 ⟨true, hwait⟩⟩

end Machine

end BlockQueue

end Xsix

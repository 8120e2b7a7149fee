import Xsix.Library.CInt

/-!
`actor_base.h` and `actor_base.cc`: one actor, function by function.

A message pointer is an `Option`, `none` being the null pointer; what
`handle_msg` does is the business of the message and takes no part in the model
beyond the `addmsg` calls it may make. The interval of an actor is the result of
its virtual `get_tick_interval` and is passed in. `ActorBase::handle_all_msg` and
the tick around it take many steps while other threads go on; they are the
machines of `Mailbox` and `Scheduler`.
-/

namespace Xsix

open CInt

/-- `ActorBase::STATE_READY_TICK`. -/
def stateReadyTick : ℤ := 0

/-- `ActorBase::STATE_TICKING`. -/
def stateTicking : ℤ := 1

/-- The members of `ActorBase` other than its id and its mutex. -/
structure ActorBase (μ : Type*) where
  mState : ℤ
  mMsgVec : List (Option μ)
  mLastTickTimestamp : ℤ

namespace ActorBase

variable {μ : Type*}

/-- The actor after its constructor, which leaves `m_last_tick_timestamp` with
whatever the memory held. -/
def built (ts : ℤ) : ActorBase μ := ⟨stateReadyTick, [], ts⟩

/-- `ActorBase::set_state`. -/
def setState (b : ActorBase μ) (state : ℤ) : ActorBase μ := { b with mState := state }

/-- `ActorBase::get_state`. -/
def getState (b : ActorBase μ) : ℤ := b.mState

/-- `ActorBase::set_last_tick_timestamp`. -/
def setLastTickTimestamp (b : ActorBase μ) (ts : ℤ) : ActorBase μ :=
  { b with mLastTickTimestamp := ts }

/-- `ActorBase::get_last_tick_timestamp`. -/
def getLastTickTimestamp (b : ActorBase μ) : ℤ := b.mLastTickTimestamp

/-- `ActorBase::ready_tick`, the actor's interval being `tickInterval`. -/
def readyTick (b : ActorBase μ) (tickInterval ts : ℤ) : Bool :=
  if b.getState ≠ stateReadyTick then false
  else
    let interval := int64 (ts - b.getLastTickTimestamp)
    if interval < tickInterval then false else true

/-- `ActorBase::addmsg`. -/
def addmsg (b : ActorBase μ) (msgptr : Option μ) : ActorBase μ :=
  { b with mMsgVec := b.mMsgVec ++ [msgptr] }

/-- What `ready_tick` has found when it says yes. -/
lemma readyTick_iff {b : ActorBase μ} {tickInterval ts : ℤ} :
    b.readyTick tickInterval ts = true ↔
      b.mState = stateReadyTick ∧ tickInterval ≤ int64 (ts - b.mLastTickTimestamp) := by
  rw [readyTick, getState, getLastTickTimestamp]
  by_cases hstate : b.mState = stateReadyTick
  · simp [hstate]
  · simp [hstate]

end ActorBase

end Xsix

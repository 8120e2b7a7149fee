import Xsix.Actor.Mailbox
import Xsix.Actor.Scheduler

/-!
`ActorCore::run`, its workers and the messages of the actors together.

The scheduler sees of a tick only its start and its end, and a mailbox sees only the ticks of
its own actor, one at a time. Here a worker that ticks an actor takes the steps of
`handle_all_msg` in between, and messages are added to any actor at any time.

* `parts_of_run`: a run is, for the scheduler, one of its runs, whatever the messages; and for
  each actor a run of its mailbox, whatever worker has its tick. That ticks of an actor do not
  overlap, which the mailbox takes for granted, is what the balance of the scheduler gives.
* `handled_eq_copies`: each tick handles again all that was ever added.
-/

namespace Xsix

open Census Machine

/-- The scheduler, and where each worker stands in the tick of its actor. -/
structure ActorSystem (A W μ : Type*) where
  core : ActorCore A W μ
  tick : W → Tick μ

namespace ActorSystem

variable {A W μ : Type*}

/-- What may happen next: a step of the scan or of the pool, or of a worker in
`handle_all_msg`; or a message is added to an actor. -/
inductive Input (A W μ : Type*) where
  | core (i : ActorCore.Input A W)
  | addmsg (a : A) (msgptr : Option μ)
  | snapshot (w : W)
  | iterate (w : W)

/-- What is observed: the posts of the scan, and what happens in the mailbox of an actor. -/
inductive Event (A μ : Type*) where
  | posted (a : A) (ts : ℤ)
  | mailbox (a : A) (e : Mailbox.Event μ)
  deriving DecidableEq

variable [DecidableEq A] [DecidableEq W]

/-- A worker goes on with its tick. -/
def setTick (s : ActorSystem A W μ) (w : W) (tick : Tick μ) : ActorSystem A W μ :=
  { s with tick := Function.update s.tick w tick }

/-- A step of the scheduler. -/
def stepCore (mActorMap : List A) (tickInterval : A → ℤ) (s : ActorSystem A W μ)
    (i : ActorCore.Input A W) : Option (ActorSystem A W μ × List (Event A μ)) :=
  ((ActorCore.machine mActorMap tickInterval).next s.core i).map fun (core, o) =>
    ({ s with core := core }, o.map fun post => .posted post.1 post.2)

/-- The scheduler with the ticks of its workers; `ActorBase::tick` enters `handle_all_msg` once
it has set the state, and ends when the copy of the messages is handled. -/
def machine (mActorMap : List A) (tickInterval : A → ℤ) :
    Machine (ActorSystem A W μ) (Input A W μ) (Event A μ) where
  next s
    | .core (.tick w) => (s.setTick w .entered).stepCore mActorMap tickInterval (.tick w)
    | .core (.endTick w) =>
        match s.core.worker w, s.tick w with
        | .ticking a, .handling [] =>
            ((s.setTick w .idle).stepCore mActorMap tickInterval (.endTick w)).map fun (t, _) =>
              (t, [.mailbox a .ticked])
        | _, _ => none
    | .core i => s.stepCore mActorMap tickInterval i
    | .addmsg a msgptr =>
        some ({ s with core := s.core.modify a (·.addmsg msgptr) }, [.mailbox a (.added msgptr)])
    | .snapshot w =>
        match s.core.worker w, s.tick w with
        | .ticking a, .entered =>
            some (s.setTick w (.handling (s.core.actor a).mMsgVec), [.mailbox a .snapshot])
        | _, _ => none
    | .iterate w =>
        match s.core.worker w, s.tick w with
        | .ticking a, .handling (some msg :: rest) =>
            some (s.setTick w (.handling rest), [.mailbox a (.handled msg)])
        | .ticking _, .handling (none :: rest) => some (s.setTick w (.handling rest), [])
        | _, _ => none

/-- Before `run` is called. -/
def launched (ts : A → ℤ) : ActorSystem A W μ := ⟨.launched ts, fun _ => .idle⟩

/-- The posts of the scan. -/
def Event.post : Event A μ → List (A × ℤ)
  | .posted a ts => [(a, ts)]
  | .mailbox _ _ => []

/-- What happens in the mailbox of `a`. -/
def Event.ofMailbox (a : A) : Event A μ → List (Mailbox.Event μ)
  | .posted _ _ => []
  | .mailbox b e => if b = a then [e] else []

end ActorSystem

/-! ### The scheduler's part -/

namespace ActorCore

variable {A W μ : Type*} {mActorMap : List A} {tickInterval : A → ℤ} {s u : ActorCore A W μ}
  {i : Input A W} {o : List (A × ℤ)} {a : A} {w w' : W}

/-- The scheduler without the messages of its actors. -/
def forget (s : ActorCore A W μ) : ActorCore A W μ :=
  { s with actor := fun a => { s.actor a with mMsgVec := [] } }

variable [DecidableEq A]

lemma forget_modify {f : ActorBase μ → ActorBase μ}
    (hf : ∀ b, { f b with mMsgVec := [] } = f { b with mMsgVec := [] }) :
    (s.modify a f).forget = s.forget.modify a f := by
  have hactor : (s.modify a f).forget.actor = (s.forget.modify a f).actor := by
    funext b
    by_cases hb : b = a
    · subst hb
      simp [forget, modify, hf]
    · simp [forget, modify, Function.update_of_ne hb]
  simp only [forget, modify] at hactor ⊢
  rw [hactor]

/-- Adding a message leaves all that the scheduler looks at. -/
lemma forget_addmsg (msgptr : Option μ) : (s.modify a (·.addmsg msgptr)).forget = s.forget := by
  have hactor : (s.modify a (·.addmsg msgptr)).forget.actor = s.forget.actor := by
    funext b
    by_cases hb : b = a
    · subst hb
      simp [forget, modify, ActorBase.addmsg]
    · simp [forget, modify, Function.update_of_ne hb]
  simp only [forget, modify] at hactor ⊢
  rw [hactor]

/-- **The scheduler does not depend on the messages.** -/
lemma next_forget [DecidableEq W] (hn : (machine mActorMap tickInterval).next s i = some (u, o)) :
    (machine mActorMap tickInterval).next s.forget i = some (u.forget, o) := by
  have hscan : s.forget.scan = s.scan := rfl
  have hpool : s.forget.pool = s.pool := rfl
  have hworker : s.forget.worker = s.worker := rfl
  cases i with
  | readyTick =>
      simp only [machine, hscan] at hn ⊢
      split at hn
      · next ts a rest heq =>
        have hready : (s.forget.actor a).readyTick (tickInterval a) ts =
            (s.actor a).readyTick (tickInterval a) ts := rfl
        rw [hready]
        split_ifs at hn ⊢
        · obtain ⟨rfl, rfl⟩ := Prod.mk.inj (Option.some.inj hn)
          rfl
        · obtain ⟨rfl, rfl⟩ := Prod.mk.inj (Option.some.inj hn)
          rfl
      · cases hn
  | now | post | endScan =>
      simp only [machine, hscan] at hn ⊢
      split at hn
      · obtain ⟨rfl, rfl⟩ := Prod.mk.inj (Option.some.inj hn)
        rfl
      · cases hn
  | setTicking | setLastTickTimestamp =>
      simp only [machine, hscan] at hn ⊢
      split at hn
      · obtain ⟨rfl, rfl⟩ := Prod.mk.inj (Option.some.inj hn)
        rw [← forget_modify fun _ => rfl]
        rfl
      · cases hn
  | start w a =>
      simp only [machine, hworker, hpool] at hn ⊢
      split_ifs at hn ⊢
      obtain ⟨rfl, rfl⟩ := Prod.mk.inj (Option.some.inj hn)
      rfl
  | endTick w =>
      simp only [machine, hworker] at hn ⊢
      split at hn
      · obtain ⟨rfl, rfl⟩ := Prod.mk.inj (Option.some.inj hn)
        rfl
      · cases hn
  | tick w | setReady w =>
      simp only [machine, hworker] at hn ⊢
      split at hn
      · obtain ⟨rfl, rfl⟩ := Prod.mk.inj (Option.some.inj hn)
        rw [← forget_modify fun _ => rfl]
        rfl
      · cases hn

/-- A step of the scheduler leaves the messages. -/
lemma mMsgVec_of_next [DecidableEq W]
    (hn : (machine mActorMap tickInterval).next s i = some (u, o)) (b : A) :
    (u.actor b).mMsgVec = (s.actor b).mMsgVec := by
  have hmodify : ∀ (f : ActorBase μ → ActorBase μ) (a : A), (∀ c, (f c).mMsgVec = c.mMsgVec) →
      ((s.modify a f).actor b).mMsgVec = (s.actor b).mMsgVec := by
    intro f a hf
    by_cases hb : b = a
    · subst hb
      simp [modify, hf]
    · simp [modify, Function.update_of_ne hb]
  cases step_of_next hn with
  | now | checked | passed | posted | ended | started | ticked => rfl
  | marked | ticking => exact hmodify (·.setState stateTicking) _ fun _ => rfl
  | @stamped ts => exact hmodify (·.setLastTickTimestamp ts) _ fun _ => rfl
  | released => exact hmodify (·.setState stateReadyTick) _ fun _ => rfl

/-- A worker starts and ends its tick in steps of its own. -/
lemma ticking_of_next [DecidableEq W]
    (hn : (machine mActorMap tickInterval).next s i = some (u, o)) (htick : i ≠ .tick w)
    (hend : i ≠ .endTick w) : u.worker w = .ticking a ↔ s.worker w = .ticking a := by
  cases i with
  | start w' b =>
      simp only [machine] at hn
      split_ifs at hn with hstart
      obtain ⟨rfl, -⟩ := Prod.mk.inj (Option.some.inj hn)
      by_cases hw : w = w'
      · subst hw
        simp [assign, hstart.1]
      · simp [assign, Function.update_of_ne hw]
  | tick w' | endTick w' =>
      have hw : w ≠ w' := by
        rintro rfl
        contradiction
      simp only [machine] at hn
      split at hn
      · obtain ⟨rfl, -⟩ := Prod.mk.inj (Option.some.inj hn)
        simp [assign, modify, Function.update_of_ne hw]
      · cases hn
  | setReady w' =>
      simp only [machine] at hn
      split at hn
      · next b hb =>
        obtain ⟨rfl, -⟩ := Prod.mk.inj (Option.some.inj hn)
        by_cases hw : w = w'
        · subst hw
          simp [assign, hb]
        · simp [assign, modify, Function.update_of_ne hw]
      · cases hn
  | readyTick =>
      simp only [machine] at hn
      split at hn
      · split_ifs at hn
        all_goals
          obtain ⟨rfl, -⟩ := Prod.mk.inj (Option.some.inj hn)
          exact Iff.rfl
      · cases hn
  | now | setTicking | setLastTickTimestamp | post | endScan =>
      simp only [machine] at hn
      split at hn
      · obtain ⟨rfl, -⟩ := Prod.mk.inj (Option.some.inj hn)
        exact Iff.rfl
      · cases hn

section Workers

variable [Fintype W] [DecidableEq W]

omit [DecidableEq W] in
/-- Two workers are not busy with one actor. -/
lemma Balanced.unique (h : Balanced s) (hw : (s.worker w).task = some a)
    (hw' : (s.worker w').task = some a) : w = w' := by
  have hone : busy s.worker a ≤ 1 := by
    have hflight := (h.of_busy hw).1
    rw [inFlight] at hflight
    omega
  exact Finset.card_le_one.mp hone w (by simp [hw]) w' (by simp [hw'])

omit [DecidableEq W] in
/-- The balance does not depend on the messages. -/
lemma Balanced.of_forget (h : Balanced s) (hu : u.forget = s.forget) : Balanced u := by
  have hscan : u.scan = s.scan := congrArg (·.scan) hu
  have hpool : u.pool = s.pool := congrArg (·.pool) hu
  have hworker : u.worker = s.worker := congrArg (·.worker) hu
  have hstate : ∀ a, (u.actor a).mState = (s.actor a).mState := fun a =>
    congrArg (fun t => (t.actor a).mState) hu
  refine ⟨fun a => ?_, fun ts a rest heq => ?_⟩
  · rw [inFlight, hpool, hworker, hscan, hstate]
    exact h.tally a
  · rw [hstate]
    exact h.checked ts a rest (hscan ▸ heq)

end Workers

end ActorCore

/-! ### The copies of a mailbox -/

namespace Mailbox

variable {μ : Type*} {vec : List (Option μ)} {os o : List (Event μ)} {s : Mailbox μ} {ts : ℤ}
  {is : List (Input μ)}

/-- What the ticks take copies of, with `vec` added before: the non-null messages there are. -/
def copies (vec : List (Option μ)) : List (Event μ) → List (List μ)
  | [] => []
  | .added msgptr :: os => copies (vec ++ [msgptr]) os
  | .snapshot :: os => vec.reduceOption :: copies vec os
  | .handled _ :: os => copies vec os
  | .ticked :: os => copies vec os

lemma copies_append : copies vec (os ++ o) = copies vec os ++ copies (vec ++ added os) o := by
  induction os generalizing vec with
  | nil => simp [copies, added]
  | cons e os ih => cases e <;> simp [copies, added, ih]

lemma copies_eq_nil (h : .snapshot ∉ o) : copies vec o = [] := by
  induction o generalizing vec with
  | nil => rfl
  | cons e o ih =>
      obtain ⟨hne, hrest⟩ := not_or.mp (mt List.mem_cons.mpr h)
      cases e with
      | snapshot => exact absurd rfl hne
      | added | handled | ticked => exact ih hrest

/-- **What was handled and is still to be handled of the last copy is all copies in turn.** -/
lemma handled_eq (hrun : machine.Run (built ts) is os s) :
    handled os ++ s.pending = (copies [] os).flatten ∧
      s.pending <:+ (copies [] os).getLastD [] := by
  have hall : s.actor.mMsgVec = added os ∧ handled os ++ s.pending = (copies [] os).flatten ∧
      s.pending <:+ (copies [] os).getLastD [] := by
    refine hrun.invariant (I := fun os t => t.actor.mMsgVec = added os ∧
      handled os ++ t.pending = (copies [] os).flatten ∧ t.pending <:+ (copies [] os).getLastD [])
      ⟨rfl, rfl, List.suffix_rfl⟩ fun os t i u o ⟨hadded, hall, hlast⟩ hn => ?_
    obtain ⟨hvec, hcases⟩ := step_spec hn
    rw [copies_append, List.flatten_append, ← hall, handled_append]
    rcases hcases with ⟨rfl, hnone, hcopy⟩ | ⟨hnone, hpending, -⟩
    · refine ⟨by rw [added_append, ← hadded, hvec], ?_, ?_⟩
      · simp [copies, handled, hnone, hcopy, hadded]
      · simp [copies, hcopy, hadded]
    · rw [copies_eq_nil hnone, hpending]
      refine ⟨by rw [added_append, ← hadded, hvec], by simp, ?_⟩
      rw [List.append_nil]
      exact (hpending ▸ List.suffix_append (handled o) u.pending).trans hlast
  exact hall.2

end Mailbox

/-! ### The mailboxes' parts -/

namespace ActorSystem

open ActorCore

variable {A W μ : Type*} [DecidableEq A] [DecidableEq W] {mActorMap : List A}
  {tickInterval : A → ℤ} {s u : ActorSystem A W μ} {i : Input A W μ} {o os : List (Event A μ)}
  {is : List (Input A W μ)} {ts : A → ℤ} {a : A} {m : Mailbox μ}

/-- The parts of a step of the scheduler. -/
lemma exists_of_stepCore {j : ActorCore.Input A W}
    (hn : s.stepCore mActorMap tickInterval j = some (u, o)) :
    ∃ core p, (ActorCore.machine mActorMap tickInterval).next s.core j = some (core, p) ∧
      u = { s with core := core } ∧ o = p.map fun post => .posted post.1 post.2 := by
  obtain ⟨⟨core, p⟩, hcore, heq⟩ := Option.map_eq_some_iff.mp hn
  obtain ⟨rfl, rfl⟩ := Prod.mk.inj heq
  exact ⟨core, p, hcore, rfl, rfl⟩

@[simp] lemma ofMailbox_posts (p : List (A × ℤ)) :
    (p.map fun post => (.posted post.1 post.2 : Event A μ)).flatMap (Event.ofMailbox a) = [] := by
  simp [List.flatMap_map, Event.ofMailbox]

omit [DecidableEq A] in
@[simp] lemma post_posts (p : List (A × ℤ)) :
    (p.map fun post => (.posted post.1 post.2 : Event A μ)).flatMap Event.post = p := by
  simp [List.flatMap_map, Event.post]

/-- A mailbox stands where the tick of its actor does. -/
structure Sees (s : ActorSystem A W μ) (a : A) (m : Mailbox μ) : Prop where
  vec : m.actor.mMsgVec = (s.core.actor a).mMsgVec
  ticking : ∀ w, s.core.worker w = .ticking a → m.tick = s.tick w
  idle : (∀ w, s.core.worker w ≠ .ticking a) → m.tick = .idle

omit [DecidableEq A] [DecidableEq W] in
/-- A step that is none of the actor's. -/
lemma Sees.of_same (h : Sees s a m)
    (hvec : (u.core.actor a).mMsgVec = (s.core.actor a).mMsgVec)
    (hworker : ∀ w, u.core.worker w = .ticking a ↔ s.core.worker w = .ticking a)
    (htick : ∀ w, s.core.worker w = .ticking a → u.tick w = s.tick w) : Sees u a m :=
  ⟨h.vec.trans hvec.symm,
    fun w hw => (h.ticking w ((hworker w).mp hw)).trans (htick w ((hworker w).mp hw)).symm,
    fun hnone => h.idle fun w hw => hnone w ((hworker w).mpr hw)⟩

omit [DecidableEq A] in
/-- A worker goes on with the tick of another actor. -/
lemma Sees.setTick_of_ne {w : W} {tick : Tick μ} (h : Sees s a m)
    (hw : s.core.worker w ≠ .ticking a) : Sees (s.setTick w tick) a m := by
  refine h.of_same rfl (fun _ => Iff.rfl) fun w' hw' => ?_
  have hne : w' ≠ w := by
    rintro rfl
    exact hw hw'
  simp [setTick, Function.update_of_ne hne]

section Workers

variable [Fintype W]

/-- The worker that ticks an actor goes on with its tick. -/
lemma Sees.setTick_self {w : W} {tick : Tick μ} {b : ActorBase μ} (h : Sees s a m)
    (hb : Balanced s.core) (hw : s.core.worker w = .ticking a)
    (hvec : b.mMsgVec = m.actor.mMsgVec) : Sees (s.setTick w tick) a ⟨b, tick⟩ := by
  refine ⟨hvec.trans h.vec, fun w' hw' => ?_, fun hnone => absurd hw (hnone w)⟩
  have hsame : w' = w := by
    refine hb.unique (a := a) ?_ ?_
    · rw [show s.core.worker w' = .ticking a from hw']
      rfl
    · rw [hw]
      rfl
  subst hsame
  simp [setTick]

/-- A worker enters the tick of its actor. -/
lemma Sees.enter {w : W} {core : ActorCore A W μ} {p : List (A × ℤ)} (h : Sees s a m)
    (hb : Balanced s.core)
    (hcore : (ActorCore.machine mActorMap tickInterval).next s.core (.tick w) = some (core, p)) :
    ∃ js m', Mailbox.machine.Run m js [] m' ∧
      Sees { s.setTick w .entered with core := core } a m' := by
  have hvec := mMsgVec_of_next hcore a
  have hother : ∀ w' ≠ w, core.worker w' = s.core.worker w' := by
    intro w' hw'
    simp only [ActorCore.machine] at hcore
    split at hcore
    · obtain ⟨rfl, -⟩ := Prod.mk.inj (Option.some.inj hcore)
      simp [assign, ActorCore.modify, Function.update_of_ne hw']
    · cases hcore
  obtain ⟨b, hstarted, hticking⟩ :
      ∃ b, s.core.worker w = .started b ∧ core.worker w = .ticking b := by
    simp only [ActorCore.machine] at hcore
    split at hcore
    · next b hw =>
      obtain ⟨rfl, -⟩ := Prod.mk.inj (Option.some.inj hcore)
      exact ⟨b, hw, by simp [assign]⟩
    · cases hcore
  by_cases hba : b = a
  · subst hba
    have hnone : ∀ w', s.core.worker w' ≠ .ticking b := by
      intro w' hw'
      have hsame : w' = w :=
        hb.unique (a := b) (by rw [hw']; rfl) (by rw [hstarted]; rfl)
      rw [hsame, hstarted] at hw'
      cases hw'
    have hnext : Mailbox.machine.next m .enter =
        some (⟨m.actor.setState stateTicking, .entered⟩, []) := by
      simp [Mailbox.machine, h.idle hnone]
    refine ⟨[.enter], _, .cons hnext .nil, h.vec.trans hvec.symm, fun w' hw' => ?_,
      fun hno => absurd hticking (hno w)⟩
    by_cases hww : w' = w
    · subst hww
      simp [setTick]
    · exact absurd ((hother w' hww).symm.trans hw') (hnone w')
  · refine ⟨[], m, .nil, h.of_same hvec (fun w' => ?_) fun w' hw' => ?_⟩
    · by_cases hww : w' = w
      · subst hww
        simp [hstarted, hticking, hba]
      · exact iff_of_eq (congrArg (· = _) (hother w' hww))
    · have hww : w' ≠ w := by
        rintro rfl
        rw [hstarted] at hw'
        cases hw'
      simp [setTick, Function.update_of_ne hww]

/-- A worker leaves the tick of its actor. -/
lemma Sees.leave {w : W} {b : A} {core : ActorCore A W μ} {p : List (A × ℤ)} (h : Sees s a m)
    (hb : Balanced s.core) (hw : s.core.worker w = .ticking b) (htick : s.tick w = .handling [])
    (hcore : (ActorCore.machine mActorMap tickInterval).next s.core (.endTick w) =
      some (core, p)) :
    ∃ js m', Mailbox.machine.Run m js (if b = a then [.ticked] else []) m' ∧
      Sees { s.setTick w .idle with core := core } a m' := by
  have hvec := mMsgVec_of_next hcore a
  obtain ⟨rfl, -⟩ : s.core.assign w (.ticked b) = core ∧ [] = p := by
    simpa [ActorCore.machine, hw] using hcore
  have hother : ∀ w' ≠ w, (s.core.assign w (.ticked b)).worker w' = s.core.worker w' :=
    fun w' hw' => by simp [assign, Function.update_of_ne hw']
  by_cases hba : b = a
  · subst hba
    have hhandled := (h.ticking w hw).trans htick
    have hnext : Mailbox.machine.next m .leave = some (⟨m.actor, .idle⟩, [.ticked]) := by
      simp [Mailbox.machine, hhandled]
    rw [if_pos rfl]
    refine ⟨[.leave], _, .cons hnext .nil, h.vec.trans hvec.symm, fun w' hw' => ?_, fun _ => rfl⟩
    by_cases hww : w' = w
    · subst hww
      simp [assign] at hw'
    · have hold := (hother w' hww).symm.trans hw'
      exact absurd (hb.unique (a := b) (by rw [hold]; rfl) (by rw [hw]; rfl)) hww
  · rw [if_neg hba]
    refine ⟨[], m, .nil, h.of_same hvec (fun w' => ?_) fun w' hw' => ?_⟩
    · by_cases hww : w' = w
      · subst hww
        simp [assign, hw, hba]
      · exact iff_of_eq (congrArg (· = _) (hother w' hww))
    · have hww : w' ≠ w := by
        rintro rfl
        rw [hw] at hw'
        exact hba (Worker.ticking.inj hw')
      simp [setTick, Function.update_of_ne hww]

/-- **One step of the system, and of each mailbox.** -/
lemma Sees.step (h : Sees s a m) (hb : Balanced s.core)
    (hn : (machine mActorMap tickInterval).next s i = some (u, o)) :
    ∃ js m', Mailbox.machine.Run m js (o.flatMap (Event.ofMailbox a)) m' ∧ Sees u a m' := by
  cases i with
  | addmsg b msgptr =>
      obtain ⟨rfl, rfl⟩ := Prod.mk.inj (Option.some.inj hn)
      by_cases hba : b = a
      · subst hba
        have hnext : Mailbox.machine.next m (.addmsg msgptr) =
            some (⟨m.actor.addmsg msgptr, m.tick⟩, [.added msgptr]) := by
          simp [Mailbox.machine]
        refine ⟨[.addmsg msgptr], ⟨m.actor.addmsg msgptr, m.tick⟩,
          by simpa [Event.ofMailbox] using Run.cons hnext .nil, ?_, h.ticking, h.idle⟩
        simp [ActorCore.modify, ActorBase.addmsg, h.vec]
      · refine ⟨[], m, by simpa [Event.ofMailbox, hba] using Run.nil, ?_⟩
        exact h.of_same (by simp [ActorCore.modify, Function.update_of_ne (Ne.symm hba)])
          (fun _ => Iff.rfl) fun _ _ => rfl
  | snapshot w =>
      simp only [machine] at hn
      split at hn
      · next b hw htick =>
        obtain ⟨rfl, rfl⟩ := Prod.mk.inj (Option.some.inj hn)
        by_cases hba : b = a
        · subst hba
          have hentered := (h.ticking w hw).trans htick
          rw [← h.vec]
          refine ⟨[.snapshot], ⟨m.actor, .handling m.actor.mMsgVec⟩, ?_,
            h.setTick_self hb hw rfl⟩
          have hnext : Mailbox.machine.next m .snapshot =
              some (⟨m.actor, .handling m.actor.mMsgVec⟩, [.snapshot]) := by
            simp [Mailbox.machine, hentered]
          simpa [Event.ofMailbox] using Run.cons hnext .nil
        · refine ⟨[], m, by simpa [Event.ofMailbox, hba] using Run.nil, h.setTick_of_ne ?_⟩
          rw [hw]
          exact fun heq => hba (Worker.ticking.inj heq)
      · cases hn
  | iterate w =>
      simp only [machine] at hn
      split at hn
      · next b msg rest hw htick =>
        obtain ⟨rfl, rfl⟩ := Prod.mk.inj (Option.some.inj hn)
        by_cases hba : b = a
        · subst hba
          have hhandling := (h.ticking w hw).trans htick
          have hnext : Mailbox.machine.next m .iterate =
              some (⟨m.actor, .handling rest⟩, [.handled msg]) := by
            simp [Mailbox.machine, hhandling]
          exact ⟨[.iterate], ⟨m.actor, .handling rest⟩,
            by simpa [Event.ofMailbox] using Run.cons hnext .nil, h.setTick_self hb hw rfl⟩
        · refine ⟨[], m, by simpa [Event.ofMailbox, hba] using Run.nil, h.setTick_of_ne ?_⟩
          rw [hw]
          exact fun heq => hba (Worker.ticking.inj heq)
      · next b rest hw htick =>
        obtain ⟨rfl, rfl⟩ := Prod.mk.inj (Option.some.inj hn)
        by_cases hba : b = a
        · subst hba
          have hhandling := (h.ticking w hw).trans htick
          have hnext : Mailbox.machine.next m .iterate = some (⟨m.actor, .handling rest⟩, []) := by
            simp [Mailbox.machine, hhandling]
          exact ⟨[.iterate], ⟨m.actor, .handling rest⟩, .cons hnext .nil,
            h.setTick_self hb hw rfl⟩
        · refine ⟨[], m, .nil, h.setTick_of_ne ?_⟩
          rw [hw]
          exact fun heq => hba (Worker.ticking.inj heq)
      · cases hn
  | core j =>
      cases j with
      | tick w =>
          obtain ⟨core, p, hcore, rfl, rfl⟩ := exists_of_stepCore hn
          rw [ofMailbox_posts]
          exact h.enter hb hcore
      | endTick w =>
          simp only [machine] at hn
          split at hn
          · next b hw htick =>
            obtain ⟨⟨t, o'⟩, hstep, heq⟩ := Option.map_eq_some_iff.mp hn
            obtain ⟨rfl, rfl⟩ := Prod.mk.inj heq
            obtain ⟨core, p, hcore, rfl, -⟩ := exists_of_stepCore hstep
            simpa [Event.ofMailbox] using h.leave hb hw htick hcore
          · cases hn
      | now | readyTick | setTicking | setLastTickTimestamp | post | endScan | start | setReady =>
          obtain ⟨core, p, hcore, rfl, rfl⟩ := exists_of_stepCore hn
          rw [ofMailbox_posts]
          exact ⟨[], m, .nil, h.of_same (mMsgVec_of_next hcore a)
            (fun w => ticking_of_next hcore (by simp) (by simp)) fun _ _ => rfl⟩

/-! ### Runs -/

omit [Fintype W] in
/-- A step of the system is one of the scheduler, or one it does not see. -/
lemma forget_of_next (hn : (machine mActorMap tickInterval).next s i = some (u, o)) :
    (∃ j, (ActorCore.machine mActorMap tickInterval).next s.core j =
        some (u.core, o.flatMap Event.post)) ∨
      o.flatMap Event.post = [] ∧ u.core.forget = s.core.forget := by
  cases i with
  | addmsg b msgptr =>
      obtain ⟨rfl, rfl⟩ := Prod.mk.inj (Option.some.inj hn)
      exact .inr ⟨rfl, forget_addmsg msgptr⟩
  | snapshot w =>
      simp only [machine] at hn
      split at hn
      · obtain ⟨rfl, rfl⟩ := Prod.mk.inj (Option.some.inj hn)
        exact .inr ⟨rfl, rfl⟩
      · cases hn
  | iterate w =>
      simp only [machine] at hn
      split at hn
      · obtain ⟨rfl, rfl⟩ := Prod.mk.inj (Option.some.inj hn)
        exact .inr ⟨rfl, rfl⟩
      · obtain ⟨rfl, rfl⟩ := Prod.mk.inj (Option.some.inj hn)
        exact .inr ⟨rfl, rfl⟩
      · cases hn
  | core j =>
      cases j with
      | endTick w =>
          simp only [machine] at hn
          split at hn
          · next b hw htick =>
            obtain ⟨⟨t, o'⟩, hstep, heq⟩ := Option.map_eq_some_iff.mp hn
            obtain ⟨rfl, rfl⟩ := Prod.mk.inj heq
            obtain ⟨core, p, hcore, rfl, -⟩ := exists_of_stepCore hstep
            obtain ⟨-, rfl⟩ : s.core.assign w (.ticked b) = core ∧ [] = p := by
              simpa [ActorCore.machine, setTick, hw] using hcore
            exact .inl ⟨.endTick w, hcore⟩
          · cases hn
      | tick | now | readyTick | setTicking | setLastTickTimestamp | post | endScan | start
        | setReady =>
          obtain ⟨core, p, hcore, rfl, rfl⟩ := exists_of_stepCore hn
          rw [post_posts]
          exact .inl ⟨_, hcore⟩

lemma balanced_step (hb : Balanced s.core)
    (hn : (machine mActorMap tickInterval).next s i = some (u, o)) : Balanced u.core := by
  rcases forget_of_next hn with ⟨j, hcore⟩ | ⟨-, hsame⟩
  · exact hb.step (step_of_next hcore)
  · exact hb.of_forget hsame

/-- **A run of the system is one of each of its parts**: of the scheduler, which makes the same
posts whatever the messages, and, for each actor, of its mailbox. -/
theorem parts_of_run
    (hrun : (machine mActorMap tickInterval).Run (launched ts : ActorSystem A W μ) is os s) :
    (∃ js, (ActorCore.machine mActorMap tickInterval).Run (ActorCore.launched ts) js
        (os.flatMap Event.post) s.core.forget) ∧
      ∀ a, ∃ js m, Mailbox.machine.Run (.built (ts a)) js (os.flatMap (Event.ofMailbox a)) m ∧
        Sees s a m := by
  constructor
  · have hproject := hrun.project (N := ActorCore.machine mActorMap tickInterval)
      (R := fun s t => s.core.forget = t) (g := Event.post) rfl ?_
    · obtain ⟨js, t, hcore, rfl⟩ := hproject
      exact ⟨js, hcore⟩
    · rintro t i u o q rfl hn
      rcases forget_of_next hn with ⟨j, hcore⟩ | ⟨hnone, hsame⟩
      · exact ⟨[j], _, by simpa using Run.cons (next_forget hcore) .nil, rfl⟩
      · rw [hnone]
        exact ⟨[], _, .nil, hsame⟩
  · intro a
    have hproject := hrun.project (N := Mailbox.machine) (p := .built (ts a))
      (R := fun s m => Sees s a m ∧ Balanced s.core) (g := Event.ofMailbox a) ?_ ?_
    · obtain ⟨js, m, hmailbox, hsees, -⟩ := hproject
      exact ⟨js, m, hmailbox, hsees⟩
    · exact ⟨⟨rfl, fun w hw => (nomatch hw), fun _ => rfl⟩, balanced_launched ts⟩
    · rintro t i u o m ⟨hsees, hb⟩ hn
      obtain ⟨js, m', hmailbox, hsees'⟩ := hsees.step hb hn
      exact ⟨js, m', hmailbox, hsees', balanced_step hb hn⟩

/-- The inputs of a tick of the one actor by the one worker, with `msgs` handled. -/
def tickOnce (now : ℤ) (msgs : ℕ) : List (Input Unit Unit ℕ) :=
  [.core (.now now), .core .readyTick, .core .setTicking, .core .setLastTickTimestamp,
    .core .post, .core .endScan, .core (.start () ()), .core (.tick ()), .snapshot ()] ++
    List.replicate msgs (.iterate ()) ++ [.core (.endTick ()), .core (.setReady ())]

/-- One actor with a message, ticked once. -/
theorem parts_of_run_once :
    ∃ os, ∃ s : ActorSystem Unit Unit ℕ,
      (machine [()] fun _ => 100).Run (launched fun _ => 0)
        (.addmsg () (some 5) :: tickOnce 100 1) os s ∧
      ∃ js, (ActorCore.machine [()] fun _ => 100).Run (ActorCore.launched fun _ => 0) js
        [((), 100)] s.core.forget := by
  obtain ⟨os, s, hrun, hposts⟩ : ∃ os, ∃ s : ActorSystem Unit Unit ℕ,
      (machine [()] fun _ => 100).Run (launched fun _ => 0)
        (.addmsg () (some 5) :: tickOnce 100 1) os s ∧ os.flatMap Event.post = [((), 100)] :=
    ⟨_, _, run_iff_exec.mpr rfl, rfl⟩
  exact ⟨os, s, hrun, hposts ▸ (parts_of_run hrun).1⟩

/-- **What an actor handles**: in each tick, one after the other, all the messages added until
it took its copy, those of earlier ticks again; nothing takes a message out. What is still to be
handled is the rest of the last copy. -/
theorem handled_eq_copies
    (hrun : (machine mActorMap tickInterval).Run (launched ts : ActorSystem A W μ) is os s)
    (a : A) :
    (s.core.actor a).mMsgVec = Mailbox.added (os.flatMap (Event.ofMailbox a)) ∧
      ∃ pending, Mailbox.handled (os.flatMap (Event.ofMailbox a)) ++ pending =
          (Mailbox.copies [] (os.flatMap (Event.ofMailbox a))).flatten ∧
        pending <:+ (Mailbox.copies [] (os.flatMap (Event.ofMailbox a))).getLastD [] ∧
        ((∀ w, s.core.worker w ≠ .ticking a) → pending = []) := by
  obtain ⟨js, m, hmailbox, hsees⟩ := (parts_of_run hrun).2 a
  obtain ⟨hall, hlast⟩ := Mailbox.handled_eq hmailbox
  refine ⟨hsees.vec ▸ Mailbox.vec_eq_added hmailbox, m.pending, hall, hlast, fun hnone => ?_⟩
  rw [Mailbox.pending, hsees.idle hnone]

/-- Two ticks, the second with one more message. -/
theorem handled_eq_copies_twice :
    ∃ os, ∃ s : ActorSystem Unit Unit ℕ,
      (machine [()] fun _ => 100).Run (launched fun _ => 0)
        (.addmsg () (some 5) :: tickOnce 100 1 ++ .addmsg () (some 7) :: tickOnce 200 2) os s ∧
      Mailbox.handled (os.flatMap (Event.ofMailbox ())) = [5, 5, 7] ∧
      (s.core.actor ()).mMsgVec = [some 5, some 7] := by
  obtain ⟨os, s, hrun, hhandled, hadded⟩ : ∃ os, ∃ s : ActorSystem Unit Unit ℕ,
      (machine [()] fun _ => 100).Run (launched fun _ => 0)
        (.addmsg () (some 5) :: tickOnce 100 1 ++ .addmsg () (some 7) :: tickOnce 200 2) os s ∧
      Mailbox.handled (os.flatMap (Event.ofMailbox ())) = [5, 5, 7] ∧
      Mailbox.added (os.flatMap (Event.ofMailbox ())) = [some 5, some 7] :=
    ⟨_, _, run_iff_exec.mpr rfl, rfl, rfl⟩
  exact ⟨os, s, hrun, hhandled, (handled_eq_copies hrun ()).1.trans hadded⟩

end Workers

end ActorSystem

end Xsix

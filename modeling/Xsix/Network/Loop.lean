import Xsix.Network.Server

/-!
What keeps a server going, and what ends it.

* `listening_iff`: the server listens throughout a run after `start` exactly if no accept
  fails while the acceptor is open.
* `honoured_iff`: stops are honoured in a run, and will be whatever comes after it, exactly if
  no `stop` returns while `loop` is running and the acceptor is open.
-/

namespace Xsix

namespace TCPServer

open Machine

variable {s t u : TCPServer} {i : Input} {is is' : List Input} {o os os' : List Event}

/-! ### The chain of accepts -/

/-- How many accept handlers are being executed. -/
def handling (s : TCPServer) : ℕ :=
  match s.phase with
  | .accepted _ | .rearming => 1
  | _ => 0

/-- While no accept handler is executed and the acceptor is open, exactly one accept is
outstanding. -/
def Listening (s : TCPServer) : Prop :=
  s.handling = 0 → s.acceptorOpen = true → s.accepting.length = 1

/-- The server once `start` was called: it is not called again. -/
def serving : Machine TCPServer Input Event := machine.restrict fun _ i => i ≠ .start

/-- The input does not complete an accept with an error while the acceptor is open. -/
def NoRefusal (s : TCPServer) (i : Input) : Prop :=
  ∀ c : ℕ, i = .complete c false → s.acceptorOpen = false

/-- The handler that is executed counts for the accept it is to issue. -/
def Chained (s : TCPServer) : Prop :=
  s.acceptorOpen = true → s.accepting.length + s.handling = 1

lemma Chained.listening (h : Chained s) : Listening s := by
  intro hidle hopen
  have hsum := h hopen
  omega

/-- Nothing is outstanding and no handler is executed. -/
def Idle (s : TCPServer) : Prop := s.accepting = [] ∧ s.handling = 0

lemma Idle.step (h : Idle s) (hn : serving.next s i = some (u, o)) :
    Idle u ∧ ∀ c : ℕ, .accepted c ∉ o := by
  obtain ⟨hi, hn⟩ := restrict_next_iff.mp hn
  obtain ⟨hnone, hidle⟩ := h
  cases step_of_next hn with
  | armed => exact absurd rfl hi
  | accepted _ hmem => simp [hnone] at hmem
  | refused _ hmem => simp [hnone] at hmem
  | started h => simp [handling, h] at hidle
  | rearmed h => simp [handling, h] at hidle
  | stopped | closed | acceptorClosed => exact ⟨⟨hnone, hidle⟩, by simp⟩
  | called | scanned | quit | passed | polled | left | ticked | foundClosed | scanEnded
    | removed | iterated => exact ⟨⟨hnone, rfl⟩, by simp⟩

/-- Once nothing is outstanding, nobody is accepted any more. -/
lemma Idle.run (h : Idle s) (hrun : serving.Run s is os t) :
    Idle t ∧ ∀ c : ℕ, .accepted c ∉ os := by
  have hall := hrun.forall_events (I := Idle) (C := fun _ => True)
    (P := fun e => ∀ c : ℕ, e ≠ .accepted c) (fun _ _ => trivial) h ?_
  · exact ⟨hall.1, fun c hmem => hall.2 _ hmem c rfl⟩
  · intro t i u o ht hn _
    obtain ⟨hu, hnone⟩ := ht.step hn
    refine ⟨hu, ?_⟩
    rintro e he c rfl
    exact hnone c he

/-- `start` issues the first accept. -/
lemma Idle.chained_start (h : Idle s) : Chained s.asyncAccept := by
  intro _
  have hone : s.asyncAccept.accepting.length = 1 := by simp [asyncAccept, h.1]
  have hsame : s.asyncAccept.handling = 0 := h.2
  omega

/-- **One step of the chain**: a link that does not fail leaves one accept
outstanding. -/
lemma Chained.step (h : Chained s) (hn : serving.next s i = some (u, o)) (hok : NoRefusal s i) :
    Chained u := by
  obtain ⟨hi, hn⟩ := restrict_next_iff.mp hn
  intro hopen
  cases step_of_next hn with
  | armed => exact absurd rfl hi
  | @accepted c hphase hmem =>
      have hsum := h hopen
      have hlen := List.length_erase_add_one hmem
      simp only [handling, hphase] at hsum
      simpa [handling] using hlen.trans hsum
  | @refused c hphase hmem =>
      have hclosed : s.acceptorOpen = false := hok c rfl
      exact absurd (hclosed.symm.trans hopen) Bool.false_ne_true
  | rearmed hphase =>
      have hsum := h hopen
      simp only [handling, hphase] at hsum
      simpa [handling, asyncAccept] using hsum
  | stopped | closed => exact h hopen
  | acceptorClosed => exact absurd hopen Bool.false_ne_true
  | called hphase | scanned hphase | quit hphase | passed hphase | polled hphase | left hphase
    | started hphase | ticked hphase | foundClosed hphase | scanEnded hphase | removed hphase
    | iterated hphase =>
      have hsum := h hopen
      simpa [handling, hphase] using hsum

/-- A refused accept leaves the server deaf. -/
lemma Listening.noRefusal (h : Listening s) (hn : serving.next s i = some (u, o))
    (hu : Listening u) : NoRefusal s i := by
  obtain ⟨-, hn⟩ := restrict_next_iff.mp hn
  rintro c rfl
  by_contra hopen
  rw [Bool.not_eq_false] at hopen
  cases step_of_next hn with
  | refused hphase hmem =>
      have hone : s.accepting.length = 1 := h (by simp [handling, hphase]) hopen
      have hone' : (s.accepting.erase c).length = 1 := hu (by simp [handling, hphase]) hopen
      have hlen := List.length_erase_add_one hmem
      omega

/-- **When the server keeps accepting**: throughout a run after the call of `start`
exactly if no accept is completed with an error while the acceptor is open. -/
theorem listening_iff (hbefore : serving.Run built is os s)
    (hrun : serving.Run s.asyncAccept is' os' t) :
    (serving.Throughout s.asyncAccept is' fun _ u => Listening u) ↔
      serving.EachStep s.asyncAccept is' fun _ u i => NoRefusal u i := by
  have hidle : Idle s := (Idle.run ⟨rfl, rfl⟩ hbefore).1
  exact hrun.throughout_iff (I := fun _ u => Chained u) hidle.chained_start
    (fun _ _ h => h.listening) (fun _ _ _ _ _ h hn hok => h.step hn hok)
    fun _ _ _ _ _ h hn hu => h.noRefusal hn hu

/-- A server that is started before its loop; two clients connect and a third fails once
the acceptor is closed. -/
theorem listening_two :
    ∃ os u, serving.Run built.asyncAccept [.loop, .step, .step, .complete 0 true, .step, .step,
        .complete 1 true, .step, .step, .closeAcceptor, .complete 2 false] os u ∧
      Listening u ∧ u.table.members = [0, 1] := by
  obtain ⟨os, u, hrun, hmem⟩ : ∃ os u, serving.Run built.asyncAccept [.loop, .step, .step,
      .complete 0 true, .step, .step, .complete 1 true, .step, .step, .closeAcceptor,
      .complete 2 false] os u ∧ u.table.members = [0, 1] :=
    ⟨_, _, run_iff_exec.mpr rfl, by decide⟩
  have hok : serving.EachStep built.asyncAccept [.loop, .step, .step, .complete 0 true, .step,
      .step, .complete 1 true, .step, .step, .closeAcceptor, .complete 2 false]
      fun _ t i => NoRefusal t i := by
    iterate 10 refine eachStep_cons rfl (fun c hc => nomatch hc) ?_
    exact eachStep_cons rfl (fun _ _ => rfl) eachStep_nil
  exact ⟨os, u, hrun, (listening_iff .nil hrun).mpr hok _ _ _ List.prefix_rfl hrun, hmem⟩

/-- **One failed accept leaves the server deaf**, its acceptor open and its loop going:
nobody is accepted any more. -/
theorem deaf_after_refusal :
    ∃ os u, serving.Run built.asyncAccept [.loop, .step, .step, .complete 0 false] os u ∧
      u.acceptorOpen = true ∧ ¬ Listening u ∧
      ∀ is' os' t, serving.Run u is' os' t → ∀ c : ℕ, .accepted c ∉ os' :=
  ⟨_, _, run_iff_exec.mpr rfl, rfl, fun h => absurd (h rfl rfl) (by decide),
    fun _ _ _ hrun => (Idle.run ⟨rfl, rfl⟩ hrun).2⟩

/-! ### Stopping -/

/-- `stop` has returned since the last call of `loop`, and `loop` has begun an iteration
since. -/
def Overdue (os : List Event) : Prop :=
  ∃ os₁ os₂ os₃ : List Event,
    os = os₁ ++ .stopped :: (os₂ ++ .passed :: os₃) ∧ .called ∉ os₂ ++ os₃

/-- No iteration that began after a stop came to its body. -/
def Honoured (os : List Event) : Prop :=
  ∀ os₁ os₂ : List Event, os = os₁ ++ .polled :: os₂ → ¬ Overdue os₁

/-- A call of `stop` returns while `loop` is not running, or with the acceptor closed. -/
def Heeds (s : TCPServer) (i : Input) : Prop :=
  i = .stop → s.phase = .outside ∨ s.acceptorOpen = false

/-- The stops are honoured, and go on to be in whatever comes next without another one. -/
def Settled (os : List Event) (s : TCPServer) : Prop :=
  ∀ is' os' u, .stop ∉ is' → machine.Run s is' os' u → Honoured (os ++ os')

/-- `stop` has returned since the last call of `loop`. -/
def Stopped (os : List Event) : Prop :=
  ∃ os₁ os₂ : List Event, os = os₁ ++ .stopped :: os₂ ∧ .called ∉ os₂

lemma Overdue.stopped (h : Overdue os) : Stopped os := by
  obtain ⟨os₁, os₂, os₃, rfl, hnot⟩ := h
  exact ⟨os₁, os₂ ++ .passed :: os₃, rfl, by simpa using hnot⟩

lemma stopped_snoc_iff {e : Event} :
    Stopped (os ++ [e]) ↔ e = .stopped ∨ Stopped os ∧ e ≠ .called := by
  constructor
  · rintro ⟨os₁, os₂, heq, hnot⟩
    rcases List.eq_nil_or_concat os₂ with rfl | ⟨rest, e', rfl⟩
    · obtain ⟨-, hlast⟩ := List.append_inj' heq rfl
      exact .inl (List.singleton_inj.mp hlast)
    · have hinit : os ++ [e] = (os₁ ++ .stopped :: rest) ++ [e'] := by simpa using heq
      obtain ⟨rfl, hlast⟩ := List.append_inj' hinit rfl
      obtain rfl := List.singleton_inj.mp hlast
      simp only [List.concat_eq_append, List.mem_append, List.mem_singleton, not_or] at hnot
      exact .inr ⟨⟨os₁, rest, rfl, hnot.1⟩, Ne.symm hnot.2⟩
  · rintro (rfl | ⟨⟨os₁, os₂, rfl, hnot⟩, hne⟩)
    · exact ⟨os, [], rfl, List.not_mem_nil⟩
    · exact ⟨os₁, os₂ ++ [e], by simp, by simp [hnot, Ne.symm hne]⟩

/-- Nothing sets the flag. -/
lemma mQuit_eq_false (hrun : machine.Run built is os s) : s.mQuit = false := by
  refine hrun.preserves (I := fun s => s.mQuit = false) rfl fun t i u o ht hn => ?_
  cases step_of_next hn with
  | called | stopped => rfl
  | armed | accepted | refused | scanned | quit | passed | polled | left | started | rearmed
    | ticked | foundClosed | scanEnded | removed | iterated | closed | acceptorClosed => exact ht

lemma honoured_append_iff (h : .polled ∉ o) : Honoured (os ++ o) ↔ Honoured os := by
  constructor
  · intro hall os₁ os₂ heq
    exact hall os₁ (os₂ ++ o) (by simp [heq])
  · intro hall os₁ os₂ heq
    rcases List.append_eq_append_iff.mp heq with ⟨p, -, ho⟩ | ⟨p, hos, hp⟩
    · exact absurd (ho ▸ List.mem_append_right p List.mem_cons_self) h
    · cases p with
      | nil =>
          obtain rfl : .polled :: os₂ = o := hp
          exact absurd List.mem_cons_self h
      | cons e p =>
          obtain ⟨rfl, -⟩ := List.cons_eq_cons.mp hp
          exact hall os₁ p hos

lemma honoured_snoc_polled_iff : Honoured (os ++ [.polled]) ↔ Honoured os ∧ ¬ Overdue os := by
  constructor
  · intro hall
    refine ⟨fun os₁ os₂ heq => ?_, hall os [] rfl⟩
    exact hall os₁ (os₂ ++ [.polled]) (by simp [heq])
  · rintro ⟨hall, hlast⟩ os₁ os₂ heq
    rcases List.eq_nil_or_concat os₂ with rfl | ⟨rest, e, rfl⟩
    · obtain ⟨rfl, -⟩ := List.append_inj' heq rfl
      exact hlast
    · have hinit : os ++ [.polled] = (os₁ ++ .polled :: rest) ++ [e] := by simpa using heq
      obtain ⟨hos, -⟩ := List.append_inj' hinit rfl
      exact hall os₁ rest hos

/-- After a stop, `loop` has returned or is going to: the acceptor is closed. -/
structure Heeded (os : List Event) (s : TCPServer) : Prop where
  honoured : Honoured os
  ending : Stopped os → s.phase = .outside ∨ s.acceptorOpen = false

lemma heeded_built : Heeded [] built :=
  ⟨fun os₁ os₂ h => by simp at h, fun ⟨os₁, os₂, h, _⟩ => by simp at h⟩

/-- A step of a thread in `loop` that observes neither a call nor the poll. -/
lemma Heeded.of_running {e : Event} (h : Heeded os s) (hphase : s.phase ≠ .outside)
    (hopen : u.acceptorOpen = s.acceptorOpen) (hpolled : e ≠ .polled) (hstopped : e ≠ .stopped) :
    Heeded (os ++ [e]) u := by
  refine ⟨(honoured_append_iff (by simpa using hpolled.symm)).mpr h.honoured, fun hs => ?_⟩
  rcases stopped_snoc_iff.mp hs with rfl | ⟨hs, -⟩
  · exact absurd rfl hstopped
  · exact .inr (hopen.trans ((h.ending hs).resolve_left hphase))

/-- **One step** that does not stop a running `loop` with its acceptor open. -/
lemma Heeded.step (h : Heeded os s) (hn : machine.next s i = some (u, o)) (hheeds : Heeds s i) :
    Heeded (os ++ o) u := by
  cases step_of_next hn with
  | called =>
      refine ⟨(honoured_append_iff (by simp)).mpr h.honoured, fun hs => ?_⟩
      rcases stopped_snoc_iff.mp hs with he | ⟨-, he⟩
      · cases he
      · exact absurd rfl he
  | stopped => exact ⟨(honoured_append_iff (by simp)).mpr h.honoured, fun _ => hheeds rfl⟩
  | polled hphase hopen =>
      have hgoing : ¬ Stopped os := fun hs => by
        rcases h.ending hs with houtside | hclosed
        · cases hphase.symm.trans houtside
        · cases hopen.symm.trans hclosed
      refine ⟨honoured_snoc_polled_iff.mpr ⟨h.honoured, fun hover => hgoing hover.stopped⟩,
        fun hs => ?_⟩
      rcases stopped_snoc_iff.mp hs with he | ⟨hs, -⟩
      · cases he
      · exact absurd hs hgoing
  | quit hphase | left hphase =>
      refine ⟨(honoured_append_iff (by simp)).mpr h.honoured, fun _ => .inl rfl⟩
  | accepted hphase | refused hphase | scanned hphase | passed hphase | started hphase
    | ticked hphase | foundClosed hphase | removed hphase | iterated hphase =>
      exact h.of_running (by rw [hphase]; exact Phase.noConfusion) rfl (by simp) (by simp)
  | rearmed hphase | scanEnded hphase =>
      rw [List.append_nil]
      refine ⟨h.honoured, fun hs => .inr ((h.ending hs).resolve_left fun houtside => ?_)⟩
      cases hphase.symm.trans houtside
  | armed | closed =>
      rw [List.append_nil]
      exact ⟨h.honoured, h.ending⟩
  | acceptorClosed =>
      rw [List.append_nil]
      exact ⟨h.honoured, fun _ => .inr rfl⟩

lemma Heeded.settled (h : Heeded os s) : Settled os s := by
  intro is' os' u hnone hrun
  have hall : Heeded (os ++ os') u := by
    refine hrun.invariant_of_steps (I := fun o t => Heeded (os ++ o) t)
      (C := fun _ t i => Heeds t i) ?_ (by simpa using h) fun o t i v p ht hn hheeds => ?_
    · rintro js j p t hpre - rfl
      exact absurd (hpre.subset (by simp)) hnone
    · rw [← List.append_assoc]
      exact ht.step hn hheeds
  exact hall.honoured

/-! ### What a stop leaves going -/

/-- By its own steps and the end of `poll`, the thread comes to the test of `m_quit`. -/
def Returns (s : TCPServer) : Prop :=
  ∃ is os t, machine.Run s is os t ∧ .stop ∉ is ∧ .called ∉ os ∧ t.phase = .testing ∧
    t.mQuit = s.mQuit ∧ t.acceptorOpen = s.acceptorOpen

lemma Returns.cons (h : Returns u) (hn : machine.next s i = some (u, o)) (hi : i ≠ .stop)
    (ho : .called ∉ o) (hquit : u.mQuit = s.mQuit) (hopen : u.acceptorOpen = s.acceptorOpen) :
    Returns s := by
  obtain ⟨is, os, t, hrun, hstop, hcalled, hphase, hquit', hopen'⟩ := h
  exact ⟨i :: is, o ++ os, t, .cons hn hrun, by simp [Ne.symm hi, hstop], by simp [ho, hcalled],
    hphase, hquit'.trans hquit, hopen'.trans hopen⟩

lemma returns_removing {rest : List ℕ} (hphase : s.phase = .removing rest) : Returns s := by
  induction rest generalizing s with
  | nil =>
      have hn : machine.next s .step = some ({ s with phase := .testing }, [.iterated]) := by
        simp [machine, stepLoop, hphase]
      exact ⟨_, _, _, .cons hn .nil, by simp, by simp, rfl, rfl, rfl⟩
  | cons c rest ih =>
      have hn : machine.next s .step = some ({ s with
          table := s.table.handleRemoveConnection (some c)
          phase := .removing rest }, [.removed c]) := by
        simp [machine, stepLoop, hphase]
      exact Returns.cons (ih rfl) hn (by simp) (by simp) rfl rfl

lemma returns_scanning {rest invalid : List ℕ} (hphase : s.phase = .scanning rest invalid) :
    Returns s := by
  induction rest generalizing s invalid with
  | nil =>
      have hn : machine.next s .step = some ({ s with phase := .removing invalid }, []) := by
        simp [machine, stepLoop, hphase]
      exact (returns_removing rfl).cons hn (by simp) (by simp) rfl rfl
  | cons c rest ih =>
      cases hvalid : (s.table.conn c).isValid with
      | true =>
          have hn : machine.next s .step =
              some ({ s with phase := .scanning rest invalid }, [.ticked c]) := by
            simp [machine, stepLoop, hphase, hvalid]
          exact Returns.cons (ih rfl) hn (by simp) (by simp) rfl rfl
      | false =>
          have hn : machine.next s .step =
              some ({ s with phase := .scanning rest (invalid ++ [c]) }, [.foundClosed c]) := by
            simp [machine, stepLoop, hphase, hvalid]
          exact Returns.cons (ih rfl) hn (by simp) (by simp) rfl rfl

lemma returns_polling (hphase : s.phase = .polling) : Returns s := by
  have hn : machine.next s .endPoll =
      some ({ s with phase := .scanning s.table.members [] }, [.scanned s.table.members]) := by
    simp [machine, hphase]
  exact (returns_scanning rfl).cons hn (by simp) (by simp) rfl rfl

lemma returns_rearming (hphase : s.phase = .rearming) : Returns s := by
  have hn : machine.next s .step = some ({ s.asyncAccept with phase := .polling }, []) := by
    simp [machine, stepLoop, hphase]
  exact (returns_polling rfl).cons hn (by simp) (by simp) rfl rfl

/-- **The loop goes on**: from anywhere in it, while the acceptor is open. -/
lemma returns_of_open (hphase : s.phase ≠ .outside) (hopen : s.acceptorOpen = true) :
    Returns s := by
  cases hs : s.phase with
  | outside => exact absurd hs hphase
  | testing => exact ⟨[], [], s, .nil, by simp, by simp, hs, rfl, rfl⟩
  | checking =>
      have hn : machine.next s .step = some ({ s with phase := .polling }, [.polled]) := by
        simp [machine, stepLoop, hs, hopen]
      exact (returns_polling rfl).cons hn (by simp) (by simp) rfl rfl
  | polling => exact returns_polling hs
  | accepted c =>
      have hn : machine.next s .step = some
          ({ s with table := s.table.addConn (some c), phase := .rearming },
            [.started c ((s.table.addConn (some c)).conn c).getId]) := by
        simp [machine, stepLoop, hs]
      exact (returns_rearming rfl).cons hn (by simp) (by simp) rfl rfl
  | rearming => exact returns_rearming hs
  | scanning rest invalid => exact returns_scanning hs
  | removing rest => exact returns_removing hs

/-- A stop that leaves the acceptor open leaves `loop` going: it has stored `false`, so the next
test begins another iteration. -/
lemma Settled.heeds (hn : machine.next s i = some (u, o)) (hu : Settled (os ++ o) u) :
    Heeds s i := by
  rintro rfl
  obtain ⟨rfl, rfl⟩ := Prod.mk.inj (Option.some.inj hn)
  by_contra hgoing
  obtain ⟨hphase, hopen⟩ := not_or.mp hgoing
  rw [Bool.not_eq_false] at hopen
  obtain ⟨is', os', t, hrun, hstop, hcalled, htesting, hquit, hopen'⟩ :=
    returns_of_open (s := s.stop) hphase hopen
  have hpassed : machine.next t .step = some ({ t with phase := .checking }, [.passed]) := by
    simp [machine, stepLoop, htesting, hquit, stop]
  have hpolled : machine.next { t with phase := .checking } .step =
      some ({ t with phase := .polling }, [.polled]) := by
    simp [machine, stepLoop, hopen', stop, hopen]
  have hrun' := (hrun.snoc hpassed).snoc hpolled
  refine hu _ _ _ (by simp [hstop]) hrun' (os ++ .stopped :: (os' ++ [.passed])) [] (by simp) ?_
  exact ⟨os, os', [], rfl, by simpa using hcalled⟩

/-- **When stops are honoured**: throughout a run if no `stop` returns while `loop` is running
and the acceptor is open; and only then are they honoured in whatever comes after it without
another one. -/
theorem honoured_iff (hrun : machine.Run built is os s) :
    ((machine.EachStep built is fun _ t i => Heeds t i) →
        machine.Throughout built is fun os _ => Honoured os) ∧
      (machine.Throughout built is Settled ↔ machine.EachStep built is fun _ t i => Heeds t i) := by
  have hiff : machine.Throughout built is Settled ↔
      machine.EachStep built is fun _ t i => Heeds t i :=
    hrun.throughout_iff (I := Heeded) heeded_built (fun _ _ h => h.settled)
      (fun _ _ _ _ _ h hn hheeds => h.step hn hheeds) fun _ _ _ _ _ _ hn hu => hu.heeds hn
  refine ⟨fun hheeds is' os' t hpre hrun' => ?_, hiff⟩
  simpa using hiff.mpr hheeds is' os' t hpre hrun' [] [] t List.not_mem_nil .nil

/-- A stop before `loop` is called, and one during an iteration, once the acceptor is closed. -/
theorem honoured_closed :
    ∃ os u, machine.Run built [.stop, .loop, .step, .step, .closeAcceptor, .stop, .endPoll, .step,
        .step, .step, .step] os u ∧ Honoured os ∧
      os = [.stopped, .called, .passed, .polled, .stopped, .scanned [], .iterated, .passed,
        .left] := by
  obtain ⟨os, u, hrun, hos⟩ : ∃ os u, machine.Run built [.stop, .loop, .step, .step,
      .closeAcceptor, .stop, .endPoll, .step, .step, .step, .step] os u ∧
      os = [.stopped, .called, .passed, .polled, .stopped, .scanned [], .iterated, .passed,
        .left] := ⟨_, _, run_iff_exec.mpr rfl, rfl⟩
  have hheeds : machine.EachStep built [.stop, .loop, .step, .step, .closeAcceptor, .stop,
      .endPoll, .step, .step, .step, .step] fun _ t i => Heeds t i := by
    refine eachStep_cons rfl (fun _ => .inl rfl) ?_
    iterate 4 refine eachStep_cons rfl (fun h => nomatch h) ?_
    refine eachStep_cons rfl (fun _ => .inr rfl) ?_
    iterate 5 refine eachStep_cons rfl (fun h => nomatch h) ?_
    exact eachStep_nil
  exact ⟨os, u, hrun, (honoured_iff hrun).1 hheeds _ _ _ List.prefix_rfl hrun, hos⟩

/-- **A stop before the first iteration is lost**: `loop` polls all the same. -/
theorem stop_lost :
    ∃ os u, machine.Run built [.loop, .stop, .step, .step] os u ∧
      os = [.called, .stopped, .passed, .polled] ∧ ¬ Honoured os :=
  ⟨_, _, run_iff_exec.mpr rfl, rfl, fun h =>
    h [.called, .stopped, .passed] [] rfl ⟨[.called], [], [], rfl, by decide⟩⟩

end TCPServer

end Xsix

import Xsix.Network.Table

/-!
The life of a connection over whole runs of a server.

* `Step.effect`: what a step does to the table: it leaves the entries, or it starts, ticks
  or removes one connection.
* `Waits`, `Scans`: the invariants of the connections on their way and of the scan.
* `Lives`: the history of each connection is empty, or a start followed by ticks, or that
  and one removal (`Alive`, `Gone`); `Lives.effect` is its step lemma.
* `Balanced`: in an iteration, what was ticked, removed and still is to come is what the
  table had when the scan started.
* `table_intact`: what follows for the table, the ids and the iterations of a run.
-/

namespace Xsix

open Std CInt OrderedMap

namespace Phase

/-- The connection that the accept handler is to start. -/
def handled : Phase → List ℕ
  | .accepted c => [c]
  | _ => []

/-- The connections the iteration still has to visit or to remove. -/
def pending : Phase → List ℕ
  | .scanning rest invalid => rest ++ invalid
  | .removing rest => rest
  | _ => []

/-- The connections the scan found closed that are still to be removed. -/
def doomed : Phase → List ℕ
  | .scanning _ invalid => invalid
  | .removing rest => rest
  | _ => []

/-- The iteration is past its `poll`. -/
def Busy : Phase → Prop
  | .scanning .. | .removing _ => True
  | _ => False

end Phase

namespace TCPServer

open Machine ConnTable

variable {s t u : TCPServer} {i : Input} {is : List Input} {o os os₁ os₂ : List Event}
  {c d : ℕ} {id : ℤ}

/-! ### What a step does to the table -/

/-- The ids given so far, in the order they were given. -/
def ids (os : List Event) : List ℤ :=
  os.filterMap fun
    | .started _ id => some id
    | _ => none

/-- The event is a step in the life of `c`. -/
def Concerns (c : ℕ) : Event → Bool
  | .started d _ | .ticked d | .removed d => d = c
  | _ => false

/-- What happened to `c` since it was accepted. -/
def story (c : ℕ) (os : List Event) : List Event := os.filter (Concerns c)

@[simp] lemma ids_nil : ids [] = [] := rfl

@[simp] lemma ids_append (os o : List Event) : ids (os ++ o) = ids os ++ ids o :=
  List.filterMap_append

@[simp] lemma story_append (c : ℕ) (os o : List Event) :
    story c (os ++ o) = story c os ++ story c o :=
  List.filter_append _ _

/-- The connections that wait for an accept, or for the handler to start them. -/
def waiting (s : TCPServer) : List ℕ := s.accepting ++ s.phase.handled

/-- The connections created between two states of the table. -/
def createdSince (t u : ConnTable) : List ℕ := List.range' t.created (u.created - t.created)

/-- A step that concerns no connection: the entries are the same, and who waits now
waited before or was just created. -/
structure Quiet (s u : TCPServer) (o : List Event) : Prop where
  story : ∀ c : ℕ, story c o = []
  ids : ids o = []
  table : Undisturbed s.table u.table
  waiting : ∀ c : ℕ, u.waiting.count c ≤
    s.waiting.count c + (createdSince s.table u.table).count c

/-- What a step can do to the connections of the table. -/
inductive Effect (s : TCPServer) : TCPServer → List Event → Prop
  | quiet {u : TCPServer} {o : List Event} (h : Quiet s u o) : Effect s u o
  | started {c : ℕ} (h : s.phase = .accepted c) :
      Effect s { s with table := s.table.addConn (some c), phase := .rearming }
        [.started c ((s.table.addConn (some c)).conn c).getId]
  | ticked {c : ℕ} {rest invalid : List ℕ} (h : s.phase = .scanning (c :: rest) invalid) :
      Effect s { s with phase := .scanning rest invalid } [.ticked c]
  | removed {c : ℕ} {rest : List ℕ} (h : s.phase = .removing (c :: rest)) :
      Effect s { s with
        table := s.table.handleRemoveConnection (some c)
        phase := .removing rest } [.removed c]

lemma count_waiting (s : TCPServer) (c : ℕ) :
    s.waiting.count c = s.accepting.count c + s.phase.handled.count c :=
  List.count_append

lemma waiting_eq (s : TCPServer) (t : ConnTable) {p : Phase} (hp : p.handled = s.phase.handled) :
    ({ s with table := t, phase := p } : TCPServer).waiting = s.waiting := by
  rw [waiting, waiting, hp]

/-- Issuing an accept adds the new connection to those that wait. -/
lemma quiet_asyncAccept (s : TCPServer) {p : Phase} (hp : p.handled = s.phase.handled) :
    Quiet s { s.asyncAccept with phase := p } [] := by
  refine ⟨fun _ => rfl, rfl, undisturbed_createNewConnection _, fun c => ?_⟩
  have hnew : createdSince s.table s.asyncAccept.table = [s.table.created] := by
    simp [createdSince, asyncAccept, createNewConnection]
  calc _ = s.accepting.count c + [s.table.created].count c + s.phase.handled.count c := by
        rw [count_waiting]
        simp only [asyncAccept, List.count_append, hp]
    _ ≤ _ := by
        rw [count_waiting, hnew]
        omega

/-- A step that leaves the table and adds nobody to those that wait. -/
lemma quiet_of_table_eq (htable : u.table = s.table)
    (hwait : ∀ c : ℕ, u.waiting.count c ≤ s.waiting.count c) (hids : ids o = [])
    (hstory : ∀ c : ℕ, story c o = []) : Quiet s u o :=
  ⟨hstory, hids, htable ▸ .refl _, fun c => (hwait c).trans (Nat.le_add_right _ _)⟩

lemma Step.effect (h : Step s i u o) : Effect s u o := by
  cases h with
  | armed => exact .quiet (quiet_asyncAccept s rfl)
  | rearmed hphase => exact .quiet (quiet_asyncAccept s (by rw [hphase]; rfl))
  | @accepted c hphase hmem =>
      refine .quiet ⟨fun _ => rfl, rfl, undisturbed_setOpen _ _ _, fun d => ?_⟩
      have hperm : (s.accepting.erase c ++ [c]).Perm s.accepting :=
        List.perm_append_singleton _ _ |>.trans (List.perm_cons_erase hmem).symm
      rw [count_waiting s, hphase]
      calc _ = s.accepting.count d := hperm.count_eq d
        _ ≤ _ := by omega
  | @refused c hphase hmem =>
      refine .quiet (quiet_of_table_eq rfl (fun d => ?_) rfl fun _ => rfl)
      rw [count_waiting, count_waiting]
      exact Nat.add_le_add_right ((List.erase_sublist).count_le d) _
  | started hphase => exact .started hphase
  | ticked hphase => exact .ticked hphase
  | removed hphase => exact .removed hphase
  | closed =>
      exact .quiet ⟨fun _ => rfl, rfl, undisturbed_setOpen _ _ _, fun c => Nat.le_add_right _ _⟩
  | stopped | acceptorClosed =>
      exact .quiet (quiet_of_table_eq rfl (fun _ => le_rfl) rfl fun _ => rfl)
  | called hphase | scanned hphase | quit hphase | passed hphase | polled hphase | left hphase
    | foundClosed hphase | scanEnded hphase | iterated hphase =>
      refine .quiet (quiet_of_table_eq rfl (fun d => ?_) rfl fun _ => rfl)
      rw [count_waiting, count_waiting, hphase]
      exact le_rfl

/-! ### The invariant of the state -/

/-- Who waits for an accept is not in the table. -/
structure Waits (s : TCPServer) : Prop where
  keyed : Keyed s.table
  nodup : s.waiting.Nodup
  known : ∀ c ∈ s.waiting, c < s.table.created
  new : ∀ c ∈ s.waiting, c ∉ s.table.members

/-- What an iteration still has to do, it has to do once, and to members of the table. -/
structure Scans (s : TCPServer) : Prop where
  nodup : s.phase.pending.Nodup
  mem : ∀ c ∈ s.phase.pending, c ∈ s.table.members

lemma waits_built : Waits built :=
  ⟨keyed_built, List.nodup_nil, fun _ h => (nomatch h), fun _ h => (nomatch h)⟩

lemma scans_built : Scans built := ⟨List.nodup_nil, fun _ h => nomatch h⟩

/-- Who waits after a quiet step waited before it, or was created by it. -/
lemma Quiet.mem_waiting (h : Quiet s u o) (hc : c ∈ u.waiting) :
    c ∈ s.waiting ∨ c ∈ createdSince s.table u.table := by
  by_contra hnot
  obtain ⟨hold, hnew⟩ := not_or.mp hnot
  have hle := h.waiting c
  rw [List.count_eq_zero_of_not_mem hold, List.count_eq_zero_of_not_mem hnew] at hle
  exact (List.count_pos_iff.mpr hc).not_ge hle

lemma mem_createdSince {t u : ConnTable} (hle : t.created ≤ u.created) :
    c ∈ createdSince t u ↔ t.created ≤ c ∧ c < u.created := by
  rw [createdSince, List.mem_range'_1, Nat.add_sub_cancel' hle]

lemma Waits.quiet (h : Waits s) (hq : Quiet s u o) : Waits u := by
  refine ⟨h.keyed.of_undisturbed hq.table, ?_, ?_, ?_⟩
  · rw [List.nodup_iff_count_le_one]
    intro c
    refine (hq.waiting c).trans ?_
    by_cases hc : c < s.table.created
    · have hnot : c ∉ createdSince s.table u.table := by
        rw [mem_createdSince hq.table.created]
        omega
      rw [List.count_eq_zero_of_not_mem hnot]
      exact List.nodup_iff_count_le_one.mp h.nodup c
    · have hnot : c ∉ s.waiting := fun hmem => hc (h.known c hmem)
      rw [List.count_eq_zero_of_not_mem hnot, Nat.zero_add]
      exact List.nodup_iff_count_le_one.mp List.nodup_range' c
  · intro c hc
    rcases hq.mem_waiting hc with hold | hnew
    · exact (h.known c hold).trans_le hq.table.created
    · exact ((mem_createdSince hq.table.created).mp hnew).2
  · intro c hc
    rw [hq.table.members]
    rcases hq.mem_waiting hc with hold | hnew
    · exact h.new c hold
    · intro hmem
      have hlt := h.keyed.lt_created hmem
      have hge := ((mem_createdSince hq.table.created).mp hnew).1
      omega

lemma waiting_of_accepted (hphase : s.phase = .accepted c) :
    s.waiting = s.accepting ++ [c] := by
  rw [waiting, hphase]
  rfl

/-- The connection the handler is to start does not wait for an accept any more. -/
lemma Waits.ne_of_accepted (h : Waits s) (hphase : s.phase = .accepted c)
    (hd : d ∈ s.accepting) : d ≠ c := by
  have hnodup : (s.accepting ++ [c]).Nodup := waiting_of_accepted hphase ▸ h.nodup
  exact (List.nodup_append.mp hnodup).2.2 d hd c List.mem_cons_self

/-- **One step keeps apart those who wait from the members of the table.** -/
lemma Waits.effect (h : Waits s) (hscan : Scans s) (he : Effect s u o)
    (hroom : s.table.mNextConnId < 2 ^ 31 - 1) : Waits u := by
  cases he with
  | quiet hq => exact h.quiet hq
  | @started c hphase =>
      have hwait := waiting_of_accepted hphase
      have hmem : c ∈ s.waiting := by simp [hwait]
      have hafter (d : ℕ) (hd : d ∈ s.accepting ++ []) : d ∈ s.waiting ∧ d ≠ c := by
        rw [List.append_nil] at hd
        exact ⟨by simp [hwait, hd], h.ne_of_accepted hphase hd⟩
      refine ⟨h.keyed.addConn hroom (h.known c hmem) (h.new c hmem), ?_, ?_, ?_⟩
      · exact h.nodup.sublist ((List.nil_sublist _).append_left _)
      · intro d hd
        rw [addConn_created]
        exact h.known d (hafter d hd).1
      · intro d hd
        rw [h.keyed.mem_members_addConn, not_or]
        exact ⟨(hafter d hd).2, h.new d (hafter d hd).1⟩
  | @ticked c rest invalid hphase =>
      have hwait := waiting_eq s s.table (p := .scanning rest invalid) (by rw [hphase]; rfl)
      exact ⟨h.keyed, hwait ▸ h.nodup, hwait ▸ h.known, hwait ▸ h.new⟩
  | @removed c rest hphase =>
      have hwait := waiting_eq s (s.table.handleRemoveConnection (some c)) (p := .removing rest)
        (by rw [hphase]; rfl)
      have hc : c ∈ s.table.members := hscan.mem c (by simp [hphase, Phase.pending])
      refine ⟨h.keyed.handleRemoveConnection, hwait ▸ h.nodup, ?_, ?_⟩
      · intro d hd
        rw [ConnTable.handleRemoveConnection, removeConn_created]
        exact h.known d (hwait ▸ hd)
      · intro d hd
        rw [h.keyed.mem_members_handleRemoveConnection hc]
        exact fun hmem => h.new d (hwait ▸ hd) hmem.2

/-- **One step of an iteration takes one connection off what is to be done.** -/
lemma Scans.step (h : Scans s) (hkeyed : Keyed s.table) (hstep : Step s i u o) : Scans u := by
  have hsame (u : TCPServer) (hphase : u.phase = s.phase)
      (htable : u.table.members = s.table.members) : Scans u :=
    ⟨hphase ▸ h.nodup, htable ▸ hphase ▸ h.mem⟩
  cases hstep with
  | armed => exact hsame _ rfl (undisturbed_createNewConnection _).members
  | closed => exact hsame _ rfl (undisturbed_setOpen _ _ _).members
  | stopped | refused | acceptorClosed => exact hsame _ rfl rfl
  | called | accepted | quit | passed | polled | left | started | rearmed | iterated =>
      exact ⟨List.nodup_nil, fun _ hc => nomatch hc⟩
  | scanned =>
      refine ⟨?_, fun c hc => ?_⟩
      · simpa [Phase.pending] using hkeyed.nodup
      · simpa [Phase.pending] using hc
  | @ticked c rest invalid hphase =>
      have hall : s.phase.pending = c :: (rest ++ invalid) := by rw [hphase]; rfl
      rcases h with ⟨hnodup, hmem⟩
      rw [hall] at hnodup hmem
      exact ⟨(List.nodup_cons.mp hnodup).2, fun d hd => hmem d (List.mem_cons_of_mem _ hd)⟩
  | @foundClosed c rest invalid hphase =>
      have hall : s.phase.pending = c :: (rest ++ invalid) := by rw [hphase]; rfl
      have hperm : (rest ++ (invalid ++ [c])).Perm s.phase.pending := by
        rw [hall, ← List.append_assoc]
        exact List.perm_append_singleton _ _
      exact ⟨hperm.nodup_iff.mpr h.nodup, fun d hd => h.mem d (hperm.mem_iff.mp hd)⟩
  | @scanEnded invalid hphase =>
      have hall : s.phase.pending = invalid := by rw [hphase]; rfl
      exact ⟨hall ▸ h.nodup, hall ▸ h.mem⟩
  | @removed c rest hphase =>
      have hall : s.phase.pending = c :: rest := by rw [hphase]; rfl
      rcases h with ⟨hnodup, hmem⟩
      rw [hall] at hnodup hmem
      refine ⟨(List.nodup_cons.mp hnodup).2, fun d hd => ?_⟩
      rw [hkeyed.mem_members_handleRemoveConnection (hmem c List.mem_cons_self)]
      refine ⟨?_, hmem d (List.mem_cons_of_mem _ hd)⟩
      rintro rfl
      exact (List.nodup_cons.mp hnodup).1 hd

/-! ### The life of a connection -/

/-- A start, then ticks. -/
def Alive (c : ℕ) (id : ℤ) (es : List Event) : Prop :=
  ∃ n : ℕ, es = .started c id :: List.replicate n (.ticked c)

/-- A life that ended with one removal. -/
def Gone (c : ℕ) (es : List Event) : Prop :=
  ∃ (id : ℤ) (life : List Event), Alive c id life ∧ es = life ++ [.removed c]

/-- Who waits was not started; the members of the table are alive under their ids, the
others were never started or are gone. -/
structure Lives (os : List Event) (s : TCPServer) : Prop where
  unborn : ∀ c : ℕ, c ∈ s.waiting ∨ s.table.created ≤ c → story c os = []
  alive : ∀ c ∈ s.table.members, Alive c (s.table.conn c).mId (story c os)
  gone : ∀ c ∉ s.table.members, story c os = [] ∨ Gone c (story c os)

lemma lives_built : Lives [] built :=
  ⟨fun _ _ => rfl, fun _ hc => (nomatch hc), fun _ _ => .inl rfl⟩

lemma story_singleton (c : ℕ) (e : Event) :
    story c [e] = if Concerns c e = true then [e] else [] := by
  rw [story, List.filter_singleton]
  cases Concerns c e <;> rfl

lemma Alive.ticked {es : List Event} (h : Alive c id es) : Alive c id (es ++ [.ticked c]) := by
  obtain ⟨n, rfl⟩ := h
  exact ⟨n + 1, by rw [List.cons_append, List.replicate_succ']⟩

lemma Lives.quiet (h : Lives os s) (hw : Waits s) (hq : Quiet s u o) : Lives (os ++ o) u := by
  have hstory (c : ℕ) : story c (os ++ o) = story c os := by
    rw [story_append, hq.story, List.append_nil]
  constructor
  · intro c hc
    rw [hstory]
    rcases hc with hc | hc
    · rcases hq.mem_waiting hc with hold | hnew
      · exact h.unborn c (.inl hold)
      · exact h.unborn c (.inr ((mem_createdSince hq.table.created).mp hnew).1)
    · exact h.unborn c (.inr (hq.table.created.trans hc))
  · intro c hc
    rw [hq.table.members] at hc
    rw [hstory, hq.table.id c (hw.keyed.lt_created hc)]
    exact h.alive c hc
  · intro c hc
    rw [hq.table.members] at hc
    rw [hstory]
    exact h.gone c hc

/-- An event is a step in the life of one connection. -/
lemma concerns_of_ne {e : Event} (he : Concerns c e = true) (hd : d ≠ c) :
    Concerns d e = false := by
  cases e <;> simp_all [Concerns, eq_comm]

/-- A step in the life of `c` leaves the lives of the others. -/
lemma Lives.of_concerns {e : Event} (h : Lives os s) (he : Concerns c e = true)
    (hnew : ∀ d : ℕ, d ∈ u.waiting ∨ u.table.created ≤ d →
      d ≠ c ∧ (d ∈ s.waiting ∨ s.table.created ≤ d))
    (hother : ∀ d ≠ c, (d ∈ u.table.members ↔ d ∈ s.table.members) ∧
      (u.table.conn d).mId = (s.table.conn d).mId)
    (halive : c ∈ u.table.members → Alive c (u.table.conn c).mId (story c os ++ [e]))
    (hgone : c ∉ u.table.members → Gone c (story c os ++ [e])) : Lives (os ++ [e]) u := by
  have hsame (d : ℕ) (hd : d ≠ c) : story d (os ++ [e]) = story d os := by
    rw [story_append, story_singleton, concerns_of_ne he hd]
    exact List.append_nil _
  have hself : story c (os ++ [e]) = story c os ++ [e] := by
    rw [story_append, story_singleton, if_pos he]
  constructor
  · intro d hd
    obtain ⟨hdc, hd⟩ := hnew d hd
    rw [hsame d hdc]
    exact h.unborn d hd
  · intro d hd
    by_cases hdc : d = c
    · subst hdc
      exact hself ▸ halive hd
    · rw [hsame d hdc, (hother d hdc).2]
      exact h.alive d ((hother d hdc).1.mp hd)
  · intro d hd
    by_cases hdc : d = c
    · subst hdc
      exact .inr (hself ▸ hgone hd)
    · rw [hsame d hdc]
      exact h.gone d (mt (hother d hdc).1.mpr hd)

/-- A member of the table does not wait. -/
lemma Waits.ne_of_mem (h : Waits s) (hc : c ∈ s.table.members)
    (hd : d ∈ s.waiting ∨ s.table.created ≤ d) : d ≠ c := by
  rintro rfl
  rcases hd with hd | hd
  · exact h.new d hd hc
  · exact (h.keyed.lt_created hc).not_ge hd

/-- **One step in the lives of the connections.** -/
lemma Lives.effect (h : Lives os s) (hw : Waits s) (hscan : Scans s) (he : Effect s u o) :
    Lives (os ++ o) u := by
  cases he with
  | quiet hq => exact h.quiet hw hq
  | @started c hphase =>
      have hwait := waiting_of_accepted hphase
      have hmem : c ∈ s.waiting := by simp [hwait]
      refine h.of_concerns (c := c) (by simp [Concerns]) ?_ ?_ ?_ ?_
      · intro d hd
        rw [addConn_created] at hd
        rcases hd with hd | hd
        · have hd' : d ∈ s.accepting := by simpa [waiting, Phase.handled] using hd
          exact ⟨hw.ne_of_accepted hphase hd', .inl (by simp [hwait, hd'])⟩
        · exact ⟨((hw.known c hmem).trans_le hd).ne', .inr hd⟩
      · intro d hd
        rw [hw.keyed.mem_members_addConn, addConn_mId hw.keyed.free, if_neg hd]
        exact ⟨or_iff_right hd, rfl⟩
      · intro _
        rw [h.unborn c (.inl hmem)]
        exact ⟨0, rfl⟩
      · intro hc
        exact absurd (hw.keyed.mem_members_addConn.mpr (.inl rfl)) hc
  | @ticked c rest invalid hphase =>
      have hwait := waiting_eq s s.table (p := .scanning rest invalid) (by rw [hphase]; rfl)
      have hc : c ∈ s.table.members := hscan.mem c (by simp [hphase, Phase.pending])
      refine h.of_concerns (c := c) (by simp [Concerns]) (fun d hd => ?_) (fun _ _ => ⟨.rfl, rfl⟩)
        (fun _ => (h.alive c hc).ticked) fun hnot => absurd hc hnot
      rw [hwait] at hd
      exact ⟨hw.ne_of_mem hc hd, hd⟩
  | @removed c rest hphase =>
      have hwait := waiting_eq s (s.table.handleRemoveConnection (some c)) (p := .removing rest)
        (by rw [hphase]; rfl)
      have hc : c ∈ s.table.members := hscan.mem c (by simp [hphase, Phase.pending])
      have hmem (d : ℕ) := hw.keyed.mem_members_handleRemoveConnection (d := d) hc
      refine h.of_concerns (c := c) (by simp [Concerns]) ?_ ?_
        (fun hnot => absurd rfl ((hmem c).mp hnot).1) fun _ => ⟨_, _, h.alive c hc, rfl⟩
      · intro d hd
        rw [hwait, ConnTable.handleRemoveConnection, removeConn_created] at hd
        exact ⟨hw.ne_of_mem hc hd, hd⟩
      · intro d hd
        rw [hmem d, ConnTable.handleRemoveConnection, removeConn_conn]
        exact ⟨and_iff_right hd, rfl⟩

/-! ### Runs -/

/-- The ids given are the numbers below the next one, in their order. -/
def Numbered (os : List Event) (s : TCPServer) : Prop :=
  ∃ n : ℕ, s.table.mNextConnId = n ∧ ids os = (List.range n).map Nat.cast

/-- What is to be removed was found closed. -/
def Recorded (os : List Event) (s : TCPServer) : Prop :=
  ∀ c ∈ s.phase.doomed, .foundClosed c ∈ os

/-- The invariant of the runs of a server. -/
structure Integrity (os : List Event) (s : TCPServer) : Prop where
  waits : Waits s
  scans : Scans s
  lives : Lives os s
  numbered : Numbered os s
  recorded : Recorded os s

lemma integrity_built : Integrity [] built :=
  ⟨waits_built, scans_built, lives_built, ⟨0, rfl, rfl⟩, fun _ hc => (nomatch hc)⟩

lemma Numbered.effect (h : Numbered os s) (hw : Waits s) (he : Effect s u o)
    (hroom : s.table.mNextConnId < 2 ^ 31 - 1) : Numbered (os ++ o) u := by
  obtain ⟨n, hn, hids⟩ := h
  cases he with
  | quiet hq => exact ⟨n, hq.table.next.trans hn, by rw [ids_append, hq.ids, hids, List.append_nil]⟩
  | started hphase =>
      have hid : ∀ c : ℕ, ((s.table.addConn (some c)).conn c).getId = n := by
        intro c
        rw [TCPConnection.getId, addConn_mId hw.keyed.free, if_pos rfl, hn]
      refine ⟨n + 1, by rw [hw.keyed.addConn_next hroom, hn]; rfl, ?_⟩
      rw [ids_append, hids, List.range_succ, List.map_append, List.map_singleton, ← hid]
      rfl
  | ticked hphase => exact ⟨n, hn, by rw [ids_append, hids]; exact List.append_nil _⟩
  | removed hphase =>
      refine ⟨n, ?_, by rw [ids_append, hids]; exact List.append_nil _⟩
      rw [ConnTable.handleRemoveConnection, removeConn_next, hn]

lemma Recorded.step (h : Recorded os s) (hstep : Step s i u o) : Recorded (os ++ o) u := by
  have hsame (u : TCPServer) (hdoomed : ∀ c ∈ u.phase.doomed, c ∈ s.phase.doomed) :
      Recorded (os ++ o) u := fun c hc => List.mem_append_left _ (h c (hdoomed c hc))
  cases hstep with
  | armed | stopped | refused | closed | acceptorClosed => exact hsame _ fun _ hc => hc
  | called | accepted | scanned | quit | passed | polled | left | started | rearmed | iterated =>
      exact hsame _ fun _ hc => (nomatch hc)
  | ticked hphase => exact hsame _ fun _ hc => by rwa [hphase]
  | scanEnded hphase => exact hsame _ fun _ hc => by rwa [hphase]
  | removed hphase => exact hsame _ fun _ hc => by rw [hphase]; exact List.mem_cons_of_mem _ hc
  | @foundClosed c rest invalid hphase =>
      intro d hd
      rcases List.mem_append.mp hd with hd | hd
      · exact List.mem_append_left _ (h d (by rwa [hphase]))
      · obtain rfl := List.mem_singleton.mp hd
        exact List.mem_append_right _ List.mem_cons_self

/-- **One step of a server** that has ids left. -/
lemma Integrity.step (h : Integrity os s) (hn : machine.next s i = some (u, o))
    (hroom : (ids (os ++ o)).length < 2 ^ 31 - 1) : Integrity (os ++ o) u := by
  have hstep := step_of_next hn
  have hid : s.table.mNextConnId < 2 ^ 31 - 1 := by
    obtain ⟨n, hn, hids⟩ := h.numbered
    rw [ids_append, List.length_append, hids, List.length_map, List.length_range] at hroom
    omega
  exact ⟨h.waits.effect h.scans hstep.effect hid, h.scans.step h.waits.keyed hstep,
    h.lives.effect h.waits h.scans hstep.effect, h.numbered.effect h.waits hstep.effect hid,
    h.recorded.step hstep⟩

/-- **Every run of a server that does not use up the ids.** -/
theorem integrity_of_run (hrun : machine.Run built is os s)
    (hroom : (ids os).length < 2 ^ 31 - 1) : Integrity os s := by
  refine hrun.invariant (I := fun os s => (ids os).length < 2 ^ 31 - 1 → Integrity os s)
    (fun _ => integrity_built) (fun os t i u o h hn hroom => (h ?_).step hn hroom) hroom
  rw [ids_append, List.length_append] at hroom
  omega

/-! ### What the histories say -/

lemma mem_story_iff {e : Event} : e ∈ story c os ↔ e ∈ os ∧ Concerns c e = true :=
  List.mem_filter

lemma Alive.removed_not_mem {es : List Event} (h : Alive c id es) : .removed d ∉ es := by
  obtain ⟨n, rfl⟩ := h
  simp

/-- The members of the table are those who were started and not removed. -/
lemma Lives.mem_members_iff (h : Lives os s) :
    c ∈ s.table.members ↔ (∃ id : ℤ, .started c id ∈ os) ∧ .removed c ∉ os := by
  constructor
  · intro hc
    have halive := h.alive c hc
    refine ⟨⟨(s.table.conn c).mId, ?_⟩, fun hmem => ?_⟩
    · obtain ⟨n, hstory⟩ := halive
      exact (mem_story_iff.mp (hstory ▸ List.mem_cons_self)).1
    · exact halive.removed_not_mem (mem_story_iff.mpr ⟨hmem, by simp [Concerns]⟩)
  · rintro ⟨⟨id, hmem⟩, hkept⟩
    by_contra hc
    have hstarted : .started c id ∈ story c os := mem_story_iff.mpr ⟨hmem, by simp [Concerns]⟩
    rcases h.gone c hc with hnil | ⟨id', life, halive, hlife⟩
    · rw [hnil] at hstarted
      cases hstarted
    · have hremoved : .removed c ∈ story c os := by simp [hlife]
      exact hkept (mem_story_iff.mp hremoved).1

/-- A connection that was started and not removed is found under the id it was given. -/
lemma Integrity.getElem_of_started (h : Integrity os s) (hmem : .started c id ∈ os)
    (hkept : .removed c ∉ os) : s.table.mTcpConnMap[id]? = some c := by
  have hc := h.lives.mem_members_iff.mpr ⟨⟨id, hmem⟩, hkept⟩
  obtain ⟨n, hstory⟩ := h.lives.alive c hc
  have hstarted : .started c id ∈ story c os := mem_story_iff.mpr ⟨hmem, by simp [Concerns]⟩
  rw [hstory] at hstarted
  obtain rfl : id = (s.table.conn c).mId := by simpa using hstarted
  exact h.waits.keyed.getElem_id hc

/-- **After its removal a connection has no more history.** -/
lemma Lives.story_of_removed (h : Lives (os₁ ++ .removed c :: os₂) s) :
    .removed c ∉ story c os₁ ∧ story c os₂ = [] := by
  have hsplit : story c (os₁ ++ .removed c :: os₂) =
      story c os₁ ++ .removed c :: story c os₂ := by
    rw [story_append]
    simp [story, Concerns]
  have hmem : .removed c ∈ story c (os₁ ++ .removed c :: os₂) := by simp [hsplit]
  have hgone : c ∉ s.table.members := fun hc => (h.alive c hc).removed_not_mem hmem
  rcases h.gone c hgone with hnil | ⟨id, life, halive, hlife⟩
  · rw [hnil] at hmem
    cases hmem
  · rw [hsplit] at hlife
    rcases List.append_eq_append_iff.mp hlife with ⟨rest, hrest, hlast⟩ | ⟨rest, hrest, hlast⟩
    · cases rest with
      | nil =>
          obtain ⟨-, hnil⟩ := List.cons_eq_cons.mp hlast
          rw [List.append_nil] at hrest
          exact ⟨hrest ▸ halive.removed_not_mem, hnil⟩
      | cons e rest =>
          obtain ⟨rfl, -⟩ := List.cons_eq_cons.mp hlast
          exact absurd (by simp [hrest]) (halive.removed_not_mem (d := c))
    · cases rest with
      | nil =>
          obtain ⟨-, hnil⟩ := List.cons_eq_cons.mp hlast
          rw [List.append_nil] at hrest
          exact ⟨hrest ▸ halive.removed_not_mem, hnil.symm⟩
      | cons e rest => simp at hlast

/-! ### Iterations -/

/-- An iteration that started with the members `cs` is scanning or removing, and what it
ticked, what it removed and what it still has to do are these members. -/
def Balanced (cs : List ℕ) (mid : List Event) (s : TCPServer) : Prop :=
  s.phase.Busy ∧ ∀ c : ℕ, mid.count (.ticked c) + mid.count (.removed c) +
    s.phase.pending.count c = cs.count c

/-- **One step of an iteration keeps the balance.** -/
lemma Balanced.step {cs : List ℕ} {mid : List Event} (h : Balanced cs mid s)
    (hstep : Step s i u o) (hgoes : .iterated ∉ o) : Balanced cs (mid ++ o) u := by
  obtain ⟨hbusy, hsum⟩ := h
  cases hstep with
  | armed | closed | acceptorClosed => simpa using ⟨hbusy, hsum⟩
  | stopped => exact ⟨hbusy, fun c => by simpa [stop] using hsum c⟩
  | called hphase | accepted hphase | refused hphase | scanned hphase | quit hphase
    | passed hphase | polled hphase | left hphase | started hphase | rearmed hphase =>
      rw [hphase] at hbusy
      exact hbusy.elim
  | @ticked c rest invalid hphase =>
      refine ⟨trivial, fun d => ?_⟩
      have hd := hsum d
      rw [hphase] at hd
      simp only [Phase.pending, List.count_append, List.count_cons, List.count_nil] at hd ⊢
      simp only [beq_iff_eq, Event.ticked.injEq, reduceCtorEq, if_false] at hd ⊢
      omega
  | @foundClosed c rest invalid hphase =>
      refine ⟨trivial, fun d => ?_⟩
      have hd := hsum d
      rw [hphase] at hd
      simp only [Phase.pending, List.count_append, List.count_cons, List.count_nil] at hd ⊢
      simp only [beq_iff_eq, reduceCtorEq, if_false] at hd ⊢
      omega
  | @scanEnded invalid hphase =>
      refine ⟨trivial, fun d => ?_⟩
      have hd := hsum d
      rw [hphase] at hd
      simpa [Phase.pending] using hd
  | @removed c rest hphase =>
      refine ⟨trivial, fun d => ?_⟩
      have hd := hsum d
      rw [hphase] at hd
      simp only [Phase.pending, List.count_append, List.count_cons, List.count_nil] at hd ⊢
      simp only [beq_iff_eq, Event.removed.injEq, reduceCtorEq, if_false] at hd ⊢
      omega
  | iterated => simp at hgoes

lemma Step.length_le (h : Step s i u o) : o.length ≤ 1 := by
  cases h <;> simp

/-- A step emits one event at most, so an event splits a run at its step. -/
lemma exists_step_of_mem {e : Event} (hrun : machine.Run s is (os₁ ++ e :: os₂) t) :
    ∃ is₁ i is₂ u v, machine.Run s is₁ os₁ u ∧ Step u i v [e] ∧ machine.Run v is₂ os₂ t := by
  obtain ⟨is₁, i, is₂, o₁, u, p, q, v, o₂, -, hbefore, hn, hafter, h₁, h₂⟩ := hrun.exists_step rfl
  have hlen := (step_of_next hn).length_le
  rw [List.length_append, List.length_cons] at hlen
  obtain rfl : p = [] := List.eq_nil_of_length_eq_zero (by omega)
  obtain rfl : q = [] := List.eq_nil_of_length_eq_zero (by omega)
  rw [List.append_nil] at h₁
  rw [List.nil_append] at h₂
  exact ⟨is₁, i, is₂, u, v, h₁ ▸ hbefore, step_of_next hn, h₂ ▸ hafter⟩

/-- A scan starts with the members of the table. -/
lemma balanced_of_scanned {cs : List ℕ} (h : Step s i u [.scanned cs]) :
    cs = s.table.members ∧ Balanced cs [] u := by
  cases h with
  | scanned => exact ⟨rfl, trivial, fun c => by simp [Phase.pending]⟩

/-- **What an iteration does**: each connection in the table when its scan starts is ticked
or removed, once. -/
lemma Balanced.scan {cs : List ℕ} {mid : List Event} (h : Balanced cs [] s)
    (hrun : machine.Run s is (mid ++ .iterated :: os₂) t) (hmid : .iterated ∉ mid) (c : ℕ) :
    mid.count (.ticked c) + mid.count (.removed c) = cs.count c := by
  obtain ⟨is₁, i, is₂, v, w, hscan, hiterated, -⟩ := exists_step_of_mem hrun
  have hbalanced := hscan.invariant
    (I := fun mid w => .iterated ∉ mid → Balanced cs mid w) (fun _ => h) ?_ hmid
  · have hsum := hbalanced.2 c
    cases hiterated with
    | iterated hphase =>
        rw [hphase] at hsum
        simpa [Phase.pending] using hsum
  · intro mid w i x o h hn hnot
    rw [List.mem_append, not_or] at hnot
    exact (h hnot.1).step (step_of_next hn) hnot.2

/-- The integrity of the connection table after the events `os`: each entry is under the id
of its connection, no connection occurs twice and no id was given twice; who was started is
in the table until its one removal, which follows on finding its socket closed, and never
after it; and an iteration ticks or removes, once, each connection that was in the table
when its scan started. -/
structure TableIntact (os : List Event) (s : TCPServer) : Prop where
  entries : ∀ (k : ℤ) (c : ℕ), s.table.mTcpConnMap[k]? = some c →
    (s.table.conn c).getId = k ∧ 0 ≤ k ∧ k < s.table.mNextConnId
  nodup : s.table.members.Nodup
  ids : (ids os).Nodup
  kept : ∀ (c : ℕ) (id : ℤ), .started c id ∈ os → .removed c ∉ os →
    s.table.mTcpConnMap[id]? = some c
  removed : ∀ (c : ℕ) (os₁ os₂ : List Event), os = os₁ ++ .removed c :: os₂ →
    .foundClosed c ∈ os₁ ∧ .removed c ∉ os₁ ++ os₂ ∧ .ticked c ∉ os₂ ∧ c ∉ s.table.members
  iterations : ∀ (cs : List ℕ) (os₁ mid os₂ : List Event),
    os = os₁ ++ .scanned cs :: (mid ++ .iterated :: os₂) → .iterated ∉ mid →
      (∀ c : ℕ, c ∈ cs ↔ (∃ id : ℤ, .started c id ∈ os₁) ∧ .removed c ∉ os₁) ∧
      ∀ c ∈ cs, mid.count (.ticked c) + mid.count (.removed c) = 1

/-- The invariant holds at each event of a run. -/
lemma integrity_of_run_append (hrun : machine.Run built is os₁ s)
    (hroom : (TCPServer.ids (os₁ ++ os₂)).length < 2 ^ 31 - 1) : Integrity os₁ s := by
  refine integrity_of_run hrun ?_
  rw [ids_append, List.length_append] at hroom
  omega

lemma Integrity.removed (h : Integrity os s) (hrun : machine.Run built is os s)
    (hroom : (TCPServer.ids os).length < 2 ^ 31 - 1) (hos : os = os₁ ++ .removed c :: os₂) :
    .foundClosed c ∈ os₁ ∧ .removed c ∉ os₁ ++ os₂ ∧ .ticked c ∉ os₂ ∧ c ∉ s.table.members := by
  subst hos
  obtain ⟨hfirst, hlast⟩ := h.lives.story_of_removed
  have hnone (e : Event) (he : Concerns c e = true) : e ∉ os₂ := by
    intro hmem
    have hstory := mem_story_iff.mpr ⟨hmem, he⟩
    rw [hlast] at hstory
    cases hstory
  obtain ⟨is₁, i, is₂, u, v, hbefore, hremoved, -⟩ := exists_step_of_mem hrun
  refine ⟨?_, ?_, hnone _ (by simp [Concerns]), fun hc => ?_⟩
  · cases hremoved with
    | removed hphase =>
        exact (integrity_of_run_append hbefore hroom).recorded c (by simp [hphase, Phase.doomed])
  · rw [List.mem_append, not_or]
    exact ⟨fun hmem => hfirst (mem_story_iff.mpr ⟨hmem, by simp [Concerns]⟩),
      hnone _ (by simp [Concerns])⟩
  · exact (h.lives.mem_members_iff.mp hc).2 (by simp)

lemma iteration_of_run {cs : List ℕ} {mid : List Event} (hrun : machine.Run built is os s)
    (hroom : (TCPServer.ids os).length < 2 ^ 31 - 1)
    (hos : os = os₁ ++ .scanned cs :: (mid ++ .iterated :: os₂)) (hmid : .iterated ∉ mid) :
    (∀ c : ℕ, c ∈ cs ↔ (∃ id : ℤ, .started c id ∈ os₁) ∧ .removed c ∉ os₁) ∧
      ∀ c ∈ cs, mid.count (.ticked c) + mid.count (.removed c) = 1 := by
  subst hos
  obtain ⟨is₁, i, is₂, u, v, hbefore, hscanned, hafter⟩ := exists_step_of_mem hrun
  obtain ⟨rfl, hbalanced⟩ := balanced_of_scanned hscanned
  have hall := integrity_of_run_append hbefore hroom
  refine ⟨fun c => hall.lives.mem_members_iff, fun c hc => ?_⟩
  rw [hbalanced.scan hafter hmid c]
  exact List.count_eq_one_of_mem hall.waits.keyed.nodup hc

/-- **The connection table stays intact** over the runs of a server that accepts fewer
connections than there are ids. -/
theorem table_intact (hrun : machine.Run built is os s)
    (hroom : (ids os).length < 2 ^ 31 - 1) : TableIntact os s := by
  have hall := integrity_of_run hrun hroom
  refine ⟨fun k c hk => ⟨hall.waits.keyed.id k c hk, hall.waits.keyed.range k c hk⟩,
    hall.waits.keyed.nodup, ?_, fun c id => hall.getElem_of_started,
    fun c os₁ os₂ => hall.removed hrun hroom,
    fun cs os₁ mid os₂ => iteration_of_run hrun hroom⟩
  obtain ⟨n, -, hids⟩ := hall.numbered
  exact hids ▸ List.nodup_range.map Nat.cast_injective

/-- Two clients; the second is ticked and the first, whose socket was closed, is removed. -/
theorem table_intact_two :
    ∃ os s, machine.Run built [.start, .loop, .step, .step, .complete 0 true, .step, .step,
        .complete 1 true, .step, .step, .close 0, .endPoll, .step, .step, .step, .step, .step]
        os s ∧ TableIntact os s ∧ s.table.members = [1] ∧ .ticked 1 ∈ os ∧ .removed 0 ∈ os := by
  obtain ⟨os, s, hrun, hroom, hrest⟩ : ∃ os s, machine.Run built [.start, .loop, .step, .step,
      .complete 0 true, .step, .step, .complete 1 true, .step, .step, .close 0, .endPoll, .step,
      .step, .step, .step, .step] os s ∧ (ids os).length < 2 ^ 31 - 1 ∧
      s.table.members = [1] ∧ .ticked 1 ∈ os ∧ .removed 0 ∈ os :=
    ⟨_, _, run_iff_exec.mpr rfl, by decide, by decide, by decide, by decide⟩
  exact ⟨os, s, hrun, table_intact hrun hroom, hrest⟩

end TCPServer

end Xsix

import Xsix.Chat.Message
import Xsix.Network.Table

/-!
`chat_room_server.cc`: the broadcasts of the room and the send queues of its connections.

Handlers run one at a time. An `async_write` is outstanding until it completes, with its
frame sent as it was at the call, or fails; nothing but the emptiness of the queue says
whether one is. Connections enter and leave the table as in `TCPServer`.

* `Keeps`: a send queue against the frames it was given and those it has handed to
  `async_write`; `Keeps.sendMsgToClient` and `Keeps.handleWrite` are its step lemmas.
* `broadcastTo_sender`, `handed_broadcastTo`: a broadcast gives its text to each member
  of the table once.
* `ordered_broadcast`: what each connection was handed is a prefix of the broadcasts it
  heard.
-/

namespace Xsix

open Memory Machine ConnTable

/-- The sending side of `Connection`: its queue, and the frames of the outstanding
writes. -/
structure Sender where
  mSendQueue : List ChatRoomMsg
  outstanding : List (List UInt8)

namespace Sender

/-- `Connection::do_write`, with the frame it hands to `async_write`. -/
def doWrite (s : Sender) : Sender × List (List UInt8) :=
  match s.mSendQueue with
  | [] => (s, [])
  | front :: _ => ({ s with outstanding := s.outstanding ++ [front.getBuf] }, [front.getBuf])

/-- `Connection::send_msg_to_client`; `sendbackmsg` is the message object before
`set_content`. -/
def sendMsgToClient (s : Sender) (sendbackmsg : ChatRoomMsg) (msg : ℤ → UInt8) (msgsize : ℤ) :
    Sender × List (List UInt8) :=
  let iswriting := !s.mSendQueue.isEmpty
  let pushed := { s with mSendQueue := s.mSendQueue ++ [sendbackmsg.setContent msg msgsize] }
  if iswriting then (pushed, []) else pushed.doWrite

/-- The handler of `async_write`. -/
def handleWrite (s : Sender) (ok : Bool) : Sender × List (List UInt8) :=
  let completed := { s with outstanding := s.outstanding.tail }
  if ok then
    let popped := { completed with mSendQueue := completed.mSendQueue.tail }
    if popped.mSendQueue.isEmpty then (popped, []) else popped.doWrite
  else (completed, [])

/-- The queue of a connection just constructed. -/
def built : Sender := ⟨[], []⟩

/-! ### One queue -/

/-- The frames `handed` to `async_write` and those that wait behind the front of the queue
are the `heard` ones; the front is being written, unless a write has failed. -/
structure Keeps (s : Sender) (handed heard : List (List UInt8)) (failed : Prop) : Prop where
  frames : handed ++ s.mSendQueue.tail.map (·.getBuf) = heard
  writing : ¬ failed → s.outstanding = s.mSendQueue.head?.toList.map (·.getBuf)
  stuck : failed → s.outstanding = [] ∧ s.mSendQueue ≠ []

variable {s : Sender} {handed heard : List (List UInt8)} {failed : Prop} {object : ChatRoomMsg}
  {msg : ℤ → UInt8} {size : ℤ}

lemma keeps_built (hlive : ¬ failed) : Keeps built [] [] failed :=
  ⟨rfl, fun _ => rfl, fun hf => absurd hf hlive⟩

/-- **A text that is sent joins the queue**, and is written at once if it is empty. -/
lemma Keeps.sendMsgToClient (h : Keeps s handed heard failed) (h0 : 0 ≤ size)
    (h1 : size < 2 ^ 16) :
    Keeps (s.sendMsgToClient object msg size).1 (handed ++ (s.sendMsgToClient object msg size).2)
      (heard ++ [frame (read msg 0 size)]) failed := by
  have hbuf : (object.setContent msg size).getBuf = frame (read msg 0 size) :=
    ChatRoomMsg.getBuf_setContent h0 h1
  cases hqueue : s.mSendQueue with
  | nil =>
      have hlive : ¬ failed := fun hf => (h.stuck hf).2 hqueue
      have hsend : s.sendMsgToClient object msg size =
          (⟨[object.setContent msg size], s.outstanding ++ [frame (read msg 0 size)]⟩,
            [frame (read msg 0 size)]) := by
        simp [Sender.sendMsgToClient, hqueue, doWrite, hbuf]
      have hnone : s.outstanding = [] := by rw [h.writing hlive, hqueue]; rfl
      have hall : handed = heard := by simpa [hqueue] using h.frames
      rw [hsend]
      exact ⟨by simp [hall], fun _ => by simp [hnone, hbuf], fun hf => absurd hf hlive⟩
  | cons front rest =>
      have hsend : s.sendMsgToClient object msg size =
          (⟨front :: (rest ++ [object.setContent msg size]), s.outstanding⟩, []) := by
        simp [Sender.sendMsgToClient, hqueue]
      have hframes := h.frames
      have hwriting := h.writing
      rw [hqueue] at hframes hwriting
      rw [hsend]
      refine ⟨?_, hwriting, fun hf => ⟨(h.stuck hf).1, List.cons_ne_nil _ _⟩⟩
      simpa [hbuf] using congrArg (· ++ [frame (read msg 0 size)]) hframes

/-- **A write that completes is followed by the next one of the queue.** -/
lemma Keeps.handleWrite (h : Keeps s handed heard failed) (hout : s.outstanding ≠ []) :
    Keeps (s.handleWrite true).1 (handed ++ (s.handleWrite true).2) heard failed := by
  have hlive : ¬ failed := fun hf => hout (h.stuck hf).1
  have hframes := h.frames
  have hwriting := h.writing hlive
  cases hqueue : s.mSendQueue with
  | nil =>
      rw [hqueue] at hwriting
      exact absurd hwriting hout
  | cons front rest =>
      rw [hqueue] at hframes hwriting
      cases rest with
      | nil =>
          have hdone : s.handleWrite true = (⟨[], []⟩, []) := by
            simp [Sender.handleWrite, hqueue, hwriting]
          rw [hdone]
          exact ⟨by simpa using hframes, fun _ => rfl, fun hf => absurd hf hlive⟩
      | cons second later =>
          have hnext : s.handleWrite true =
              (⟨second :: later, [second.getBuf]⟩, [second.getBuf]) := by
            simp [Sender.handleWrite, hqueue, hwriting, doWrite]
          rw [hnext]
          exact ⟨by simpa using hframes, fun _ => rfl, fun hf => absurd hf hlive⟩

/-- After a write that failed the queue stays as it is. -/
lemma Keeps.handleWrite_failed (h : Keeps s handed heard failed) (hout : s.outstanding ≠ []) :
    Keeps (s.handleWrite false).1 (handed ++ (s.handleWrite false).2) heard True := by
  have hlive : ¬ failed := fun hf => hout (h.stuck hf).1
  have hwriting := h.writing hlive
  cases hqueue : s.mSendQueue with
  | nil =>
      rw [hqueue] at hwriting
      exact absurd hwriting hout
  | cons front rest =>
      have hstop : s.handleWrite false = (⟨front :: rest, []⟩, []) := by
        rw [hqueue] at hwriting
        simp [Sender.handleWrite, hqueue, hwriting]
      have hframes := h.frames
      rw [hqueue] at hframes
      rw [hstop]
      exact ⟨by simpa using hframes, fun hnot => absurd trivial hnot,
        fun _ => ⟨rfl, List.cons_ne_nil _ _⟩⟩

/-- At most one write is outstanding. -/
lemma Keeps.length_le (h : Keeps s handed heard failed) : s.outstanding.length ≤ 1 := by
  by_cases hf : failed
  · simp [(h.stuck hf).1]
  · rw [h.writing hf]
    cases s.mSendQueue <;> simp

/-- The queue is not empty exactly when a write is outstanding. -/
lemma Keeps.ne_nil_iff (h : Keeps s handed heard failed) (hf : ¬ failed) :
    s.mSendQueue ≠ [] ↔ s.outstanding ≠ [] := by
  rw [h.writing hf]
  cases s.mSendQueue <;> simp

end Sender

/-- The connection table of `ChatRoomServer` and the sending sides of its connections. -/
structure ChatRoom where
  table : ConnTable
  sender : ℕ → Sender

namespace ChatRoom

/-- What may happen next: a connection is accepted or removed, a text is broadcast (to each
member in a message object of its own), or a write completes or fails. -/
inductive Input where
  | accept
  | remove (c : ℕ)
  | broadcast (sendbackmsg : ℕ → ChatRoomMsg) (msg : ℤ → UInt8) (size : ℕ)
  | complete (c : ℕ) (ok : Bool)

/-- What is observed. -/
inductive Event where
  | accepted (c : ℕ)
  | removed (c : ℕ)
  | broadcast (members : List ℕ) (text : List UInt8)
  | handed (c : ℕ) (frame : List UInt8)
  | written (c : ℕ)
  | failed (c : ℕ)
  deriving DecidableEq

/-- An empty room. -/
def built : ChatRoom := ⟨.built, fun _ => .built⟩

/-- The loop of `ChatRoomServer::broadcast` over the connections of the table. -/
def broadcastTo (sendbackmsg : ℕ → ChatRoomMsg) (msg : ℤ → UInt8) (size : ℤ) :
    List ℕ → (ℕ → Sender) → (ℕ → Sender) × List Event
  | [], sender => (sender, [])
  | c :: cs, sender =>
      let sent := (sender c).sendMsgToClient (sendbackmsg c) msg size
      let rest := broadcastTo sendbackmsg msg size cs (Function.update sender c sent.1)
      (rest.1, sent.2.map (.handed c) ++ rest.2)

/-- The room and its environment. -/
def machine : Machine ChatRoom Input Event where
  next s
    | .accept =>
        let table := s.table.createNewConnection
        some ({ s with table := table.addConn (some s.table.created) },
          [.accepted s.table.created])
    | .remove c =>
        if c ∈ s.table.members
        then some ({ s with table := s.table.handleRemoveConnection (some c) }, [.removed c])
        else none
    | .broadcast sendbackmsg msg size =>
        let sent := broadcastTo sendbackmsg msg size s.table.members s.sender
        some ({ s with sender := sent.1 },
          .broadcast s.table.members (read msg 0 size) :: sent.2)
    | .complete c ok =>
        if (s.sender c).outstanding = [] then none
        else
          let handled := (s.sender c).handleWrite ok
          -- `handle_error` closes the socket of a connection whose write has failed
          let table := if ok then s.table else s.table.modify c (·.setOpen false)
          some ({ table := table, sender := Function.update s.sender c handled.1 },
            (if ok then .written c else .failed c) :: handled.2.map (.handed c))

/-- A text that is broadcast has at most 1024 bytes. -/
def Short : Input → Prop
  | .broadcast _ _ size => size ≤ 1024
  | _ => True

instance (i : Input) : Decidable (Short i) := by
  unfold Short
  cases i <;> infer_instance

/-- The room with texts that fit into a message. -/
def room : Machine ChatRoom Input Event := machine.restrict fun _ i => Short i

/-- The texts broadcast while `c` was in the table. -/
def heard (c : ℕ) (os : List Event) : List (List UInt8) :=
  os.filterMap fun
    | .broadcast members text => if c ∈ members then some text else none
    | _ => none

/-- The texts broadcast while `c` and `d` were both in the table. -/
def common (c d : ℕ) (os : List Event) : List (List UInt8) :=
  os.filterMap fun
    | .broadcast members text => if c ∈ members ∧ d ∈ members then some text else none
    | _ => none

/-- The frames handed to `async_write` on `c`. -/
def handed (c : ℕ) (os : List Event) : List (List UInt8) :=
  os.filterMap fun
    | .handed d frame => if d = c then some frame else none
    | _ => none

@[simp] lemma heard_append (c : ℕ) (os o : List Event) :
    heard c (os ++ o) = heard c os ++ heard c o := List.filterMap_append

@[simp] lemma handed_append (c : ℕ) (os o : List Event) :
    handed c (os ++ o) = handed c os ++ handed c o := List.filterMap_append

variable {s u : ChatRoom} {i : Input} {is : List Input} {os o : List Event} {c d : ℕ}
  {sendbackmsg : ℕ → ChatRoomMsg} {msg : ℤ → UInt8} {size : ℤ} {cs : List ℕ}
  {sender : ℕ → Sender} {frames : List (List UInt8)}

/-! ### One broadcast -/

lemma handed_map_handed : handed c (frames.map (.handed d)) = if d = c then frames else [] := by
  induction frames with
  | nil => simp [handed]
  | cons f frames ih =>
      rw [List.map_cons, ← List.singleton_append, handed_append, ih]
      by_cases hd : d = c
      · simp [handed, hd]
      · simp [handed, hd]

/-- A broadcast sends its text once to each connection of the list. -/
lemma broadcastTo_sender (h : cs.Nodup) : (broadcastTo sendbackmsg msg size cs sender).1 c =
    if c ∈ cs then ((sender c).sendMsgToClient (sendbackmsg c) msg size).1 else sender c := by
  induction cs generalizing sender with
  | nil => rfl
  | cons d cs ih =>
      obtain ⟨hd, hcs⟩ := List.nodup_cons.mp h
      rw [broadcastTo, ih hcs]
      by_cases hcd : c = d
      · subst hcd
        rw [if_neg hd, if_pos List.mem_cons_self, Function.update_self]
      · simp only [List.mem_cons, hcd, false_or, Function.update_of_ne hcd]

lemma handed_broadcastTo (h : cs.Nodup) :
    handed c (broadcastTo sendbackmsg msg size cs sender).2 =
      if c ∈ cs then ((sender c).sendMsgToClient (sendbackmsg c) msg size).2 else [] := by
  induction cs generalizing sender with
  | nil => rfl
  | cons d cs ih =>
      obtain ⟨hd, hcs⟩ := List.nodup_cons.mp h
      rw [broadcastTo, handed_append, handed_map_handed, ih hcs]
      by_cases hcd : c = d
      · subst hcd
        rw [if_neg hd, if_pos rfl, if_pos List.mem_cons_self, List.append_nil]
      · simp only [List.mem_cons, hcd, Ne.symm hcd, false_or, if_false, List.nil_append,
          Function.update_of_ne hcd]

/-- What is sent in a broadcast are frames that are handed out. -/
lemma exists_of_mem_broadcastTo {e : Event}
    (h : e ∈ (broadcastTo sendbackmsg msg size cs sender).2) :
    ∃ (c : ℕ) (f : List UInt8), e = .handed c f := by
  induction cs generalizing sender with
  | nil => cases h
  | cons d cs ih =>
      rcases List.mem_append.mp h with h | h
      · obtain ⟨f, -, rfl⟩ := List.mem_map.mp h
        exact ⟨d, f, rfl⟩
      · exact ih h

lemma heard_broadcastTo : heard c (broadcastTo sendbackmsg msg size cs sender).2 = [] := by
  refine List.filterMap_eq_nil_iff.mpr fun e he => ?_
  obtain ⟨d, f, rfl⟩ := exists_of_mem_broadcastTo he
  rfl

/-! ### Runs -/

/-- The queue of `c` against what `c` has heard and was handed. -/
def Serves (os : List Event) (s : ChatRoom) (c : ℕ) : Prop :=
  (s.sender c).Keeps (handed c os) ((heard c os).map frame) (.failed c ∈ os)

/-- The invariant of the room. -/
structure InOrder (os : List Event) (s : ChatRoom) : Prop where
  named : Named s.table
  serves : ∀ c : ℕ, Serves os s c

lemma inOrder_built : InOrder [] built :=
  ⟨named_built, fun _ => Sender.keeps_built List.not_mem_nil⟩

lemma serves_append_iff : Serves (os ++ o) u c ↔
    (u.sender c).Keeps (handed c os ++ handed c o) ((heard c os).map frame ++ (heard c o).map frame)
      (.failed c ∈ os ∨ .failed c ∈ o) := by
  rw [Serves, handed_append, heard_append, List.map_append, List.mem_append]

/-- A step that leaves the sending side of a connection. -/
lemma Serves.of_same (h : Serves os s c) (hsender : u.sender c = s.sender c)
    (hhanded : handed c o = []) (hheard : heard c o = []) (hfailed : .failed c ∉ o) :
    Serves (os ++ o) u c := by
  rw [serves_append_iff, hsender, hhanded, hheard, List.map_nil, List.append_nil,
    List.append_nil, or_iff_left hfailed]
  exact h

lemma Named.accept {t : ConnTable} (h : Named t) :
    Named (t.createNewConnection.addConn (some t.created)) := by
  have hnew : t.created ∉ t.createNewConnection.members := by
    rw [(undisturbed_createNewConnection t).members]
    exact fun hmem => (h.lt_created hmem).false
  exact (h.of_undisturbed (undisturbed_createNewConnection t)).addConn (Nat.lt_succ_self _) hnew

/-- **One broadcast** is heard by the members of the table. -/
lemma Serves.broadcast (h : Serves os s c) (hnodup : s.table.members.Nodup) {k : ℕ}
    (hk : k ≤ 1024) (hu : u.sender = (broadcastTo sendbackmsg msg k s.table.members s.sender).1)
    (ho : o = .broadcast s.table.members (read msg 0 k) ::
      (broadcastTo sendbackmsg msg k s.table.members s.sender).2) :
    Serves (os ++ o) u c := by
  have hsender : u.sender c = if c ∈ s.table.members
      then ((s.sender c).sendMsgToClient (sendbackmsg c) msg k).1 else s.sender c := by
    rw [hu, broadcastTo_sender hnodup]
  have hhanded : handed c o = if c ∈ s.table.members
      then ((s.sender c).sendMsgToClient (sendbackmsg c) msg k).2 else [] := by
    rw [ho, ← handed_broadcastTo hnodup]
    rfl
  have hheard : heard c o = if c ∈ s.table.members then [read msg 0 k] else [] := by
    rw [ho, ← List.singleton_append, heard_append, heard_broadcastTo, List.append_nil]
    by_cases hc : c ∈ s.table.members <;> simp [heard, hc]
  have hfailed : .failed c ∉ o := by
    rw [ho]
    intro hmem
    obtain ⟨d, f, hd⟩ := exists_of_mem_broadcastTo (List.mem_of_ne_of_mem (by simp) hmem)
    cases hd
  by_cases hc : c ∈ s.table.members
  · rw [if_pos hc] at hhanded hheard hsender
    rw [serves_append_iff, hsender, hhanded, hheard, or_iff_left hfailed]
    exact h.sendMsgToClient (Int.natCast_nonneg k) (by omega)
  · rw [if_neg hc] at hhanded hheard hsender
    exact h.of_same hsender hhanded hheard hfailed

/-- **One completion of a write** concerns one connection. -/
lemma Serves.complete {ok : Bool} (h : Serves os s c) (hout : (s.sender d).outstanding ≠ [])
    (hu : u.sender = Function.update s.sender d ((s.sender d).handleWrite ok).1)
    (ho : o = (if ok then .written d else .failed d) ::
      ((s.sender d).handleWrite ok).2.map (.handed d)) :
    Serves (os ++ o) u c := by
  have hhanded : handed c o = if d = c then ((s.sender d).handleWrite ok).2 else [] := by
    rw [ho, ← handed_map_handed]
    cases ok <;> rfl
  have hheard : heard c o = [] := by
    rw [ho]
    refine List.filterMap_eq_nil_iff.mpr fun e he => ?_
    rcases List.mem_cons.mp he with rfl | he
    · cases ok <;> rfl
    · obtain ⟨f, -, rfl⟩ := List.mem_map.mp he
      rfl
  have hfailed : .failed c ∈ o ↔ ok = false ∧ d = c := by
    rw [ho]
    cases ok <;> simp [eq_comm]
  by_cases hd : d = c
  · subst hd
    rw [if_pos rfl] at hhanded
    rw [serves_append_iff, hu, Function.update_self, hhanded, hheard, hfailed, List.map_nil,
      List.append_nil]
    cases ok with
    | true =>
        simp only [Bool.true_eq_false, false_and, or_false]
        exact h.handleWrite hout
    | false =>
        simp only [and_self, or_true]
        exact h.handleWrite_failed hout
  · rw [if_neg hd] at hhanded
    refine h.of_same ?_ hhanded hheard fun hmem => hd (hfailed.mp hmem).2
    rw [hu, Function.update_of_ne (Ne.symm hd)]

/-- **One step of the room.** -/
lemma InOrder.step (h : InOrder os s) (hn : room.next s i = some (u, o)) :
    InOrder (os ++ o) u := by
  obtain ⟨hshort, hn⟩ := restrict_next_iff.mp hn
  cases i with
  | accept =>
      obtain ⟨rfl, rfl⟩ := Prod.mk.inj (Option.some.inj hn)
      exact ⟨Named.accept h.named, fun c => (h.serves c).of_same rfl rfl rfl (by simp)⟩
  | remove d =>
      simp only [machine] at hn
      split_ifs at hn with hd
      obtain ⟨rfl, rfl⟩ := Prod.mk.inj (Option.some.inj hn)
      exact ⟨h.named.handleRemoveConnection, fun c => (h.serves c).of_same rfl rfl rfl (by simp)⟩
  | broadcast sendbackmsg msg k =>
      obtain ⟨rfl, rfl⟩ := Prod.mk.inj (Option.some.inj hn)
      exact ⟨h.named, fun c => (h.serves c).broadcast h.named.nodup hshort rfl rfl⟩
  | complete d ok =>
      by_cases hnone : (s.sender d).outstanding = []
      · simp only [machine, if_pos hnone] at hn
        cases hn
      · simp only [machine, if_neg hnone] at hn
        obtain ⟨rfl, rfl⟩ := Prod.mk.inj (Option.some.inj hn)
        refine ⟨?_, fun c => (h.serves c).complete hnone rfl rfl⟩
        cases ok with
        | true => exact h.named
        | false => exact h.named.of_undisturbed (undisturbed_setOpen _ _ _)

/-- A connection was handed what it heard up to some event. -/
lemma Serves.exists_front (h : Serves os s c) :
    ∃ pre : List Event, pre <+: os ∧ handed c os = (heard c pre).map frame := by
  have hfront : handed c os <+: (heard c os).map frame := ⟨_, h.frames⟩
  obtain ⟨texts, htexts, hhanded⟩ := List.prefix_map_iff.mp hfront
  obtain ⟨pre, hpre, rfl⟩ := List.prefix_filterMap_iff.mp htexts
  exact ⟨pre, hpre, hhanded⟩

/-- **Ordered broadcast**: in every run of the room, on every connection at most one write is
outstanding; the frames handed to it are a prefix of the broadcasts it heard; until its
first write error the frame being written is the front of its queue, and the queue is not
empty exactly when a write is outstanding. Any two connections were each handed what they
heard up to some event, so that of the broadcasts they both heard one was handed a prefix
of what the other was. -/
theorem ordered_broadcast (hrun : room.Run built is os s) (c : ℕ) :
    (s.sender c).outstanding.length ≤ 1 ∧
    handed c os <+: (heard c os).map frame ∧
    (.failed c ∉ os →
      (s.sender c).outstanding = (s.sender c).mSendQueue.head?.toList.map (·.getBuf) ∧
        ((s.sender c).mSendQueue ≠ [] ↔ (s.sender c).outstanding ≠ [])) ∧
    ∀ d : ℕ, ∃ pre pre' : List Event, pre <+: os ∧ pre' <+: os ∧
      handed c os = (heard c pre).map frame ∧ handed d os = (heard d pre').map frame ∧
      (common c d pre <+: common c d pre' ∨ common c d pre' <+: common c d pre) := by
  have hall : InOrder os s := hrun.invariant inOrder_built fun _ _ _ _ _ h hn => h.step hn
  refine ⟨(hall.serves c).length_le, ⟨_, (hall.serves c).frames⟩,
    fun hlive => ⟨(hall.serves c).writing hlive, (hall.serves c).ne_nil_iff hlive⟩, ?_⟩
  intro d
  obtain ⟨pre, hpre, hhanded⟩ := (hall.serves c).exists_front
  obtain ⟨pre', hpre', hhanded'⟩ := (hall.serves d).exists_front
  refine ⟨pre, pre', hpre, hpre', hhanded, hhanded', ?_⟩
  -- the two events lie in one history, so one of them is not after the other
  rcases List.prefix_or_prefix_of_prefix hpre hpre' with hfirst | hfirst
  · exact .inl (hfirst.filterMap _)
  · exact .inr (hfirst.filterMap _)

/-- Two connections and two broadcasts of one byte; the first has both frames handed to it,
the second waits for its first write. -/
theorem ordered_broadcast_two :
    ∃ os s, room.Run built [.accept, .accept,
        .broadcast (fun _ => .built fun _ => 0) (fun _ => 1) 1,
        .broadcast (fun _ => .built fun _ => 0) (fun _ => 2) 1, .complete 0 true] os s ∧
      handed 0 os = [[0, 1, 1], [0, 1, 2]] ∧ handed 1 os = [[0, 1, 1]] ∧
      handed 1 os <+: (heard 1 os).map frame ∧ (s.sender 1).outstanding.length ≤ 1 := by
  obtain ⟨os, s, hrun, hhanded, hhanded'⟩ : ∃ os s, room.Run built [.accept, .accept,
      .broadcast (fun _ => .built fun _ => 0) (fun _ => 1) 1,
      .broadcast (fun _ => .built fun _ => 0) (fun _ => 2) 1, .complete 0 true] os s ∧
      handed 0 os = [[0, 1, 1], [0, 1, 2]] ∧ handed 1 os = [[0, 1, 1]] :=
    ⟨_, _, run_iff_exec.mpr rfl, by decide, by decide⟩
  have hordered := ordered_broadcast hrun 1
  exact ⟨os, s, hrun, hhanded, hhanded', hordered.2.1, hordered.1⟩

end ChatRoom

end Xsix

import Xsix.Chat.System
import Mathlib.Data.List.TakeWhile

/-!
What the room delivers, over whole runs of the server with its clients.

Both directions of each line are channels (`Flows`), the client's from its queue to the
texts the server handles, the server's from the broadcasts to the texts the client handles.
-/

namespace Xsix

open CInt Memory Machine ConnTable

/-! ### Texts -/

lemma length_getRandomMsg (draws : Fin 10 → Fin 61) : (getRandomMsg draws).length = 10 := by
  simp [getRandomMsg]

lemma ne_zero_of_mem_getRandomMsg {draws : Fin 10 → Fin 61} {b : UInt8}
    (h : b ∈ getRandomMsg draws) : b ≠ 0 := by
  obtain ⟨i, rfl⟩ := (List.mem_ofFn' _ _).mp h
  have hchars : ∀ b ∈ randomChars, b ≠ 0 := by decide +kernel
  have hlt : (draws i : ℕ) < randomChars.length := (draws i).isLt.trans (by decide)
  have hget : randomChars.getD (draws i) 0 = randomChars[(draws i : ℕ)] := by
    rw [List.getD_eq_getElem?_getD, List.getElem?_eq_getElem hlt, Option.getD_some]
  have hne : randomChars.getD (draws i) 0 ≠ 0 := hget ▸ hchars _ (List.getElem_mem hlt)
  exact hne

/-- `%s` writes the whole of a text without a zero byte. -/
lemma cString_eq_self {text : List UInt8} (h : ∀ b ∈ text, b ≠ 0) : cString text = text := by
  rw [cString, List.takeWhile_eq_self_iff]
  exact fun b hb => decide_eq_true (h b hb)

/-- A 32-bit number is written with at most eleven characters. -/
lemma length_decimal_le {id : ℤ} (h : IsInt32 id) : (decimal id).length ≤ 11 := by
  have hrepr : ∀ n < 10 ^ 10, (Nat.repr n).toList.length ≤ 10 := fun n hn =>
    (Nat.length_repr_le_iff (by omega)).mpr hn
  obtain ⟨hlow, hhigh⟩ := h
  rw [decimal, ascii, List.length_map, Int.toString_eq_repr, Int.repr_eq_if]
  split_ifs with hsign
  · exact (hrepr _ (by omega)).trans (by omega)
  · have hle := hrepr (-id).toNat (by omega)
    rw [String.toList_append, List.length_append]
    exact Nat.add_le_add (show "-".toList.length ≤ 1 by decide) hle

lemma length_guestText (id : ℤ) (text : List UInt8) : (guestText id text).length =
    8 + (decimal id).length + (cString text).length := by
  have h := Handled.sendbacksize_eq id text
  rw [sendbacksize] at h
  exact_mod_cast h

/-- What `snprintf` left in the buffer is the whole text if there is room for it. -/
lemma read_guestBuf {id : ℤ} {text : List UInt8} (h : (guestText id text).length ≤ 4095) :
    read (guestBuf id text) 0 (guestText id text).length = guestText id text := by
  rw [guestBuf, List.take_of_length_le h]
  exact read_write

namespace ChatSystem

/-! ### What was sent and received -/

/-- The events of the room. -/
def roomEvents (os : List Event) : List ChatRoom.Event :=
  os.filterMap fun
    | .room e => some e
    | _ => none

/-- The texts the client of `c` sent. -/
def sentBy (c : ℕ) (os : List Event) : List (List UInt8) :=
  os.filterMap fun
    | .sent d text => if d = c then some text else none
    | _ => none

/-- The texts the server got from the client of `c`. -/
def gotFrom (c : ℕ) (os : List Event) : List (List UInt8) :=
  os.filterMap fun
    | .got d h => if d = c then some h.recvRealMsg else none
    | _ => none

/-- The texts broadcast while `c` was a member. -/
def heard (c : ℕ) (os : List Event) : List (List UInt8) := ChatRoom.heard c (roomEvents os)

/-- The texts the client of `c` received. -/
def receivedBy (c : ℕ) (os : List Event) : List (List UInt8) :=
  os.filterMap fun
    | .received d h => if d = c then some h.recvRealMsg else none
    | _ => none

variable {os o : List Event} {s t u : ChatSystem} {i : Input} {is : List Input} {c d : ℕ}
  {es : List ChatRoom.Event}

@[simp] lemma roomEvents_append (os o : List Event) :
    roomEvents (os ++ o) = roomEvents os ++ roomEvents o := List.filterMap_append

@[simp] lemma sentBy_append (c : ℕ) (os o : List Event) :
    sentBy c (os ++ o) = sentBy c os ++ sentBy c o := List.filterMap_append

@[simp] lemma gotFrom_append (c : ℕ) (os o : List Event) :
    gotFrom c (os ++ o) = gotFrom c os ++ gotFrom c o := List.filterMap_append

@[simp] lemma heard_append (c : ℕ) (os o : List Event) :
    heard c (os ++ o) = heard c os ++ heard c o := by
  rw [heard, roomEvents_append, ChatRoom.heard_append, heard, heard]

@[simp] lemma receivedBy_append (c : ℕ) (os o : List Event) :
    receivedBy c (os ++ o) = receivedBy c os ++ receivedBy c o := List.filterMap_append

@[simp] lemma roomEvents_map (es : List ChatRoom.Event) : roomEvents (es.map .room) = es := by
  simp [roomEvents, List.filterMap_map]

@[simp] lemma sentBy_map (c : ℕ) (es : List ChatRoom.Event) : sentBy c (es.map .room) = [] := by
  simp [sentBy]

@[simp] lemma gotFrom_map (c : ℕ) (es : List ChatRoom.Event) : gotFrom c (es.map .room) = [] := by
  simp [gotFrom]

@[simp] lemma receivedBy_map (c : ℕ) (es : List ChatRoom.Event) :
    receivedBy c (es.map .room) = [] := by
  simp [receivedBy]

/-! ### The two directions of a line -/

/-- Both directions of the line of `c` are channels. -/
structure Flows (os : List Event) (s : ChatSystem) (c : ℕ) : Prop where
  up : Channel (s.line c).client.sender (s.line c).up (s.line c).connection
    (c < s.room.table.created) (sentBy c os) (gotFrom c os) (.failed c ∈ os)
  down : Channel (s.room.sender c) (s.line c).down (s.line c).client.reader
    ((s.line c).client.connected = true) (heard c os) (receivedBy c os)
    (.room (.failed c) ∈ os)

/-- The events leave the direction to the server as it was. -/
structure SilentUp (c : ℕ) (o : List Event) : Prop where
  sent : sentBy c o = []
  got : gotFrom c o = []
  failed : .failed c ∉ o

/-- The events leave the direction to the client as it was. -/
structure SilentDown (c : ℕ) (o : List Event) : Prop where
  heard : heard c o = []
  received : receivedBy c o = []
  failed : .room (.failed c) ∉ o

lemma silentUp_nil : SilentUp c [] := ⟨rfl, rfl, List.not_mem_nil⟩

lemma silentDown_nil : SilentDown c [] := ⟨rfl, rfl, List.not_mem_nil⟩

lemma Flows.up_append (h : Flows os s c) (ho : SilentUp c o) :
    Channel (s.line c).client.sender (s.line c).up (s.line c).connection
      (c < s.room.table.created) (sentBy c (os ++ o)) (gotFrom c (os ++ o))
      (.failed c ∈ os ++ o) := by
  rw [sentBy_append, gotFrom_append, ho.sent, ho.got, List.append_nil, List.append_nil,
    List.mem_append, or_iff_left ho.failed]
  exact h.up

lemma Flows.down_append (h : Flows os s c) (ho : SilentDown c o) :
    Channel (s.room.sender c) (s.line c).down (s.line c).client.reader
      ((s.line c).client.connected = true) (heard c (os ++ o)) (receivedBy c (os ++ o))
      (.room (.failed c) ∈ os ++ o) := by
  rw [heard_append, receivedBy_append, ho.heard, ho.received, List.append_nil, List.append_nil,
    List.mem_append, or_iff_left ho.failed]
  exact h.down

/-- A step that leaves a line. -/
lemma Flows.of_same (h : Flows os s c) (hline : u.line c = s.line c)
    (hsender : u.room.sender c = s.room.sender c)
    (hcreated : c < u.room.table.created ↔ c < s.room.table.created) (hup : SilentUp c o)
    (hdown : SilentDown c o) : Flows (os ++ o) u c := by
  refine ⟨?_, ?_⟩
  · rw [hline, hcreated]
    exact h.up_append hup
  · rw [hline, hsender]
    exact h.down_append hdown

@[simp] lemma setLine_self (l : Line) : (s.setLine c l).line c = l := Function.update_self ..

lemma setLine_of_ne (l : Line) (h : d ≠ c) : (s.setLine c l).line d = s.line d :=
  Function.update_of_ne h ..

@[simp] lemma setLine_room (l : Line) : (s.setLine c l).room = s.room := rfl

/-- A step that concerns one line: the other ones keep their channels, and this one has to be
shown to. -/
lemma flows_setLine {l : Line} (h : ∀ d, Flows os s d)
    (ho : ∀ d ≠ c, SilentUp d o ∧ SilentDown d o)
    (hup : Channel l.client.sender l.up l.connection (c < s.room.table.created)
      (sentBy c (os ++ o)) (gotFrom c (os ++ o)) (.failed c ∈ os ++ o))
    (hdown : Channel (s.room.sender c) l.down l.client.reader (l.client.connected = true)
      (heard c (os ++ o)) (receivedBy c (os ++ o)) (.room (.failed c) ∈ os ++ o)) (d : ℕ) :
    Flows (os ++ o) (s.setLine c l) d := by
  by_cases hd : d = c
  · subst hd
    refine ⟨?_, ?_⟩
    · rw [setLine_self]
      exact hup
    · rw [setLine_self]
      exact hdown
  · exact (h d).of_same (setLine_of_ne l hd) rfl Iff.rfl (ho d hd).1 (ho d hd).2

/-! ### What the room hands out and tells -/

@[simp] lemma heard_map (c : ℕ) (es : List ChatRoom.Event) :
    heard c (es.map .room) = ChatRoom.heard c es := by
  rw [heard, roomEvents_map]

@[simp] lemma room_mem_map {e : ChatRoom.Event} : Event.room e ∈ es.map .room ↔ e ∈ es := by simp

/-- The events of the room do not concern what clients send. -/
lemma silentUp_map : SilentUp c (es.map .room) :=
  ⟨sentBy_map c es, gotFrom_map c es, by simp⟩

lemma silentDown_map (hheard : ChatRoom.heard c es = []) (hfailed : .failed c ∉ es) :
    SilentDown c (es.map .room) :=
  ⟨by rw [heard_map, hheard], receivedBy_map c es, by rwa [room_mem_map]⟩

/-- What one step of the room does to the sending side of `c`: the frames it hands out, the
texts it lets `c` hear, and whether a write on `c` failed. -/
structure Does (room room' : ChatRoom) (es : List ChatRoom.Event) (c : ℕ) (sender : Sender)
    (frames texts : List (List UInt8)) (failed : Prop) : Prop where
  sender : room'.sender c = sender
  handed : ChatRoom.handed c es = frames
  heard : ChatRoom.heard c es = texts
  failed : .failed c ∈ es ↔ failed

variable {room room' : ChatRoom}

lemma does_accept (hn : ChatRoom.machine.next room .accept = some (room', es)) (c : ℕ) :
    Does room room' es c (room.sender c) [] [] False := by
  obtain ⟨rfl, rfl⟩ := Prod.mk.inj (Option.some.inj hn)
  exact ⟨rfl, rfl, rfl, by simp⟩

lemma does_remove (hn : ChatRoom.machine.next room (.remove d) = some (room', es)) (c : ℕ) :
    Does room room' es c (room.sender c) [] [] False := by
  simp only [ChatRoom.machine] at hn
  split_ifs at hn
  obtain ⟨rfl, rfl⟩ := Prod.mk.inj (Option.some.inj hn)
  exact ⟨rfl, rfl, rfl, by simp⟩

lemma does_broadcast {sendbackmsg : ℕ → ChatRoomMsg} {msg : ℤ → UInt8} {k : ℕ}
    (hn : ChatRoom.machine.next room (.broadcast sendbackmsg msg k) = some (room', es))
    (hnodup : room.table.members.Nodup) (c : ℕ) :
    if c ∈ room.table.members then
      Does room room' es c ((room.sender c).sendMsgToClient (sendbackmsg c) msg k).1
        ((room.sender c).sendMsgToClient (sendbackmsg c) msg k).2 [read msg 0 k] False
    else Does room room' es c (room.sender c) [] [] False := by
  obtain ⟨rfl, rfl⟩ := Prod.mk.inj (Option.some.inj hn)
  set told := ChatRoom.broadcastTo sendbackmsg msg k room.table.members room.sender with htold
  have hsender : told.1 c = if c ∈ room.table.members then
      ((room.sender c).sendMsgToClient (sendbackmsg c) msg k).1 else room.sender c :=
    ChatRoom.broadcastTo_sender hnodup
  have hhanded : ChatRoom.handed c told.2 = if c ∈ room.table.members then
      ((room.sender c).sendMsgToClient (sendbackmsg c) msg k).2 else [] :=
    ChatRoom.handed_broadcastTo hnodup
  have hheard : ChatRoom.heard c told.2 = [] := ChatRoom.heard_broadcastTo
  have hfailed : ChatRoom.Event.failed c ∉ told.2 := by
    intro hmem
    obtain ⟨_, _, heq⟩ := ChatRoom.exists_of_mem_broadcastTo hmem
    cases heq
  split_ifs with hc
  · rw [if_pos hc] at hsender hhanded
    refine ⟨hsender, hhanded, ?_, by simpa using hfailed⟩
    rw [← List.singleton_append, ChatRoom.heard_append, hheard]
    simp [ChatRoom.heard, hc]
  · rw [if_neg hc] at hsender hhanded
    refine ⟨hsender, hhanded, ?_, by simpa using hfailed⟩
    rw [← List.singleton_append, ChatRoom.heard_append, hheard]
    simp [ChatRoom.heard, hc]

lemma does_complete {ok : Bool}
    (hn : ChatRoom.machine.next room (.complete d ok) = some (room', es)) (c : ℕ) :
    if d = c then
      Does room room' es c ((room.sender c).handleWrite ok).1 ((room.sender c).handleWrite ok).2 []
        (ok = false)
    else Does room room' es c (room.sender c) [] [] False := by
  by_cases hnone : (room.sender d).outstanding = []
  · simp [ChatRoom.machine, hnone] at hn
  · simp only [ChatRoom.machine, if_neg hnone] at hn
    obtain ⟨rfl, rfl⟩ := Prod.mk.inj (Option.some.inj hn)
    have hhanded : ChatRoom.handed c ((if ok then ChatRoom.Event.written d else .failed d) ::
        ((room.sender d).handleWrite ok).2.map (.handed d)) =
          if d = c then ((room.sender d).handleWrite ok).2 else [] := by
      rw [← ChatRoom.handed_map_handed]
      cases ok <;> rfl
    have hheard : ChatRoom.heard c ((if ok then ChatRoom.Event.written d else .failed d) ::
        ((room.sender d).handleWrite ok).2.map (.handed d)) = [] := by
      refine List.filterMap_eq_nil_iff.mpr fun e he => ?_
      rcases List.mem_cons.mp he with rfl | he
      · cases ok <;> rfl
      · obtain ⟨_, -, rfl⟩ := List.mem_map.mp he
        rfl
    by_cases hd : d = c
    · subst hd
      rw [if_pos rfl] at hhanded ⊢
      exact ⟨Function.update_self .., hhanded, hheard, by cases ok <;> simp⟩
    · rw [if_neg hd] at hhanded ⊢
      refine ⟨Function.update_of_ne (Ne.symm hd) .., hhanded, hheard, ?_⟩
      cases ok <;> simp [Ne.symm hd]

/-- A write that completes does no more to the table than to close a socket, and is no
broadcast. -/
lemma table_complete {ok : Bool}
    (hn : ChatRoom.machine.next room (.complete d ok) = some (room', es)) :
    (room'.table = room.table ∨ room'.table = room.table.modify d (·.setOpen false)) ∧
      ∀ members text, .broadcast members text ∉ es := by
  by_cases hnone : (room.sender d).outstanding = []
  · simp [ChatRoom.machine, hnone] at hn
  · simp only [ChatRoom.machine, if_neg hnone] at hn
    obtain ⟨rfl, rfl⟩ := Prod.mk.inj (Option.some.inj hn)
    cases ok with
    | true => exact ⟨.inl rfl, by simp⟩
    | false => exact ⟨.inr rfl, by simp⟩

lemma exists_of_roomStep {i : ChatRoom.Input} (hn : s.roomStep i = some (t, o)) :
    ∃ es : List ChatRoom.Event, ChatRoom.machine.next s.room i = some (t.room, es) ∧
      o = es.map .room ∧
      ∀ c : ℕ, t.line c = { s.line c with down := (s.line c).down ++ ChatRoom.handed c es } := by
  rw [roomStep, Option.map_eq_some_iff] at hn
  obtain ⟨⟨room, es⟩, hroom, heq⟩ := hn
  obtain ⟨rfl, rfl⟩ := Prod.mk.inj heq
  exact ⟨es, hroom, rfl, fun _ => rfl⟩

lemma created_of_accept (hn : s.roomStep .accept = some (t, o)) :
    t.room.table.created = s.room.table.created + 1 := by
  obtain ⟨es, hnext, -, -⟩ := exists_of_roomStep hn
  obtain ⟨hroom, -⟩ := Prod.mk.inj (Option.some.inj hnext)
  rw [← hroom]
  exact addConn_created

lemma created_of_remove (hn : s.roomStep (.remove c) = some (u, o)) :
    u.room.table.created = s.room.table.created := by
  obtain ⟨es, hnext, -, -⟩ := exists_of_roomStep hn
  simp only [ChatRoom.machine] at hnext
  split_ifs at hnext
  obtain ⟨hroom, -⟩ := Prod.mk.inj (Option.some.inj hnext)
  rw [← hroom]
  exact removeConn_created _ _

lemma created_of_complete {ok : Bool} (hn : s.roomStep (.complete c ok) = some (u, o)) :
    u.room.table.created = s.room.table.created := by
  obtain ⟨es, hnext, -, -⟩ := exists_of_roomStep hn
  rcases (table_complete hnext).1 with htable | htable <;> rw [htable]
  rfl

/-- A line the room does nothing to. -/
lemma Flows.of_does_nothing (h : Flows os s c)
    (hdoes : Does s.room t.room es c (s.room.sender c) [] [] False)
    (hline : t.line c = { s.line c with down := (s.line c).down ++ ChatRoom.handed c es })
    (hcreated : c < t.room.table.created ↔ c < s.room.table.created) :
    Flows (os ++ es.map .room) t c := by
  refine h.of_same ?_ hdoes.sender hcreated silentUp_map
    (silentDown_map hdoes.heard hdoes.failed.mp)
  rw [hline, hdoes.handed, List.append_nil]

/-! ### One step -/

lemma flows_accept (h : ∀ d, Flows os s d) (hs : Step s .accept u o) (d : ℕ) :
    Flows (os ++ o) u d := by
  cases hs with | @accepted t o hroom =>
  obtain ⟨es, hnext, rfl, hline⟩ := exists_of_roomStep hroom
  have hdoes := does_accept hnext d
  have hcreated := created_of_accept hroom
  have hsame : t.line d = s.line d := by rw [hline, hdoes.handed, List.append_nil]
  by_cases hd : d = s.room.table.created
  · subst hd
    refine ⟨?_, ?_⟩
    · rw [setLine_self, hsame]
      have hknown : s.room.table.created < t.room.table.created := by omega
      have hsilent : SilentUp s.room.table.created (es.map .room) := silentUp_map
      have hup := (h s.room.table.created).up_append hsilent
      exact hup.start (u := { (s.line s.room.table.created).connection with
        mId := (t.room.table.conn s.room.table.created).getId, isOpen := true })
        (lt_irrefl _) hknown rfl
    · rw [setLine_self, hsame, setLine_room, hdoes.sender]
      exact (h _).down_append (silentDown_map hdoes.heard hdoes.failed.mp)
  · have hflows := (h d).of_does_nothing hdoes (hline d) (by omega)
    refine ⟨?_, ?_⟩
    · rw [setLine_of_ne _ hd]
      exact hflows.up
    · rw [setLine_of_ne _ hd]
      exact hflows.down

lemma flows_remove (h : ∀ d, Flows os s d) (hs : Step s (.remove c) u o) (d : ℕ) :
    Flows (os ++ o) u d := by
  cases hs with | removed hroom =>
  obtain ⟨es, hnext, rfl, hline⟩ := exists_of_roomStep hroom
  exact (h d).of_does_nothing (does_remove hnext d) (hline d) (by rw [created_of_remove hroom])

/-- A broadcast of a text that fits. -/
lemma flows_broadcast {sendbackmsg : ℕ → ChatRoomMsg} {msg : ℤ → UInt8} {k : ℕ}
    (h : ∀ d, Flows os s d) (hn : s.roomStep (.broadcast sendbackmsg msg k) = some (u, o))
    (hnodup : s.room.table.members.Nodup) (hk : k < 2 ^ 16) (d : ℕ) : Flows (os ++ o) u d := by
  obtain ⟨es, hnext, rfl, hline⟩ := exists_of_roomStep hn
  have hdoes := does_broadcast hnext hnodup d
  have hcreated : u.room.table.created = s.room.table.created := by
    obtain ⟨hroom', -⟩ := Prod.mk.inj (Option.some.inj hnext)
    rw [← hroom']
  split_ifs at hdoes with hd
  · refine ⟨?_, ?_⟩
    · rw [hline, hcreated]
      exact (h d).up_append silentUp_map
    · simp only [hline, heard_append, heard_map, receivedBy_append, receivedBy_map,
        List.append_nil, hdoes.sender, hdoes.handed, hdoes.heard, List.mem_append, room_mem_map,
        hdoes.failed, or_false]
      exact (h d).down.send (by omega) (by omega)
  · exact (h d).of_does_nothing hdoes (hline d) (by rw [hcreated])

/-- The client sends a random message, once it is connected or when it has handled one. -/
lemma Flows.sendRandomMsg {msg : ChatRoomMsg} {draws : Fin 10 → Fin 61} {rest : List Event}
    (h : Flows os s c) (hrest : SilentUp c rest) :
    Channel ((s.line c).client.sendRandomMsg msg draws).1.sender
      ((s.line c).up ++ ((s.line c).client.sendRandomMsg msg draws).2) (s.line c).connection
      (c < s.room.table.created) (sentBy c (os ++ (rest ++ [.sent c (getRandomMsg draws)])))
      (gotFrom c (os ++ (rest ++ [.sent c (getRandomMsg draws)])))
      (.failed c ∈ os ++ (rest ++ [.sent c (getRandomMsg draws)])) := by
  have hsize : (getRandomMsg draws).length = 10 := length_getRandomMsg draws
  have htext : sentBy c [.sent c (getRandomMsg draws)] = [read (write (fun _ => 0) 0
      (getRandomMsg draws)) 0 (getRandomMsg draws).length] := by
    rw [read_write]
    simp [sentBy]
  have hgot : gotFrom c [.sent c (getRandomMsg draws)] = [] := rfl
  rw [← List.append_assoc, sentBy_append _ (os ++ rest), htext, gotFrom_append _ (os ++ rest),
    hgot, List.append_nil, List.mem_append, or_iff_left (by simp)]
  exact (h.up_append hrest).send (by omega) (by omega)

lemma flows_connect {msg : ChatRoomMsg} {draws : Fin 10 → Fin 61} (h : ∀ d, Flows os s d)
    (hs : Step s (.connect c msg draws) u o) (d : ℕ) : Flows (os ++ o) u d := by
  cases hs with | connected hconnected =>
  have hquiet : SilentUp c [.connected c] := ⟨rfl, rfl, by simp⟩
  refine flows_setLine h (fun d hd => ?_) ((h c).sendRandomMsg hquiet) ?_ d
  · exact ⟨⟨by simp [sentBy, Ne.symm hd], rfl, by simp⟩, ⟨rfl, rfl, by simp⟩⟩
  · have hdown := (h c).down_append
      (o := [.connected c, .sent c (getRandomMsg draws)]) ⟨rfl, rfl, by simp⟩
    exact hdown.start (u := { (s.line c).client.reader with isOpen := true }) hconnected rfl rfl

lemma flows_sendUp {bytes : List UInt8} (h : ∀ d, Flows os s d)
    (hs : Step s (.sendUp c bytes) u o) (hcaptured : Captured bytes (s.line c).up) (d : ℕ) :
    Flows (os ++ o) u d := by
  cases hs with | sentUp htransfer =>
  refine flows_setLine h (fun d _ => ⟨silentUp_nil, silentDown_nil⟩) ?_ ?_ d
  · exact ((h c).up_append silentUp_nil).transfer htransfer hcaptured
  · exact (h c).down_append silentDown_nil

lemma flows_sendDown {bytes : List UInt8} (h : ∀ d, Flows os s d)
    (hs : Step s (.sendDown c bytes) u o) (hcaptured : Captured bytes (s.line c).down) (d : ℕ) :
    Flows (os ++ o) u d := by
  cases hs with | sentDown htransfer =>
  refine flows_setLine h (fun d _ => ⟨silentUp_nil, silentDown_nil⟩) ?_ ?_ d
  · exact (h c).up_append silentUp_nil
  · exact ((h c).down_append silentDown_nil).transfer htransfer hcaptured

lemma flows_writtenUp {ok : Bool} (h : ∀ d, Flows os s d) (hs : Step s (.writtenUp c ok) u o)
    (d : ℕ) : Flows (os ++ o) u d := by
  cases hs with
  | writtenUp hup =>
      have hchannel := (h c).up_append silentUp_nil
      rw [hup] at hchannel
      refine flows_setLine h (fun d _ => ⟨silentUp_nil, silentDown_nil⟩) ?_ ?_ d
      · exact hchannel.written
      · exact (h c).down_append silentDown_nil
  | failedUp hup =>
      have hchannel := (h c).up.failed_write (by rw [hup]; exact List.cons_ne_nil _ _)
      rw [hup] at hchannel
      refine flows_setLine h (fun d hd => ?_) ?_ ?_ d
      · exact ⟨⟨rfl, rfl, by simpa using hd⟩, ⟨rfl, rfl, by simp⟩⟩
      · have hfailed : (Event.failed c ∈ os ++ [.failed c]) ↔ True := by simp
        have hsent : sentBy c (os ++ [.failed c]) = sentBy c os := by simp [sentBy]
        have hgot : gotFrom c (os ++ [.failed c]) = gotFrom c os := by simp [gotFrom]
        rw [hfailed, hsent, hgot]
        exact hchannel
      · exact ((h c).down_append ⟨rfl, rfl, by simp⟩).afterWrite false

lemma flows_failUp (h : ∀ d, Flows os s d) (hs : Step s (.failUp c) u o) (d : ℕ) :
    Flows (os ++ o) u d := by
  cases hs with | @closedUp _ connection _ hfail =>
  have hflows := flows_setLine (l := { s.line c with connection := connection }) h
    (fun d _ => ⟨silentUp_nil, silentDown_nil⟩)
    (((h c).up_append silentUp_nil).fail hfail) ((h c).down_append silentDown_nil) d
  exact ⟨hflows.up, hflows.down⟩

lemma flows_failDown (h : ∀ d, Flows os s d) (hs : Step s (.failDown c) u o) (d : ℕ) :
    Flows (os ++ o) u d := by
  cases hs with | closedDown hfail =>
  refine flows_setLine h (fun d _ => ⟨silentUp_nil, silentDown_nil⟩) ?_ ?_ d
  · exact (h c).up_append silentUp_nil
  · exact ((h c).down_append silentDown_nil).fail hfail

lemma flows_writtenDown {ok : Bool} (h : ∀ d, Flows os s d)
    (hs : Step s (.writtenDown c ok) u o) (d : ℕ) : Flows (os ++ o) u d := by
  cases hs with | @writtenDown u o c ok bytes later hdown hbytes hroom =>
  obtain ⟨es, hnext, rfl, hline⟩ := exists_of_roomStep hroom
  have hdoes := does_complete hnext d
  have hcreated : u.room.table.created = s.room.table.created :=
    (created_of_complete hroom).trans rfl
  have hline := hline d
  by_cases hd : c = d
  · subst hd
    rw [if_pos rfl] at hdoes
    rw [setLine_self] at hline
    refine ⟨?_, ?_⟩
    · rw [hline, hcreated]
      exact ((h c).up_append silentUp_map).afterWrite ok
    · simp only [hline, heard_append, heard_map, receivedBy_append, receivedBy_map,
        List.append_nil, hdoes.sender, hdoes.handed, hdoes.heard, List.mem_append, room_mem_map,
        hdoes.failed]
      have hchannel := (h c).down
      cases ok with
      | true =>
          rw [hdown, hbytes rfl] at hchannel
          simpa using hchannel.written
      | false =>
          have hfailed := hchannel.failed_write (by rw [hdown]; exact List.cons_ne_nil _ _)
          rw [hdown] at hfailed
          simpa using hfailed
  · rw [if_neg hd] at hdoes
    rw [setLine_of_ne _ (Ne.symm hd)] at hline
    exact (h d).of_does_nothing hdoes hline (by rw [hcreated])

/-! ### Reads that fill their buffers, and writes that send their frames -/

/-- The read, if it is one, fills its buffer. -/
def ReadsWhole (s : ChatSystem) : Input → Prop
  | .readUp c n _ => n = (s.line c).connection.bufferSize
  | .readDown c n _ _ => n = (s.line c).client.reader.bufferSize
  | _ => True

instance (s : ChatSystem) (i : Input) : Decidable (ReadsWhole s i) := by
  unfold ReadsWhole
  cases i <;> infer_instance

/-- The bytes that go out, if any do, are of the frame that was given to `async_write`. -/
def SendsCaptured (s : ChatSystem) : Input → Prop
  | .sendUp c bytes => Captured bytes (s.line c).up
  | .sendDown c bytes => Captured bytes (s.line c).down
  | _ => True

instance (s : ChatSystem) (i : Input) : Decidable (SendsCaptured s i) :=
  match i with
  | .sendUp c bytes => inferInstanceAs (Decidable (Captured bytes (s.line c).up))
  | .sendDown c bytes => inferInstanceAs (Decidable (Captured bytes (s.line c).down))
  | .accept | .connect .. | .remove _ | .writtenUp .. | .writtenDown .. | .readUp .. | .readDown ..
  | .failUp _ | .failDown _ => instDecidableTrue

/-- The system as long as reads fill their buffers and writes send their frames. -/
def whole : Machine ChatSystem Input Event :=
  machine.restrict fun s i => ReadsWhole s i ∧ SendsCaptured s i

/-- What a read that fills its buffer hands over is at most one message, of the size it was
announced with. -/
lemma handed_of_read {r r' : Connection} {m : ℕ} {h : Handled} {later : List Handled}
    (hn : Connection.machine.next r (.complete r.bufferSize m) = some (r', h :: later)) :
    later = [] ∧ h.id = r.mId ∧ h.bytes = h.realContentSize ∧
      h.recvRealMsg.length = h.realContentSize ∧ h.members = m := by
  generalize hsize : r.bufferSize = n at hn
  generalize ho : h :: later = o at hn
  cases Connection.step_of_next hn with
  | header => cases ho
  | body hreading hmay hlen hreceived =>
      obtain ⟨rfl, rfl⟩ := List.cons_eq_cons.mp ho
      subst hreceived
      refine ⟨rfl, rfl, ?_, by simp [Connection.handleMessage], rfl⟩
      rw [← hsize, Connection.bufferSize, hreading]
      rfl

lemma mId_of_next {r r' : Connection} {i : Connection.Input} {o : List Handled}
    (hn : Connection.machine.next r i = some (r', o)) : r'.mId = r.mId := by
  cases Connection.step_of_next hn with
  | header => simp only [Connection.readBody]; split <;> rfl
  | body _ _ _ hreceived =>
      subst hreceived
      simp only [Connection.readHeader]
      split <;> rfl
  | failed | closed => rfl

/-- The messages the server handled, with the lines they came from. -/
def handled (os : List Event) : List (ℕ × Handled) :=
  os.filterMap fun
    | .got c h => some (c, h)
    | _ => none

/-- The texts that were broadcast. -/
def broadcasts (os : List Event) : List (List UInt8) :=
  os.filterMap fun
    | .room (.broadcast _ text) => some text
    | _ => none

@[simp] lemma handled_append (os o : List Event) : handled (os ++ o) = handled os ++ handled o :=
  List.filterMap_append

@[simp] lemma broadcasts_append (os o : List Event) :
    broadcasts (os ++ o) = broadcasts os ++ broadcasts o := List.filterMap_append

/-- The ids of the table are 32-bit numbers. -/
def Ranged (t : ConnTable) : Prop := IsInt32 t.mNextConnId ∧ ∀ c : ℕ, IsInt32 (t.conn c).mId

/-- A text a client made: ten characters, none of them zero. -/
def Random (text : List UInt8) : Prop := text.length = 10 ∧ ∀ b ∈ text, b ≠ 0

/-- A message that was read whole. -/
def Whole (h : Handled) : Prop :=
  h.bytes = h.realContentSize ∧ h.recvRealMsg.length = h.realContentSize

/-- What the line of `c` has given the server: a message under the id of its connection that
stays inside of its cells, as does what is sent on. -/
structure Dressed (s : ChatSystem) (c : ℕ) (h : Handled) : Prop where
  known : c < s.room.table.created
  id : h.id = (s.line c).connection.mId
  inBounds : h.InBounds

/-- The invariant of the system. -/
structure Sound (os : List Event) (s : ChatSystem) : Prop where
  named : Named s.room.table
  ranged : Ranged s.room.table
  ids : ∀ c : ℕ, IsInt32 (s.line c).connection.mId
  flows : ∀ c : ℕ, Flows os s c
  random : ∀ c : ℕ, ∀ text ∈ sentBy c os, Random text
  told : ∀ text ∈ broadcasts os, text.length ≤ 29
  dressed : broadcasts os = (handled os).map fun m => guestText m.2.id m.2.recvRealMsg
  handled : ∀ m ∈ handled os, Dressed s m.1 m.2
  received : ∀ (c : ℕ) (h : Handled), .received c h ∈ os → Whole h

lemma sound_launched (content : ℕ → ℤ → UInt8) : Sound [] (launched content) := by
  have hminus : IsInt32 (-1) := ⟨by norm_num, by norm_num⟩
  refine ⟨named_built, ⟨⟨by norm_num [ConnTable.built, launched, ChatRoom.built],
    by norm_num [ConnTable.built, launched, ChatRoom.built]⟩, fun _ => hminus⟩, fun _ => hminus,
    fun c => ⟨?_, ?_⟩, fun _ _ h => (nomatch h), fun _ h => (nomatch h), rfl,
    fun _ h => (nomatch h), fun _ _ h => (nomatch h)⟩
  · exact Channel.built (Nat.not_lt_zero c) List.not_mem_nil rfl rfl
  · exact Channel.built Bool.false_ne_true List.not_mem_nil rfl rfl

/-- What is heard was broadcast. -/
lemma mem_broadcasts_of_mem_heard {text : List UInt8} (h : text ∈ heard c os) :
    text ∈ broadcasts os := by
  obtain ⟨e, he, heq⟩ := List.mem_filterMap.mp h
  obtain ⟨e', he', heq'⟩ := List.mem_filterMap.mp he
  refine List.mem_filterMap.mpr ⟨e', he', ?_⟩
  cases e' with
  | room e' =>
      obtain rfl : e' = e := by simpa using heq'
      cases e' with
      | broadcast members text' =>
          simp only [Option.ite_none_right_eq_some] at heq
          exact heq.2
      | accepted | removed | handed | written | failed => cases heq
  | got | connected | sent | received | failed => cases heq'

/-- A step in which the server handles no message. -/
structure Quiet (s u : ChatSystem) (o : List Event) : Prop where
  named : Named s.room.table → Named u.room.table
  ranged : Ranged s.room.table → Ranged u.room.table
  created : s.room.table.created ≤ u.room.table.created
  mId : ∀ c < s.room.table.created, (u.line c).connection.mId = (s.line c).connection.mId
  ids : Ranged s.room.table → (∀ c : ℕ, IsInt32 (s.line c).connection.mId) →
    ∀ c : ℕ, IsInt32 (u.line c).connection.mId
  random : ∀ c : ℕ, ∀ text ∈ sentBy c o, Random text
  broadcasts : broadcasts o = []
  handled : ChatSystem.handled o = []
  received : ∀ (c : ℕ) (h : Handled), .received c h ∈ o → Whole h

lemma Sound.quiet (h : Sound os s) (hflows : ∀ c, Flows (os ++ o) u c) (hq : Quiet s u o) :
    Sound (os ++ o) u := by
  refine ⟨hq.named h.named, hq.ranged h.ranged, hq.ids h.ranged h.ids, hflows, ?_, ?_, ?_, ?_, ?_⟩
  · intro c text htext
    rw [sentBy_append, List.mem_append] at htext
    exact htext.elim (h.random c text) (hq.random c text)
  · rw [broadcasts_append, hq.broadcasts, List.append_nil]
    exact h.told
  · rw [broadcasts_append, hq.broadcasts, handled_append, hq.handled, List.append_nil,
      List.append_nil]
    exact h.dressed
  · rw [handled_append, hq.handled, List.append_nil]
    intro m hm
    have hold := h.handled m hm
    exact ⟨hold.known.trans_le hq.created, hold.id.trans (hq.mId _ hold.known).symm, hold.inBounds⟩
  · intro c received hmem
    exact (List.mem_append.mp hmem).elim (h.received c received) (hq.received c received)

/-- A step on one line that leaves the id of its connection. -/
lemma quiet_setLine {l : Line} (hid : l.connection.mId = (s.line c).connection.mId)
    (hrandom : ∀ c : ℕ, ∀ text ∈ sentBy c o, Random text) (hbroadcasts : broadcasts o = [])
    (hhandled : ChatSystem.handled o = [])
    (hreceived : ∀ (c : ℕ) (h : Handled), .received c h ∈ o → Whole h) :
    Quiet s (s.setLine c l) o := by
  have hsame : ∀ d : ℕ, ((s.setLine c l).line d).connection.mId = (s.line d).connection.mId := by
    intro d
    by_cases hd : d = c
    · subst hd
      rw [setLine_self, hid]
    · rw [setLine_of_ne _ hd]
  refine ⟨id, id, le_rfl, fun d _ => hsame d, fun _ hids d => ?_, hrandom, hbroadcasts, hhandled,
    hreceived⟩
  rw [hsame]
  exact hids d

lemma Ranged.setOpen {t : ConnTable} (h : Ranged t) (isOpen : Bool) :
    Ranged (t.modify c (·.setOpen isOpen)) := by
  refine ⟨h.1, fun d => ?_⟩
  by_cases hd : d = c
  · subst hd
    simpa [ConnTable.modify, TCPConnection.setOpen] using h.2 d
  · simpa [ConnTable.modify, Function.update_of_ne hd] using h.2 d

lemma Ranged.accept {t : ConnTable} (h : Ranged t) :
    Ranged (t.createNewConnection.addConn (some c)) := by
  have hnew : Ranged t.createNewConnection := by
    refine ⟨h.1, fun d => ?_⟩
    by_cases hd : d = t.created
    · subst hd
      simp only [createNewConnection, ConnTable.modify, Function.update_self, TCPConnection.built]
      exact ⟨by norm_num, by norm_num⟩
    · simpa [createNewConnection, ConnTable.modify, Function.update_of_ne hd] using h.2 d
  by_cases hfree : t.createNewConnection.mTcpConnMap[t.createNewConnection.mNextConnId]? = none
  · refine ⟨?_, fun d => ?_⟩
    · rw [addConn_free hfree]
      exact isInt32_int32 _
    · rw [addConn_mId hfree]
      split_ifs
      · exact hnew.1
      · exact hnew.2 d
  · rw [addConn_taken hfree]
    exact hnew

lemma random_map (c : ℕ) : ∀ text ∈ sentBy c (es.map .room), Random text := by
  rw [sentBy_map]
  exact fun _ h => nomatch h

lemma received_map (c : ℕ) (h : Handled) (hmem : .received c h ∈ es.map Event.room) : Whole h := by
  simp at hmem

lemma quiet_accept (hs : Step s .accept u o) : Quiet s u o := by
  cases hs with | @accepted t o hroom =>
  obtain ⟨es, hnext, rfl, hline⟩ := exists_of_roomStep hroom
  obtain ⟨hroom', hes⟩ := Prod.mk.inj (Option.some.inj hnext)
  have htable : t.room.table =
      s.room.table.createNewConnection.addConn (some s.room.table.created) := by rw [← hroom']
  have hcreated := created_of_accept hroom
  have hsame : ∀ d ≠ s.room.table.created,
      ((t.setLine s.room.table.created { t.line s.room.table.created with
        connection := Connection.readHeader { (t.line s.room.table.created).connection with
          mId := (t.room.table.conn s.room.table.created).getId
          isOpen := true } }).line d).connection.mId = (s.line d).connection.mId := by
    intro d hd
    rw [setLine_of_ne _ hd, hline]
  have hranged : Ranged s.room.table → Ranged t.room.table := by
    rw [htable]
    exact Ranged.accept
  refine ⟨fun h => ?_, hranged, ?_, fun d hd => hsame d hd.ne, fun hr hids d => ?_, random_map,
    ?_, ?_, received_map⟩
  · rw [setLine_room, htable]
    exact ChatRoom.Named.accept h
  · rw [setLine_room, hcreated]
    exact Nat.le_succ _
  · by_cases hd : d = s.room.table.created
    · subst hd
      rw [setLine_self]
      exact (hranged hr).2 _
    · rw [hsame d hd]
      exact hids d
  · rw [← hes]
    rfl
  · rw [← hes]
    rfl

lemma quiet_remove (hs : Step s (.remove c) u o) : Quiet s u o := by
  cases hs with | removed hroom =>
  obtain ⟨es, hnext, rfl, hline⟩ := exists_of_roomStep hroom
  simp only [ChatRoom.machine] at hnext
  split_ifs at hnext
  obtain ⟨hroom', rfl⟩ := Prod.mk.inj (Option.some.inj hnext)
  have htable : u.room.table = s.room.table.handleRemoveConnection (some c) := by rw [← hroom']
  refine ⟨fun h => htable ▸ h.handleRemoveConnection, fun h => ?_, ?_, fun d _ => by rw [hline],
    fun _ hids d => by rw [hline]; exact hids d, random_map, rfl, rfl, received_map⟩
  · rw [htable, handleRemoveConnection, Ranged, removeConn_next, removeConn_conn]
    exact h
  · rw [htable, handleRemoveConnection, removeConn_created]

lemma quiet_writtenDown {ok : Bool} (hs : Step s (.writtenDown c ok) u o) : Quiet s u o := by
  cases hs with | writtenDown hdown hbytes hroom =>
  obtain ⟨es, hnext, rfl, hline⟩ := exists_of_roomStep hroom
  have hline' : ∀ d : ℕ, (u.line d).connection.mId = (s.line d).connection.mId := by
    intro d
    rw [hline]
    by_cases hd : d = c
    · subst hd
      rw [setLine_self]
      cases ok <;> rfl
    · rw [setLine_of_ne _ hd]
  obtain ⟨htable, hnone⟩ := table_complete hnext
  rw [setLine_room] at htable
  refine ⟨fun h => ?_, fun h => ?_, (created_of_complete hroom).ge, fun d _ => hline' d,
    fun _ hids d => (hline' d).symm ▸ hids d, random_map, ?_, ?_, received_map⟩
  · rcases htable with htable | htable <;> rw [htable]
    · exact h
    · exact h.of_undisturbed (undisturbed_setOpen _ _ _)
  · rcases htable with htable | htable <;> rw [htable]
    · exact h
    · exact h.setOpen false
  · refine List.filterMap_eq_nil_iff.mpr fun e he => ?_
    obtain ⟨e', he', rfl⟩ := List.mem_map.mp he
    cases e' with
    | broadcast members text => exact absurd he' (hnone members text)
    | accepted | removed | handed | written | failed => rfl
  · simp [ChatSystem.handled]

lemma quiet_failUp (hs : Step s (.failUp c) u o) : Quiet s u o := by
  cases hs with | @closedUp _ connection _ hfail =>
  have hquiet : Quiet s (s.setLine c { s.line c with connection := connection }) [] :=
    quiet_setLine (mId_of_next hfail) (fun _ _ h => nomatch h) rfl rfl fun _ _ h => nomatch h
  exact ⟨fun h => h.of_undisturbed (undisturbed_setOpen _ _ _), fun h => h.setOpen false, le_rfl,
    hquiet.mId, hquiet.ids, hquiet.random, rfl, rfl, hquiet.received⟩

/-- A client sends random messages. -/
lemma random_of_sent {draws : Fin 10 → Fin 61} {text : List UInt8}
    (h : text ∈ sentBy d [.sent c (getRandomMsg draws)]) : Random text := by
  have heq : text = getRandomMsg draws := by
    by_cases hd : c = d
    · simpa [sentBy, hd] using h
    · simp [sentBy, hd] at h
  exact heq ▸ ⟨length_getRandomMsg draws, fun _ => ne_zero_of_mem_getRandomMsg⟩

/-- The texts of a direction are short enough for a header to announce. -/
lemma Sound.sent_lt (h : Sound os s) : ∀ text ∈ sentBy c os, text.length < 2 ^ 16 := by
  intro text htext
  have hlen := (h.random c text htext).1
  omega

lemma Sound.heard_lt (h : Sound os s) : ∀ text ∈ heard c os, text.length < 2 ^ 16 := by
  intro text htext
  have hle := h.told text (mem_broadcasts_of_mem_heard htext)
  omega

/-- **The server handles a message**: it was sent by the client, it fits, and so does the text
that is broadcast. -/
lemma Sound.got (h : Sound os s) {connection : Connection} {received : Handled}
    {later : List Handled} (hn : Connection.machine.next (s.line c).connection
      (.complete (s.line c).connection.bufferSize s.room.table.members.length) =
        some (connection, received :: later)) :
    Random received.recvRealMsg ∧ Dressed s c received ∧
      (guestText received.id received.recvRealMsg).length ≤ 29 ∧
      ∀ d, Flows (os ++ [.got c received])
        (s.setLine c { s.line c with connection := connection }) d := by
  obtain ⟨rfl, hid, hbytes, hlen, -⟩ := handed_of_read hn
  have hread := (h.flows c).up.read h.sent_lt hn
  have hmem : received.recvRealMsg ∈ sentBy c os :=
    hread.sound.subset (List.mem_append_right _ (List.mem_singleton.mpr rfl))
  obtain ⟨hsize, hzero⟩ := h.random c _ hmem
  have hdecimal : (decimal received.id).length ≤ 11 := length_decimal_le (hid ▸ h.ids c)
  have hguest : (guestText received.id received.recvRealMsg).length ≤ 29 := by
    rw [length_guestText, cString_eq_self hzero]
    omega
  have hknown : c < s.room.table.created := (h.flows c).up.begun_of_reading fun hnone => by
    simp [Connection.machine, hnone] at hn
  refine ⟨⟨hsize, hzero⟩, ⟨hknown, hid, ?_⟩, hguest, fun d => ?_⟩
  · rw [Handled.inBounds_iff hbytes.le]
    refine ⟨by omega, .inr ?_⟩
    rw [cString_eq_self hzero]
    omega
  · refine flows_setLine h.flows (fun d hd => ?_) ?_ ?_ d
    · exact ⟨⟨rfl, by simp [gotFrom, Ne.symm hd], by simp⟩, ⟨rfl, rfl, by simp⟩⟩
    · have hgot : gotFrom c (os ++ [.got c received]) = gotFrom c os ++
          Connection.handed [received] := by simp [gotFrom, Connection.handed]
      have hsent : sentBy c (os ++ [.got c received]) = sentBy c os := by simp [sentBy]
      have hfailed : (Event.failed c ∈ os ++ [.got c received]) ↔ Event.failed c ∈ os := by simp
      rw [hgot, hsent, hfailed]
      exact hread
    · exact (h.flows c).down_append ⟨rfl, rfl, by simp⟩

lemma broadcasts_roomStep {sendbackmsg : ℕ → ChatRoomMsg} {msg : ℤ → UInt8} {k : ℕ}
    (hn : s.roomStep (.broadcast sendbackmsg msg k) = some (u, o)) :
    broadcasts o = [read msg 0 k] ∧ handled o = [] ∧ (∀ c, sentBy c o = []) ∧
      (∀ c h, .received c h ∉ o) ∧ u.room.table = s.room.table ∧
      ∀ c, (u.line c).connection = (s.line c).connection := by
  obtain ⟨es, hnext, rfl, hline⟩ := exists_of_roomStep hn
  obtain ⟨hroom', rfl⟩ := Prod.mk.inj (Option.some.inj hnext)
  refine ⟨?_, by simp [handled], fun c => sentBy_map c _, by simp, by rw [← hroom'],
    fun c => by rw [hline]⟩
  rw [List.map_cons, ← List.singleton_append, broadcasts_append]
  have hrest : broadcasts ((ChatRoom.broadcastTo sendbackmsg msg k s.room.table.members
      s.room.sender).2.map .room) = [] := by
    refine List.filterMap_eq_nil_iff.mpr fun e he => ?_
    obtain ⟨e', he', rfl⟩ := List.mem_map.mp he
    obtain ⟨_, _, rfl⟩ := ChatRoom.exists_of_mem_broadcastTo he'
    rfl
  rw [hrest]
  rfl

lemma Sound.readUp {n : ℕ} {sendbackmsg : ℕ → ChatRoomMsg} (h : Sound os s)
    (hs : Step s (.readUp c n sendbackmsg) u o)
    (hwhole : n = (s.line c).connection.bufferSize) : Sound (os ++ o) u := by
  subst hwhole
  cases hs with
  | readUp hread =>
      refine h.quiet (flows_setLine h.flows (fun d _ => ⟨silentUp_nil, silentDown_nil⟩) ?_ ?_)
        (quiet_setLine (mId_of_next hread) (fun _ _ h => nomatch h) rfl rfl fun _ _ h => nomatch h)
      · have hchannel := (h.flows c).up.read h.sent_lt hread
        simpa [Connection.handed] using hchannel
      · exact (h.flows c).down_append silentDown_nil
  | @got u o' _ _ _ connection received later hread hroom =>
      obtain ⟨hrandom, hdressed, hguest, hflows⟩ := h.got hread
      obtain ⟨hbroadcasts, hhandled, hsent, hnone, htable, hconnection⟩ := broadcasts_roomStep hroom
      rw [setLine_room] at htable
      have hid : ∀ d : ℕ, (u.line d).connection.mId = (s.line d).connection.mId := by
        intro d
        rw [hconnection]
        by_cases hd : d = c
        · subst hd
          rw [setLine_self]
          exact mId_of_next hread
        · rw [setLine_of_ne _ hd]
      have htext : read (guestBuf received.id received.recvRealMsg) 0
          (guestText received.id received.recvRealMsg).length =
            guestText received.id received.recvRealMsg := read_guestBuf (by omega)
      rw [htext] at hbroadcasts
      refine ⟨htable ▸ h.named, htable ▸ h.ranged, fun d => (hid d).symm ▸ h.ids d, fun d => ?_, ?_,
        ?_, ?_, ?_, fun d e hmem => ?_⟩
      · rw [← List.singleton_append, ← List.append_assoc]
        exact flows_broadcast hflows hroom h.named.nodup (by omega) d
      · intro d text htext
        have hnone : sentBy d (.got c received :: o') = [] := by
          rw [← List.singleton_append, sentBy_append, hsent]
          rfl
        rw [sentBy_append, hnone, List.append_nil] at htext
        exact h.random d text htext
      · intro text htext
        rw [← List.singleton_append, broadcasts_append, broadcasts_append, hbroadcasts] at htext
        rcases List.mem_append.mp htext with htext | htext
        · exact h.told text htext
        · obtain rfl : text = guestText received.id received.recvRealMsg := by
            simpa [broadcasts] using htext
          exact hguest
      · rw [← List.singleton_append, broadcasts_append, broadcasts_append, hbroadcasts,
          handled_append, handled_append, hhandled, h.dressed, List.map_append]
        rfl
      · intro m hm
        rw [← List.singleton_append, handled_append, handled_append, hhandled] at hm
        rcases List.mem_append.mp hm with hm | hm
        · have hold := h.handled m hm
          exact ⟨htable ▸ hold.known, hold.id.trans (hid _).symm, hold.inBounds⟩
        · obtain rfl : m = (c, received) := by simpa [ChatSystem.handled] using hm
          exact ⟨htable ▸ hdressed.known, hdressed.id.trans (hid _).symm, hdressed.inBounds⟩
      · rcases List.mem_append.mp hmem with hmem | hmem
        · exact h.received d e hmem
        · exact absurd (List.mem_of_ne_of_mem (by simp) hmem) (hnone d e)

lemma Sound.readDown {n : ℕ} {msg : ChatRoomMsg} {draws : Fin 10 → Fin 61} (h : Sound os s)
    (hs : Step s (.readDown c n msg draws) u o)
    (hwhole : n = (s.line c).client.reader.bufferSize) : Sound (os ++ o) u := by
  subst hwhole
  cases hs with
  | readDown hread =>
      refine h.quiet (flows_setLine h.flows (fun d _ => ⟨silentUp_nil, silentDown_nil⟩) ?_ ?_)
        (quiet_setLine rfl (fun _ _ h => nomatch h) rfl rfl fun _ _ h => nomatch h)
      · exact (h.flows c).up_append silentUp_nil
      · have hchannel := (h.flows c).down.read h.heard_lt hread
        simpa [Connection.handed] using hchannel
  | @received _ _ _ _ reader received later hread =>
      obtain ⟨rfl, -, hbytes, hlen, -⟩ := handed_of_read hread
      refine h.quiet (flows_setLine h.flows (fun d hd => ?_) ?_ ?_)
        (quiet_setLine rfl (fun d text => random_of_sent) rfl rfl fun d e hmem => ?_)
      · exact ⟨⟨by simp [sentBy, Ne.symm hd], rfl, by simp⟩,
          ⟨rfl, by simp [receivedBy, Ne.symm hd], by simp⟩⟩
      · have hsilent : SilentUp c [.received c received] := ⟨rfl, rfl, by simp⟩
        exact (h.flows c).sendRandomMsg hsilent
      · have hchannel := (h.flows c).down.read h.heard_lt hread
        have hreceived : receivedBy c (os ++ [.received c received, .sent c (getRandomMsg draws)]) =
            receivedBy c os ++ Connection.handed [received] := by
          simp [receivedBy, Connection.handed]
        have hheard : heard c (os ++ [.received c received, .sent c (getRandomMsg draws)]) =
            heard c os := by simp [heard, roomEvents]
        have hfailed : (Event.room (.failed c) ∈
            os ++ [.received c received, .sent c (getRandomMsg draws)]) ↔
              Event.room (.failed c) ∈ os := by simp
        rw [hreceived, hheard, hfailed]
        exact hchannel
      · obtain ⟨rfl, rfl⟩ : d = c ∧ e = received := by simpa using hmem
        exact ⟨hbytes, hlen⟩

/-- **One step of the system**, in which a read fills its buffer and a write sends its frame. -/
lemma Sound.step (h : Sound os s) (hn : machine.next s i = some (u, o)) (hwhole : ReadsWhole s i)
    (hsends : SendsCaptured s i) : Sound (os ++ o) u := by
  have hs := step_of_next hn
  cases i with
  | accept => exact h.quiet (flows_accept h.flows hs) (quiet_accept hs)
  | connect c msg draws =>
      refine h.quiet (flows_connect h.flows hs) ?_
      cases hs
      exact quiet_setLine rfl (fun d text => random_of_sent) rfl rfl fun _ _ h => by simp at h
  | remove c => exact h.quiet (flows_remove h.flows hs) (quiet_remove hs)
  | sendUp c bytes =>
      refine h.quiet (flows_sendUp h.flows hs hsends) ?_
      cases hs
      exact quiet_setLine rfl (fun _ _ h => nomatch h) rfl rfl fun _ _ h => nomatch h
  | sendDown c bytes =>
      refine h.quiet (flows_sendDown h.flows hs hsends) ?_
      cases hs
      exact quiet_setLine rfl (fun _ _ h => nomatch h) rfl rfl fun _ _ h => nomatch h
  | writtenUp c ok =>
      refine h.quiet (flows_writtenUp h.flows hs) ?_
      cases hs with
      | writtenUp | failedUp =>
          exact quiet_setLine rfl (fun _ _ h => nomatch h) rfl rfl fun _ _ h => nomatch h
  | writtenDown c ok => exact h.quiet (flows_writtenDown h.flows hs) (quiet_writtenDown hs)
  | readUp c n sendbackmsg => exact h.readUp hs hwhole
  | readDown c n msg draws => exact h.readDown hs hwhole
  | failUp c => exact h.quiet (flows_failUp h.flows hs) (quiet_failUp hs)
  | failDown c =>
      refine h.quiet (flows_failDown h.flows hs) ?_
      cases hs
      exact quiet_setLine rfl (fun _ _ h => nomatch h) rfl rfl fun _ _ h => nomatch h

variable {content : ℕ → ℤ → UInt8}

lemma sound_of_run (hrun : whole.Run (launched content) is os s) : Sound os s := by
  refine hrun.invariant (sound_launched content) fun _ _ _ _ _ h hn => ?_
  obtain ⟨⟨hwhole, hsends⟩, hn⟩ := restrict_next_iff.mp hn
  exact h.step hn hwhole hsends

/-! ### What is delivered -/

/-- Nothing is on its way to the server on the line of `c`. -/
structure SettledUp (s : ChatSystem) (c : ℕ) : Prop where
  unsent : (s.line c).up = []
  reading : (s.line c).connection.reading = .header
  stream : (s.line c).connection.stream = []

/-- Nothing is on its way to the client on the line of `c`. -/
structure SettledDown (s : ChatSystem) (c : ℕ) : Prop where
  unsent : (s.line c).down = []
  reading : (s.line c).client.reader.reading = .header
  stream : (s.line c).client.reader.stream = []

/-- What was heard first was heard up to some moment. -/
lemma exists_moment {texts : List (List UInt8)} (h : texts <+: heard c os) :
    ∃ pre : List Event, pre <+: os ∧ texts = heard c pre := by
  obtain ⟨pre', hpre', rfl⟩ := List.prefix_filterMap_iff.mp h
  obtain ⟨pre, hpre, rfl⟩ := List.prefix_filterMap_iff.mp hpre'
  exact ⟨pre, hpre, rfl⟩

/-- **The room is one conversation.** As long as reads fill their buffers and writes send their
frames: what is broadcast are the texts the server gets, in its order, each with the id of its
line; what it gets from a client is, in order, what that client sent; and what a client receives
is what was broadcast to it up to some moment. Nothing is lost: a direction with nothing on its
way and no failed write has delivered all it was given. -/
theorem one_conversation (hrun : whole.Run (launched content) is os s) :
    broadcasts os =
        (handled os).map (fun m => guestText (s.line m.1).connection.mId m.2.recvRealMsg) ∧
      ∀ c : ℕ, gotFrom c os <+: sentBy c os ∧
        (∃ pre : List Event, pre <+: os ∧ receivedBy c os = heard c pre) ∧
        (SettledUp s c → .failed c ∉ os → gotFrom c os = sentBy c os) ∧
        (SettledDown s c → .room (.failed c) ∉ os → receivedBy c os = heard c os) := by
  have hsound := sound_of_run hrun
  refine ⟨?_, fun c => ⟨(hsound.flows c).up.sound, exists_moment (hsound.flows c).down.sound,
    fun hs hlive => (hsound.flows c).up.settled hlive hs.unsent hs.reading hs.stream,
    fun hs hlive => (hsound.flows c).down.settled hlive hs.unsent hs.reading hs.stream⟩⟩
  rw [hsound.dressed]
  refine List.map_congr_left fun m hm => ?_
  rw [(hsound.handled m hm).id]

/-- A client sends a text, which comes back to it and which it answers. -/
def firstRound : List Input :=
  [.accept, .connect 0 (.built fun _ => 7) (fun _ => 1),
    .sendUp 0 ((frame (ascii "aaaaaaaaaa")).take 5), .sendUp 0 (ascii "aaaaaaa"),
    .writtenUp 0 true, .readUp 0 2 (fun _ => .built fun _ => 7),
    .readUp 0 10 (fun _ => .built fun _ => 7), .sendDown 0 (frame (ascii "guest(0):aaaaaaaaaa")),
    .writtenDown 0 true, .readDown 0 2 (.built fun _ => 7) (fun _ => 0),
    .readDown 0 19 (.built fun _ => 7) fun _ => 0]

/-- The text comes back with the id of the line. -/
theorem one_conversation_first_round :
    ∃ os s, whole.Run (launched fun _ _ => 7) firstRound os s ∧
      receivedBy 0 os = [ascii "guest(0):aaaaaaaaaa"] ∧ gotFrom 0 os <+: sentBy 0 os ∧
      ∃ pre : List Event, pre <+: os ∧ receivedBy 0 os = heard 0 pre := by
  obtain ⟨os, s, hrun, hreceived⟩ : ∃ os s, whole.Run (launched fun _ _ => 7) firstRound os s ∧
      receivedBy 0 os = [ascii "guest(0):aaaaaaaaaa"] := ⟨_, _, run_iff_exec.mpr rfl, by decide⟩
  obtain ⟨hsent, hpre, -⟩ := (one_conversation hrun).2 0
  exact ⟨os, s, hrun, hreceived, hsent, hpre⟩

/-- **The clients of the repository never overrun a message**: as long as reads fill their
buffers and writes send their frames, neither does the server when it receives and sends on,
whose line is never cut either, nor does a client when it sends or receives. -/
theorem clients_in_bounds (hrun : whole.Run (launched content) is os s) :
    (∀ m ∈ handled os, m.2.InBounds ∧ sendbacksize m.2.id m.2.recvRealMsg < 4096) ∧
      (∀ (c : ℕ) (text : List UInt8), .sent c text ∈ os →
        (ChatRoomMsg.setContentSpan text.length).Inside ∧
          ∀ (msg : ChatRoomMsg) (src : ℤ → UInt8),
            (msg.setContent src text.length).getBufSpan.Inside) ∧
      ∀ (c : ℕ) (h : Handled), .received c h ∈ os →
        h.readBodySpan.Inside ∧ h.handleMessageSpan.Inside := by
  have hsound := sound_of_run hrun
  refine ⟨fun m hm => ⟨(hsound.handled m hm).inBounds, ?_⟩, fun c text hmem => ?_,
    fun c h hmem => ?_⟩
  · have htold : guestText m.2.id m.2.recvRealMsg ∈ broadcasts os := by
      rw [hsound.dressed]
      exact List.mem_map_of_mem (f := fun m : ℕ × Handled => guestText m.2.id m.2.recvRealMsg) hm
    have hle := hsound.told _ htold
    rw [sendbacksize]
    omega
  · have hsize := (hsound.random c text (List.mem_filterMap.mpr ⟨_, hmem, by simp⟩)).1
    refine ⟨Handled.inside_iff.mpr (by omega), fun msg src => Handled.inside_iff.mpr ?_⟩
    simp only [ChatRoomMsg.setContent]
    omega
  obtain ⟨hbytes, hlen⟩ := hsound.received c h hmem
  have hgot : h.recvRealMsg ∈ receivedBy c os :=
    List.mem_filterMap.mpr ⟨_, hmem, by simp⟩
  have hheard := mem_broadcasts_of_mem_heard ((hsound.flows c).down.sound.subset hgot)
  have hle := hsound.told _ hheard
  have hsize : h.realContentSize ≤ 1024 := by omega
  have hbytes' : h.bytes ≤ 1024 := by omega
  exact ⟨Handled.inside_iff.mpr hbytes', Handled.inside_iff.mpr hsize⟩

/-- The first text of a client, and what comes back. -/
theorem clients_in_bounds_first_round :
    ∃ os s, whole.Run (launched fun _ _ => 7) firstRound os s ∧
      (handled os).map (fun m => m.2.realContentSize) = [10] ∧
      ∀ m ∈ handled os, m.2.InBounds ∧ sendbacksize m.2.id m.2.recvRealMsg < 4096 := by
  obtain ⟨os, s, hrun, hsizes⟩ : ∃ os s, whole.Run (launched fun _ _ => 7) firstRound os s ∧
      (handled os).map (fun m => m.2.realContentSize) = [10] :=
    ⟨_, _, run_iff_exec.mpr rfl, by decide⟩
  exact ⟨os, s, hrun, hsizes, (clients_in_bounds hrun).1⟩

end ChatSystem

end Xsix

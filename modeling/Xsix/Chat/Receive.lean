import Xsix.Chat.Message
import Xsix.Library.Machine

/-!
`chat_room_server.cc` and `chat_room_client.cc`: how a connection receives messages.

The bytes the peer sent and the connection has not read wait in `stream`. An
`async_read_some` on a buffer of `k` bytes completes with any number of them from 1 to
`k`, with none if `k` is 0, or fails; its handler runs at once. `Connection` and
`ChatRoomClient` receive in the same way; what a connection of the server makes of a
message it has received is `Handled`.

* `hands_over`: as long as every read fills its buffer, the messages are handed over as
  they were sent.
-/

namespace Xsix

open CInt Memory Machine

/-- The read that is outstanding. -/
inductive Reading where
  | none
  | header
  | body

/-- The members of a connection that take part in receiving, and the bytes it has yet to
read. -/
structure Connection where
  mId : ℤ
  isOpen : Bool
  mTmpMsg : ChatRoomMsg
  reading : Reading
  stream : List UInt8

/-- A call of `handle_message`: the id of the connection, the size it takes from the header,
how many bytes the last read brought, the string it makes of them, and how many
connections the broadcast is to. -/
structure Handled where
  id : ℤ
  realContentSize : ℕ
  bytes : ℕ
  recvRealMsg : List UInt8
  members : ℕ

namespace Connection

/-- A read completes, a read fails, or the socket is closed. -/
inductive Input where
  | complete (bytes members : ℕ)
  | fail
  | close

/-- `Connection::read_header`. -/
def readHeader (s : Connection) : Connection :=
  if s.isOpen then { s with mTmpMsg := s.mTmpMsg.clear, reading := .header }
  else { s with reading := .none }

/-- `Connection::read_body`. -/
def readBody (s : Connection) : Connection :=
  if s.isOpen then { s with reading := .body } else { s with reading := .none }

/-- The size of the buffer of the outstanding read. -/
def bufferSize (s : Connection) : ℕ :=
  match s.reading with
  | .none => 0
  | .header => 2
  | .body => ntohs s.mTmpMsg.contentsize

/-- `Connection::handle_message`. -/
def handleMessage (s : Connection) (bytes members : ℕ) : Handled where
  id := s.mId
  realContentSize := ntohs s.mTmpMsg.contentsize
  bytes := bytes
  recvRealMsg := read s.mTmpMsg.content 0 (ntohs s.mTmpMsg.contentsize)
  members := members

/-- `Connection::handle_error`. -/
def handleError (s : Connection) : Connection := { s with isOpen := false, reading := .none }

/-- A read of `k` bytes may complete with `n`. -/
def MayComplete (k n : ℕ) : Prop := n ≤ k ∧ (n = 0 → k = 0)

instance (k n : ℕ) : Decidable (MayComplete k n) := inferInstanceAs (Decidable (_ ∧ _))

/-- The receiving side of a connection and its environment. -/
def machine : Machine Connection Input Handled where
  next s
    | .complete bytes members =>
        if MayComplete s.bufferSize bytes ∧ bytes ≤ s.stream.length then
          let arrived := s.stream.take bytes
          let rest := { s with stream := s.stream.drop bytes }
          match s.reading with
          | .none => none
          | .header =>
              some (readBody { rest with mTmpMsg := s.mTmpMsg.storeHeader arrived }, [])
          | .body =>
              let received := { rest with mTmpMsg := s.mTmpMsg.storeContent arrived }
              some (received.readHeader, [received.handleMessage bytes members])
        else none
    | .fail =>
        match s.reading with
        | .none => none
        | _ => some (s.handleError, [])
    | .close => some ({ s with isOpen := false }, [])

/-- A connection that is started, the bytes `stream` being all its peer sends; `content` is
what the memory of `m_tmp_msg` held. -/
def started (id : ℤ) (content : ℤ → UInt8) (stream : List UInt8) : Connection :=
  readHeader ⟨id, true, .built content, .none, stream⟩

/-! ### One step -/

variable {s u : Connection} {i : Input} {o : List Handled}

/-- What a step can be, by its effect. -/
inductive Step (s : Connection) : Input → Connection → List Handled → Prop
  | header {n members : ℕ} (h : s.reading = .header) (hmay : MayComplete 2 n)
      (hlen : n ≤ s.stream.length) :
      Step s (.complete n members) (readBody { s with
        mTmpMsg := s.mTmpMsg.storeHeader (s.stream.take n)
        stream := s.stream.drop n }) []
  | body {n members : ℕ} {received : Connection} (h : s.reading = .body)
      (hmay : MayComplete (ntohs s.mTmpMsg.contentsize) n) (hlen : n ≤ s.stream.length)
      (hreceived : received = { s with
        mTmpMsg := s.mTmpMsg.storeContent (s.stream.take n)
        stream := s.stream.drop n }) :
      Step s (.complete n members) received.readHeader [received.handleMessage n members]
  | failed : Step s .fail s.handleError []
  | closed : Step s .close { s with isOpen := false } []

lemma step_of_next (hn : machine.next s i = some (u, o)) : Step s i u o := by
  cases i with
  | complete n members =>
      simp only [machine] at hn
      split_ifs at hn with hmay
      split at hn
      · cases hn
      · next hreading =>
          obtain ⟨rfl, rfl⟩ := Prod.mk.inj (Option.some.inj hn)
          rw [bufferSize, hreading] at hmay
          exact .header hreading hmay.1 hmay.2
      · next hreading =>
          obtain ⟨rfl, rfl⟩ := Prod.mk.inj (Option.some.inj hn)
          rw [bufferSize, hreading] at hmay
          exact .body hreading hmay.1 hmay.2 rfl
  | fail =>
      simp only [machine] at hn
      split at hn
      · cases hn
      · obtain ⟨rfl, rfl⟩ := Prod.mk.inj (Option.some.inj hn)
        exact .failed
  | close =>
      obtain ⟨rfl, rfl⟩ := Prod.mk.inj (Option.some.inj hn)
      exact .closed

/-! ### Framing -/

/-- The texts that were handed over. -/
def handed (os : List Handled) : List (List UInt8) := os.map (·.recvRealMsg)

/-- The texts are handed over in their order, each once, and all of them by the time
nothing is left to read. -/
def HandsOver (texts : List (List UInt8)) (os : List Handled) (s : Connection) : Prop :=
  handed os <+: texts ∧ (s.stream = [] → s.reading = .header → handed os = texts)

/-- The read fills its buffer. -/
def Full (s : Connection) (i : Input) : Prop :=
  ∀ bytes members : ℕ, i = .complete bytes members → bytes = s.bufferSize

/-- What is to arrive of the texts `rest` when a read is outstanding. -/
def Expects (s : Connection) (rest : List (List UInt8)) : Prop :=
  match s.reading with
  | .none => True
  | .header => s.stream = rest.flatMap frame
  | .body => ∃ (text : List UInt8) (later : List (List UInt8)), rest = text :: later ∧
      s.stream = text ++ later.flatMap frame ∧ ntohs s.mTmpMsg.contentsize = text.length

/-- What was handed over, and what is to arrive, are the texts. -/
def Aligned (texts : List (List UInt8)) (os : List Handled) (s : Connection) : Prop :=
  ∃ rest : List (List UInt8), texts = handed os ++ rest ∧ s.Expects rest

variable {texts rest : List (List UInt8)} {os : List Handled}

lemma Aligned.handsOver (h : Aligned texts os s) : HandsOver texts os s := by
  obtain ⟨rest, htexts, hexpects⟩ := h
  refine ⟨htexts ▸ List.prefix_append _ _, fun hstream hheader => ?_⟩
  rw [Expects, hheader] at hexpects
  cases rest with
  | nil => rw [htexts, List.append_nil]
  | cons text later =>
      have hnil := hexpects.symm.trans hstream
      simp [frame, bytesOf] at hnil

lemma expects_readHeader (h : s.stream = rest.flatMap frame) : s.readHeader.Expects rest := by
  rw [readHeader]
  split_ifs
  · exact h
  · trivial

lemma expects_readBody {text : List UInt8} (hstream : s.stream = text ++ rest.flatMap frame)
    (hsize : ntohs s.mTmpMsg.contentsize = text.length) :
    s.readBody.Expects (text :: rest) := by
  rw [readBody]
  split_ifs
  · exact ⟨text, rest, rfl, hstream, hsize⟩
  · trivial

/-- **A read that fills its buffer stays aligned with the frames.** -/
lemma Aligned.step (h : Aligned texts os s) (hshort : ∀ text ∈ texts, text.length < 2 ^ 16)
    (hn : machine.next s i = some (u, o)) (hfull : Full s i) : Aligned texts (os ++ o) u := by
  obtain ⟨rest, htexts, hexpects⟩ := h
  cases step_of_next hn with
  | @header n members hreading hmay hlen =>
      have hn2 : n = 2 := by rw [hfull n members rfl, bufferSize, hreading]
      rw [Expects, hreading] at hexpects
      cases rest with
      | nil =>
          rw [hexpects] at hlen
          simp [hn2] at hlen
      | cons text later =>
          have hlt : text.length < 2 ^ 16 := hshort text (by simp [htexts])
          have hstream :
              s.stream = bytesOf (htons text.length) ++ (text ++ later.flatMap frame) := by
            rw [hexpects, List.flatMap_cons, frame, List.append_assoc]
          refine ⟨text :: later, by rw [List.append_nil, htexts], expects_readBody ?_ ?_⟩
          · rw [hstream, hn2]
            rfl
          · have hheader : s.stream.take n = bytesOf (htons text.length) := by
              rw [hstream, hn2]
              rfl
            rw [hheader, ChatRoomMsg.storeHeader_bytesOf (htons_lt _), ntohs_htons hlt]
  | @body n members received hreading hmay hlen hreceived =>
      rw [Expects, hreading] at hexpects
      obtain ⟨text, later, rfl, hstream, hsize⟩ := hexpects
      have hcount : n = text.length := by rw [hfull n members rfl, bufferSize, hreading, hsize]
      have htake : s.stream.take n = text := by rw [hstream, hcount, List.take_left]
      have hdrop : s.stream.drop n = later.flatMap frame := by
        rw [hstream, hcount, List.drop_left]
      refine ⟨later, ?_, expects_readHeader (by rw [hreceived, hdrop])⟩
      have htext : (received.handleMessage n members).recvRealMsg = text := by
        rw [hreceived, htake]
        exact (congrArg (fun k : ℕ => read _ 0 (k : ℤ)) hsize).trans ChatRoomMsg.read_storeContent
      calc texts = handed os ++ [text] ++ later := by rw [htexts, List.append_assoc]; rfl
        _ = handed (os ++ [received.handleMessage n members]) ++ later := by
          rw [handed, handed, List.map_append, List.map_singleton, htext]
  | failed => exact ⟨rest, by rw [List.append_nil, htexts], trivial⟩
  | closed => exact ⟨rest, by rw [List.append_nil, htexts], hexpects⟩

/-- A message to send: the object, and what `set_content` is given. -/
structure Outgoing where
  object : ChatRoomMsg
  src : ℤ → UInt8
  size : ℕ

/-- The text of a message. -/
def Outgoing.text (m : Outgoing) : List UInt8 := read m.src 0 m.size

/-- What is sent of a message. -/
def Outgoing.buf (m : Outgoing) : List UInt8 := (m.object.setContent m.src m.size).getBuf

lemma flatMap_buf {msgs : List Outgoing} (h : ∀ m ∈ msgs, m.size ≤ 1024) :
    msgs.flatMap Outgoing.buf = (msgs.map Outgoing.text).flatMap frame := by
  induction msgs with
  | nil => rfl
  | cons m msgs ih =>
      have hm : m.size ≤ 1024 := h m List.mem_cons_self
      have hbuf : m.buf = frame m.text :=
        ChatRoomMsg.getBuf_setContent (by omega) (by omega)
      have hlater : ∀ m' ∈ msgs, m'.size ≤ 1024 := fun m' hm' => h m' (List.mem_cons_of_mem _ hm')
      calc (m :: msgs).flatMap Outgoing.buf
          = frame m.text ++ (msgs.map Outgoing.text).flatMap frame := by
            rw [List.flatMap_cons, hbuf, ih hlater]
        _ = ((m :: msgs).map Outgoing.text).flatMap frame := by
            rw [List.map_cons, List.flatMap_cons]

/-- **The messages are handed over as they were sent** in every run all of whose reads fill
their buffers. -/
theorem hands_over {msgs : List Outgoing} {id : ℤ} {content : ℤ → UInt8} {is : List Input}
    (hsize : ∀ m ∈ msgs, m.size ≤ 1024)
    (hrun : machine.Run (started id content (msgs.flatMap Outgoing.buf)) is os s)
    (hfull : machine.EachStep (started id content (msgs.flatMap Outgoing.buf)) is
      fun _ t i => Full t i) :
    HandsOver (msgs.map Outgoing.text) os s := by
  have hshort : ∀ text ∈ msgs.map Outgoing.text, text.length < 2 ^ 16 := by
    intro text htext
    obtain ⟨m, hm, rfl⟩ := List.mem_map.mp htext
    have hle := hsize m hm
    rw [Outgoing.text, length_read, Int.toNat_natCast]
    omega
  have haligned : Aligned (msgs.map Outgoing.text) os s :=
    hrun.invariant_of_steps hfull
      ⟨msgs.map Outgoing.text, rfl, expects_readHeader (flatMap_buf hsize)⟩
      fun _ _ _ _ _ h hn hC => h.step hshort hn hC
  exact haligned.handsOver

/-- A text of two bytes and an empty one, each read whole. -/
theorem hands_over_two :
    ∃ os s, machine.Run (started 0 (fun _ => 0)
        ([⟨.built fun _ => 7, fun i => if i = 0 then 104 else 105, 2⟩,
          ⟨.built fun _ => 7, fun _ => 0, 0⟩].flatMap Outgoing.buf))
        [.complete 2 1, .complete 2 1, .complete 2 1, .complete 0 1] os s ∧
      HandsOver [[104, 105], []] os s ∧ handed os = [[104, 105], []] := by
  obtain ⟨os, s, hrun, hos⟩ : ∃ os s, machine.Run (started 0 (fun _ => 0)
        ([⟨.built fun _ => 7, fun i => if i = 0 then 104 else 105, 2⟩,
          ⟨.built fun _ => 7, fun _ => 0, 0⟩].flatMap Outgoing.buf))
        [.complete 2 1, .complete 2 1, .complete 2 1, .complete 0 1] os s ∧
      handed os = [[104, 105], []] := ⟨_, _, run_iff_exec.mpr rfl, rfl⟩
  refine ⟨os, s, hrun, hands_over (by decide) hrun ?_, hos⟩
  refine eachStep_cons rfl ?_ (eachStep_cons rfl ?_ (eachStep_cons rfl ?_ (eachStep_cons rfl ?_
    eachStep_nil)))
  all_goals
    rintro bytes members ⟨⟩
    rfl

/-- **A body that arrives in two pieces is handed over after the first.** -/
theorem hands_over_cut :
    ∃ os s, machine.Run (started 0 (fun _ => 0)
        ([⟨.built fun _ => 7, fun i => if i = 0 then 104 else 105, 2⟩].flatMap Outgoing.buf))
        [.complete 2 1, .complete 1 1] os s ∧
      handed os = [[104, 0]] ∧ ¬ HandsOver [[104, 105]] os s := by
  refine ⟨_, _, run_iff_exec.mpr rfl, rfl, fun h => ?_⟩
  exact absurd h.1 (by decide)

end Connection

end Xsix

import Xsix.Chat.Receive
import Xsix.Chat.Room

/-!
One direction of a connection of the chat room, from the queue of the sender to the texts
the receiver hands over.

For an outstanding `async_write` bytes go out in pieces of any size (`transfer`) and wait at
the receiver until they are read. Which bytes is up to the environment: `do_write` keeps the
frame on its stack, and what is left of it after a piece lies in memory that was freed.
`Channel` is the invariant as long as each piece is of the frame that was given to
`async_write`: what was sent is what was handed over and what is on its way, in frames of which
the receiver may have begun the first. Each thing that can happen to either end has its lemma,
under which the invariant is kept: `Channel.send`, `Channel.transfer`, `Channel.written`,
`Channel.failed`, `Channel.read`.

* `Channel.progress`: a direction with texts on their way is never stuck.
-/

namespace Xsix

open CInt Memory Machine

/-- Bytes go out for the first outstanding write, in the place of as many of its frame. -/
def transfer (bytes : List UInt8) : List (List UInt8) → Option (List (List UInt8))
  | [] => none
  | left :: later =>
      if 0 < bytes.length ∧ bytes.length ≤ left.length then some (left.drop bytes.length :: later)
      else none

/-- The bytes are what comes next of the frame, as it was when `async_write` was called. -/
def Captured (bytes : List UInt8) (unsent : List (List UInt8)) : Prop := bytes <+: unsent.headD []

instance (bytes : List UInt8) (unsent : List (List UInt8)) : Decidable (Captured bytes unsent) :=
  inferInstanceAs (Decidable (bytes <+: unsent.headD []))

lemma flatten_of_transfer {unsent later : List (List UInt8)} {bytes : List UInt8}
    (h : transfer bytes unsent = some later) (hcaptured : Captured bytes unsent) :
    bytes ++ later.flatten = unsent.flatten ∧ later.length = unsent.length := by
  cases unsent with
  | nil => cases h
  | cons first rest =>
      obtain ⟨left, rfl⟩ := hcaptured
      rw [transfer] at h
      split_ifs at h
      obtain rfl := Option.some.inj h
      simp

namespace Connection

variable {s u : Connection} {i : Input} {o : List Handled} {bytes text : List UInt8}
  {rest : List (List UInt8)} {begun : Prop}

/-- Bytes that arrive wait behind those that were there. -/
def arrive (s : Connection) (bytes : List UInt8) : Connection :=
  { s with stream := s.stream ++ bytes }

/-- The handler of a write closes the socket if the write failed; the read that is
outstanding stays so. -/
def afterWrite (s : Connection) (ok : Bool) : Connection :=
  if ok then s else { s with isOpen := false }

@[simp] lemma arrive_arrive {later : List UInt8} :
    (s.arrive bytes).arrive later = s.arrive (bytes ++ later) := by
  simp [arrive]

lemma readHeader_arrive : (s.arrive bytes).readHeader = s.readHeader.arrive bytes := by
  by_cases hopen : s.isOpen <;> simp [readHeader, arrive, hopen]

lemma readBody_arrive : (s.arrive bytes).readBody = s.readBody.arrive bytes := by
  by_cases hopen : s.isOpen <;> simp [readBody, arrive, hopen]

/-- A step is the same whatever is to arrive after it. -/
lemma next_arrive (hn : machine.next s i = some (u, o)) :
    machine.next (s.arrive bytes) i = some (u.arrive bytes, o) := by
  cases step_of_next hn with
  | @header n members hreading hmay hlen =>
      have hbuffer : MayComplete (s.arrive bytes).bufferSize n ∧
          n ≤ (s.arrive bytes).stream.length := by
        rw [bufferSize, arrive, hreading, List.length_append]
        exact ⟨hmay, by omega⟩
      have hreading' : (s.arrive bytes).reading = .header := hreading
      simp only [machine, if_pos hbuffer, hreading']
      rw [← readBody_arrive]
      simp only [arrive, hreading, List.take_append_of_le_length hlen,
        List.drop_append_of_le_length hlen]
  | @body n members received hreading hmay hlen hreceived =>
      have hbuffer : MayComplete (s.arrive bytes).bufferSize n ∧
          n ≤ (s.arrive bytes).stream.length := by
        rw [bufferSize, arrive, hreading, List.length_append]
        exact ⟨hmay, by omega⟩
      have hreading' : (s.arrive bytes).reading = .body := hreading
      simp only [machine, if_pos hbuffer, hreading']
      rw [← readHeader_arrive, hreceived]
      simp only [arrive, hreading, List.take_append_of_le_length hlen,
        List.drop_append_of_le_length hlen, handleMessage]
  | failed =>
      simp only [machine] at hn ⊢
      have hreading' : (s.arrive bytes).reading = s.reading := rfl
      rw [hreading']
      split at hn
      · cases hn
      · rfl
  | closed => rfl

/-- What is to arrive at a connection are the texts `rest`: in frames of which the first may
have been begun, or in whole frames as long as it has not begun to read. -/
def Due (s : Connection) (begun : Prop) (rest : List (List UInt8)) : Prop :=
  (begun → s.Expects rest) ∧ (¬ begun → s.reading = .none ∧ s.stream = rest.flatMap frame)

lemma Expects.arrive_frame (h : s.Expects rest) :
    (s.arrive (frame text)).Expects (rest ++ [text]) := by
  have hreading : (s.arrive (frame text)).reading = s.reading := rfl
  cases hr : s.reading with
  | none => simp [Expects, hreading, hr]
  | header =>
      simp only [Expects, hr] at h
      simp only [Expects, hreading, hr]
      simp [arrive, h]
  | body =>
      simp only [Expects, hr] at h
      obtain ⟨first, later, rfl, hstream, hsize⟩ := h
      simp only [Expects, hreading, hr]
      exact ⟨first, later ++ [text], rfl, by simp [arrive, hstream], hsize⟩

lemma Due.arrive_frame (h : s.Due begun rest) :
    (s.arrive (frame text)).Due begun (rest ++ [text]) := by
  refine ⟨fun hb => (h.1 hb).arrive_frame, fun hb => ⟨(h.2 hb).1, ?_⟩⟩
  simp [arrive, (h.2 hb).2]

/-- A read that fills its buffer takes what was due. -/
lemma Due.read {m : ℕ} (h : s.Due begun rest) (hbegun : begun)
    (hshort : ∀ text ∈ rest, text.length < 2 ^ 16)
    (hn : machine.next s (.complete s.bufferSize m) = some (u, o)) :
    ∃ rest', rest = handed o ++ rest' ∧ u.Due begun rest' := by
  have haligned : Aligned rest [] s := ⟨rest, rfl, h.1 hbegun⟩
  have hfull : Full s (.complete s.bufferSize m) := by
    rintro bytes members ⟨⟩
    rfl
  obtain ⟨rest', hrest, hexpects⟩ := haligned.step hshort hn hfull
  exact ⟨rest', hrest, fun _ => hexpects, fun hnot => absurd hbegun hnot⟩

/-- Where something is due and nothing is left to arrive, a read can fill its buffer. -/
lemma Due.exists_read (h : s.Due begun rest) (hbegun : begun) (hrest : rest ≠ [])
    (hreading : s.reading ≠ .none) (m : ℕ) :
    ∃ u o, machine.next s (.complete s.bufferSize m) = some (u, o) := by
  obtain ⟨text, later, rfl⟩ := List.exists_cons_of_ne_nil hrest
  have hexpects := h.1 hbegun
  cases hr : s.reading with
  | none => exact absurd hr hreading
  | header =>
      simp only [Expects, hr] at hexpects
      have hmay : MayComplete s.bufferSize s.bufferSize ∧ s.bufferSize ≤ s.stream.length := by
        simp only [bufferSize, hr, hexpects]
        exact ⟨⟨le_rfl, id⟩, by simp [frame]⟩
      simp only [machine, if_pos hmay, hr]
      exact ⟨_, _, rfl⟩
  | body =>
      simp only [Expects, hr] at hexpects
      obtain ⟨text', later', -, hstream, hsize⟩ := hexpects
      have hmay : MayComplete s.bufferSize s.bufferSize ∧ s.bufferSize ≤ s.stream.length := by
        simp only [bufferSize, hr, hsize, hstream]
        exact ⟨⟨le_rfl, id⟩, by simp⟩
      simp only [machine, if_pos hmay, hr]
      exact ⟨_, _, rfl⟩

end Connection

/-! ### The invariant of a direction -/

open Connection

/-- What was `sent` is what the receiver has handed over (`got`) and the texts due at it
once `unsent` and what follows it have gone out. After a write that failed nothing
follows any more. -/
structure Channel (s : Sender) (unsent : List (List UInt8)) (r : Connection) (begun : Prop)
    (sent got : List (List UInt8)) (failed : Prop) : Prop where
  keeps : ∃ handed : List (List UInt8), s.Keeps handed (sent.map frame) failed
  paired : unsent.length = s.outstanding.length
  delivers : ∃ (later : List UInt8) (rest : List (List UInt8)), sent = got ++ rest ∧
    (r.arrive (unsent.flatten ++ later)).Due begun rest ∧
    (¬ failed → later = s.mSendQueue.tail.flatMap ChatRoomMsg.getBuf)

namespace Channel

variable {s : Sender} {unsent later : List (List UInt8)} {r u : Connection} {begun failed : Prop}
  {sent got : List (List UInt8)} {bytes text : List UInt8} {object : ChatRoomMsg}
  {msg : ℤ → UInt8} {size : ℤ} {n m : ℕ} {o : List Handled}

/-- What was handed over was sent, in this order. -/
lemma sound (h : Channel s unsent r begun sent got failed) : got <+: sent := by
  obtain ⟨_, rest, hsent, -⟩ := h.delivers
  exact ⟨rest, hsent.symm⟩

/-- Nothing was sent yet. -/
lemma built (hbegun : ¬ begun) (hlive : ¬ failed) (hreading : r.reading = .none)
    (hstream : r.stream = []) : Channel .built [] r begun [] [] failed := by
  refine ⟨⟨[], Sender.keeps_built hlive⟩, rfl, [], [], rfl, ?_, fun _ => rfl⟩
  exact ⟨fun hb => absurd hb hbegun, fun _ => ⟨hreading, by simp [arrive, hstream]⟩⟩

/-- A receiver that reads has begun to. -/
lemma begun_of_reading (h : Channel s unsent r begun sent got failed)
    (hreading : r.reading ≠ .none) : begun := by
  obtain ⟨_, _, -, hdue, -⟩ := h.delivers
  by_contra hnot
  exact hreading (hdue.2 hnot).1

/-- The outstanding write is that of the front of the queue. -/
lemma unsent_eq_nil_iff (h : Channel s unsent r begun sent got failed) (hlive : ¬ failed) :
    unsent = [] ↔ s.mSendQueue = [] := by
  obtain ⟨handed, hkeeps⟩ := h.keeps
  rw [← List.length_eq_zero_iff, h.paired, List.length_eq_zero_iff, ← not_iff_not]
  exact (hkeeps.ne_nil_iff hlive).symm

/-- Sending a text puts its frame behind all that is on its way. -/
lemma send (h : Channel s unsent r begun sent got failed) (h0 : 0 ≤ size) (h1 : size < 2 ^ 16) :
    Channel (s.sendMsgToClient object msg size).1
      (unsent ++ (s.sendMsgToClient object msg size).2) r begun (sent ++ [read msg 0 size]) got
      failed := by
  obtain ⟨handed, hkeeps⟩ := h.keeps
  obtain ⟨behind, rest, hsent, hdue, hbehind⟩ := h.delivers
  have hbuf : (object.setContent msg size).getBuf = frame (read msg 0 size) :=
    ChatRoomMsg.getBuf_setContent h0 h1
  refine ⟨⟨_, by simpa using hkeeps.sendMsgToClient h0 h1⟩, ?_, ?_⟩
  · cases hqueue : s.mSendQueue <;>
      simp [Sender.sendMsgToClient, Sender.doWrite, hqueue, h.paired]
  · have hdue' : ((r.arrive (unsent.flatten ++ behind)).arrive (frame (read msg 0 size))).Due begun
        (rest ++ [read msg 0 size]) := hdue.arrive_frame
    rw [arrive_arrive] at hdue'
    cases hqueue : s.mSendQueue with
    | nil =>
        have hlive : ¬ failed := fun hf => (hkeeps.stuck hf).2 hqueue
        have hnil : unsent = [] := (h.unsent_eq_nil_iff hlive).mpr hqueue
        refine ⟨[], rest ++ [read msg 0 size], by rw [hsent, List.append_assoc], ?_, fun _ => ?_⟩
        · simpa [Sender.sendMsgToClient, Sender.doWrite, hqueue, hbuf, hnil, hbehind hlive]
            using hdue'
        · simp [Sender.sendMsgToClient, Sender.doWrite, hqueue]
    | cons front queue =>
        refine ⟨behind ++ frame (read msg 0 size), rest ++ [read msg 0 size],
          by rw [hsent, List.append_assoc], ?_, fun hlive => ?_⟩
        · simpa [Sender.sendMsgToClient, hqueue] using hdue'
        · simp [Sender.sendMsgToClient, hqueue, hbehind hlive, hbuf]

/-- Bytes of the frame go out and arrive. -/
lemma transfer (h : Channel s unsent r begun sent got failed)
    (ht : Xsix.transfer bytes unsent = some later) (hcaptured : Captured bytes unsent) :
    Channel s later (r.arrive bytes) begun sent got failed := by
  obtain ⟨hflatten, hlength⟩ := flatten_of_transfer ht hcaptured
  obtain ⟨behind, rest, hsent, hdue, hbehind⟩ := h.delivers
  refine ⟨h.keeps, hlength.trans h.paired, behind, rest, hsent, ?_, hbehind⟩
  rwa [arrive_arrive, ← List.append_assoc, hflatten]

/-- A write whose bytes are out completes, and the next one is issued. -/
lemma written (h : Channel s ([] :: later) r begun sent got failed) :
    Channel (s.handleWrite true).1 (later ++ (s.handleWrite true).2) r begun sent got failed := by
  obtain ⟨handed, hkeeps⟩ := h.keeps
  obtain ⟨behind, rest, hsent, hdue, hbehind⟩ := h.delivers
  have hout : s.outstanding ≠ [] := by
    intro hnil
    simpa [hnil] using h.paired
  have hlive : ¬ failed := fun hf => hout (hkeeps.stuck hf).1
  have hwriting := hkeeps.writing hlive
  have hpaired := h.paired
  have hkeeps' : ∃ handed', (s.handleWrite true).1.Keeps handed' (sent.map frame) failed :=
    ⟨_, hkeeps.handleWrite hout⟩
  cases hqueue : s.mSendQueue with
  | nil => exact absurd (by simpa [hqueue] using hwriting) hout
  | cons front queue =>
      have hlater : later = [] := by simpa [hwriting, hqueue] using hpaired
      have hbehind' := hbehind hlive
      rw [hqueue, List.tail_cons] at hbehind'
      cases queue with
      | nil =>
          have hdone : s.handleWrite true = (⟨[], []⟩, []) := by
            simp [Sender.handleWrite, hqueue, hwriting]
          rw [hdone] at hkeeps' ⊢
          rw [hlater]
          exact ⟨hkeeps', rfl, behind, rest, hsent, by simpa [hlater] using hdue, fun _ => hbehind'⟩
      | cons second queue =>
          have hnext : s.handleWrite true =
              (⟨second :: queue, [second.getBuf]⟩, [second.getBuf]) := by
            simp [Sender.handleWrite, hqueue, hwriting, Sender.doWrite]
          rw [hnext] at hkeeps' ⊢
          rw [hlater]
          refine ⟨hkeeps', rfl, queue.flatMap ChatRoomMsg.getBuf, rest, hsent, ?_, fun _ => rfl⟩
          simpa [hlater, hbehind'] using hdue

/-- After a write that failed what was left of it is not sent. -/
lemma failed_write (h : Channel s unsent r begun sent got failed) (hne : unsent ≠ []) :
    Channel (s.handleWrite false).1 (unsent.tail ++ (s.handleWrite false).2) r begun sent got
      True := by
  obtain ⟨handed, hkeeps⟩ := h.keeps
  obtain ⟨behind, rest, hsent, hdue, -⟩ := h.delivers
  have hout : s.outstanding ≠ [] := by
    rw [← List.length_pos_iff, ← h.paired]
    exact List.length_pos_iff.mpr hne
  obtain ⟨first, unsent, rfl⟩ := List.exists_cons_of_ne_nil hne
  have hpaired := h.paired
  have hle := hkeeps.length_le
  have hnil : unsent = [] := List.length_eq_zero_iff.mp (by simp at hpaired; omega)
  refine ⟨⟨_, hkeeps.handleWrite_failed hout⟩, ?_, first ++ behind, rest, hsent, ?_,
    fun hnot => absurd trivial hnot⟩
  · simp [Sender.handleWrite, hnil, ← hpaired]
  · simpa [Sender.handleWrite, hnil] using hdue

/-- A read that fills its buffer hands over the next text, or comes to its header. -/
lemma read (h : Channel s unsent r begun sent got failed)
    (hshort : ∀ text ∈ sent, text.length < 2 ^ 16)
    (hn : machine.next r (.complete r.bufferSize m) = some (u, o)) :
    Channel s unsent u begun sent (got ++ handed o) failed := by
  have hbegun : begun := h.begun_of_reading fun hnone => by simp [machine, hnone] at hn
  obtain ⟨behind, rest, hsent, hdue, hbehind⟩ := h.delivers
  have hshort' : ∀ text ∈ rest, text.length < 2 ^ 16 := by
    intro text htext
    exact hshort text (by rw [hsent]; exact List.mem_append_right _ htext)
  obtain ⟨rest', hrest, hdue'⟩ := hdue.read hbegun hshort' (next_arrive hn)
  exact ⟨h.keeps, h.paired, behind, rest', by rw [hsent, hrest, List.append_assoc], hdue', hbehind⟩

/-- The receiver begins to read. -/
lemma start {begun' : Prop} (h : Channel s unsent r begun sent got failed) (hbegun : ¬ begun)
    (hbegun' : begun') (hstream : u.stream = r.stream) :
    Channel s unsent u.readHeader begun' sent got failed := by
  obtain ⟨behind, rest, hsent, hdue, hbehind⟩ := h.delivers
  refine ⟨h.keeps, h.paired, behind, rest, hsent, ⟨fun _ => ?_, fun hnot => absurd hbegun' hnot⟩,
    hbehind⟩
  rw [← readHeader_arrive]
  have hall := (hdue.2 hbegun).2
  exact expects_readHeader (by rw [← hall, Connection.arrive, Connection.arrive, hstream])

/-- The receiver gives up reading. -/
lemma fail (h : Channel s unsent r begun sent got failed)
    (hn : machine.next r .fail = some (u, o)) : Channel s unsent u begun sent got failed := by
  have hbegun : begun := h.begun_of_reading fun hnone => by simp [machine, hnone] at hn
  obtain ⟨behind, rest, hsent, -, hbehind⟩ := h.delivers
  cases step_of_next hn
  exact ⟨h.keeps, h.paired, behind, rest, hsent, ⟨fun _ => trivial, fun hnot => absurd hbegun hnot⟩,
    hbehind⟩

/-- The receiver's own writes leave what is due at it. -/
lemma afterWrite (h : Channel s unsent r begun sent got failed) (ok : Bool) :
    Channel s unsent (r.afterWrite ok) begun sent got failed := by
  obtain ⟨behind, rest, hsent, hdue, hbehind⟩ := h.delivers
  cases ok with
  | true => exact h
  | false => exact ⟨h.keeps, h.paired, behind, rest, hsent, hdue, hbehind⟩

/-- Once nothing is on its way, all that was sent was handed over. -/
lemma settled (h : Channel s unsent r begun sent got failed) (hlive : ¬ failed)
    (hunsent : unsent = []) (hreading : r.reading = .header) (hstream : r.stream = []) :
    got = sent := by
  obtain ⟨behind, rest, hsent, hdue, hbehind⟩ := h.delivers
  have hqueue := (h.unsent_eq_nil_iff hlive).mp hunsent
  have hnone : behind = [] := by rw [hbehind hlive, hqueue]; rfl
  have hbegun : begun := h.begun_of_reading (by rw [hreading]; exact Reading.noConfusion)
  have hexpects := hdue.1 hbegun
  rw [hunsent, hnone] at hexpects
  simp only [Expects, Connection.arrive, hreading] at hexpects
  cases rest with
  | nil => rw [hsent, List.append_nil]
  | cons text later => simp [hstream, frame, bytesOf] at hexpects

/-- **No direction is stuck**: as long as texts are on their way to a receiver that reads,
bytes can go out, a write can complete, or a read can fill its buffer. -/
lemma progress (h : Channel s unsent r begun sent got failed) (hlive : ¬ failed)
    (hreading : r.reading ≠ .none) (hne : got ≠ sent) (m : ℕ) :
    (∃ bytes later, Xsix.transfer bytes unsent = some later ∧ Captured bytes unsent) ∨
      (∃ later, unsent = [] :: later) ∨
      ∃ u o, machine.next r (.complete r.bufferSize m) = some (u, o) := by
  obtain ⟨behind, rest, hsent, hdue, hbehind⟩ := h.delivers
  cases hunsent : unsent with
  | nil =>
      have hqueue := (h.unsent_eq_nil_iff hlive).mp hunsent
      have hnone : behind = [] := by rw [hbehind hlive, hqueue]; rfl
      have hrest : rest ≠ [] := by
        rintro rfl
        exact hne (by rw [hsent, List.append_nil])
      have hdue' : r.Due begun rest := by simpa [hunsent, hnone, arrive] using hdue
      exact .inr (.inr (hdue'.exists_read (h.begun_of_reading hreading) hrest hreading m))
  | cons first later =>
      by_cases hfirst : first = []
      · exact .inr (.inl ⟨later, by rw [hfirst]⟩)
      · have hpos := List.length_pos_iff.mpr hfirst
        exact .inl ⟨first, _, by rw [Xsix.transfer, if_pos ⟨hpos, le_rfl⟩], List.prefix_rfl⟩

end Channel

end Xsix

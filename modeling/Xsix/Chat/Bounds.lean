import Xsix.Chat.Receive

/-!
Which cells of a message the server touches when it receives one and sends it on.

The peer chooses the length and the text. `read_body` and `handle_message` take the length
as it is, and the text sent on is longer than the text received, by the prefix
`guest(id):`. So the cells touched are those of a message exactly if both fit
(`inBounds_iff`), and over a run if they fit in each step (`in_bounds_iff`).
-/

namespace Xsix

open CInt Memory Machine

/-- The bytes of an ASCII string. -/
def ascii (s : String) : List UInt8 := s.toList.map fun c => UInt8.ofNat c.toNat

/-- A number as `%d` writes it. -/
def decimal (n : ℤ) : List UInt8 := ascii (toString n)

/-- A string as `%s` writes it: up to its first zero byte. -/
def cString (text : List UInt8) : List UInt8 := text.takeWhile (· ≠ 0)

/-- What the format `guest(%d):%s` makes of an id and a text. -/
def guestText (id : ℤ) (text : List UInt8) : List UInt8 :=
  ascii "guest(" ++ decimal id ++ ascii "):" ++ cString text

/-- `buf` of `handle_message`: 4096 cells, all but the last for the text. -/
def guestBuf (id : ℤ) (text : List UInt8) : ℤ → UInt8 :=
  write (fun _ => 0) 0 ((guestText id text).take 4095)

/-- `sendbacksize` of `handle_message`: what `snprintf` returns counts the whole text. -/
def sendbacksize (id : ℤ) (text : List UInt8) : ℤ := (guestText id text).length

namespace Handled

/-- The cells `read_body` lets the read fill. -/
def readBodySpan (e : Handled) : Span := ⟨0, e.bytes⟩

/-- The cells `handle_message` makes its string of. -/
def handleMessageSpan (e : Handled) : Span := ⟨0, e.realContentSize⟩

/-- `Connection::send_msg_to_client` on what `handle_message` broadcasts: the message it
puts into the queue. -/
def sendbackmsg (e : Handled) (object : ChatRoomMsg) : ChatRoomMsg :=
  object.setContent (guestBuf e.id e.recvRealMsg) (sendbacksize e.id e.recvRealMsg)

/-- The cells that receiving a message and sending it on touches are cells of messages, and
the header of what is sent on counts the bytes that follow it. -/
structure InBounds (e : Handled) : Prop where
  readBody : e.readBodySpan.Inside
  handleMessage : e.handleMessageSpan.Inside
  setContent : e.members ≠ 0 →
    (ChatRoomMsg.setContentSpan (sendbacksize e.id e.recvRealMsg)).Inside
  getBuf : e.members ≠ 0 → ∀ object : ChatRoomMsg, (e.sendbackmsg object).getBufSpan.Inside
  header : ∀ object : ChatRoomMsg, ∃ sent : List UInt8,
    (e.sendbackmsg object).getBuf = bytesOf (htons (e.sendbackmsg object).contentsize) ++ sent ∧
      sent.length = (e.sendbackmsg object).contentsize

/-- A text of `size` bytes fits into a message, and so does the text that is sent on. -/
def Fits (id : ℤ) (size : ℕ) (text : List UInt8) (members : ℕ) : Prop :=
  size ≤ 1024 ∧ (members = 0 ∨ 8 + (decimal id).length + (cString text).length ≤ 1024)

lemma sendbacksize_eq (id : ℤ) (text : List UInt8) :
    sendbacksize id text = 8 + (decimal id).length + (cString text).length := by
  have hguest : (ascii "guest(").length = 6 := rfl
  have hclose : (ascii "):").length = 2 := rfl
  have hlength : (guestText id text).length =
      6 + (decimal id).length + 2 + (cString text).length := by
    rw [guestText, List.length_append, List.length_append, List.length_append, hguest, hclose]
  rw [sendbacksize, hlength]
  push_cast
  omega

lemma inside_iff {len : ℕ} : (⟨0, len⟩ : Span).Inside ↔ len ≤ 1024 := by
  simp only [Span.Inside]
  omega

/-- **When receiving a message stays in bounds.** -/
lemma inBounds_iff {e : Handled} (h : e.bytes ≤ e.realContentSize) :
    e.InBounds ↔ Fits e.id e.realContentSize e.recvRealMsg e.members := by
  have hsize := sendbacksize_eq e.id e.recvRealMsg
  constructor
  · intro hin
    refine ⟨inside_iff.mp hin.handleMessage, or_iff_not_imp_left.mpr fun hmembers => ?_⟩
    have hset := (hin.setContent hmembers).2.2
    rw [ChatRoomMsg.setContentSpan, hsize] at hset
    have hle : (0 : ℤ) + (8 + (decimal e.id).length + (cString e.recvRealMsg).length) ≤ 1024 :=
      hset
    omega
  · rintro ⟨hreal, hsent⟩
    refine ⟨inside_iff.mpr (h.trans hreal), inside_iff.mpr hreal, fun hmembers => ?_,
      fun hmembers object => ?_, fun object => ?_⟩
    · have hle := hsent.resolve_left hmembers
      rw [ChatRoomMsg.setContentSpan, hsize]
      exact ⟨le_rfl, by dsimp only; omega, by dsimp only; omega⟩
    · have hle := hsent.resolve_left hmembers
      refine inside_iff.mpr ?_
      simp only [sendbackmsg, ChatRoomMsg.setContent, hsize]
      omega
    · exact ⟨_, rfl, by rw [length_read, Int.toNat_natCast]⟩

end Handled

namespace Connection

variable {s u : Connection} {i : Input} {is : List Input} {o os : List Handled} {id : ℤ}
  {content : ℤ → UInt8} {stream : List UInt8}

/-- The text a body read that brings `n` bytes completes. -/
def received (s : Connection) (n : ℕ) : List UInt8 :=
  read (s.mTmpMsg.storeContent (s.stream.take n)).content 0 (ntohs s.mTmpMsg.contentsize)

/-- A body read that completes brings a text that fits. -/
def TextFits (s : Connection) (i : Input) : Prop :=
  ∀ bytes members : ℕ, i = .complete bytes members → s.reading = .body →
    Handled.Fits s.mId (ntohs s.mTmpMsg.contentsize) (s.received bytes) members

/-- **One step touches only cells of messages exactly if what it receives fits.** -/
lemma inBounds_step_iff (hn : machine.next s i = some (u, o)) :
    (∀ e ∈ o, e.InBounds) ↔ TextFits s i := by
  cases step_of_next hn with
  | @header n members hreading =>
      refine ⟨fun _ bytes members _ hbody => ?_, fun _ e he => (nomatch he)⟩
      exact Reading.noConfusion (hreading.symm.trans hbody)
  | @body n members received hreading hmay hlen hreceived =>
      have hle : (received.handleMessage n members).bytes ≤
          (received.handleMessage n members).realContentSize := by
        rw [hreceived]
        exact hmay.1
      rw [List.forall_mem_singleton, Handled.inBounds_iff hle, hreceived]
      constructor
      · rintro hfits bytes members ⟨⟩ -
        exact hfits
      · intro hfits
        exact hfits n members rfl hreading
  | failed => exact ⟨fun _ _ _ hi => (nomatch hi), fun _ e he => (nomatch he)⟩
  | closed => exact ⟨fun _ _ _ hi => (nomatch hi), fun _ e he => (nomatch he)⟩

/-- **When no byte sequence overruns a message**: throughout a run, whatever the peer sends,
exactly if each text that is received has at most 1024 bytes and, when it is sent on to
anybody, leaves room for its prefix. -/
theorem in_bounds_iff (hrun : machine.Run (started id content stream) is os s) :
    (machine.Throughout (started id content stream) is fun os _ => ∀ e ∈ os, e.InBounds) ↔
      machine.EachStep (started id content stream) is fun _ t i => TextFits t i := by
  refine hrun.throughout_iff (I := fun os _ => ∀ e ∈ os, e.InBounds) (fun e he => nomatch he)
    (fun _ _ h => h) (fun os t i u o h hn hC => ?_) fun os t i u o h hn hu => ?_
  · exact List.forall_mem_append.mpr ⟨h, (inBounds_step_iff hn).mpr hC⟩
  · exact (inBounds_step_iff hn).mp (List.forall_mem_append.mp hu).2

/-- A text of two bytes, sent on to one connection. -/
theorem in_bounds_two :
    ∃ os s, machine.Run (started 0 (fun _ => 0) [0, 2, 104, 105])
        [.complete 2 1, .complete 2 1] os s ∧
      (∀ e ∈ os, e.InBounds) ∧ handed os = [[104, 105]] := by
  obtain ⟨os, s, hrun, hos⟩ : ∃ os s, machine.Run (started 0 (fun _ => 0) [0, 2, 104, 105])
      [.complete 2 1, .complete 2 1] os s ∧ handed os = [[104, 105]] :=
    ⟨_, _, run_iff_exec.mpr rfl, rfl⟩
  refine ⟨os, s, hrun, (in_bounds_iff hrun).mpr ?_ _ _ _ List.prefix_rfl hrun, hos⟩
  refine eachStep_cons rfl (fun _ _ _ hbody => nomatch hbody) (eachStep_cons rfl ?_ eachStep_nil)
  rintro bytes members ⟨⟩ -
  exact ⟨by decide, .inr (by decide)⟩

/-- **A peer that announces 1025 bytes** has `handle_message` read past the cells. -/
theorem overrun_by_length :
    ∃ os s, machine.Run (started 0 (fun _ => 0) [4, 1, 104]) [.complete 2 1, .complete 1 1] os s ∧
      (os.map (·.realContentSize)) = [1025] ∧ ¬ ∀ e ∈ os, e.InBounds := by
  refine ⟨_, _, run_iff_exec.mpr rfl, rfl, fun h => ?_⟩
  have hread := (h _ List.mem_cons_self).handleMessage
  exact absurd hread.2.2 (by decide)

end Connection

end Xsix

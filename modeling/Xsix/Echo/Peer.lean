import Xsix.Library.Machine

/-!
One end of an echo connection: `Connection` of `echo_server.cc` and `EchoClient` of
`echo_client.cc`.

Both send back what they receive, in the handler of each read and without waiting for the
writes before; the client also begins with a text. `send` hands `async_write` a buffer on its
own stack, so what goes out is up to the environment, and so is which of the outstanding
writes goes on. What does not depend on either is how much there is (`Weighed`); that the
bytes are those that were received takes writes that go out in turn from buffers that still
hold them (`inTurn`, `Passes`).
-/

namespace Xsix

open Machine

/-- One end: whether its socket is open, whether `start` was called, whether a read is
outstanding, the bytes that have arrived, and what is left of each outstanding write. -/
structure EchoPeer where
  isOpen : Bool
  begun : Bool
  reading : Bool
  inbox : List UInt8
  writes : List (List UInt8)

namespace EchoPeer

/-- Once the connection is established. -/
def built : EchoPeer := ⟨true, false, false, [], []⟩

/-- `send`. -/
def send (p : EchoPeer) (msg : List UInt8) : EchoPeer :=
  if p.isOpen then { p with writes := p.writes ++ [msg] } else p

/-- `async_recv`. -/
def asyncRecv (p : EchoPeer) : EchoPeer :=
  if p.isOpen then { p with reading := true } else p

/-- Bytes arrive. -/
@[simps] def arrive (p : EchoPeer) (bytes : List UInt8) : EchoPeer :=
  { p with inbox := p.inbox ++ bytes }

/-- A read completes with the first `n` of them. -/
@[simps] def complete (p : EchoPeer) (n : ℕ) : EchoPeer :=
  { p with inbox := p.inbox.drop n, reading := false }

/-- `handle_error`. -/
def handleError (p : EchoPeer) : EchoPeer := { p with isOpen := false }

/-- What may happen next: `start` is called; bytes arrive; bytes of the `k`-th outstanding write
go out; its handler runs, with or without an error; the handler of a read runs, with `n` bytes
or with an error. -/
inductive Input where
  | start
  | arrive (bytes : List UInt8)
  | transmit (k : ℕ) (bytes : List UInt8)
  | written (k : ℕ) (ok : Bool)
  | read (n : ℕ)
  | fail

/-- What is observed: bytes arrive, go out, or are handed to the handler of a read. -/
inductive Event where
  | arrived (bytes : List UInt8)
  | sent (bytes : List UInt8)
  | received (bytes : List UInt8)
  deriving DecidableEq

/-- An end that begins by sending `greeting`, if it has one. -/
def machine (greeting : Option (List UInt8)) : Machine EchoPeer Input Event where
  next p
    | .start =>
        if p.begun then none
        else
          let greeted := match greeting with
            | some msg => p.send msg
            | none => p
          some ({ greeted with begun := true }.asyncRecv, [])
    | .arrive bytes => some (p.arrive bytes, [.arrived bytes])
    | .transmit k bytes =>
        match p.writes[k]? with
        | none => none
        | some left =>
            if p.isOpen && !bytes.isEmpty && bytes.length ≤ left.length then
              some ({ p with writes := p.writes.set k (left.drop bytes.length) }, [.sent bytes])
            else none
    | .written k ok =>
        match p.writes[k]? with
        | none => none
        | some left =>
            if ok && !left.isEmpty then none
            else
              let finished := { p with writes := p.writes.eraseIdx k }
              some (if ok then finished else finished.handleError, [])
    | .read n =>
        if p.reading && 0 < n && n ≤ 1024 && n ≤ p.inbox.length then
          let msg := p.inbox.take n
          some (((p.complete n).send msg).asyncRecv, [.received msg])
        else none
    | .fail => if p.reading then some ({ p with reading := false }.handleError, []) else none

/-! ### Streams -/

/-- The bytes that arrived. -/
def arrived (os : List Event) : List UInt8 :=
  os.flatMap fun
    | .arrived bytes => bytes
    | _ => []

/-- The bytes that went out. -/
def sent (os : List Event) : List UInt8 :=
  os.flatMap fun
    | .sent bytes => bytes
    | _ => []

/-- The bytes handed to the handlers of reads. -/
def received (os : List Event) : List UInt8 :=
  os.flatMap fun
    | .received bytes => bytes
    | _ => []

/-- How often bytes went out or were handed over. -/
def moves (os : List Event) : ℕ :=
  os.countP fun
    | .arrived _ => false
    | _ => true

/-- What an end has sent of its own accord, once it has begun. -/
def greeted (greeting : Option (List UInt8)) (begun : Bool) : List UInt8 :=
  if begun then greeting.getD [] else []

variable {greeting : Option (List UInt8)} {p q u : EchoPeer} {i : Input} {is : List Input}
  {o os : List Event}

@[simp] lemma arrived_append (os o : List Event) : arrived (os ++ o) = arrived os ++ arrived o :=
  List.flatMap_append

@[simp] lemma sent_append (os o : List Event) : sent (os ++ o) = sent os ++ sent o :=
  List.flatMap_append

@[simp] lemma received_append (os o : List Event) :
    received (os ++ o) = received os ++ received o := List.flatMap_append

@[simp] lemma moves_append (os o : List Event) : moves (os ++ o) = moves os + moves o :=
  List.countP_append

/-- What one event adds to the streams. -/
@[simp] lemma streams_arrived (bytes : List UInt8) : arrived [.arrived bytes] = bytes ∧
    sent [.arrived bytes] = [] ∧ received [.arrived bytes] = [] := by
  simp [arrived, sent, received]

@[simp] lemma streams_sent (bytes : List UInt8) : arrived [.sent bytes] = [] ∧
    sent [.sent bytes] = bytes ∧ received [.sent bytes] = [] := by
  simp [arrived, sent, received]

@[simp] lemma streams_received (bytes : List UInt8) : arrived [.received bytes] = [] ∧
    sent [.received bytes] = [] ∧ received [.received bytes] = bytes := by
  simp [arrived, sent, received]

@[simp] lemma send_inbox (msg : List UInt8) : (p.send msg).inbox = p.inbox := by
  rw [send]
  split_ifs <;> rfl

@[simp] lemma send_begun (msg : List UInt8) : (p.send msg).begun = p.begun := by
  rw [send]
  split_ifs <;> rfl

@[simp] lemma send_isOpen (msg : List UInt8) : (p.send msg).isOpen = p.isOpen := by
  rw [send]
  split_ifs <;> rfl

lemma send_writes (msg : List UInt8) :
    (p.send msg).writes = if p.isOpen then p.writes ++ [msg] else p.writes := by
  rw [send]
  split_ifs <;> rfl

@[simp] lemma asyncRecv_inbox : p.asyncRecv.inbox = p.inbox := by
  rw [asyncRecv]
  split_ifs <;> rfl

@[simp] lemma asyncRecv_begun : p.asyncRecv.begun = p.begun := by
  rw [asyncRecv]
  split_ifs <;> rfl

@[simp] lemma asyncRecv_isOpen : p.asyncRecv.isOpen = p.isOpen := by
  rw [asyncRecv]
  split_ifs <;> rfl

@[simp] lemma asyncRecv_writes : p.asyncRecv.writes = p.writes := by
  rw [asyncRecv]
  split_ifs <;> rfl

/-! ### The outstanding writes -/

section Writes

variable {writes : List (List UInt8)} {left : List UInt8} {k : ℕ}

/-- The writes around the `k`-th. -/
lemma writes_eq (hk : writes[k]? = some left) :
    writes = writes.take k ++ left :: writes.drop (k + 1) := by
  obtain ⟨hlt, heq⟩ := List.getElem?_eq_some_iff.mp hk
  rw [← heq, ← List.drop_eq_getElem_cons hlt, List.take_append_drop]

lemma flatten_writes (hk : writes[k]? = some left) :
    writes.flatten = (writes.take k).flatten ++ left ++ (writes.drop (k + 1)).flatten := by
  conv_lhs => rw [writes_eq hk]
  simp

lemma flatten_set (hk : writes[k]? = some left) (bytes : List UInt8) :
    (writes.set k bytes).flatten =
      (writes.take k).flatten ++ bytes ++ (writes.drop (k + 1)).flatten := by
  obtain ⟨hlt, -⟩ := List.getElem?_eq_some_iff.mp hk
  rw [List.set_eq_take_append_cons_drop, if_pos hlt]
  simp

lemma flatten_eraseIdx :
    (writes.eraseIdx k).flatten = (writes.take k).flatten ++ (writes.drop (k + 1)).flatten := by
  rw [List.eraseIdx_eq_take_drop_succ, List.flatten_append]

end Writes

/-! ### What holds of each end -/

/-- What holds whatever goes out: what arrived is handed over in turn; nothing happens before
`start`; while the socket is open a read is outstanding, and no bytes are gained or lost. -/
structure Weighed (greeting : Option (List UInt8)) (os : List Event) (p : EchoPeer) : Prop where
  inbox : received os ++ p.inbox = arrived os
  fresh : p.begun = false → p.isOpen = true ∧ p.reading = false ∧ p.writes = [] ∧
    sent os = [] ∧ received os = []
  reading : p.isOpen = true → p.begun = true → p.reading = true
  weight_le : (sent os).length + p.writes.flatten.length ≤
    (greeted greeting p.begun).length + (received os).length
  weight_eq : p.isOpen = true → (sent os).length + p.writes.flatten.length =
    (greeted greeting p.begun).length + (received os).length

lemma weighed_built : Weighed greeting [] built :=
  ⟨rfl, fun _ => ⟨rfl, rfl, rfl, rfl, rfl⟩, fun _ h => (nomatch h), le_rfl, fun _ => rfl⟩

/-- What a step can be, by its effect. -/
inductive Step (greeting : Option (List UInt8)) (p : EchoPeer) :
    Input → EchoPeer → List Event → Prop
  | started (hb : p.begun = false) : Step greeting p .start
      ({ (greeting.elim p p.send) with begun := true } : EchoPeer).asyncRecv []
  | arrived (bytes : List UInt8) :
      Step greeting p (.arrive bytes) (p.arrive bytes) [.arrived bytes]
  | sent {k : ℕ} {bytes left : List UInt8} (hk : p.writes[k]? = some left)
      (hopen : p.isOpen = true) (hne : bytes ≠ []) (hlen : bytes.length ≤ left.length) :
      Step greeting p (.transmit k bytes)
        { p with writes := p.writes.set k (left.drop bytes.length) } [.sent bytes]
  | written {k : ℕ} (hk : p.writes[k]? = some []) :
      Step greeting p (.written k true) { p with writes := p.writes.eraseIdx k } []
  | failed {k : ℕ} {left : List UInt8} (hk : p.writes[k]? = some left) :
      Step greeting p (.written k false)
        { p with writes := p.writes.eraseIdx k, isOpen := false } []
  | received {n : ℕ} (hreading : p.reading = true) (hpos : 0 < n) (hle : n ≤ p.inbox.length) :
      Step greeting p (.read n) ((p.complete n).send (p.inbox.take n)).asyncRecv
        [.received (p.inbox.take n)]
  | stopped (hreading : p.reading = true) :
      Step greeting p .fail { p with reading := false, isOpen := false } []

lemma step_of_next (hn : (machine greeting).next p i = some (u, o)) : Step greeting p i u o := by
  cases i with
  | start =>
      simp only [machine] at hn
      split_ifs at hn with hbegun
      obtain ⟨rfl, rfl⟩ := Prod.mk.inj (Option.some.inj hn)
      cases greeting with
      | none => exact .started (Bool.eq_false_of_not_eq_true hbegun)
      | some msg => exact .started (Bool.eq_false_of_not_eq_true hbegun)
  | arrive bytes =>
      obtain ⟨rfl, rfl⟩ := Prod.mk.inj (Option.some.inj hn)
      exact .arrived bytes
  | transmit k bytes =>
      simp only [machine] at hn
      split at hn
      · cases hn
      · next left hk =>
        split_ifs at hn with hguard
        obtain ⟨rfl, rfl⟩ := Prod.mk.inj (Option.some.inj hn)
        simp only [Bool.and_eq_true, decide_eq_true_eq] at hguard
        exact .sent hk hguard.1.1 (by simpa using hguard.1.2) hguard.2
  | written k ok =>
      simp only [machine] at hn
      split at hn
      · cases hn
      · next left hk =>
        cases ok with
        | true =>
            simp only [Bool.true_and] at hn
            split_ifs at hn with hleft
            obtain ⟨rfl, rfl⟩ := Prod.mk.inj (Option.some.inj hn)
            obtain rfl : left = [] := by simpa using hleft
            exact .written hk
        | false =>
            obtain ⟨rfl, rfl⟩ := Prod.mk.inj (Option.some.inj hn)
            exact .failed hk
  | read n =>
      simp only [machine] at hn
      split_ifs at hn with hguard
      obtain ⟨rfl, rfl⟩ := Prod.mk.inj (Option.some.inj hn)
      simp only [Bool.and_eq_true, decide_eq_true_eq] at hguard
      exact .received hguard.1.1.1 hguard.1.1.2 hguard.2
  | fail =>
      simp only [machine] at hn
      split_ifs at hn with hreading
      obtain ⟨rfl, rfl⟩ := Prod.mk.inj (Option.some.inj hn)
      exact .stopped hreading

/-- Bytes arrive from outside only. -/
lemma arrived_of_next (hn : (machine greeting).next p i = some (u, o))
    (hi : ∀ bytes, i ≠ .arrive bytes) : arrived o = [] := by
  cases step_of_next hn with
  | arrived bytes => exact absurd rfl (hi bytes)
  | started | written | failed | stopped => rfl
  | sent | received => simp

/-- A step that moves bytes moves at least one. -/
lemma moves_le_of_next (hn : (machine greeting).next p i = some (u, o)) :
    moves o ≤ (sent o).length + (received o).length := by
  cases step_of_next hn with
  | arrived | started | written | failed | stopped => exact Nat.zero_le _
  | sent _ _ hne => simpa [moves, Nat.one_le_iff_ne_zero] using hne
  | @received n _ hpos hle =>
      have hlen : (p.inbox.take n).length = n := List.length_take_of_le hle
      simpa [moves, hlen, -List.length_take, Nat.one_le_iff_ne_zero] using hpos.ne'

/-- A `send` while the socket is open adds what it sends to what is left to send. -/
lemma flatten_send (msg : List UInt8) (hopen : p.isOpen = true) :
    (p.send msg).writes.flatten = p.writes.flatten ++ msg := by
  rw [send_writes, if_pos hopen, List.flatten_concat]

/-- A `send` once the socket is closed does nothing. -/
lemma writes_send_closed (msg : List UInt8) (hclosed : p.isOpen = false) :
    (p.send msg).writes = p.writes := by
  rw [send_writes, if_neg (by simp [hclosed])]

lemma length_flatten_send (msg : List UInt8) :
    (p.send msg).writes.flatten.length =
      p.writes.flatten.length + if p.isOpen then msg.length else 0 := by
  cases hopen : p.isOpen with
  | true => rw [flatten_send msg hopen, List.length_append, if_pos rfl]
  | false => rw [writes_send_closed msg hopen, if_neg (by simp), Nat.add_zero]

lemma asyncRecv_reading (hopen : p.isOpen = true) : p.asyncRecv.reading = true := by
  rw [asyncRecv, if_pos hopen]

/-- `start` sends the greeting. -/
lemma flatten_elim (hopen : p.isOpen = true) (hwrites : p.writes = []) :
    (greeting.elim p p.send).writes.flatten = greeting.getD [] := by
  cases greeting with
  | none => simp [hwrites]
  | some msg => simp [flatten_send msg hopen, hwrites]

lemma isOpen_elim : (greeting.elim p p.send).isOpen = p.isOpen := by
  cases greeting with
  | none => rfl
  | some msg => exact send_isOpen msg

lemma inbox_elim : (greeting.elim p p.send).inbox = p.inbox := by
  cases greeting with
  | none => rfl
  | some msg => exact send_inbox msg

/-- **A step loses no byte while the socket is open, and gains none.** -/
lemma Weighed.step (h : Weighed greeting os p)
    (hn : (machine greeting).next p i = some (u, o)) : Weighed greeting (os ++ o) u := by
  rcases h with ⟨hinbox, hfresh, hread, hle, heq⟩
  cases step_of_next hn with
  | started hb =>
      obtain ⟨hopen, -, hwrites, hsent, hreceived⟩ := hfresh hb
      have hweight : (sent os).length +
          (greeting.elim p p.send).writes.flatten.length =
            (greeted greeting true).length + (received os).length := by
        simp [hsent, hreceived, flatten_elim hopen hwrites, greeted]
      refine ⟨?_, fun hb => ?_, fun _ _ => asyncRecv_reading ?_, ?_, fun _ => ?_⟩
      · simpa [inbox_elim] using hinbox
      · simp at hb
      · exact isOpen_elim.trans hopen
      · simpa using hweight.le
      · simpa using hweight
  | arrived bytes =>
      refine ⟨?_, fun hb => ?_, hread, ?_, fun hopen => ?_⟩
      · simp [← hinbox]
      · simpa using hfresh hb
      · simpa using hle
      · simpa using heq hopen
  | @sent k bytes left hk hopen hne hlen =>
      have hbegun : p.begun = true := by
        by_contra hb
        obtain ⟨-, -, hwrites, -⟩ := hfresh (Bool.eq_false_of_not_eq_true hb)
        simp [hwrites] at hk
      have hweight := heq hopen
      rw [flatten_writes hk] at hweight
      have hweight' : (sent os ++ bytes).length + (p.writes.set k
          (left.drop bytes.length)).flatten.length =
            (greeted greeting p.begun).length + (received os).length := by
        rw [flatten_set hk]
        simp only [List.length_append, List.length_drop] at hweight ⊢
        omega
      refine ⟨?_, fun hb => ?_, hread, ?_, fun _ => ?_⟩
      · simpa using hinbox
      · exact absurd (hb.symm.trans hbegun) (by simp)
      · simpa [-List.length_flatten] using hweight'.le
      · simpa [-List.length_flatten] using hweight'
  | @written k hk =>
      have hflat : (p.writes.eraseIdx k).flatten = p.writes.flatten := by
        rw [flatten_eraseIdx, flatten_writes hk, List.append_nil]
      refine ⟨?_, fun hb => ?_, hread, ?_, fun hopen => ?_⟩
      · simpa using hinbox
      · obtain ⟨-, -, hwrites, -⟩ := hfresh hb
        simp [hwrites] at hk
      · simpa [hflat, -List.length_flatten] using hle
      · simpa [hflat, -List.length_flatten] using heq hopen
  | @failed k left hk =>
      have hflat : (p.writes.eraseIdx k).flatten.length ≤ p.writes.flatten.length := by
        rw [flatten_eraseIdx, flatten_writes hk]
        simp only [List.length_append]
        omega
      refine ⟨?_, fun hb => ?_, fun hopen => (nomatch hopen), ?_, fun hopen => (nomatch hopen)⟩
      · simpa using hinbox
      · obtain ⟨-, -, hwrites, -⟩ := hfresh hb
        simp [hwrites] at hk
      · simpa [-List.length_flatten] using (Nat.add_le_add_left hflat _).trans hle
  | @received n hreading hpos hlen =>
      have hbegun : p.begun = true := by
        by_contra hb
        have hidle := (hfresh (Bool.eq_false_of_not_eq_true hb)).2.1
        exact absurd (hidle.symm.trans hreading) (by simp)
      refine ⟨?_, fun hb => ?_, fun hopen _ => asyncRecv_reading ?_, ?_, fun hopen => ?_⟩
      · simp [← hinbox, List.append_assoc]
      · simp [hbegun] at hb
      · simpa using hopen
      · rw [asyncRecv_writes, length_flatten_send]
        simp only [asyncRecv_begun, send_begun, complete_begun, complete_writes, sent_append,
          received_append, streams_received, List.append_nil, List.length_append]
        split_ifs <;> omega
      · have hweight := heq (by simpa using hopen)
        rw [asyncRecv_writes, length_flatten_send, if_pos (by simpa using hopen)]
        simp only [asyncRecv_begun, send_begun, complete_begun, complete_writes, sent_append,
          received_append, streams_received, List.append_nil, List.length_append]
        omega
  | stopped hreading =>
      refine ⟨?_, fun hb => ?_, fun hopen => (nomatch hopen), ?_, fun hopen => (nomatch hopen)⟩
      · simpa using hinbox
      · exact absurd ((hfresh hb).2.1.symm.trans hreading) (by simp)
      · simpa using hle

/-! ### What an end can do -/

lemma exists_start (hb : p.begun = false) :
    ∃ u, (machine greeting).next p .start = some (u, []) :=
  ⟨_, by simp only [machine, hb]; rfl⟩

lemma exists_read (hreading : p.reading = true) (hne : p.inbox ≠ []) :
    ∃ u o, (machine greeting).next p (.read 1) = some (u, o) ∧ 0 < moves o := by
  have hlen : 1 ≤ p.inbox.length := List.length_pos_of_ne_nil hne
  refine ⟨((p.complete 1).send (p.inbox.take 1)).asyncRecv, [.received (p.inbox.take 1)], ?_, ?_⟩
  · simp [machine, hreading, hlen]
  · simp [moves]

lemma exists_transmit (hopen : p.isOpen = true) (hne : p.writes.flatten ≠ []) :
    ∃ k bytes u o, (machine greeting).next p (.transmit k bytes) = some (u, o) ∧ 0 < moves o := by
  obtain ⟨left, hmem, hleft⟩ : ∃ left ∈ p.writes, left ≠ [] := by
    simpa [List.flatten_eq_nil_iff] using hne
  obtain ⟨k, hk⟩ := List.getElem?_of_mem hmem
  have hlen : 1 ≤ left.length := List.length_pos_of_ne_nil hleft
  refine ⟨k, left.take 1, { p with writes := p.writes.set k (left.drop (left.take 1).length) },
    [.sent (left.take 1)], ?_, ?_⟩
  · simp [machine, hk, hopen, hleft]
  · simp [moves]

/-! ### Writes that go out in turn -/

/-- The step is not one on bytes that go out, or these are the next ones: no earlier write has
anything left to send, and the buffer still holds what `send` put there. -/
def inTurn (p : EchoPeer) : Input → Bool
  | .transmit k bytes =>
      (p.writes.take k).flatten.isEmpty && bytes.isPrefixOf (p.writes.getD k [])
  | _ => true

/-- What goes out is the greeting and what was received, in order; while the socket is open,
nothing is missing but what is left to send. -/
structure Passes (greeting : Option (List UInt8)) (os : List Event) (p : EchoPeer) : Prop where
  sent_le : sent os <+: greeted greeting p.begun ++ received os
  sent_eq : p.isOpen = true →
    sent os ++ p.writes.flatten = greeted greeting p.begun ++ received os

lemma passes_built : Passes greeting [] built := ⟨List.nil_prefix, fun _ => rfl⟩

/-- While the socket is open the one follows from the other. -/
lemma Passes.of_eq (heq : sent os ++ p.writes.flatten = greeted greeting p.begun ++ received os) :
    Passes greeting os p := ⟨⟨_, heq⟩, fun _ => heq⟩

/-- **A step whose bytes go out in turn keeps them in order.** -/
lemma Passes.step (h : Passes greeting os p) (hw : Weighed greeting os p)
    (hn : (machine greeting).next p i = some (u, o)) (hturn : p.inTurn i = true) :
    Passes greeting (os ++ o) u := by
  rcases h with ⟨hle, heq⟩
  cases step_of_next hn with
  | started hb =>
      obtain ⟨hopen, -, hwrites, hsent, hreceived⟩ := hw.fresh hb
      refine .of_eq ?_
      simp [hsent, hreceived, flatten_elim hopen hwrites, greeted]
  | arrived bytes => exact ⟨by simpa using hle, fun hopen => by simpa using heq hopen⟩
  | @sent k bytes left hk hopen hne hlen =>
      simp only [inTurn, Bool.and_eq_true, List.isEmpty_iff, List.isPrefixOf_iff_prefix] at hturn
      obtain ⟨hfirst, rest, hrest⟩ := hturn
      obtain rfl : bytes ++ rest = left := by simpa [List.getD, hk] using hrest
      refine .of_eq ?_
      have hall := heq hopen
      rw [flatten_writes hk, hfirst] at hall
      rw [flatten_set hk, hfirst]
      simpa using hall
  | @written k hk =>
      have hflat : (p.writes.eraseIdx k).flatten = p.writes.flatten := by
        rw [flatten_eraseIdx, flatten_writes hk, List.append_nil]
      exact ⟨by simpa using hle, fun hopen => by simpa [hflat] using heq hopen⟩
  | failed | stopped => exact ⟨by simpa using hle, fun hopen => (nomatch hopen)⟩
  | @received n hreading hpos hlen =>
      refine ⟨?_, fun hopen => ?_⟩
      · simpa using hle.trans (List.prefix_append _ _)
      · have hopen' : p.isOpen = true := by simpa using hopen
        rw [asyncRecv_writes, flatten_send _ (by simpa using hopen')]
        simp [← List.append_assoc, heq hopen']

end EchoPeer

end Xsix

import Xsix.Chat.Bounds
import Xsix.Chat.Channel

/-!
`chat_room_server.cc` and `chat_room_client.cc` together: the server, any number of clients,
and what is on its way between them.

A line is the connection of one client with both of its ends. For what a handler gives to
`async_write` as many bytes go out, in pieces and whichever they are, and arrive behind what
arrived before; a read takes any number of the bytes that are there. Handlers run one at a time
in each program, and the steps of the programs, of the writes and of the reads come in any
order.
-/

namespace Xsix

open CInt Memory Machine ConnTable

/-- `str` of `get_random_msg`. -/
def randomChars : List UInt8 :=
  ascii "_abcdefghijklmnopqrstuvwxyzABCDEFGHIJKLMNOPQRSTUVWXYZ0123456789"

/-- `chat_room_msg::get_random_msg`: ten characters, at the places drawn from 0 to 60. -/
def getRandomMsg (draws : Fin 10 → Fin 61) : List UInt8 :=
  List.ofFn fun i => randomChars.getD (draws i) 0

/-- A client: its receiving side, its send queue, and whether it is connected. -/
structure ChatRoomClient where
  reader : Connection
  sender : Sender
  connected : Bool

/-- `ChatRoomClient::send_random_msg`, with the frame it hands to `async_write`; `msg` is the
message object before `set_content`. -/
def ChatRoomClient.sendRandomMsg (client : ChatRoomClient) (msg : ChatRoomMsg)
    (draws : Fin 10 → Fin 61) : ChatRoomClient × List (List UInt8) :=
  let s := getRandomMsg draws
  let sent := client.sender.sendMsgToClient msg (write (fun _ => 0) 0 s) s.length
  ({ client with sender := sent.1 }, sent.2)

/-- A connection of the server and its client, with what is left to send of the outstanding
writes to the server and to the client. -/
structure Line where
  connection : Connection
  client : ChatRoomClient
  up : List (List UInt8)
  down : List (List UInt8)

/-- The server and its lines. -/
structure ChatSystem where
  room : ChatRoom
  line : ℕ → Line

namespace ChatSystem

/-- What may happen next on a line: it is accepted; its client is connected; its connection
is removed; bytes go out on either side; a write of the server (`writtenDown`) or of the
client (`writtenUp`) completes or fails; a read of the server (`readUp`) or of the client
(`readDown`) completes or fails. -/
inductive Input where
  | accept
  | connect (c : ℕ) (msg : ChatRoomMsg) (draws : Fin 10 → Fin 61)
  | remove (c : ℕ)
  | sendUp (c : ℕ) (bytes : List UInt8)
  | sendDown (c : ℕ) (bytes : List UInt8)
  | writtenUp (c : ℕ) (ok : Bool)
  | writtenDown (c : ℕ) (ok : Bool)
  | readUp (c n : ℕ) (sendbackmsg : ℕ → ChatRoomMsg)
  | readDown (c n : ℕ) (msg : ChatRoomMsg) (draws : Fin 10 → Fin 61)
  | failUp (c : ℕ)
  | failDown (c : ℕ)

/-- What is observed: the events of the room; the server handles a message; a client is
connected, sends a text, handles a message, or has a write fail. -/
inductive Event where
  | room (e : ChatRoom.Event)
  | got (c : ℕ) (h : Handled)
  | connected (c : ℕ)
  | sent (c : ℕ) (text : List UInt8)
  | received (c : ℕ) (h : Handled)
  | failed (c : ℕ)

/-- Changing one line. -/
def setLine (s : ChatSystem) (c : ℕ) (l : Line) : ChatSystem :=
  { s with line := Function.update s.line c l }

/-- The room takes a step; the frames it hands to `async_write` are to be sent. -/
def roomStep (s : ChatSystem) (i : ChatRoom.Input) : Option (ChatSystem × List Event) :=
  (ChatRoom.machine.next s.room i).map fun (room, es) =>
    ({ room := room
       line := fun c => { s.line c with down := (s.line c).down ++ ChatRoom.handed c es } },
      es.map .room)

/-- `Connection::start` on a line that is accepted. -/
def accept (s : ChatSystem) : Option (ChatSystem × List Event) :=
  let c := s.room.table.created
  (s.roomStep .accept).map fun (t, es) =>
    let named : Connection :=
      { (t.line c).connection with mId := (t.room.table.conn c).getId, isOpen := true }
    (t.setLine c { t.line c with connection := named.readHeader }, es)

/-- `ChatRoomClient::start`, once the client is connected. -/
def connect (s : ChatSystem) (c : ℕ) (msg : ChatRoomMsg) (draws : Fin 10 → Fin 61) :
    Option (ChatSystem × List Event) :=
  let l := s.line c
  if l.client.connected then none
  else
    let sent := l.client.sendRandomMsg msg draws
    let opened : Connection := { l.client.reader with isOpen := true }
    some (s.setLine c { l with
      client := { sent.1 with reader := opened.readHeader, connected := true }
      up := l.up ++ sent.2 }, [.connected c, .sent c (getRandomMsg draws)])

/-- The server removes a connection whose socket it found closed. -/
def remove (s : ChatSystem) (c : ℕ) : Option (ChatSystem × List Event) :=
  if (s.line c).connection.isOpen then none else s.roomStep (.remove c)

/-- Bytes go out for a write of the client. -/
def sendUp (s : ChatSystem) (c : ℕ) (bytes : List UInt8) : Option (ChatSystem × List Event) :=
  let l := s.line c
  if l.client.reader.isOpen then
    (transfer bytes l.up).map fun up =>
      (s.setLine c { l with up := up, connection := l.connection.arrive bytes }, [])
  else none

/-- Bytes go out for a write of the server. -/
def sendDown (s : ChatSystem) (c : ℕ) (bytes : List UInt8) : Option (ChatSystem × List Event) :=
  let l := s.line c
  if l.connection.isOpen then
    (transfer bytes l.down).map fun down =>
      (s.setLine c { l with
        down := down
        client := { l.client with reader := l.client.reader.arrive bytes } }, [])
  else none

/-- The handler of the client's `async_write`; `handle_error` closes the socket. -/
def writtenUp (s : ChatSystem) (c : ℕ) (ok : Bool) : Option (ChatSystem × List Event) :=
  let l := s.line c
  match l.up with
  | [] => none
  | bytes :: later =>
      if ok && !bytes.isEmpty then none
      else
        let handled := l.client.sender.handleWrite ok
        some (s.setLine c { l with
          client := { l.client with
            sender := handled.1
            reader := l.client.reader.afterWrite ok }
          up := later ++ handled.2 }, if ok then [] else [.failed c])

/-- The handler of the server's `async_write`. -/
def writtenDown (s : ChatSystem) (c : ℕ) (ok : Bool) : Option (ChatSystem × List Event) :=
  let l := s.line c
  match l.down with
  | [] => none
  | bytes :: later =>
      if ok && !bytes.isEmpty then none
      else
        (s.setLine c { l with
          down := later
          connection := l.connection.afterWrite ok }).roomStep (.complete c ok)

/-- The handlers of the server's reads; what `handle_message` makes of a message goes to all
members of the room. -/
def readUp (s : ChatSystem) (c n : ℕ) (sendbackmsg : ℕ → ChatRoomMsg) :
    Option (ChatSystem × List Event) :=
  let l := s.line c
  match Connection.machine.next l.connection (.complete n s.room.table.members.length) with
  | none => none
  | some (connection, []) => some (s.setLine c { l with connection := connection }, [])
  | some (connection, h :: _) =>
      ((s.setLine c { l with connection := connection }).roomStep
        (.broadcast sendbackmsg (guestBuf h.id h.recvRealMsg)
          (guestText h.id h.recvRealMsg).length)).map fun (t, es) => (t, .got c h :: es)

/-- The handlers of the client's reads; `handle_message` answers with a random message. -/
def readDown (s : ChatSystem) (c n : ℕ) (msg : ChatRoomMsg) (draws : Fin 10 → Fin 61) :
    Option (ChatSystem × List Event) :=
  let l := s.line c
  match Connection.machine.next l.client.reader (.complete n 0) with
  | none => none
  | some (reader, []) =>
      some (s.setLine c { l with client := { l.client with reader := reader } }, [])
  | some (reader, h :: _) =>
      let sent := l.client.sendRandomMsg msg draws
      some (s.setLine c { l with client := { sent.1 with reader := reader }, up := l.up ++ sent.2 },
        [.received c h, .sent c (getRandomMsg draws)])

/-- A read of the server fails. -/
def failUp (s : ChatSystem) (c : ℕ) : Option (ChatSystem × List Event) :=
  let l := s.line c
  (Connection.machine.next l.connection .fail).map fun (connection, _) =>
    ({ room := { s.room with table := s.room.table.modify c (·.setOpen false) }
       line := Function.update s.line c { l with connection := connection } }, [])

/-- A read of the client fails. -/
def failDown (s : ChatSystem) (c : ℕ) : Option (ChatSystem × List Event) :=
  let l := s.line c
  (Connection.machine.next l.client.reader .fail).map fun (reader, _) =>
    (s.setLine c { l with client := { l.client with reader := reader } }, [])

/-- The room, its clients and the network between them. -/
def machine : Machine ChatSystem Input Event where
  next s
    | .accept => s.accept
    | .connect c msg draws => s.connect c msg draws
    | .remove c => s.remove c
    | .sendUp c bytes => s.sendUp c bytes
    | .sendDown c bytes => s.sendDown c bytes
    | .writtenUp c ok => s.writtenUp c ok
    | .writtenDown c ok => s.writtenDown c ok
    | .readUp c n sendbackmsg => s.readUp c n sendbackmsg
    | .readDown c n msg draws => s.readDown c n msg draws
    | .failUp c => s.failUp c
    | .failDown c => s.failDown c

/-- The steps of the system, each with what it found. -/
inductive Step (s : ChatSystem) : Input → ChatSystem → List Event → Prop
  | accepted {t : ChatSystem} {o : List Event} (hroom : s.roomStep .accept = some (t, o)) :
      Step s .accept (t.setLine s.room.table.created { t.line s.room.table.created with
        connection := Connection.readHeader { (t.line s.room.table.created).connection with
          mId := (t.room.table.conn s.room.table.created).getId
          isOpen := true } }) o
  | connected {c : ℕ} {msg : ChatRoomMsg} {draws : Fin 10 → Fin 61}
      (hconnected : ¬ (s.line c).client.connected = true) :
      Step s (.connect c msg draws) (s.setLine c { s.line c with
        client := { ((s.line c).client.sendRandomMsg msg draws).1 with
          reader := Connection.readHeader { (s.line c).client.reader with isOpen := true }
          connected := true }
        up := (s.line c).up ++ ((s.line c).client.sendRandomMsg msg draws).2 })
        [.connected c, .sent c (getRandomMsg draws)]
  | removed {u : ChatSystem} {o : List Event} {c : ℕ}
      (hroom : s.roomStep (.remove c) = some (u, o)) : Step s (.remove c) u o
  | sentUp {c : ℕ} {bytes : List UInt8} {up : List (List UInt8)}
      (htransfer : transfer bytes (s.line c).up = some up) :
      Step s (.sendUp c bytes) (s.setLine c { s.line c with
        up := up
        connection := (s.line c).connection.arrive bytes }) []
  | sentDown {c : ℕ} {bytes : List UInt8} {down : List (List UInt8)}
      (htransfer : transfer bytes (s.line c).down = some down) :
      Step s (.sendDown c bytes) (s.setLine c { s.line c with
        down := down
        client := { (s.line c).client with
          reader := (s.line c).client.reader.arrive bytes } }) []
  | writtenUp {c : ℕ} {later : List (List UInt8)} (hup : (s.line c).up = [] :: later) :
      Step s (.writtenUp c true) (s.setLine c { s.line c with
        client := { (s.line c).client with
          sender := ((s.line c).client.sender.handleWrite true).1
          reader := (s.line c).client.reader.afterWrite true }
        up := later ++ ((s.line c).client.sender.handleWrite true).2 }) []
  | failedUp {c : ℕ} {bytes : List UInt8} {later : List (List UInt8)}
      (hup : (s.line c).up = bytes :: later) :
      Step s (.writtenUp c false) (s.setLine c { s.line c with
        client := { (s.line c).client with
          sender := ((s.line c).client.sender.handleWrite false).1
          reader := (s.line c).client.reader.afterWrite false }
        up := later ++ ((s.line c).client.sender.handleWrite false).2 }) [.failed c]
  | writtenDown {u : ChatSystem} {o : List Event} {c : ℕ} {ok : Bool} {bytes : List UInt8}
      {later : List (List UInt8)} (hdown : (s.line c).down = bytes :: later)
      (hbytes : ok = true → bytes = [])
      (hroom : (s.setLine c { s.line c with
        down := later
        connection := (s.line c).connection.afterWrite ok }).roomStep (.complete c ok) =
          some (u, o)) : Step s (.writtenDown c ok) u o
  | readUp {c n : ℕ} {sendbackmsg : ℕ → ChatRoomMsg} {connection : Connection}
      (hread : Connection.machine.next (s.line c).connection
        (.complete n s.room.table.members.length) = some (connection, [])) :
      Step s (.readUp c n sendbackmsg)
        (s.setLine c { s.line c with connection := connection }) []
  | got {u : ChatSystem} {o : List Event} {c n : ℕ} {sendbackmsg : ℕ → ChatRoomMsg}
      {connection : Connection} {h : Handled} {later : List Handled}
      (hread : Connection.machine.next (s.line c).connection
        (.complete n s.room.table.members.length) = some (connection, h :: later))
      (hroom : (s.setLine c { s.line c with connection := connection }).roomStep
        (.broadcast sendbackmsg (guestBuf h.id h.recvRealMsg)
          (guestText h.id h.recvRealMsg).length) = some (u, o)) :
      Step s (.readUp c n sendbackmsg) u (.got c h :: o)
  | readDown {c n : ℕ} {msg : ChatRoomMsg} {draws : Fin 10 → Fin 61} {reader : Connection}
      (hread : Connection.machine.next (s.line c).client.reader (.complete n 0) =
        some (reader, [])) :
      Step s (.readDown c n msg draws)
        (s.setLine c { s.line c with client := { (s.line c).client with reader := reader } }) []
  | received {c n : ℕ} {msg : ChatRoomMsg} {draws : Fin 10 → Fin 61} {reader : Connection}
      {h : Handled} {later : List Handled}
      (hread : Connection.machine.next (s.line c).client.reader (.complete n 0) =
        some (reader, h :: later)) :
      Step s (.readDown c n msg draws) (s.setLine c { s.line c with
        client := { ((s.line c).client.sendRandomMsg msg draws).1 with reader := reader }
        up := (s.line c).up ++ ((s.line c).client.sendRandomMsg msg draws).2 })
        [.received c h, .sent c (getRandomMsg draws)]
  | closedUp {c : ℕ} {connection : Connection} {hs : List Handled}
      (hfail : Connection.machine.next (s.line c).connection .fail = some (connection, hs)) :
      Step s (.failUp c)
        { room := { s.room with table := s.room.table.modify c (·.setOpen false) }
          line := Function.update s.line c { s.line c with connection := connection } } []
  | closedDown {c : ℕ} {reader : Connection} {hs : List Handled}
      (hfail : Connection.machine.next (s.line c).client.reader .fail = some (reader, hs)) :
      Step s (.failDown c)
        (s.setLine c { s.line c with client := { (s.line c).client with reader := reader } }) []

lemma step_of_next {s u : ChatSystem} {i : Input} {o : List Event}
    (hn : machine.next s i = some (u, o)) : Step s i u o := by
  cases i with
  | accept =>
      simp only [machine, accept] at hn
      obtain ⟨⟨t, o'⟩, hroom, heq⟩ := Option.map_eq_some_iff.mp hn
      obtain ⟨rfl, rfl⟩ := Prod.mk.inj heq
      exact .accepted hroom
  | connect c msg draws =>
      simp only [machine, connect] at hn
      split_ifs at hn with hconnected
      obtain ⟨rfl, rfl⟩ := Prod.mk.inj (Option.some.inj hn)
      exact .connected hconnected
  | remove c =>
      simp only [machine, remove] at hn
      split_ifs at hn
      exact .removed hn
  | sendUp c bytes =>
      simp only [machine, sendUp] at hn
      split_ifs at hn
      obtain ⟨up, htransfer, heq⟩ := Option.map_eq_some_iff.mp hn
      obtain ⟨rfl, rfl⟩ := Prod.mk.inj heq
      exact .sentUp htransfer
  | sendDown c bytes =>
      simp only [machine, sendDown] at hn
      split_ifs at hn
      obtain ⟨down, htransfer, heq⟩ := Option.map_eq_some_iff.mp hn
      obtain ⟨rfl, rfl⟩ := Prod.mk.inj heq
      exact .sentDown htransfer
  | writtenUp c ok =>
      simp only [machine, writtenUp] at hn
      split at hn
      · cases hn
      · next bytes later hup =>
        cases ok with
        | true =>
            simp only [Bool.true_and] at hn
            split_ifs at hn with hbytes
            obtain ⟨rfl, rfl⟩ := Prod.mk.inj (Option.some.inj hn)
            obtain rfl : bytes = [] := by simpa using hbytes
            exact .writtenUp hup
        | false =>
            simp only [Bool.false_and, Bool.false_eq_true, if_false] at hn
            obtain ⟨rfl, rfl⟩ := Prod.mk.inj (Option.some.inj hn)
            exact .failedUp hup
  | writtenDown c ok =>
      simp only [machine, writtenDown] at hn
      split at hn
      · cases hn
      · next bytes later hdown =>
        split_ifs at hn with hbytes
        refine .writtenDown hdown (fun hok => ?_) hn
        simpa [hok] using hbytes
  | readUp c n sendbackmsg =>
      simp only [machine, readUp] at hn
      split at hn
      · cases hn
      · next connection hread =>
        obtain ⟨rfl, rfl⟩ := Prod.mk.inj (Option.some.inj hn)
        exact .readUp hread
      · next connection h later hread =>
        obtain ⟨⟨t, o'⟩, hroom, heq⟩ := Option.map_eq_some_iff.mp hn
        obtain ⟨rfl, rfl⟩ := Prod.mk.inj heq
        exact .got hread hroom
  | readDown c n msg draws =>
      simp only [machine, readDown] at hn
      split at hn
      · cases hn
      · next reader hread =>
        obtain ⟨rfl, rfl⟩ := Prod.mk.inj (Option.some.inj hn)
        exact .readDown hread
      · next reader h later hread =>
        obtain ⟨rfl, rfl⟩ := Prod.mk.inj (Option.some.inj hn)
        exact .received hread
  | failUp c =>
      simp only [machine, failUp] at hn
      obtain ⟨⟨connection, hs⟩, hfail, heq⟩ := Option.map_eq_some_iff.mp hn
      obtain ⟨rfl, rfl⟩ := Prod.mk.inj heq
      exact .closedUp hfail
  | failDown c =>
      simp only [machine, failDown] at hn
      obtain ⟨⟨reader, hs⟩, hfail, heq⟩ := Option.map_eq_some_iff.mp hn
      obtain ⟨rfl, rfl⟩ := Prod.mk.inj heq
      exact .closedDown hfail

/-- A line before anything happened; `content` is what the memory of the two messages held. -/
def Line.built (content : ℤ → UInt8) : Line where
  connection := ⟨-1, false, .built content, .none, []⟩
  client := ⟨⟨-1, false, .built content, .none, []⟩, .built, false⟩
  up := []
  down := []

/-- The server just started, and clients that are not yet connected. -/
def launched (content : ℕ → ℤ → UInt8) : ChatSystem := ⟨.built, fun c => Line.built (content c)⟩

end ChatSystem

end Xsix

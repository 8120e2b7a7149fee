import Xsix.Library.CInt
import Xsix.Library.Machine
import Xsix.Library.OrderedMap

/-!
`tcp_server.hpp` and `tcp_connection.hpp`: the connection table, the chain of accepts and
the loop.

A connection is known by the number of its allocation. `asio` is the environment: an
`async_accept` waits until it completes, at most once and while `poll` runs its handler,
with a connected socket or with an error. Sockets may be closed at any time, by other
handlers, ticks or other threads; so may `stop` be called. The thread in `loop` takes one
step after the other (`stepLoop`): the tests of `m_quit` and of the acceptor, the two
halves of the accept handler, each connection the scan comes to, each removal.
-/

namespace Xsix

open Std CInt OrderedMap

/-- The members of `TCPConnection` the server uses: the id and whether the socket is
open. -/
structure TCPConnection where
  mId : ℤ
  isOpen : Bool

namespace TCPConnection

/-- A connection just constructed, its socket not connected. -/
def built : TCPConnection := ⟨-1, false⟩

/-- `TCPConnection::set_id`. -/
def setId (c : TCPConnection) (id : ℤ) : TCPConnection := { c with mId := id }

/-- `TCPConnection::get_id`. -/
def getId (c : TCPConnection) : ℤ := c.mId

/-- `TCPConnection::is_valid`. -/
def isValid (c : TCPConnection) : Bool := c.isOpen

/-- The socket is opened or closed. -/
def setOpen (c : TCPConnection) (isOpen : Bool) : TCPConnection := { c with isOpen := isOpen }

end TCPConnection

/-- `m_next_conn_id` and `m_tcp_conn_map` of `TCPServer`, with the connections by their
numbers and how many were created. -/
structure ConnTable where
  mNextConnId : ℤ
  mTcpConnMap : TreeMap ℤ ℕ
  conn : ℕ → TCPConnection
  created : ℕ

namespace ConnTable

/-- No connection yet. -/
def built : ConnTable := ⟨0, ∅, fun _ => .built, 0⟩

/-- Changing one connection. -/
def modify (t : ConnTable) (c : ℕ) (f : TCPConnection → TCPConnection) : ConnTable :=
  { t with conn := Function.update t.conn c (f (t.conn c)) }

/-- `TCPServer::create_new_connection`; the number of the new connection is
`created`. -/
def createNewConnection (t : ConnTable) : ConnTable :=
  { t.modify t.created fun _ => .built with created := t.created + 1 }

/-- `TCPServer::add_conn`, `none` being the null pointer. -/
def addConn (t : ConnTable) (connptr : Option ℕ) : ConnTable :=
  match connptr with
  | none => t
  | some c =>
      match t.mTcpConnMap[t.mNextConnId]? with
      | some _ => t
      | none =>
          let named := t.modify c (·.setId t.mNextConnId)
          { named with
            mNextConnId := int32 (t.mNextConnId + 1)
            mTcpConnMap := t.mTcpConnMap.insert (named.conn c).getId c }

/-- `TCPServer::remove_conn`. -/
def removeConn (t : ConnTable) (connid : ℤ) : ConnTable :=
  match t.mTcpConnMap[connid]? with
  | none => t
  | some _ => { t with mTcpConnMap := t.mTcpConnMap.erase connid }

/-- `TCPServer::handle_remove_connection`. -/
def handleRemoveConnection (t : ConnTable) (connptr : Option ℕ) : ConnTable :=
  match connptr with
  | none => t
  | some c => t.removeConn (t.conn c).getId

/-- The connections of the map, in the order of their ids. -/
def members (t : ConnTable) : List ℕ := elements t.mTcpConnMap

end ConnTable

/-- Where the thread of the server stands: outside of `loop`, before the test of `m_quit`
or of the acceptor, in `poll` between two handlers or in the accept handler before either
half of it, in the scan, or removing what the scan found closed. -/
inductive Phase where
  | outside
  | testing
  | checking
  | polling
  | accepted (c : ℕ)
  | rearming
  | scanning (rest invalid : List ℕ)
  | removing (rest : List ℕ)

/-- The members of `TCPServer`, the connections that wait in an `async_accept`, and where
the thread stands. -/
structure TCPServer where
  mQuit : Bool
  acceptorOpen : Bool
  table : ConnTable
  accepting : List ℕ
  phase : Phase

namespace TCPServer

/-- What may happen next: a call of `start`, `loop` or `stop`, the completion of an
accept, the end of `poll`, a step of `loop`, or the closing of a socket or of the
acceptor. -/
inductive Input where
  | start
  | loop
  | stop
  | complete (c : ℕ) (ok : Bool)
  | endPoll
  | step
  | close (c : ℕ)
  | closeAcceptor
  deriving DecidableEq

/-- What is observed: the calls of `loop` and `stop`, the iterations of the loop and the
steps in the life of a connection. -/
inductive Event where
  | called
  | stopped
  | passed
  | polled
  | left
  | accepted (c : ℕ)
  | refused (c : ℕ)
  | started (c : ℕ) (id : ℤ)
  | scanned (cs : List ℕ)
  | ticked (c : ℕ)
  | foundClosed (c : ℕ)
  | removed (c : ℕ)
  | iterated
  deriving DecidableEq

/-- A server just constructed. -/
def built : TCPServer := ⟨false, true, .built, [], .outside⟩

/-- `TCPServer::async_accept`. -/
def asyncAccept (s : TCPServer) : TCPServer :=
  { s with
    table := s.table.createNewConnection
    accepting := s.accepting ++ [s.table.created] }

/-- `TCPServer::stop`. -/
def stop (s : TCPServer) : TCPServer := { s with mQuit := false }

/-- The next step of the thread in `TCPServer::loop`, or in the accept handler it runs,
where that is not up to the environment. -/
def stepLoop (s : TCPServer) : Option (TCPServer × List Event) :=
  match s.phase with
  | .outside => none
  | .testing =>
      if s.mQuit then some ({ s with phase := .outside }, [.left])
      else some ({ s with phase := .checking }, [.passed])
  | .checking =>
      if s.acceptorOpen then some ({ s with phase := .polling }, [.polled])
      else some ({ s with phase := .outside }, [.left])
  | .polling => none
  | .accepted c =>
      let table := s.table.addConn (some c)
      some ({ s with table := table, phase := .rearming }, [.started c (table.conn c).getId])
  | .rearming => some ({ s.asyncAccept with phase := .polling }, [])
  | .scanning (c :: rest) invalid =>
      if (s.table.conn c).isValid
      then some ({ s with phase := .scanning rest invalid }, [.ticked c])
      else some ({ s with phase := .scanning rest (invalid ++ [c]) }, [.foundClosed c])
  | .scanning [] invalid => some ({ s with phase := .removing invalid }, [])
  | .removing (c :: rest) =>
      some ({ s with table := s.table.handleRemoveConnection (some c), phase := .removing rest },
        [.removed c])
  | .removing [] => some ({ s with phase := .testing }, [.iterated])

/-- The server and its environment. -/
def machine : Machine TCPServer Input Event where
  next s
    | .start => some (s.asyncAccept, [])
    | .loop =>
        match s.phase with
        | .outside => some ({ s with mQuit := false, phase := .testing }, [.called])
        | _ => none
    | .stop => some (s.stop, [.stopped])
    | .complete c ok =>
        match s.phase with
        | .polling =>
            if c ∈ s.accepting then
              let waiting := { s with accepting := s.accepting.erase c }
              if ok then
                some ({ waiting with
                  table := s.table.modify c (·.setOpen true)
                  phase := .accepted c }, [.accepted c])
              else some (waiting, [.refused c])
            else none
        | _ => none
    | .endPoll =>
        match s.phase with
        | .polling =>
            some ({ s with phase := .scanning s.table.members [] }, [.scanned s.table.members])
        | _ => none
    | .step => s.stepLoop
    | .close c => some ({ s with table := s.table.modify c (·.setOpen false) }, [])
    | .closeAcceptor => some ({ s with acceptorOpen := false }, [])

/-! ### One step -/

variable {s u : TCPServer} {i : Input} {o : List Event}

/-- What a step on an input can be, by its effect. -/
inductive Step (s : TCPServer) : Input → TCPServer → List Event → Prop
  | armed : Step s .start s.asyncAccept []
  | called (h : s.phase = .outside) :
      Step s .loop { s with mQuit := false, phase := .testing } [.called]
  | stopped : Step s .stop s.stop [.stopped]
  | accepted {c : ℕ} (h : s.phase = .polling) (hmem : c ∈ s.accepting) :
      Step s (.complete c true) { s with
        accepting := s.accepting.erase c
        table := s.table.modify c (·.setOpen true)
        phase := .accepted c } [.accepted c]
  | refused {c : ℕ} (h : s.phase = .polling) (hmem : c ∈ s.accepting) :
      Step s (.complete c false) { s with accepting := s.accepting.erase c } [.refused c]
  | scanned (h : s.phase = .polling) :
      Step s .endPoll { s with phase := .scanning s.table.members [] } [.scanned s.table.members]
  | quit (h : s.phase = .testing) (hquit : s.mQuit = true) :
      Step s .step { s with phase := .outside } [.left]
  | passed (h : s.phase = .testing) (hquit : s.mQuit = false) :
      Step s .step { s with phase := .checking } [.passed]
  | polled (h : s.phase = .checking) (hopen : s.acceptorOpen = true) :
      Step s .step { s with phase := .polling } [.polled]
  | left (h : s.phase = .checking) (hclosed : s.acceptorOpen = false) :
      Step s .step { s with phase := .outside } [.left]
  | started {c : ℕ} (h : s.phase = .accepted c) :
      Step s .step { s with table := s.table.addConn (some c), phase := .rearming }
        [.started c ((s.table.addConn (some c)).conn c).getId]
  | rearmed (h : s.phase = .rearming) : Step s .step { s.asyncAccept with phase := .polling } []
  | ticked {c : ℕ} {rest invalid : List ℕ} (h : s.phase = .scanning (c :: rest) invalid)
      (hvalid : (s.table.conn c).isValid = true) :
      Step s .step { s with phase := .scanning rest invalid } [.ticked c]
  | foundClosed {c : ℕ} {rest invalid : List ℕ} (h : s.phase = .scanning (c :: rest) invalid)
      (hvalid : (s.table.conn c).isValid = false) :
      Step s .step { s with phase := .scanning rest (invalid ++ [c]) } [.foundClosed c]
  | scanEnded {invalid : List ℕ} (h : s.phase = .scanning [] invalid) :
      Step s .step { s with phase := .removing invalid } []
  | removed {c : ℕ} {rest : List ℕ} (h : s.phase = .removing (c :: rest)) :
      Step s .step { s with
        table := s.table.handleRemoveConnection (some c)
        phase := .removing rest } [.removed c]
  | iterated (h : s.phase = .removing []) : Step s .step { s with phase := .testing } [.iterated]
  | closed {c : ℕ} : Step s (.close c) { s with table := s.table.modify c (·.setOpen false) } []
  | acceptorClosed : Step s .closeAcceptor { s with acceptorOpen := false } []

lemma step_of_stepLoop (hn : s.stepLoop = some (u, o)) : Step s .step u o := by
  simp only [stepLoop] at hn
  split at hn
  · cases hn
  · next h =>
      split_ifs at hn with hquit
      · obtain ⟨rfl, rfl⟩ := Prod.mk.inj (Option.some.inj hn)
        exact .quit h hquit
      · obtain ⟨rfl, rfl⟩ := Prod.mk.inj (Option.some.inj hn)
        exact .passed h (Bool.eq_false_of_not_eq_true hquit)
  · next h =>
      split_ifs at hn with hopen
      · obtain ⟨rfl, rfl⟩ := Prod.mk.inj (Option.some.inj hn)
        exact .polled h hopen
      · obtain ⟨rfl, rfl⟩ := Prod.mk.inj (Option.some.inj hn)
        exact .left h (Bool.eq_false_of_not_eq_true hopen)
  · cases hn
  · next c h =>
      obtain ⟨rfl, rfl⟩ := Prod.mk.inj (Option.some.inj hn)
      exact .started h
  · next h =>
      obtain ⟨rfl, rfl⟩ := Prod.mk.inj (Option.some.inj hn)
      exact .rearmed h
  · next c rest invalid h =>
      split_ifs at hn with hvalid
      · obtain ⟨rfl, rfl⟩ := Prod.mk.inj (Option.some.inj hn)
        exact .ticked h hvalid
      · obtain ⟨rfl, rfl⟩ := Prod.mk.inj (Option.some.inj hn)
        exact .foundClosed h (Bool.eq_false_of_not_eq_true hvalid)
  · next invalid h =>
      obtain ⟨rfl, rfl⟩ := Prod.mk.inj (Option.some.inj hn)
      exact .scanEnded h
  · next c rest h =>
      obtain ⟨rfl, rfl⟩ := Prod.mk.inj (Option.some.inj hn)
      exact .removed h
  · next h =>
      obtain ⟨rfl, rfl⟩ := Prod.mk.inj (Option.some.inj hn)
      exact .iterated h

lemma step_of_next (hn : machine.next s i = some (u, o)) : Step s i u o := by
  cases i with
  | start =>
      obtain ⟨rfl, rfl⟩ := Prod.mk.inj (Option.some.inj hn)
      exact .armed
  | loop =>
      simp only [machine] at hn
      split at hn
      · next h =>
          obtain ⟨rfl, rfl⟩ := Prod.mk.inj (Option.some.inj hn)
          exact .called h
      · cases hn
  | stop =>
      obtain ⟨rfl, rfl⟩ := Prod.mk.inj (Option.some.inj hn)
      exact .stopped
  | complete c ok =>
      simp only [machine] at hn
      split at hn
      · next h =>
          split_ifs at hn with hmem hok
          · obtain ⟨rfl, rfl⟩ := Prod.mk.inj (Option.some.inj hn)
            subst hok
            exact .accepted h hmem
          · obtain ⟨rfl, rfl⟩ := Prod.mk.inj (Option.some.inj hn)
            obtain rfl := Bool.eq_false_of_not_eq_true hok
            exact .refused h hmem
      · cases hn
  | endPoll =>
      simp only [machine] at hn
      split at hn
      · next h =>
          obtain ⟨rfl, rfl⟩ := Prod.mk.inj (Option.some.inj hn)
          exact .scanned h
      · cases hn
  | step => exact step_of_stepLoop hn
  | close c =>
      obtain ⟨rfl, rfl⟩ := Prod.mk.inj (Option.some.inj hn)
      exact .closed
  | closeAcceptor =>
      obtain ⟨rfl, rfl⟩ := Prod.mk.inj (Option.some.inj hn)
      exact .acceptorClosed

end TCPServer

end Xsix

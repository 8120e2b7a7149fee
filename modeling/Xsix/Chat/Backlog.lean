import Xsix.Chat.Delivery
import Mathlib.Algebra.BigOperators.Intervals

/-!
How many messages are on their way in the room.

A client sends one text when it is connected and one for each it receives, and the server
gives each text it gets to every member. So messages are never used up: with one client
there is one on its way at all times, and each broadcast to `m` members makes `m - 1` more.

* `Shape`: what a step can emit, as far as messages are counted.
* `backlog_eq`: the exact number, over any run.
* `never_silent`: while nothing fails, there is always a next step on the line of a member
  whose client is connected.
-/

namespace Xsix

open CInt Memory Machine ConnTable

namespace ChatSystem

variable {os o : List Event} {s t u : ChatSystem} {i : Input} {is : List Input} {c d N : ℕ}
  {content : ℕ → ℤ → UInt8}

/-! ### Counting -/

/-- The clients that were connected, in order. -/
def clients (os : List Event) : List ℕ :=
  os.filterMap fun
    | .connected c => some c
    | _ => none

/-- The broadcasts, each with the members it was to. -/
def tellings (os : List Event) : List (List ℕ × List UInt8) :=
  os.filterMap fun
    | .room (.broadcast members text) => some (members, text)
    | _ => none

/-- To how many members each broadcast was. -/
def audiences (os : List Event) : List ℕ := (tellings os).map fun broadcast => broadcast.1.length

/-- The messages on their way on the line of `c`, to the server and to the client. -/
def underway (c : ℕ) (os : List Event) : ℤ :=
  ((sentBy c os).length - (gotFrom c os).length) +
    ((heard c os).length - (receivedBy c os).length)

/-- The lines that take part in an event are below `N`. -/
def Event.Below (N : ℕ) : Event → Prop
  | .room (.broadcast members _) => ∀ c ∈ members, c < N
  | .got c _ | .connected c => c < N
  | _ => True

instance (N : ℕ) (e : Event) : Decidable (e.Below N) := by
  unfold Event.Below
  split <;> infer_instance

/-- The event is of no message and no connection. -/
def Event.Plain : Event → Prop
  | .room (.broadcast ..) | .got .. | .connected _ | .sent .. | .received .. => False
  | _ => True

/-- The event is a write that failed. -/
def Event.Fails : Event → Prop
  | .failed _ | .room (.failed _) => True
  | _ => False

/-- Nothing fails. -/
def Healthy : Input → Prop
  | .writtenUp _ ok | .writtenDown _ ok => ok = true
  | .failUp _ | .failDown _ => False
  | _ => True

instance (i : Input) : Decidable (Healthy i) :=
  match i with
  | .writtenUp _ ok | .writtenDown _ ok => instDecidableEqBool ok true
  | .failUp _ | .failDown _ => instDecidableFalse
  | .accept | .connect .. | .remove _ | .sendUp .. | .sendDown .. | .readUp .. | .readDown .. =>
      instDecidableTrue

/-- The members of a table are not more than they were, but for a connection just created. -/
def Recruits (t u : ConnTable) : Prop := ∀ c ∈ u.members, c ∈ t.members ∨ t.created ≤ c

/-- What a step emits: nothing that counts, or a client's first text, or its answer to a text
it received, or a broadcast of what the server got to the members of its table. -/
inductive Shape (s : ChatSystem) (i : Input) (u : ChatSystem) : List Event → Prop
  | plain {o : List Event} (ho : ∀ e ∈ o, e.Plain) (hfails : Healthy i → ∀ e ∈ o, ¬ e.Fails)
      (hnamed : Named s.room.table → Named u.room.table)
      (hmembers : Recruits s.room.table u.room.table) : Shape s i u o
  | connected {c : ℕ} {text : List UInt8} (hroom : u.room = s.room) :
      Shape s i u [.connected c, .sent c text]
  | answered {c : ℕ} {h : Handled} {text : List UInt8} (hroom : u.room = s.room) :
      Shape s i u [.received c h, .sent c text]
  | told {c : ℕ} {h : Handled} {text : List UInt8} {rest : List Event}
      (htable : u.room.table = s.room.table) (hrest : ∀ e ∈ rest, e.Plain ∧ ¬ e.Fails) :
      Shape s i u (.got c h :: .room (.broadcast s.room.table.members text) :: rest)

/-- A step that emits nothing and leaves the members. -/
lemma shape_nil (hnamed : Named s.room.table → Named u.room.table)
    (hmembers : u.room.table.members = s.room.table.members) : Shape s i u [] :=
  .plain (fun _ h => nomatch h) (fun _ _ h => nomatch h) hnamed fun _ hc => .inl (hmembers ▸ hc)

lemma recruits_accept (t : ConnTable) :
    Recruits t (t.createNewConnection.addConn (some t.created)) := by
  intro c hc
  by_cases hfree : t.createNewConnection.mTcpConnMap[t.createNewConnection.mNextConnId]? = none
  · obtain ⟨k, hk⟩ := mem_members_iff.mp hc
    rw [addConn_getElem hfree] at hk
    split_ifs at hk
    · exact .inr (Option.some.inj hk).le
    · exact .inl (mem_members_iff.mpr ⟨k, hk⟩)
  · rw [addConn_taken hfree, (undisturbed_createNewConnection t).members] at hc
    exact .inl hc

lemma shape_of_next (hn : machine.next s i = some (u, o)) : Shape s i u o := by
  cases step_of_next hn with
  | @accepted t o hroom =>
      have hquiet := quiet_accept (.accepted hroom)
      obtain ⟨es, hnext, rfl, -⟩ := exists_of_roomStep hroom
      obtain ⟨hroom', rfl⟩ := Prod.mk.inj (Option.some.inj hnext)
      refine .plain (by simp [Event.Plain]) (by simp [Event.Fails]) hquiet.named ?_
      rw [setLine_room, ← hroom']
      exact recruits_accept _
  | connected => exact .connected rfl
  | removed hroom =>
      have hquiet := quiet_remove (.removed hroom)
      obtain ⟨es, hnext, rfl, -⟩ := exists_of_roomStep hroom
      simp only [ChatRoom.machine] at hnext
      split_ifs at hnext
      obtain ⟨hroom', rfl⟩ := Prod.mk.inj (Option.some.inj hnext)
      refine .plain (by simp [Event.Plain]) (by simp [Event.Fails]) hquiet.named fun d hd => ?_
      rw [← hroom'] at hd
      obtain ⟨k, hk⟩ := mem_members_iff.mp hd
      exact .inl (mem_members_iff.mpr ⟨k, getElem_of_handleRemoveConnection hk⟩)
  | sentUp | sentDown | writtenUp | readUp | readDown | closedDown => exact shape_nil id rfl
  | failedUp =>
      exact .plain (by simp [Event.Plain]) (fun hok => absurd hok Bool.false_ne_true) id
        fun _ hc => .inl hc
  | @writtenDown u o c ok bytes later hdown hbytes hroom =>
      have hquiet := quiet_writtenDown (.writtenDown hdown hbytes hroom)
      obtain ⟨es, hnext, rfl, -⟩ := exists_of_roomStep hroom
      obtain ⟨htable, hnone⟩ := table_complete hnext
      have hmembers : u.room.table.members = s.room.table.members := by
        rcases htable with htable | htable <;> rw [htable]
        · rfl
        · exact (undisturbed_setOpen _ _ _).members
      refine .plain (fun e he => ?_) (fun hok e he => ?_) hquiet.named
        fun d hd => .inl (hmembers ▸ hd)
      · obtain ⟨e', he', rfl⟩ := List.mem_map.mp he
        cases e' with
        | broadcast members text => exact absurd he' (hnone members text)
        | accepted | removed | handed | written | failed => trivial
      · obtain rfl : ok = true := hok
        obtain ⟨e', he', rfl⟩ := List.mem_map.mp he
        cases e' with
        | failed d =>
            have hdoes := does_complete hnext d
            split_ifs at hdoes
            · exact absurd (hdoes.failed.mp he') (by simp)
            · exact (hdoes.failed.mp he').elim
        | broadcast | accepted | removed | handed | written => exact id
  | got _ hroom =>
      obtain ⟨es, hnext, rfl, -⟩ := exists_of_roomStep hroom
      obtain ⟨hroom', rfl⟩ := Prod.mk.inj (Option.some.inj hnext)
      refine .told (by rw [← hroom']; rfl) fun e he => ?_
      obtain ⟨e', he', rfl⟩ := List.mem_map.mp he
      obtain ⟨_, _, rfl⟩ := ChatRoom.exists_of_mem_broadcastTo he'
      exact ⟨trivial, id⟩
  | received => exact .answered rfl
  | closedUp hfail =>
      exact shape_nil (quiet_failUp (.closedUp hfail)).named (undisturbed_setOpen _ _ _).members

/-! ### What a run counts -/

@[simp] lemma clients_append (os o : List Event) : clients (os ++ o) = clients os ++ clients o :=
  List.filterMap_append

@[simp] lemma tellings_append (os o : List Event) :
    tellings (os ++ o) = tellings os ++ tellings o := List.filterMap_append

lemma filterMap_eq_nil_of_plain {α : Type*} {f : Event → Option α} (h : ∀ e ∈ o, e.Plain)
    (hf : ∀ e : Event, e.Plain → f e = none) : o.filterMap f = [] :=
  List.filterMap_eq_nil_iff.mpr fun e he => hf e (h e he)

/-- Plain events count for nothing. -/
lemma counts_of_plain (h : ∀ e ∈ o, e.Plain) (c : ℕ) :
    sentBy c o = [] ∧ gotFrom c o = [] ∧ heard c o = [] ∧ receivedBy c o = [] ∧
      clients o = [] ∧ handled o = [] ∧ tellings o = [] := by
  refine ⟨filterMap_eq_nil_of_plain h ?_, filterMap_eq_nil_of_plain h ?_, ?_,
    filterMap_eq_nil_of_plain h ?_, filterMap_eq_nil_of_plain h ?_, filterMap_eq_nil_of_plain h ?_,
    filterMap_eq_nil_of_plain h ?_⟩
  case refine_3 =>
    refine List.filterMap_eq_nil_iff.mpr fun e he => ?_
    obtain ⟨e', he', heq⟩ := List.mem_filterMap.mp he
    have hplain := h e' he'
    cases e' with
    | room e' =>
        obtain rfl : e' = e := by simpa using heq
        cases e' with
        | broadcast => cases hplain
        | accepted | removed | handed | written | failed => rfl
    | got | connected | sent | received | failed => cases heq
  all_goals
    intro e he
    cases e with
    | room e => cases e <;> first | rfl | cases he
    | got | connected | sent | received | failed => first | rfl | cases he

/-- A client has sent one text for each it received, and one when it was connected; the
server has broadcast one text for each it got, to members each of which it counted once. -/
structure Counted (os : List Event) (s : ChatSystem) : Prop where
  named : Named s.room.table
  sent : ∀ c : ℕ, (sentBy c os).length = (receivedBy c os).length + (clients os).count c
  told : (handled os).length = (tellings os).length
  nodup : ∀ members text, .room (.broadcast members text) ∈ os → members.Nodup

lemma counted_launched (content : ℕ → ℤ → UInt8) : Counted [] (launched content) :=
  ⟨named_built, fun _ => rfl, rfl, fun _ _ h => nomatch h⟩

lemma Counted.step (h : Counted os s) (hn : machine.next s i = some (u, o)) :
    Counted (os ++ o) u := by
  cases shape_of_next hn with
  | plain ho _ hnamed _ =>
      refine ⟨hnamed h.named, fun c => ?_, ?_, fun members text hmem => ?_⟩
      · obtain ⟨hsent, -, -, hreceived, hclients, -, -⟩ := counts_of_plain ho c
        simpa [hsent, hreceived, hclients] using h.sent c
      · obtain ⟨-, -, -, -, -, hhandled, htold⟩ := counts_of_plain ho 0
        simpa [hhandled, htold] using h.told
      · rcases List.mem_append.mp hmem with hmem | hmem
        · exact h.nodup members text hmem
        · exact (ho _ hmem).elim
  | @connected d text hroom | @answered d received text hroom =>
      refine ⟨hroom ▸ h.named, fun c => ?_, ?_, fun members text hmem => ?_⟩
      · have hold := h.sent c
        by_cases hd : d = c
        · simp [sentBy, receivedBy, clients, hd] at hold ⊢
          omega
        · simpa [sentBy, receivedBy, clients, hd] using hold
      · simpa [handled, tellings] using h.told
      · exact h.nodup members text (by simpa using hmem)
  | @told d received text rest htable hrest =>
      have hsplit : ∀ members text', Event.room (.broadcast members text') ∈
          Event.got d received :: .room (.broadcast s.room.table.members text) :: rest →
            members = s.room.table.members := by
        intro members text' hmem
        rcases List.mem_cons.mp (List.mem_of_ne_of_mem (by simp) hmem) with heq | hmem
        · cases heq
          rfl
        · exact (hrest _ hmem).1.elim
      refine ⟨htable ▸ h.named, fun c => ?_, ?_, fun members text' hmem => ?_⟩
      · obtain ⟨hsent, -, -, hreceived, hclients, -, -⟩ :=
          counts_of_plain (fun e he => (hrest e he).1) c
        simp only [sentBy, receivedBy, clients] at hsent hreceived hclients
        simpa [sentBy, receivedBy, clients, hsent, hreceived, hclients] using h.sent c
      · obtain ⟨-, -, -, -, -, hhandled, htold⟩ :=
          counts_of_plain (fun e he => (hrest e he).1) 0
        simp only [handled, tellings] at hhandled htold
        simpa [handled, tellings, hhandled, htold] using h.told
      · rcases List.mem_append.mp hmem with hmem | hmem
        · exact h.nodup members text' hmem
        · exact hsplit members text' hmem ▸ h.named.nodup

lemma counted_of_run (hrun : machine.Run (launched content) is os s) : Counted os s :=
  hrun.invariant (counted_launched content) fun _ _ _ _ _ h hn => h.step hn

/-! ### Over all lines -/

/-- Each element is counted on one line. -/
lemma sum_length_filterMap {α β : Type*} {f : ℕ → α → Option β} {w : α → ℕ} (xs : List α)
    (h : ∀ x ∈ xs, ∑ c ∈ Finset.range N, (f c x).toList.length = w x) :
    ∑ c ∈ Finset.range N, (xs.filterMap (f c)).length = (xs.map w).sum := by
  induction xs with
  | nil => simp
  | cons x xs ih =>
      rw [List.map_cons, List.sum_cons, ← h x List.mem_cons_self,
        ← ih fun y hy => h y (List.mem_cons_of_mem _ hy), ← Finset.sum_add_distrib]
      refine Finset.sum_congr rfl fun c _ => ?_
      cases hf : f c x <;> simp [hf, Nat.add_comm]

lemma sum_single {α : Type*} (x : α) (hd : d < N) :
    ∑ c ∈ Finset.range N, (if d = c then some x else none).toList.length = 1 := by
  rw [Finset.sum_eq_single_of_mem d (Finset.mem_range.mpr hd) fun c _ hc => by simp [Ne.symm hc]]
  simp

lemma sum_members {members : List ℕ} {text : List UInt8} (hnodup : members.Nodup)
    (hbelow : ∀ c ∈ members, c < N) :
    ∑ c ∈ Finset.range N, (if c ∈ members then some text else none).toList.length =
      members.length := by
  have hmembers : (Finset.range N).filter (· ∈ members) = members.toFinset := by
    ext c
    simp only [Finset.mem_filter, Finset.mem_range, List.mem_toFinset, and_iff_right_iff_imp]
    exact hbelow c
  calc _ = ∑ c ∈ Finset.range N, if c ∈ members then 1 else 0 :=
        Finset.sum_congr rfl fun c _ => by split_ifs <;> rfl
    _ = members.toFinset.card := by rw [← Finset.sum_filter, hmembers, Finset.card_eq_sum_ones]
    _ = members.length := List.toFinset_card_of_nodup hnodup

/-- What the server got, read off all that it handled. -/
lemma gotFrom_eq (c : ℕ) (os : List Event) : gotFrom c os =
    (handled os).filterMap fun m => if m.1 = c then some m.2.recvRealMsg else none := by
  rw [gotFrom, handled, List.filterMap_filterMap]
  refine congrArg (List.filterMap · os) (funext fun e => ?_)
  cases e <;> rfl

lemma sum_gotFrom (h : ∀ e ∈ os, e.Below N) :
    ∑ c ∈ Finset.range N, (gotFrom c os).length = (handled os).length := by
  have hone : ∀ m ∈ handled os, ∑ c ∈ Finset.range N,
      (if m.1 = c then some m.2.recvRealMsg else none).toList.length = 1 := by
    intro m hm
    obtain ⟨e, he, heq⟩ := List.mem_filterMap.mp hm
    cases e with
    | got c received =>
        obtain rfl := Option.some.inj heq
        exact sum_single _ (h _ he)
    | room | connected | sent | received | failed => cases heq
  simp only [gotFrom_eq]
  rw [sum_length_filterMap _ hone, List.map_const', List.sum_replicate, smul_eq_mul, mul_one]

lemma sum_clients (h : ∀ e ∈ os, e.Below N) :
    ∑ c ∈ Finset.range N, (clients os).count c = (clients os).length := by
  have hmem : ∀ c ∈ (clients os : Multiset ℕ), c ∈ Finset.range N := by
    intro c hc
    obtain ⟨e, he, heq⟩ := List.mem_filterMap.mp (Multiset.mem_coe.mp hc)
    cases e with
    | connected d =>
        obtain rfl := Option.some.inj heq
        exact Finset.mem_range.mpr (h _ he)
    | room | got | sent | received | failed => cases heq
  simpa using Multiset.sum_count_eq_card hmem

/-- What a member heard, read off all broadcasts. -/
lemma heard_eq (c : ℕ) (os : List Event) : heard c os =
    (tellings os).filterMap fun t => if c ∈ t.1 then some t.2 else none := by
  rw [heard, ChatRoom.heard, roomEvents, tellings, List.filterMap_filterMap,
    List.filterMap_filterMap]
  refine congrArg (List.filterMap · os) (funext fun e => ?_)
  cases e with
  | room e => cases e <;> rfl
  | got | connected | sent | received | failed => rfl

lemma sum_heard (h : ∀ e ∈ os, e.Below N)
    (hnodup : ∀ members text, .room (.broadcast members text) ∈ os → members.Nodup) :
    ∑ c ∈ Finset.range N, (heard c os).length = (audiences os).sum := by
  have hall : ∀ t ∈ tellings os, ∑ c ∈ Finset.range N,
      (if c ∈ t.1 then some t.2 else none).toList.length = t.1.length := by
    intro t ht
    obtain ⟨e, he, heq⟩ := List.mem_filterMap.mp ht
    cases e with
    | room e =>
        cases e with
        | broadcast members text =>
            obtain rfl := Option.some.inj heq
            exact sum_members (hnodup _ _ he) (h _ he)
        | accepted | removed | handed | written | failed => cases heq
    | got | connected | sent | received | failed => cases heq
  simp only [heard_eq]
  rw [sum_length_filterMap _ hall, audiences]

/-- The system as long as reads fill their buffers, writes send their frames and nothing
fails. -/
def healthy : Machine ChatSystem Input Event := whole.restrict fun _ i => Healthy i

/-- The socket is open and a read is outstanding. -/
def Reads (r : Connection) : Prop := r.isOpen = true ∧ r.reading ≠ .none

lemma reads_readHeader {r : Connection} (h : r.isOpen = true) : Reads r.readHeader := by
  rw [Connection.readHeader, if_pos h]
  exact ⟨h, Reading.noConfusion⟩

lemma Reads.next {r r' : Connection} {n m : ℕ} {received : List Handled} (h : Reads r)
    (hn : Connection.machine.next r (.complete n m) = some (r', received)) : Reads r' := by
  cases Connection.step_of_next hn with
  | header =>
      rw [Connection.readBody, if_pos h.1]
      exact ⟨h.1, Reading.noConfusion⟩
  | body _ _ _ hreceived =>
      subst hreceived
      exact reads_readHeader h.1

/-- Both ends of a line read, once they have begun to. -/
structure Alive (s : ChatSystem) (c : ℕ) : Prop where
  up : c < s.room.table.created → Reads (s.line c).connection
  down : (s.line c).client.connected = true → Reads (s.line c).client.reader

lemma alive_setLine {l : Line} (h : ∀ d, Alive s d)
    (hup : c < s.room.table.created → Reads l.connection)
    (hdown : l.client.connected = true → Reads l.client.reader) (d : ℕ) :
    Alive (s.setLine c l) d := by
  by_cases hd : d = c
  · subst hd
    refine ⟨?_, ?_⟩
    · rw [setLine_self]
      exact hup
    · rw [setLine_self]
      exact hdown
  · refine ⟨?_, ?_⟩
    · rw [setLine_of_ne _ hd]
      exact (h d).up
    · rw [setLine_of_ne _ hd]
      exact (h d).down

/-- A step of the room that creates no connection leaves the ends of the lines. -/
lemma alive_roomStep {j : ChatRoom.Input} (h : ∀ d, Alive s d) (hn : s.roomStep j = some (u, o))
    (hcreated : u.room.table.created = s.room.table.created) (d : ℕ) : Alive u d := by
  obtain ⟨es, -, -, hline⟩ := exists_of_roomStep hn
  refine ⟨?_, ?_⟩
  · rw [hline, hcreated]
    exact (h d).up
  · rw [hline]
    exact (h d).down

lemma alive_step (h : ∀ d, Alive s d) (hn : machine.next s i = some (u, o)) (hhealthy : Healthy i)
    (d : ℕ) : Alive u d := by
  cases step_of_next hn with
  | @accepted t o hroom =>
      obtain ⟨es, -, -, hline⟩ := exists_of_roomStep hroom
      have hcreated := created_of_accept hroom
      by_cases hd : d = s.room.table.created
      · subst hd
        refine ⟨fun _ => ?_, ?_⟩
        · rw [setLine_self]
          exact reads_readHeader rfl
        · rw [setLine_self, hline]
          exact (h _).down
      · refine ⟨fun hlt => ?_, ?_⟩
        · rw [setLine_of_ne _ hd, hline]
          rw [setLine_room, hcreated] at hlt
          exact (h d).up (by omega)
        · rw [setLine_of_ne _ hd, hline]
          exact (h d).down
  | @connected c msg draws hconnected =>
      refine alive_setLine h ?_ ?_ d
      · exact (h c).up
      · exact fun _ => reads_readHeader rfl
  | removed hroom => exact alive_roomStep h hroom (created_of_remove hroom) d
  | @sentUp c | @sentDown c | @writtenUp c =>
      refine alive_setLine h ?_ ?_ d
      · exact (h c).up
      · exact (h c).down
  | @writtenDown u o c ok bytes later hdown hbytes hroom =>
      obtain rfl : ok = true := hhealthy
      refine alive_roomStep (fun d => ?_) hroom (created_of_complete hroom) d
      refine alive_setLine h ?_ ?_ d
      · exact (h c).up
      · exact (h c).down
  | @readUp c n sendbackmsg connection hread =>
      refine alive_setLine h ?_ ?_ d
      · exact fun hc => ((h c).up hc).next hread
      · exact (h c).down
  | @got u o c n sendbackmsg connection received later hread hroom =>
      have htable := (broadcasts_roomStep hroom).2.2.2.2.1
      refine alive_roomStep (fun d => ?_) hroom (by rw [htable]) d
      refine alive_setLine h ?_ ?_ d
      · exact fun hc => ((h c).up hc).next hread
      · exact (h c).down
  | @readDown c n msg draws reader hread =>
      refine alive_setLine h ?_ ?_ d
      · exact (h c).up
      · exact fun hc => ((h c).down hc).next hread
  | @received c n msg draws reader received later hread =>
      refine alive_setLine h ?_ ?_ d
      · exact (h c).up
      · exact fun hc => ((h c).down hc).next hread
  | failedUp => exact absurd hhealthy Bool.false_ne_true
  | closedUp | closedDown => cases hhealthy

/-- The invariant of a run without failures. Whatever the server got from a member, that
member was told. -/
structure Going (os : List Event) (s : ChatSystem) : Prop where
  sound : Sound os s
  counted : Counted os s
  alive : ∀ c : ℕ, Alive s c
  unfailed : ∀ e ∈ os, ¬ e.Fails
  connected : ∀ c : ℕ, (s.line c).client.connected = true → .connected c ∈ os
  told : ∀ c ∈ s.room.table.members, (gotFrom c os).length ≤ (heard c os).length

lemma Sound.gotFrom_eq_nil (h : Sound os s) (hc : s.room.table.created ≤ c) :
    gotFrom c os = [] := by
  refine List.filterMap_eq_nil_iff.mpr fun e he => ?_
  cases e with
  | got d received =>
      have hknown := (h.handled (d, received) (List.mem_filterMap.mpr ⟨_, he, rfl⟩)).known
      exact if_neg fun hd => by
        subst hd
        exact absurd hknown hc.not_gt
  | room | connected | sent | received | failed => rfl

lemma connected_setLine {l : Line}
    (hl : l.client.connected = (s.line c).client.connected) (d : ℕ) :
    ((s.setLine c l).line d).client.connected = (s.line d).client.connected := by
  by_cases hd : d = c
  · subst hd
    rw [setLine_self, hl]
  · rw [setLine_of_ne _ hd]

lemma connected_roomStep {j : ChatRoom.Input} (hn : s.roomStep j = some (u, o)) (d : ℕ) :
    (u.line d).client.connected = (s.line d).client.connected := by
  obtain ⟨es, -, -, hline⟩ := exists_of_roomStep hn
  rw [hline]

/-- Only `start` of a client makes it one that is connected. -/
lemma connected_of_next (hn : machine.next s i = some (u, o)) (d : ℕ)
    (hd : (u.line d).client.connected = true) :
    (s.line d).client.connected = true ∨ .connected d ∈ o := by
  cases step_of_next hn with
  | accepted hroom =>
      rw [connected_setLine, connected_roomStep hroom] at hd
      · exact .inl hd
      · rfl
  | @connected c msg draws hconnected =>
      by_cases hdc : d = c
      · exact .inr (by simp [hdc])
      · rw [setLine_of_ne _ hdc] at hd
        exact .inl hd
  | removed hroom =>
      rw [connected_roomStep hroom] at hd
      exact .inl hd
  | sentUp | sentDown | writtenUp | failedUp | readUp | readDown | received | closedDown =>
      rw [connected_setLine] at hd
      · exact .inl hd
      · rfl
  | writtenDown _ _ hroom | got _ hroom =>
      rw [connected_roomStep hroom, connected_setLine] at hd
      · exact .inl hd
      · rfl
  | @closedUp c connection _ hfail =>
      have hline := connected_setLine (s := s) (c := c)
        (l := { s.line c with connection := connection }) rfl d
      exact .inl (hline ▸ hd)

lemma one_le_count_clients (h : .connected c ∈ os) : 1 ≤ (clients os).count c :=
  List.count_pos_iff.mpr (List.mem_filterMap.mpr ⟨_, h, rfl⟩)

lemma going_launched (content : ℕ → ℤ → UInt8) : Going [] (launched content) :=
  ⟨sound_launched content, counted_launched content,
    fun c => ⟨fun hc => absurd hc (Nat.not_lt_zero c), fun hc => nomatch hc⟩,
    fun _ h => (nomatch h), fun _ h => (nomatch h), fun _ _ => le_rfl⟩

lemma Going.step (h : Going os s) (hn : healthy.next s i = some (u, o)) : Going (os ++ o) u := by
  obtain ⟨hhealthy, hn⟩ := restrict_next_iff.mp hn
  obtain ⟨⟨hwhole, hsends⟩, hn⟩ := restrict_next_iff.mp hn
  refine ⟨h.sound.step hn hwhole hsends, h.counted.step hn, alive_step h.alive hn hhealthy, ?_,
    fun c hc => ?_, ?_⟩
  · refine List.forall_mem_append.mpr ⟨h.unfailed, fun e he => ?_⟩
    cases shape_of_next hn with
    | plain _ hfails => exact hfails hhealthy e he
    | connected | answered =>
        rcases List.mem_cons.mp he with rfl | he
        · exact id
        · rw [List.mem_singleton.mp he]
          exact id
    | told _ hrest =>
        rcases List.mem_cons.mp he with rfl | he
        · exact id
        · rcases List.mem_cons.mp he with rfl | he
          · exact id
          · exact (hrest e he).2
  · refine List.mem_append.mpr ((connected_of_next hn c hc).imp_left fun hold => ?_)
    exact h.connected c hold
  · intro c hc
    cases shape_of_next hn with
    | plain ho _ _ hmembers =>
        obtain ⟨-, hgot, hheard, -⟩ := counts_of_plain ho c
        rw [gotFrom_append, heard_append, hgot, hheard, List.append_nil, List.append_nil]
        rcases hmembers c hc with hc | hc
        · exact h.told c hc
        · rw [h.sound.gotFrom_eq_nil hc]
          exact Nat.zero_le _
    | connected hroom | answered hroom =>
        rw [hroom] at hc
        simpa [gotFrom, heard, roomEvents] using h.told c hc
    | @told d received text rest htable hrest =>
        rw [htable] at hc
        have hold := h.told c hc
        obtain ⟨-, hgot, hheard, -⟩ := counts_of_plain (fun e he => (hrest e he).1) c
        have hgot' : (gotFrom c (.got d received :: .room (.broadcast s.room.table.members text) ::
            rest)).length ≤ 1 := by
          simp only [gotFrom] at hgot
          by_cases hd : d = c <;> simp [gotFrom, hd, hgot]
        have hheard' : heard c (.got d received :: .room (.broadcast s.room.table.members text) ::
            rest) = [text] := by
          rw [heard_eq, tellings] at hheard ⊢
          simp [hc, hheard]
        rw [gotFrom_append, heard_append, hheard', List.length_append, List.length_append,
          List.length_singleton]
        omega

/-- A step on the line of `c`: of bytes that go out, a write or a read. -/
def OnLine (c : ℕ) : Input → Prop
  | .sendUp d _ | .sendDown d _ | .writtenUp d _ | .writtenDown d _ | .readUp d _ _
  | .readDown d _ _ _ => d = c
  | _ => False

lemma healthy_next (hwhole : ReadsWhole s i) (hsends : SendsCaptured s i) (hhealthy : Healthy i)
    (hn : ∃ r, machine.next s i = some r) : (healthy.next s i).isSome = true := by
  obtain ⟨r, hr⟩ := hn
  have hnext : healthy.next s i = some r :=
    restrict_next_iff.mpr ⟨hhealthy, restrict_next_iff.mpr ⟨⟨hwhole, hsends⟩, hr⟩⟩
  rw [hnext]
  rfl

/-- The direction to the server takes a step. -/
lemma Going.exists_up (h : Going os s) (hc : c < s.room.table.created)
    (hconnected : (s.line c).client.connected = true) (hne : gotFrom c os ≠ sentBy c os) :
    ∃ i, OnLine c i ∧ (healthy.next s i).isSome = true := by
  have hlive : Event.failed c ∉ os := fun hmem => h.unfailed _ hmem trivial
  rcases (h.sound.flows c).up.progress hlive ((h.alive c).up hc).2 hne
    s.room.table.members.length with
    ⟨bytes, later, hsend, hcaptured⟩ | ⟨later, hwritten⟩ | ⟨u, o, hread⟩
  · refine ⟨.sendUp c bytes, rfl, healthy_next trivial hcaptured trivial ?_⟩
    simp only [machine, sendUp, ((h.alive c).down hconnected).1, if_true, hsend]
    exact ⟨_, rfl⟩
  · refine ⟨.writtenUp c true, rfl, healthy_next trivial trivial rfl ?_⟩
    simp only [machine, writtenUp, hwritten]
    exact ⟨_, rfl⟩
  · refine ⟨.readUp c (s.line c).connection.bufferSize fun _ => .built fun _ => 0, rfl,
      healthy_next rfl trivial trivial ?_⟩
    simp only [machine, readUp, hread]
    cases o with
    | nil => exact ⟨_, rfl⟩
    | cons received later => exact ⟨_, rfl⟩

/-- The direction to the client takes a step. -/
lemma Going.exists_down (h : Going os s) (hc : c < s.room.table.created)
    (hconnected : (s.line c).client.connected = true) (hne : receivedBy c os ≠ heard c os) :
    ∃ i, OnLine c i ∧ (healthy.next s i).isSome = true := by
  have hlive : Event.room (.failed c) ∉ os := fun hmem => h.unfailed _ hmem trivial
  rcases (h.sound.flows c).down.progress hlive ((h.alive c).down hconnected).2 hne 0 with
    ⟨bytes, later, hsend, hcaptured⟩ | ⟨later, hwritten⟩ | ⟨u, o, hread⟩
  · refine ⟨.sendDown c bytes, rfl, healthy_next trivial hcaptured trivial ?_⟩
    simp only [machine, sendDown, ((h.alive c).up hc).1, if_true, hsend]
    exact ⟨_, rfl⟩
  · have hout : (s.room.sender c).outstanding ≠ [] := by
      have hpaired := (h.sound.flows c).down.paired
      rw [hwritten] at hpaired
      intro hnil
      simp [hnil] at hpaired
    refine ⟨.writtenDown c true, rfl, healthy_next trivial trivial rfl ?_⟩
    simp only [machine, writtenDown, hwritten, roomStep, ChatRoom.machine, setLine_room,
      if_neg hout]
    exact ⟨_, rfl⟩
  · refine ⟨.readDown c (s.line c).client.reader.bufferSize (.built fun _ => 0) fun _ => 0, rfl,
      healthy_next rfl trivial trivial ?_⟩
    simp only [machine, readDown, hread]
    cases o with
    | nil => exact ⟨_, rfl⟩
    | cons received later => exact ⟨_, rfl⟩

/-- **The room never falls silent**: as long as nothing fails, reads fill their buffers and
writes send their frames, a next step is enabled on the line of every member whose client is
connected. -/
theorem never_silent (hrun : healthy.Run (launched content) is os s)
    (hc : c ∈ s.room.table.members) (hconnected : (s.line c).client.connected = true) :
    ∃ i, OnLine c i ∧ (healthy.next s i).isSome = true := by
  have hgoing : Going os s :=
    hrun.invariant (going_launched content) fun _ _ _ _ _ h hn => h.step hn
  have hcreated := hgoing.sound.named.lt_created hc
  by_cases hup : gotFrom c os = sentBy c os
  · refine hgoing.exists_down hcreated hconnected fun hdown => ?_
    -- with nothing on its way, the member was told less than the server got from it
    have hsent := hgoing.counted.sent c
    have hclients := one_le_count_clients (hgoing.connected c hconnected)
    have htold := hgoing.told c hc
    rw [hup, ← hdown, hsent] at htold
    omega
  · exact hgoing.exists_up hcreated hconnected hup

/-- After the first round of a single client its second text is on its way. -/
theorem never_silent_first_round :
    ∃ os s, healthy.Run (launched fun _ _ => 7) firstRound os s ∧
      ∃ i, OnLine 0 i ∧ (healthy.next s i).isSome = true := by
  obtain ⟨os, s, hrun, hmember, hconnected⟩ :
      ∃ os s, healthy.Run (launched fun _ _ => 7) firstRound os s ∧
        0 ∈ s.room.table.members ∧ (s.line 0).client.connected = true :=
    ⟨_, _, run_iff_exec.mpr rfl, by decide, rfl⟩
  exact ⟨os, s, hrun, never_silent hrun hmember hconnected⟩

end ChatSystem

end Xsix

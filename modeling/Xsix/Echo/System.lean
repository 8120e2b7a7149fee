import Xsix.Echo.Peer

/-!
An `EchoClient` and the `Connection` of the `EchoServer` that it reached.

What one end sends arrives at the other; apart from that the steps of the two come in any
order, and the writes go out and are read in pieces of any size.

* `under_way`: the six bytes the client begins with are all there ever are; none is lost
  while both sockets are open.
* `never_stalls`: while both sockets are open there is a step that moves bytes, and all but a
  bounded number of such steps bring bytes back to the client.
* `sixday_again`: if the writes go out in turn, the bytes stay in order: both ends receive the
  text of the client over and over.
-/

namespace Xsix

open Machine EchoPeer

inductive Side where
  | client
  | server
  deriving DecidableEq

namespace Side

def other : Side → Side
  | client => server
  | server => client

/-- `msg` of `EchoClient::start`. -/
def sixday : List UInt8 := ['s', 'i', 'x', 'd', 'a', 'y'].map fun c => UInt8.ofNat c.toNat

/-- What an end sends when it starts. -/
def greeting : Side → Option (List UInt8)
  | client => some sixday
  | server => none

@[simp] lemma other_other (x : Side) : x.other.other = x := by cases x <;> rfl

lemma other_ne (x : Side) : x.other ≠ x := by cases x <;> decide

lemma eq_other {x y : Side} (h : y ≠ x) : y = x.other := by
  cases x <;> cases y <;> first | rfl | exact absurd rfl h

end Side

/-- The two ends; what is on its way to an end counts as arrived there. -/
structure EchoSystem where
  peer : Side → EchoPeer

namespace EchoSystem

/-- After a step of `x`, whose result is `r`: what it sent arrives at the other end. -/
def after (s : EchoSystem) (x : Side) (r : EchoPeer × List EchoPeer.Event) :
    EchoSystem × List (Side × EchoPeer.Event) :=
  (⟨fun y => if y = x then r.1 else (s.peer y).arrive (sent r.2)⟩,
    r.2.map (Prod.mk x) ++ [(x.other, .arrived (sent r.2))])

def machine : Machine EchoSystem (Side × EchoPeer.Input) (Side × EchoPeer.Event) where
  next s
    | (_, .arrive _) => none
    | (x, i) => ((EchoPeer.machine x.greeting).next (s.peer x) i).map (s.after x)

/-- Once the client is connected. -/
def connected : EchoSystem := ⟨fun _ => .built⟩

/-- What is observed at one end. -/
def along (x : Side) (os : List (Side × EchoPeer.Event)) : List EchoPeer.Event :=
  os.filterMap fun e => if e.1 = x then some e.2 else none

/-- The bytes under way, from those the client reads next. -/
def underWay (s : EchoSystem) : List UInt8 :=
  (s.peer .client).inbox ++ (s.peer .server).writes.flatten ++
    ((s.peer .server).inbox ++ (s.peer .client).writes.flatten)

/-- The system, as long as the writes of both ends go out in turn. -/
def orderly : Machine EchoSystem (Side × EchoPeer.Input) (Side × EchoPeer.Event) :=
  machine.restrict fun s i => (s.peer i.1).inTurn i.2 = true

variable {x y : Side} {s u : EchoSystem} {i : EchoPeer.Input}
  {is : List (Side × EchoPeer.Input)} {o os : List (Side × EchoPeer.Event)}

@[simp] lemma along_append : along x (os ++ o) = along x os ++ along x o :=
  List.filterMap_append

lemma next_eq (hi : ∀ bytes, i ≠ .arrive bytes) : machine.next s (x, i) =
    ((EchoPeer.machine x.greeting).next (s.peer x) i).map (s.after x) := by
  cases i with
  | arrive bytes => exact absurd rfl (hi bytes)
  | start | transmit | written | read | fail => rfl

lemma after_spec {r : EchoPeer × List EchoPeer.Event} (h : s.after x r = (u, o)) :
    u.peer x = r.1 ∧ along x o = r.2 ∧ u.peer x.other = (s.peer x.other).arrive (sent r.2) ∧
      along x.other o = [.arrived (sent r.2)] := by
  obtain ⟨rfl, rfl⟩ := Prod.mk.inj h
  have hne := x.other_ne
  refine ⟨by simp, ?_, by simp [hne], ?_⟩
  · simp [along, hne, List.filterMap_map]
  · simp [along, hne.symm, List.filterMap_map]

/-- **A step is a step of one end, and an arrival at the other.** -/
lemma step_of_next (hn : machine.next s (x, i) = some (u, o)) :
    (EchoPeer.machine x.greeting).next (s.peer x) i = some (u.peer x, along x o) ∧
      (∀ bytes, i ≠ .arrive bytes) ∧
      u.peer x.other = (s.peer x.other).arrive (sent (along x o)) ∧
      along x.other o = [.arrived (sent (along x o))] := by
  have hi : ∀ bytes, i ≠ .arrive bytes := by
    rintro bytes rfl
    cases hn
  rw [next_eq hi] at hn
  obtain ⟨r, hpeer, hr⟩ := Option.map_eq_some_iff.mp hn
  obtain ⟨hx, halong, hother, harrived⟩ := after_spec hr
  rw [hx, halong, hother, harrived]
  exact ⟨hpeer, hi, rfl, rfl⟩

/-- What one end can do, it can do in the system. -/
lemma exists_next {p : EchoPeer} {es : List EchoPeer.Event}
    (hpeer : (EchoPeer.machine x.greeting).next (s.peer x) i = some (p, es))
    (hi : ∀ bytes, i ≠ .arrive bytes) :
    ∃ u o, machine.next s (x, i) = some (u, o) ∧ along x o = es := by
  obtain ⟨u, o, hr⟩ : ∃ u o, s.after x (p, es) = (u, o) := ⟨_, _, rfl⟩
  exact ⟨u, o, by rw [next_eq hi, hpeer, Option.map_some, hr], (after_spec hr).2.1⟩

/-- What a step is for one of the ends. -/
lemma peer_step (hn : machine.next s (x, i) = some (u, o)) (y : Side) :
    ∃ j, (EchoPeer.machine y.greeting).next (s.peer y) j = some (u.peer y, along y o) ∧
      ((s.peer x).inTurn i = true → (s.peer y).inTurn j = true) := by
  obtain ⟨hx, -, hother, halong⟩ := step_of_next hn
  by_cases hy : y = x
  · subst hy
    exact ⟨i, hx, id⟩
  · obtain rfl := Side.eq_other hy
    refine ⟨.arrive (sent (along x o)), ?_, fun _ => rfl⟩
    rw [hother, halong]
    rfl

/-! ### What holds of the two ends -/

/-- Each end by itself, and that what arrives at the one is what the other sent. -/
structure Linked (os : List (Side × EchoPeer.Event)) (s : EchoSystem) : Prop where
  weighed (x : Side) : Weighed x.greeting (along x os) (s.peer x)
  arrived (x : Side) : EchoPeer.arrived (along x os) = sent (along x.other os)
  moves (x : Side) :
    EchoPeer.moves (along x os) ≤ (sent (along x os)).length + (received (along x os)).length

lemma linked_connected : Linked [] connected :=
  ⟨fun _ => weighed_built, fun _ => rfl, fun _ => le_rfl⟩

lemma Linked.step (h : Linked os s) (hn : machine.next s (x, i) = some (u, o)) :
    Linked (os ++ o) u := by
  refine ⟨fun y => ?_, fun y => ?_, fun y => ?_⟩
  · obtain ⟨j, hj, -⟩ := peer_step hn y
    rw [along_append]
    exact (h.weighed y).step hj
  · obtain ⟨hx, hi, -, halong⟩ := step_of_next hn
    by_cases hy : y = x
    · subst hy
      simp [halong, arrived_of_next hx hi, h.arrived]
    · obtain rfl := Side.eq_other hy
      simp [halong, h.arrived]
  · obtain ⟨j, hj, -⟩ := peer_step hn y
    have hmoved := Nat.add_le_add (h.moves y) (moves_le_of_next hj)
    simp only [along_append, moves_append, sent_append, received_append, List.length_append]
    omega

lemma linked_of_run (hrun : machine.Run connected is os s) : Linked os s :=
  hrun.invariant linked_connected fun _ _ i _ _ h hn => h.step (x := i.1) (i := i.2) hn

/-- What was received at one end, and what is on its way there. -/
lemma Linked.inbox (h : Linked os s) (x : Side) :
    received (along x os) ++ (s.peer x).inbox = sent (along x.other os) :=
  (h.weighed x).inbox.trans (h.arrived x)

lemma greeted_server (begun : Bool) : greeted Side.server.greeting begun = [] := by
  cases begun <;> rfl

lemma length_greeted_client (begun : Bool) :
    (greeted Side.client.greeting begun).length = if begun then 6 else 0 := by
  cases begun <;> rfl

lemma Linked.length_le (h : Linked os s) : (underWay s).length ≤ 6 := by
  have hclient := congrArg List.length (h.inbox .client)
  have hserver := congrArg List.length (h.inbox .server)
  have hle := (h.weighed .client).weight_le
  have hle' := (h.weighed .server).weight_le
  rw [length_greeted_client] at hle
  rw [greeted_server, List.length_nil] at hle'
  have hsix : (if (s.peer .client).begun then 6 else 0) ≤ 6 := by split_ifs <;> omega
  simp only [List.length_append, Side.other] at hclient hserver
  simp only [underWay, List.length_append]
  omega

lemma Linked.length_eq (h : Linked os s) (hopen : ∀ x, (s.peer x).isOpen = true) :
    (underWay s).length = if (s.peer .client).begun then 6 else 0 := by
  have hclient := congrArg List.length (h.inbox .client)
  have hserver := congrArg List.length (h.inbox .server)
  have heq := (h.weighed .client).weight_eq (hopen .client)
  have heq' := (h.weighed .server).weight_eq (hopen .server)
  rw [length_greeted_client] at heq
  rw [greeted_server, List.length_nil] at heq'
  simp only [List.length_append, Side.other] at hclient hserver
  simp only [underWay, List.length_append]
  omega

/-- Both ends start; the text goes to the server in one piece, and back in several. -/
def firstRound : List (Side × EchoPeer.Input) :=
  [(.server, .start), (.client, .start), (.client, .transmit 0 Side.sixday), (.server, .read 4),
    (.server, .read 2), (.server, .transmit 0 (Side.sixday.take 4)), (.client, .read 3)]

/-- **All bytes under way are those the client began with**, and none is lost while both
sockets are open. -/
theorem under_way (hrun : machine.Run connected is os s) :
    (underWay s).length ≤ 6 ∧ ((∀ x, (s.peer x).isOpen = true) →
      (underWay s).length = if (s.peer .client).begun then 6 else 0) :=
  ⟨(linked_of_run hrun).length_le, (linked_of_run hrun).length_eq⟩

/-- In the first round. -/
theorem under_way_first_round : ∃ os s, machine.Run connected firstRound os s ∧
    received (along .client os) = Side.sixday.take 3 ∧ (underWay s).length ≤ 6 := by
  obtain ⟨os, s, hrun, hreceived⟩ : ∃ os s, machine.Run connected firstRound os s ∧
      received (along .client os) = Side.sixday.take 3 :=
    ⟨_, _, run_iff_exec.mpr rfl, by decide⟩
  exact ⟨os, s, hrun, hreceived, (under_way hrun).1⟩

/-- **The echo goes on**: while both sockets are open an end that has not started can, or else
bytes can go out or be read; and but for eighteen such steps, each four of them bring at least
one byte back to the client. -/
theorem never_stalls (hrun : machine.Run connected is os s) :
    ((∀ x, (s.peer x).isOpen = true) → ∃ x i u o, machine.next s (x, i) = some (u, o) ∧
      (i = .start ∨ 0 < moves (along x o))) ∧
      moves (along .client os) + moves (along .server os) ≤
        4 * (received (along .client os)).length + 18 := by
  have hlinked := linked_of_run hrun
  constructor
  · intro hopen
    by_cases hbegun : ∀ x, (s.peer x).begun = true
    · have hreading := fun x => (hlinked.weighed x).reading (hopen x) (hbegun x)
      have hsix := hlinked.length_eq hopen
      rw [hbegun, if_pos rfl] at hsix
      obtain ⟨x, hx⟩ : ∃ x, (s.peer x).inbox ≠ [] ∨ (s.peer x).writes.flatten ≠ [] := by
        by_contra hnone
        push Not at hnone
        simp [underWay, hnone] at hsix
      rcases hx with hinbox | hwrites
      · obtain ⟨p, o, hp, hpos⟩ := exists_read (hreading x) hinbox
        obtain ⟨u, o', hn, rfl⟩ := exists_next hp fun _ h => (nomatch h)
        exact ⟨x, _, u, o', hn, .inr hpos⟩
      · obtain ⟨k, b, p, o, hp, hpos⟩ := exists_transmit (hopen x) hwrites
        obtain ⟨u, o', hn, rfl⟩ := exists_next hp fun _ h => (nomatch h)
        exact ⟨x, _, u, o', hn, .inr hpos⟩
    · obtain ⟨x, hx⟩ := not_forall.mp hbegun
      obtain ⟨p, hp⟩ := exists_start (Bool.eq_false_of_not_eq_true hx)
      obtain ⟨u, o, hn, -⟩ := exists_next hp fun _ h => (nomatch h)
      exact ⟨x, _, u, o, hn, .inl rfl⟩
  · have hclient := congrArg List.length (hlinked.inbox .client)
    have hserver := congrArg List.length (hlinked.inbox .server)
    have hmoves := hlinked.moves .client
    have hmoves' := hlinked.moves .server
    have hle := (hlinked.weighed .client).weight_le
    have hle' := (hlinked.weighed .server).weight_le
    rw [length_greeted_client] at hle
    rw [greeted_server, List.length_nil] at hle'
    have hsix : (if (s.peer .client).begun then 6 else 0) ≤ 6 := by split_ifs <;> omega
    simp only [List.length_append, Side.other] at hclient hserver
    omega

/-- In the first round. -/
theorem never_stalls_first_round : ∃ os s, machine.Run connected firstRound os s ∧
    received (along .client os) = Side.sixday.take 3 ∧
      ∃ x i u o, machine.next s (x, i) = some (u, o) ∧ (i = .start ∨ 0 < moves (along x o)) := by
  obtain ⟨os, s, hrun, hreceived, hopen⟩ : ∃ os s, machine.Run connected firstRound os s ∧
      received (along .client os) = Side.sixday.take 3 ∧
      (s.peer .client).isOpen = true ∧ (s.peer .server).isOpen = true :=
    ⟨_, _, run_iff_exec.mpr rfl, by decide, by decide⟩
  have hgo := (never_stalls hrun).1 fun x => by cases x; exacts [hopen.1, hopen.2]
  exact ⟨os, s, hrun, hreceived, hgo⟩

/-! ### Writes that go out in turn -/

section Words

variable {α : Type*} {w g l : List α}

/-- A word that is what follows `g` in `g` and itself repeats `g`. -/
lemma getElem?_mod_of_prefix (h : w <+: g ++ w) (hg : 0 < g.length) {i : ℕ} {b : α}
    (hb : w[i]? = some b) : g[i % g.length]? = some b := by
  induction i using Nat.strong_induction_on with
  | h i ih =>
      obtain ⟨hi, hwi⟩ := List.getElem?_eq_some_iff.mp hb
      have hgw : (g ++ w)[i]? = some b := hwi ▸ List.prefix_iff_getElem?.mp h i hi
      by_cases hlt : i < g.length
      · rw [Nat.mod_eq_of_lt hlt]
        rwa [List.getElem?_append_left hlt] at hgw
      · have hle : g.length ≤ i := not_lt.mp hlt
        rw [List.getElem?_append_right hle] at hgw
        rw [Nat.mod_eq_sub_mod hle]
        exact ih (i - g.length) (by omega) hgw

/-- What is left of `g` and a word once the word is taken off its front is a rotation of `g`. -/
lemma eq_rotate_of_append_eq (hg : g ≠ []) (h : w ++ l = g ++ w) : l = g.rotate w.length := by
  induction hn : w.length using Nat.strong_induction_on generalizing w with
  | h n ih =>
      subst hn
      have hw : w <+: g ++ w := ⟨l, h⟩
      rcases List.prefix_or_prefix_of_prefix hw (List.prefix_append g w) with ⟨rest, rfl⟩ | hpre
      · -- less than one round
        rw [List.append_assoc, List.append_right_inj] at h
        rw [h, List.rotate_append_length_eq]
      · obtain ⟨rest, rfl⟩ := hpre
        have hrest : rest ++ l = g ++ rest := by
          rwa [List.append_assoc, List.append_right_inj] at h
        have hpos := List.length_pos_of_ne_nil hg
        rw [ih rest.length (by simp [hpos]) hrest rfl, List.length_append, ← List.rotate_rotate,
          List.rotate_length]

end Words

/-- What each end sends is what it began with and what it received, in order. -/
lemma passes_of_run (hrun : orderly.Run connected is os s) :
    Linked os s ∧ ∀ x, Passes x.greeting (along x os) (s.peer x) := by
  refine hrun.invariant (I := fun os s => Linked os s ∧
    ∀ x, Passes x.greeting (along x os) (s.peer x)) ⟨linked_connected, fun _ => passes_built⟩ ?_
  rintro os s ⟨x, i⟩ u o ⟨hlinked, hpasses⟩ hn
  obtain ⟨hturn, hn⟩ := restrict_next_iff.mp hn
  refine ⟨hlinked.step hn, fun y => ?_⟩
  obtain ⟨j, hj, hjturn⟩ := peer_step hn y
  rw [along_append]
  exact (hpasses y).step (hlinked.weighed y) hj (hjturn hturn)

/-- **The text of the client goes round**: if the writes go out in turn, each end receives it
over and over, and while both sockets are open it is whole, from the byte on that the client
reads next. -/
theorem sixday_again (hrun : orderly.Run connected is os s) :
    (∀ x i b, (received (along x os))[i]? = some b → Side.sixday[i % 6]? = some b) ∧
      ((∀ x, (s.peer x).isOpen = true) → (s.peer .client).begun = true →
        underWay s = Side.sixday.rotate (received (along .client os)).length) := by
  obtain ⟨hlinked, hpasses⟩ := passes_of_run hrun
  have hclient : received (along .client os) ++ (s.peer .client).inbox = sent (along .server os) :=
    hlinked.inbox .client
  have hserver : received (along .server os) ++ (s.peer .server).inbox = sent (along .client os) :=
    hlinked.inbox .server
  constructor
  · have hpre := (hpasses .server).sent_le
    rw [greeted_server, List.nil_append] at hpre
    have hback : received (along .client os) <+: received (along .server os) :=
      (hclient ▸ List.prefix_append _ _).trans hpre
    have hround : received (along .server os) <+: Side.sixday ++ received (along .client os) := by
      have hgo := (hserver ▸ List.prefix_append _ _).trans (hpasses .client).sent_le
      cases hbegun : (s.peer .client).begun with
      | true => simpa [hbegun, greeted, Side.greeting] using hgo
      | false =>
          -- nothing was sent yet
          obtain ⟨-, -, -, -, hnone⟩ := (hlinked.weighed .client).fresh hbegun
          have hnil : received (along .server os) = [] := by
            simpa [hbegun, greeted, hnone] using hgo
          rw [hnil]
          exact List.nil_prefix
    intro x i b hb
    refine getElem?_mod_of_prefix (hround.trans ((List.prefix_append_right_inj _).mpr hback))
      (by decide) ?_
    cases x with
    | client =>
        obtain ⟨hi, rfl⟩ := List.getElem?_eq_some_iff.mp hb
        exact List.prefix_iff_getElem?.mp hback i hi
    | server => exact hb
  · intro hopen hbegun
    have heq := (hpasses .client).sent_eq (hopen .client)
    have heq' := (hpasses .server).sent_eq (hopen .server)
    rw [greeted_server, List.nil_append] at heq'
    rw [hbegun] at heq
    refine eq_rotate_of_append_eq (by decide) ?_
    calc received (along .client os) ++ underWay s
        = received (along .server os) ++ ((s.peer .server).inbox ++
            (s.peer .client).writes.flatten) := by
          rw [underWay, ← heq', ← hclient]
          simp
      _ = Side.sixday ++ received (along .client os) := by
          rw [← List.append_assoc, hserver]
          exact heq

/-- What comes back first. -/
theorem sixday_again_first_round : ∃ os s, orderly.Run connected firstRound os s ∧
    received (along .client os) = Side.sixday.take 3 ∧ underWay s = Side.sixday.rotate 3 := by
  obtain ⟨os, s, hrun, hreceived, hopen, hbegun⟩ : ∃ os s, orderly.Run connected firstRound os s ∧
      received (along .client os) = Side.sixday.take 3 ∧
      ((s.peer .client).isOpen = true ∧ (s.peer .server).isOpen = true) ∧
      (s.peer .client).begun = true :=
    ⟨_, _, run_iff_exec.mpr rfl, by decide, by decide, by decide⟩
  have hwhole := (sixday_again hrun).2 (fun x => by cases x; exacts [hopen.1, hopen.2]) hbegun
  exact ⟨os, s, hrun, hreceived, by rw [hwhole, hreceived]; rfl⟩

end EchoSystem

end Xsix

import Xsix.Actor.Scheduler

/-!
Two runs of `ActorCore::run` on one schedule.

The schedule of a run is what is outside of the program: the readings of the clock, when the
scan comes to the next actor and when the task of an actor completes. Replaying a schedule
with each visit of the scan in one piece (`Replay`) decides the posts of every run that
has it (`follows_of_run`), from the time stamps that were in the memory of the actors.

* `head?_readings_replay`: the first post of an actor is at the first visit at which the
  actor is due by the time stamp it was constructed with.
* `same_replay`: the later ones do not depend on it.
* `posts_eq_iff`: two runs on one schedule post the same exactly if each actor is first
  due at the same visit in both.
-/

namespace Xsix

open CInt Machine

/-- The parts of a schedule. -/
inductive Sched (A : Type*) where
  | reading (ts : ℤ)
  | visit
  | completion (a : A)

namespace Scan

variable {A μ : Type*} [DecidableEq A]

/-- The actors the scan has yet to visit. -/
def rest : Scan A → List A
  | .idle => []
  | .scanning _ rest | .checked _ _ rest | .marked _ _ rest | .stamped _ _ rest => rest

/-- The reading of the clock the scan works with. -/
def now : Scan A → Option ℤ
  | .idle => none
  | .scanning ts _ | .checked ts _ _ | .marked ts _ _ | .stamped ts _ _ => some ts

/-- The post the scan is about to make. -/
def decided : Scan A → List (A × ℤ)
  | .checked ts a _ | .marked ts a _ | .stamped ts a _ => [(a, ts)]
  | _ => []

/-- What the visit in hand is still to do to an actor. -/
def finish (scan : Scan A) (a : A) (b : ActorBase μ) : ActorBase μ :=
  match scan with
  | .checked ts c _ =>
      if c = a then (b.setState stateTicking).setLastTickTimestamp ts else b
  | .marked ts c _ => if c = a then b.setLastTickTimestamp ts else b
  | _ => b

end Scan

namespace ActorCore

variable {A W μ : Type*}

/-- What a step adds to the schedule. -/
def observe (s : ActorCore A W μ) : Input A W → List (Sched A)
  | .now ts => [.reading ts]
  | .readyTick => [.visit]
  | .setReady w => (s.worker w).task.toList.map .completion
  | _ => []

/-- The posts that were made, with the one the scan is about to make. -/
def posts (os : List (A × ℤ)) (s : ActorCore A W μ) : List (A × ℤ) := os ++ s.scan.decided

/-! ### The visits of a schedule -/

/-- Where the scan is: the reading, the actors to visit, and the visits it has made. -/
structure Tour (A : Type*) where
  now : ℤ
  rest : List A
  visits : List (A × ℤ)

/-- The next part of a schedule. -/
def Tour.step (mActorMap : List A) (t : Tour A) : Sched A → Tour A
  | .reading ts => { t with now := ts, rest := mActorMap }
  | .visit =>
      match t.rest with
      | [] => t
      | a :: rest => { t with rest := rest, visits := t.visits ++ [(a, t.now)] }
  | .completion _ => t

/-- The visits of a schedule. -/
def tour (mActorMap : List A) (σ : List (Sched A)) : Tour A :=
  σ.foldl (Tour.step mActorMap) ⟨0, [], []⟩

variable [DecidableEq A]

/-- The readings at which the scan visits an actor. -/
def visits (mActorMap : List A) (σ : List (Sched A)) (a : A) : List ℤ :=
  readings a (tour mActorMap σ).visits

/-- The reading at the first visit at which an actor, as it was constructed, is ready. -/
def firstDue (mActorMap : List A) (tickInterval ts : A → ℤ) (σ : List (Sched A)) (a : A) :
    Option ℤ :=
  (visits mActorMap σ a).find?
    ((ActorBase.built (ts a) : ActorBase Unit).readyTick (tickInterval a))

/-! ### Replaying a schedule -/

/-- The actors and the posts of a replay, in which a visit is one step. -/
structure Replay (A : Type*) where
  tour : Tour A
  actor : A → ActorBase Unit
  posts : List (A × ℤ)

/-- The next part of a schedule, replayed. -/
def Replay.step (mActorMap : List A) (tickInterval : A → ℤ) (r : Replay A) (e : Sched A) :
    Replay A :=
  let t := r.tour.step mActorMap e
  match e with
  | .reading _ => { r with tour := t }
  | .visit =>
      match r.tour.rest with
      | [] => r
      | a :: _ =>
          let b := r.actor a
          if b.readyTick (tickInterval a) r.tour.now
          then
            { tour := t
              actor := Function.update r.actor a
                ((b.setState stateTicking).setLastTickTimestamp r.tour.now)
              posts := r.posts ++ [(a, r.tour.now)] }
          else { r with tour := t }
  | .completion a =>
      { r with actor := Function.update r.actor a ((r.actor a).setState stateReadyTick) }

/-- The replay of a schedule, from the time stamps the actors were constructed with. -/
def replay (mActorMap : List A) (tickInterval ts : A → ℤ) (σ : List (Sched A)) : Replay A :=
  σ.foldl (Replay.step mActorMap tickInterval) ⟨⟨0, [], []⟩, fun a => .built (ts a), []⟩

variable {mActorMap : List A} {tickInterval ts ts' : A → ℤ} {σ : List (Sched A)} {e : Sched A}
  {r r' : Replay A} {a b : A}

omit [DecidableEq A] in
lemma tour_snoc : tour mActorMap (σ ++ [e]) = (tour mActorMap σ).step mActorMap e := by
  rw [tour, List.foldl_concat, tour]

lemma replay_snoc : replay mActorMap tickInterval ts (σ ++ [e]) =
    (replay mActorMap tickInterval ts σ).step mActorMap tickInterval e := by
  rw [replay, List.foldl_concat, replay]

/-- The scan comes to an actor. -/
lemma Replay.step_visit {rest : List A} (h : r.tour.rest = a :: rest) :
    r.step mActorMap tickInterval .visit =
      { tour := { r.tour with rest := rest, visits := r.tour.visits ++ [(a, r.tour.now)] }
        actor := if (r.actor a).readyTick (tickInterval a) r.tour.now
          then Function.update r.actor a
            (((r.actor a).setState stateTicking).setLastTickTimestamp r.tour.now)
          else r.actor
        posts := r.posts ++ if (r.actor a).readyTick (tickInterval a) r.tour.now
          then [(a, r.tour.now)] else [] } := by
  simp only [Replay.step, Tour.step, h]
  split_ifs with hready
  · rfl
  · simp

/-- The scan has come to its end. -/
lemma Replay.step_visit_nil (h : r.tour.rest = []) :
    r.step mActorMap tickInterval .visit = r := by
  simp only [Replay.step, h]

lemma Replay.step_tour :
    (r.step mActorMap tickInterval e).tour = r.tour.step mActorMap e := by
  cases e with
  | reading ts => rfl
  | completion a => rfl
  | visit =>
      cases hrest : r.tour.rest with
      | nil =>
          rw [Replay.step_visit_nil hrest]
          simp only [Tour.step, hrest]
      | cons a rest =>
          rw [Replay.step_visit hrest]
          simp only [Tour.step, hrest]

/-- A replay makes the visits of its schedule. -/
lemma replay_tour : (replay mActorMap tickInterval ts σ).tour = tour mActorMap σ := by
  induction σ using List.reverseRecOn with
  | nil => rfl
  | append_singleton σ e ih => rw [replay_snoc, Replay.step_tour, ih, tour_snoc]

/-! ### The first post of an actor -/

lemma visits_visit {rest : List A} (h : (tour mActorMap σ).rest = a :: rest) :
    visits mActorMap (σ ++ [.visit]) b =
      visits mActorMap σ b ++ if a = b then [(tour mActorMap σ).now] else [] := by
  rw [visits, tour_snoc, Tour.step, h]
  exact readings_snoc

lemma visits_reading {t : ℤ} :
    visits mActorMap (σ ++ [.reading t]) b = visits mActorMap σ b := by
  rw [visits, tour_snoc, Tour.step, visits]

lemma visits_completion : visits mActorMap (σ ++ [.completion a]) b = visits mActorMap σ b := by
  rw [visits, tour_snoc, Tour.step, visits]

lemma visits_visit_nil (h : (tour mActorMap σ).rest = []) :
    visits mActorMap (σ ++ [.visit]) b = visits mActorMap σ b := by
  rw [visits, tour_snoc, Tour.step, h, visits]

/-- The readings at which an actor is posted, with the post of the next visit. -/
lemma readings_visit {rest : List A} (h : r.tour.rest = a :: rest) :
    readings b (r.step mActorMap tickInterval .visit).posts =
      readings b r.posts ++
        if a = b ∧ (r.actor b).readyTick (tickInterval b) r.tour.now then [r.tour.now] else [] := by
  rw [Replay.step_visit h]
  by_cases hready : (r.actor a).readyTick (tickInterval a) r.tour.now = true
  · simp only [hready, if_true]
    rw [readings_snoc]
    by_cases hab : a = b
    · subst hab
      simp [hready]
    · simp [hab]
  · by_cases hab : a = b
    · subst hab
      simp [hready]
    · simp [hready, hab]

/-- A visit in which an actor is not posted leaves it. -/
lemma actor_visit {rest : List A} (h : r.tour.rest = a :: rest) :
    (r.step mActorMap tickInterval .visit).actor b =
      if a = b ∧ (r.actor b).readyTick (tickInterval b) r.tour.now
      then ((r.actor b).setState stateTicking).setLastTickTimestamp r.tour.now
      else r.actor b := by
  rw [Replay.step_visit h]
  by_cases hab : a = b
  · subst hab
    by_cases hready : (r.actor a).readyTick (tickInterval a) r.tour.now = true
    · simp [hready]
    · simp [hready]
  · simp only [hab, false_and, if_false]
    split_ifs
    · exact Function.update_of_ne (Ne.symm hab) _ _
    · rfl

lemma actor_completion : (r.step mActorMap tickInterval (.completion a)).actor b =
    if a = b then (r.actor b).setState stateReadyTick else r.actor b := by
  split_ifs with hab
  · subst hab
    exact Function.update_self ..
  · exact Function.update_of_ne (Ne.symm hab) ..

/-- **The first post of an actor** is at the first visit at which it is due by the time stamp
it was constructed with; until then it is as it was constructed. -/
theorem head?_readings_replay (a : A) :
    (readings a (replay mActorMap tickInterval ts σ).posts).head? =
        firstDue mActorMap tickInterval ts σ a ∧
      (readings a (replay mActorMap tickInterval ts σ).posts = [] →
        (replay mActorMap tickInterval ts σ).actor a = .built (ts a)) := by
  induction σ using List.reverseRecOn with
  | nil => exact ⟨rfl, fun _ => rfl⟩
  | append_singleton σ e ih =>
      obtain ⟨hhead, hbuilt⟩ := ih
      rw [firstDue] at hhead ⊢
      rw [replay_snoc]
      cases e with
      | reading t =>
          rw [visits_reading]
          exact ⟨hhead, hbuilt⟩
      | completion b =>
          rw [visits_completion]
          refine ⟨hhead, fun hnone => ?_⟩
          rw [actor_completion, hbuilt hnone]
          by_cases hab : b = a
          · rw [if_pos hab]
            rfl
          · rw [if_neg hab]
      | visit =>
          cases hrest : (tour mActorMap σ).rest with
          | nil =>
              have hrest' : (replay mActorMap tickInterval ts σ).tour.rest = [] := by
                rw [replay_tour, hrest]
              rw [Replay.step_visit_nil hrest', visits_visit_nil hrest]
              exact ⟨hhead, hbuilt⟩
          | cons c rest =>
              have hrest' : (replay mActorMap tickInterval ts σ).tour.rest = c :: rest := by
                rw [replay_tour, hrest]
              rw [visits_visit hrest, readings_visit hrest', actor_visit hrest', List.find?_append,
                List.head?_append, hhead, replay_tour]
              cases hnone : readings a (replay mActorMap tickInterval ts σ).posts with
              | nil =>
                  rw [hbuilt hnone]
                  by_cases hca : c = a
                  · simp only [hca, true_and, if_true]
                    cases hready : (ActorBase.built (ts a) : ActorBase Unit).readyTick
                      (tickInterval a) (tour mActorMap σ).now with
                    | true => simp [hready]
                    | false => simp [hready]
                  · simp [hca]
              | cons t later =>
                  rw [hnone] at hhead
                  rw [← hhead]
                  exact ⟨rfl, fun h => nomatch h⟩

/-! ### Two replays of one schedule -/

/-- What two predicates find first in a list, they find first in a prefix of it. -/
lemma find?_eq_of_prefix {α : Type*} {p q : α → Bool} {xs ys : List α}
    (h : xs.find? p = xs.find? q) (hpre : ys <+: xs) : ys.find? p = ys.find? q := by
  induction xs generalizing ys with
  | nil =>
      obtain rfl := List.prefix_nil.mp hpre
      rfl
  | cons x xs ih =>
      cases ys with
      | nil => rfl
      | cons y ys =>
          obtain ⟨rfl, hrest⟩ := List.cons_prefix_cons.mp hpre
          rw [List.find?_cons, List.find?_cons] at h ⊢
          cases hp : p y with
          | true =>
              rw [hp] at h
              cases hq : q y with
              | true => rfl
              | false =>
                  rw [hq] at h
                  exact absurd (List.find?_some h.symm) (by simp [hq])
          | false =>
              rw [hp] at h
              cases hq : q y with
              | true =>
                  rw [hq] at h
                  exact absurd (List.find?_some h) (by simp [hp])
              | false =>
                  rw [hq] at h
                  exact ih h hrest

/-- The visits of a schedule go on those of its beginning. -/
lemma visits_prefix : visits mActorMap σ a <+: visits mActorMap (σ ++ [e]) a := by
  cases e with
  | reading t => rw [visits_reading]
  | completion b => rw [visits_completion]
  | visit =>
      cases hrest : (tour mActorMap σ).rest with
      | nil => rw [visits_visit_nil hrest]
      | cons c rest =>
          rw [visits_visit hrest]
          exact List.prefix_append _ _

/-- Two replays that have posted the same, and have the same actors as far as these were
posted. -/
structure Replay.Same (r r' : Replay A) : Prop where
  posts : r.posts = r'.posts
  actor : ∀ a : A, readings a r.posts ≠ [] → r.actor a = r'.actor a

/-- As long as an actor was not posted, it is first due at the next visit exactly if it is
ready there. -/
lemma firstDue_visit {rest : List A} (hrest : (tour mActorMap σ).rest = a :: rest)
    (hnone : readings a (replay mActorMap tickInterval ts σ).posts = []) :
    (firstDue mActorMap tickInterval ts (σ ++ [.visit]) a).isSome =
      ((replay mActorMap tickInterval ts σ).actor a).readyTick (tickInterval a)
        (replay mActorMap tickInterval ts σ).tour.now := by
  have hfirst : (readings a (replay mActorMap tickInterval ts σ).posts).head? =
        firstDue mActorMap tickInterval ts σ a ∧
      (readings a (replay mActorMap tickInterval ts σ).posts = [] →
        (replay mActorMap tickInterval ts σ).actor a = .built (ts a)) := head?_readings_replay a
  rw [hnone, List.head?_nil, firstDue] at hfirst
  rw [firstDue, visits_visit hrest, List.find?_append, ← hfirst.1, hfirst.2 rfl, replay_tour]
  cases hready : (ActorBase.built (ts a) : ActorBase Unit).readyTick (tickInterval a)
      (tour mActorMap σ).now with
  | true => simp [hready]
  | false => simp [hready]

/-- A visit in which two replays find the same. -/
lemma Replay.Same.visit {rest : List A} (h : Replay.Same r r') (htour : r.tour = r'.tour)
    (hrest : r.tour.rest = b :: rest)
    (hready : (r.actor b).readyTick (tickInterval b) r.tour.now =
      (r'.actor b).readyTick (tickInterval b) r.tour.now)
    (hmark : ((r.actor b).setState stateTicking).setLastTickTimestamp r.tour.now =
      ((r'.actor b).setState stateTicking).setLastTickTimestamp r.tour.now) :
    Replay.Same (r.step mActorMap tickInterval .visit)
      (r'.step mActorMap tickInterval .visit) := by
  constructor
  · rw [Replay.step_visit hrest, Replay.step_visit (htour ▸ hrest), ← htour, hready, h.posts]
  · intro a hposted
    rw [readings_visit hrest] at hposted
    rw [actor_visit hrest, actor_visit (htour ▸ hrest), ← htour]
    by_cases hba : b = a
    · subst hba
      rw [← hready, hmark]
      by_cases hnow : (r.actor b).readyTick (tickInterval b) r.tour.now = true
      · simp only [hnow, and_self, if_true]
      · simp only [hnow, Bool.false_eq_true, and_false, if_false, List.append_nil] at hposted ⊢
        exact h.actor b hposted
    · simp only [hba, false_and, if_false, List.append_nil] at hposted ⊢
      exact h.actor a hposted

/-- **The posts depend on the time stamps only through the first one of each actor.** -/
theorem same_replay (h : ∀ a : A, firstDue mActorMap tickInterval ts σ a =
    firstDue mActorMap tickInterval ts' σ a) :
    Replay.Same (replay mActorMap tickInterval ts σ) (replay mActorMap tickInterval ts' σ) := by
  induction σ using List.reverseRecOn with
  | nil => exact ⟨rfl, fun a hposted => absurd rfl hposted⟩
  | append_singleton σ e ih =>
      have hsame := ih fun a => find?_eq_of_prefix (h a) visits_prefix
      rw [replay_snoc, replay_snoc]
      cases e with
      | reading t => exact ⟨hsame.posts, hsame.actor⟩
      | completion b =>
          refine ⟨hsame.posts, fun a hposted => ?_⟩
          rw [actor_completion, actor_completion, hsame.actor a hposted]
      | visit =>
          cases hrest : (tour mActorMap σ).rest with
          | nil =>
              rw [Replay.step_visit_nil (by rw [replay_tour, hrest]),
                Replay.step_visit_nil (by rw [replay_tour, hrest])]
              exact hsame
          | cons b rest =>
              have htour : (replay mActorMap tickInterval ts σ).tour =
                  (replay mActorMap tickInterval ts' σ).tour := by rw [replay_tour, replay_tour]
              have hrest' : (replay mActorMap tickInterval ts σ).tour.rest = b :: rest := by
                rw [replay_tour, hrest]
              by_cases hposted : readings b (replay mActorMap tickInterval ts σ).posts = []
              · have hposted' : readings b (replay mActorMap tickInterval ts' σ).posts = [] :=
                  hsame.posts ▸ hposted
                refine hsame.visit htour hrest' ?_ ?_
                · rw [← firstDue_visit hrest hposted, h b, firstDue_visit hrest hposted', htour]
                · rw [(head?_readings_replay b).2 hposted, (head?_readings_replay b).2 hposted']
                  rfl
              · refine hsame.visit htour hrest' ?_ ?_
                · rw [hsame.actor b hposted]
                · rw [hsame.actor b hposted]

/-! ### Runs -/

/-- Two actors that agree on being ready and on the time stamp. -/
def Alike {μ ν : Type*} (b : ActorBase μ) (c : ActorBase ν) : Prop :=
  (b.mState = stateReadyTick ↔ c.mState = stateReadyTick) ∧
    b.mLastTickTimestamp = c.mLastTickTimestamp

lemma Alike.readyTick {μ ν : Type*} {b : ActorBase μ} {c : ActorBase ν} (h : Alike b c)
    (interval now : ℤ) : b.readyTick interval now = c.readyTick interval now := by
  rw [Bool.eq_iff_iff, ActorBase.readyTick_iff, ActorBase.readyTick_iff, h.1, h.2]

/-- A replay is where a run of the program with its schedule is, but for the visit in
hand. -/
structure Follows (r : Replay A) (os : List (A × ℤ)) (s : ActorCore A W μ) : Prop where
  rest : r.tour.rest = s.scan.rest
  now : ∀ ts : ℤ, s.scan.now = some ts → r.tour.now = ts
  posts : r.posts = ActorCore.posts os s
  actor : ∀ a : A, Alike (r.actor a) (s.scan.finish a (s.actor a))

variable [DecidableEq W] [Fintype W] {s u : ActorCore A W μ} {i : Input A W}
  {os o : List (A × ℤ)}

omit [DecidableEq W] in
/-- The visit in hand is not to an actor that a worker is busy with. -/
lemma Balanced.finish_busy (h : Balanced s) {w : W} (hw : (s.worker w).task = some a)
    (b : ActorBase μ) : s.scan.finish a b = b := by
  obtain ⟨-, hclaim, hstate⟩ := h.of_busy hw
  cases hscan : s.scan with
  | checked ts c rest =>
      have hne : c ≠ a := by
        rintro rfl
        exact hstate (h.checked ts c rest hscan)
      exact if_neg hne
  | marked ts c rest =>
      have hne : c ≠ a := by
        rintro rfl
        simp [hscan, claimed] at hclaim
      exact if_neg hne
  | idle | scanning | stamped => rfl

omit [DecidableEq W] [Fintype W] in
/-- A step that goes on with the visit in hand, or touches no actor. -/
lemma Follows.of_same (h : Follows r os s) (hrest : u.scan.rest = s.scan.rest)
    (hnow : ∀ ts : ℤ, u.scan.now = some ts → s.scan.now = some ts)
    (hposts : ActorCore.posts (os ++ o) u = ActorCore.posts os s)
    (hactor : ∀ a : A, u.scan.finish a (u.actor a) = s.scan.finish a (s.actor a)) :
    Follows r (os ++ o) u :=
  ⟨h.rest.trans hrest.symm, fun ts hts => h.now ts (hnow ts hts), h.posts.trans hposts.symm,
    fun a => by
      rw [hactor]
      exact h.actor a⟩

omit [DecidableEq W] [Fintype W] in
/-- A visit of the scan. -/
lemma Follows.visit {ts : ℤ} {rest : List A} (h : Follows r os s)
    (hscan : s.scan = .scanning ts (a :: rest))
    (hu : u = if (s.actor a).readyTick (tickInterval a) ts
      then { s with scan := .checked ts a rest } else { s with scan := .scanning ts rest }) :
    Follows (r.step mActorMap tickInterval .visit) os u := by
  have hrest : r.tour.rest = a :: rest := by
    rw [h.rest, hscan]
    rfl
  have hnow : r.tour.now = ts := h.now ts (by rw [hscan]; rfl)
  have hactor (b : A) : Alike (r.actor b) (s.actor b) := by
    simpa [hscan, Scan.finish] using h.actor b
  have hposts : r.posts = os := by
    simpa [ActorCore.posts, hscan, Scan.decided] using h.posts
  have hready : (r.actor a).readyTick (tickInterval a) r.tour.now =
      (s.actor a).readyTick (tickInterval a) ts := by
    rw [(hactor a).readyTick, hnow]
  subst hu
  by_cases hyes : (s.actor a).readyTick (tickInterval a) ts = true
  · rw [Replay.step_visit hrest, hready]
    simp only [hyes, if_true]
    refine ⟨rfl, fun ts' hts' => hnow.trans (Option.some.inj hts'), ?_, fun b => ?_⟩
    · simp [ActorCore.posts, Scan.decided, hposts, hnow]
    · by_cases hba : b = a
      · subst hba
        simp only [Function.update_self, Scan.finish, if_true]
        exact ⟨.rfl, hnow⟩
      · simp only [Function.update_of_ne hba, Scan.finish, if_neg (Ne.symm hba)]
        exact hactor b
  · rw [Replay.step_visit hrest, hready]
    simp only [hyes, Bool.false_eq_true, if_false]
    refine ⟨rfl, fun ts' hts' => hnow.trans (Option.some.inj hts'), ?_, hactor⟩
    simp [ActorCore.posts, Scan.decided, hposts]

omit [DecidableEq W] [Fintype W] in
lemma modify_actor (f : ActorBase μ → ActorBase μ) :
    (s.modify a f).actor b = if b = a then f (s.actor b) else s.actor b := by
  rw [modify]
  split_ifs with hba
  · subst hba
    exact Function.update_self ..
  · exact Function.update_of_ne hba ..

omit [DecidableEq W] in
/-- What a worker does to its actor, the visit in hand does not undo. -/
lemma Balanced.finish_modify (h : Balanced s) {w : W} (hw : (s.worker w).task = some a)
    (f : ActorBase μ → ActorBase μ) (b : A) :
    s.scan.finish b ((s.modify a f).actor b) =
      if b = a then f (s.actor b) else s.scan.finish b (s.actor b) := by
  rw [modify_actor]
  split_ifs with hba
  · subst hba
    exact h.finish_busy hw _
  · rfl

/-- **One step of the program, and of the replay.** -/
lemma Follows.step (h : Follows r os s) (hb : Balanced s)
    (hn : (machine mActorMap tickInterval).next s i = some (u, o)) :
    Follows ((observe s i).foldl (Replay.step mActorMap tickInterval) r) (os ++ o) u := by
  cases i with
  | now t =>
      simp only [machine] at hn
      split at hn
      · next hscan =>
          obtain ⟨rfl, rfl⟩ := Prod.mk.inj (Option.some.inj hn)
          rw [List.append_nil]
          refine ⟨rfl, fun t' ht' => Option.some.inj ht', ?_, fun a => ?_⟩
          · exact h.posts.trans (by rw [ActorCore.posts, hscan]; rfl)
          · have halike := h.actor a
            rw [hscan] at halike
            exact halike
      · cases hn
  | readyTick =>
      simp only [machine] at hn
      split at hn
      · next t c rest hscan =>
          split_ifs at hn with hready
          · obtain ⟨hu, rfl⟩ := Prod.mk.inj (Option.some.inj hn)
            rw [List.append_nil]
            exact h.visit hscan (by rw [if_pos hready, hu])
          · obtain ⟨hu, rfl⟩ := Prod.mk.inj (Option.some.inj hn)
            rw [List.append_nil]
            exact h.visit hscan (by rw [if_neg hready, hu])
      · cases hn
  | setTicking =>
      simp only [machine] at hn
      split at hn
      · next t c rest hscan =>
          obtain ⟨rfl, rfl⟩ := Prod.mk.inj (Option.some.inj hn)
          refine h.of_same (by rw [hscan]; rfl) (fun _ ht => by rw [hscan]; exact ht) ?_ fun a => ?_
          · rw [ActorCore.posts, ActorCore.posts, hscan, List.append_nil]
            rfl
          · have hmod := modify_actor (s := s) (a := c) (b := a) (·.setState stateTicking)
            simp only [hscan, Scan.finish, hmod, eq_comm (a := a)]
            split_ifs <;> rfl
      · cases hn
  | setLastTickTimestamp =>
      simp only [machine] at hn
      split at hn
      · next t c rest hscan =>
          obtain ⟨rfl, rfl⟩ := Prod.mk.inj (Option.some.inj hn)
          refine h.of_same (by rw [hscan]; rfl) (fun _ ht => by rw [hscan]; exact ht) ?_ fun a => ?_
          · rw [ActorCore.posts, ActorCore.posts, hscan, List.append_nil]
            rfl
          · have hmod := modify_actor (s := s) (a := c) (b := a) (·.setLastTickTimestamp t)
            simp only [hscan, Scan.finish, hmod, eq_comm (a := a)]
      · cases hn
  | post =>
      simp only [machine] at hn
      split at hn
      · next t c rest hscan =>
          obtain ⟨rfl, rfl⟩ := Prod.mk.inj (Option.some.inj hn)
          refine h.of_same (by rw [hscan]; rfl) (fun _ ht => by rw [hscan]; exact ht) ?_ fun a => ?_
          · rw [ActorCore.posts, ActorCore.posts, hscan]
            exact List.append_nil _
          · rw [hscan]
            rfl
      · cases hn
  | endScan =>
      simp only [machine] at hn
      split at hn
      · next t hscan =>
          obtain ⟨rfl, rfl⟩ := Prod.mk.inj (Option.some.inj hn)
          refine h.of_same (by rw [hscan]; rfl) (fun _ ht => by cases ht) ?_ fun a => ?_
          · rw [ActorCore.posts, ActorCore.posts, hscan, List.append_nil]
            rfl
          · rw [hscan]
            rfl
      · cases hn
  | start w a =>
      simp only [machine] at hn
      split_ifs at hn
      obtain ⟨rfl, rfl⟩ := Prod.mk.inj (Option.some.inj hn)
      exact h.of_same rfl (fun _ ht => ht) (by rw [List.append_nil]; rfl) fun _ => rfl
  | tick w =>
      simp only [machine] at hn
      split at hn
      · next c hw =>
          obtain ⟨rfl, rfl⟩ := Prod.mk.inj (Option.some.inj hn)
          have htask : (s.worker w).task = some c := by rw [hw]; rfl
          rw [List.append_nil]
          refine ⟨h.rest, h.now, h.posts, fun a => ?_⟩
          change Alike (r.actor a)
            (s.scan.finish a ((s.modify c (·.setState stateTicking)).actor a))
          rw [hb.finish_modify htask]
          split_ifs with hac
          · subst hac
            have halike := h.actor a
            rw [hb.finish_busy htask] at halike
            have hstate := (hb.of_busy htask).2.2
            exact ⟨iff_of_false (mt halike.1.mp hstate) (by simp [ActorBase.setState, stateTicking,
              stateReadyTick]), halike.2⟩
          · exact h.actor a
      · cases hn
  | endTick w =>
      simp only [machine] at hn
      split at hn
      · next c hw =>
          obtain ⟨rfl, rfl⟩ := Prod.mk.inj (Option.some.inj hn)
          exact h.of_same rfl (fun _ ht => ht) (by rw [List.append_nil]; rfl) fun _ => rfl
      · cases hn
  | setReady w =>
      simp only [machine] at hn
      split at hn
      · next c hw =>
          obtain ⟨rfl, rfl⟩ := Prod.mk.inj (Option.some.inj hn)
          have htask : (s.worker w).task = some c := by rw [hw]; rfl
          have hseen : observe s (.setReady w) = [.completion c] := by
            rw [observe, htask]
            rfl
          rw [hseen, List.append_nil]
          refine ⟨h.rest, h.now, h.posts, fun a => ?_⟩
          change Alike ((r.step mActorMap tickInterval (.completion c)).actor a)
            (s.scan.finish a ((s.modify c (·.setState stateReadyTick)).actor a))
          rw [hb.finish_modify htask, actor_completion]
          by_cases hac : a = c
          · subst hac
            have halike := h.actor a
            rw [hb.finish_busy htask] at halike
            rw [if_pos rfl, if_pos rfl]
            exact ⟨.rfl, halike.2⟩
          · rw [if_neg hac, if_neg (Ne.symm hac)]
            exact h.actor a
      · cases hn

/-- **The replay of its schedule decides the posts of a run.** -/
theorem follows_of_run {is : List (Input A W)}
    (hrun : (machine mActorMap tickInterval).Run (launched ts : ActorCore A W μ) is os s) :
    Follows (replay mActorMap tickInterval ts ((machine mActorMap tickInterval).trace observe
      (launched ts : ActorCore A W μ) is)) os s := by
  have hall := hrun.invariant_trace (g := observe)
    (I := fun ks os s => Follows (replay mActorMap tickInterval ts ks) os s ∧ Balanced s)
    ⟨⟨rfl, fun _ h => (nomatch h), rfl, fun a => ⟨.rfl, rfl⟩⟩, balanced_launched ts⟩ ?_
  · exact hall.1
  · rintro ks os t i u o ⟨h, hb⟩ hn
    refine ⟨?_, hb.step (step_of_next hn)⟩
    rw [replay, List.foldl_append, ← replay]
    exact h.step hb hn

/-- **When the posts do not depend on what was in the memory**: two runs over the same
actors, on one schedule, differing in the time stamps their actors were constructed with,
post the same exactly if each actor is due for the first time at the same visit of the
scan. -/
theorem posts_eq_iff {is is' : List (Input A W)} {os' : List (A × ℤ)} {s' : ActorCore A W μ}
    (hrun : (machine mActorMap tickInterval).Run (launched ts : ActorCore A W μ) is os s)
    (hrun' : (machine mActorMap tickInterval).Run (launched ts' : ActorCore A W μ) is' os' s')
    (hsched : (machine mActorMap tickInterval).trace observe (launched ts : ActorCore A W μ) is = σ)
    (hsched' :
      (machine mActorMap tickInterval).trace observe (launched ts' : ActorCore A W μ) is' = σ) :
    posts os s = posts os' s' ↔
      ∀ a : A, firstDue mActorMap tickInterval ts σ a =
        firstDue mActorMap tickInterval ts' σ a := by
  have hfollows := hsched ▸ follows_of_run hrun
  have hfollows' := hsched' ▸ follows_of_run hrun'
  rw [← hfollows.posts, ← hfollows'.posts]
  constructor
  · intro hposts a
    rw [← (head?_readings_replay a).1, ← (head?_readings_replay a).1, hposts]
  · intro hdue
    exact (same_replay hdue).posts

/-- One actor with an interval of 100, the clock reading 1000: whether its memory held 0 or
500, it is due, and posted once. -/
theorem posts_eq_once :
    ∃ s s' : ActorCore Unit Unit Unit, ∃ os os',
      (machine [()] fun _ => 100).Run (launched fun _ => 0)
        [.now 1000, .readyTick, .setTicking, .setLastTickTimestamp, .post, .endScan] os s ∧
      (machine [()] fun _ => 100).Run (launched fun _ => 500)
        [.now 1000, .readyTick, .setTicking, .setLastTickTimestamp, .post] os' s' ∧
      posts os s = posts os' s' ∧ os = [((), 1000)] := by
  obtain ⟨s, s', os, os', hrun, hrun', hos⟩ : ∃ s s' : ActorCore Unit Unit Unit, ∃ os os',
      (machine [()] fun _ => 100).Run (launched fun _ => 0)
        [.now 1000, .readyTick, .setTicking, .setLastTickTimestamp, .post, .endScan] os s ∧
      (machine [()] fun _ => 100).Run (launched fun _ => 500)
        [.now 1000, .readyTick, .setTicking, .setLastTickTimestamp, .post] os' s' ∧
      os = [((), 1000)] :=
    ⟨_, _, _, _, run_iff_exec.mpr rfl, run_iff_exec.mpr rfl, rfl⟩
  have hdue : ∀ a : Unit, firstDue [()] (fun _ => 100) (fun _ => 0) [.reading 1000, .visit] a =
      firstDue [()] (fun _ => 100) (fun _ => 500) [.reading 1000, .visit] a := by decide
  exact ⟨s, s', os, os', hrun, hrun', (posts_eq_iff hrun hrun' rfl rfl).mpr hdue, hos⟩

/-- **What was in the memory decides the first post**: on one schedule, an actor that was
never ticked is posted at the reading 50 if its memory held −1000, and not if it
held 0. -/
theorem posts_differ :
    ∃ s s' : ActorCore Unit Unit Unit, ∃ os os' is is',
      (machine [()] fun _ => 100).Run (launched fun _ => 0) is os s ∧
      (machine [()] fun _ => 100).Run (launched fun _ => -1000) is' os' s' ∧
      (machine [()] fun _ => 100).trace observe
          (launched fun _ => 0 : ActorCore Unit Unit Unit) is =
        (machine [()] fun _ => 100).trace observe
          (launched fun _ => -1000 : ActorCore Unit Unit Unit) is' ∧
      s.scan.decided = [] ∧ s'.scan.decided = [] ∧ os = [] ∧ os' = [((), 50)] :=
  ⟨_, _, _, _, [.now 50, .readyTick, .endScan],
    [.now 50, .readyTick, .setTicking, .setLastTickTimestamp, .post, .endScan],
    run_iff_exec.mpr rfl, run_iff_exec.mpr rfl, rfl, rfl, rfl, rfl, rfl⟩

end ActorCore

end Xsix

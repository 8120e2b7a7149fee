import Xsix.Library.Machine

/-!
First-in first-out histories.

A history of a queue is a list of events, each accepting or releasing a batch of
elements. `Legal q es p` says that a queue holding `q` can go through `es` and
end up holding `p`: what is released is always the front of what is held.

* `Legal.conservation`: everything held or accepted is released, in order, or
  still held.
* `accepted_flatMap`, `released_flatMap`: the batches of a list of records.
* `Machine.Run.legal`: a machine whose every step is legal for a view of its
  state has only legal histories. This is the form in which an implementation is
  shown to be a linearizable queue: each atomic step is explained by the queue
  events it stands for.
-/

namespace Fifo

variable {α : Type*}

/-- What a queue does in one atomic step: take in a batch at the back, or give
one out at the front. -/
inductive Event (α : Type*) where
  | accept (xs : List α)
  | release (xs : List α)
  deriving DecidableEq, Repr

/-- Everything accepted in a history, in order. -/
def accepted : List (Event α) → List α
  | [] => []
  | .accept xs :: es => xs ++ accepted es
  | .release _ :: es => accepted es

/-- Everything released in a history, in order. -/
def released : List (Event α) → List α
  | [] => []
  | .accept _ :: es => released es
  | .release xs :: es => xs ++ released es

/-- A queue that holds `q` can go through the history `es` and then holds `p`. -/
def Legal : List α → List (Event α) → List α → Prop
  | q, [], p => q = p
  | q, .accept xs :: es, p => Legal (q ++ xs) es p
  | q, .release xs :: es, p => ∃ r, q = xs ++ r ∧ Legal r es p

variable {q p : List α} {es fs : List (Event α)}

@[simp] lemma accepted_append : accepted (es ++ fs) = accepted es ++ accepted fs := by
  induction es with
  | nil => rfl
  | cons e es ih => cases e <;> simp [accepted, ih]

@[simp] lemma released_append : released (es ++ fs) = released es ++ released fs := by
  induction es with
  | nil => rfl
  | cons e es ih => cases e <;> simp [released, ih]

/-- The elements that a list of records accepts, added up record by record. -/
lemma accepted_flatMap {β : Type*} {f : β → List (Event α)} {g : List β → List α}
    (hnil : g [] = []) (hcons : ∀ o os, g (o :: os) = accepted (f o) ++ g os) (os : List β) :
    accepted (os.flatMap f) = g os := by
  induction os with
  | nil => exact hnil.symm
  | cons o os ih => rw [List.flatMap_cons, accepted_append, ih, hcons]

lemma released_flatMap {β : Type*} {f : β → List (Event α)} {g : List β → List α}
    (hnil : g [] = []) (hcons : ∀ o os, g (o :: os) = released (f o) ++ g os) (os : List β) :
    released (os.flatMap f) = g os := by
  induction os with
  | nil => exact hnil.symm
  | cons o os ih => rw [List.flatMap_cons, released_append, ih, hcons]

/-- Legal histories compose at the state between them. -/
lemma legal_append_iff : Legal q (es ++ fs) p ↔ ∃ r, Legal q es r ∧ Legal r fs p := by
  induction es generalizing q with
  | nil => simp [Legal]
  | cons e es ih =>
      cases e with
      | accept xs => simpa [Legal] using ih
      | release xs =>
          constructor
          · rintro ⟨r, rfl, h⟩
            obtain ⟨v, hv, hp⟩ := ih.mp h
            exact ⟨v, ⟨r, rfl, hv⟩, hp⟩
          · rintro ⟨v, ⟨r, rfl, hv⟩, hp⟩
            exact ⟨r, rfl, ih.mpr ⟨v, hv, hp⟩⟩

/-- **Conservation.** What was held or accepted is what was released followed by
what is held: no element is lost, duplicated or overtaken. -/
theorem Legal.conservation (h : Legal q es p) : q ++ accepted es = released es ++ p := by
  induction es generalizing q with
  | nil => simpa [Legal, accepted, released] using h
  | cons e es ih =>
      cases e with
      | accept xs => simpa [accepted, released] using ih h
      | release xs =>
          obtain ⟨r, rfl, hr⟩ := h
          simp [accepted, released, ih hr]

/-- Elements may come in one by one. -/
lemma legal_accept_each (xs : List α) : Legal q (xs.map fun x => .accept [x]) (q ++ xs) := by
  induction xs generalizing q with
  | nil => simp [Legal]
  | cons x xs ih =>
      rw [List.map_cons, Legal]
      simpa using ih (q := q ++ [x])

/-- Elements at the front may go out one by one. -/
lemma legal_release_each (xs : List α) : Legal (xs ++ q) (xs.map fun x => .release [x]) q := by
  induction xs with
  | nil => simp [Legal]
  | cons x xs ih => exact ⟨xs ++ q, rfl, ih⟩

end Fifo

namespace Machine

open Fifo

variable {σ ι ω α : Type*} {M : Machine σ ι ω} {s t : σ} {is : List ι} {os : List ω}

/-- **The simulation rule of queues.** If every step of a machine is legal for
the queue `view` shows, reading the emitted events as queue events by `explain`,
then so is every run. `I` is an invariant the step lemma may use. -/
theorem Run.legal {I : σ → Prop} (view : σ → List α) (explain : ω → List (Event α))
    (h : M.Run s is os t) (hinit : I s)
    (hinv : ∀ t i u o, I t → M.next t i = some (u, o) → I u)
    (hstep : ∀ t i u o, I t → M.next t i = some (u, o) →
      Legal (view t) (o.flatMap explain) (view u)) :
    Legal (view s) (os.flatMap explain) (view t) := by
  have key : I t ∧ Legal (view s) (os.flatMap explain) (view t) :=
    h.invariant (I := fun os t => I t ∧ Legal (view s) (os.flatMap explain) (view t))
      ⟨hinit, rfl⟩ fun os t i u o hI hn => by
        refine ⟨hinv t i u o hI.1 hn, ?_⟩
        rw [List.flatMap_append, legal_append_iff]
        exact ⟨view t, hI.2, hstep t i u o hI.1 hn⟩
  exact key.2

end Machine

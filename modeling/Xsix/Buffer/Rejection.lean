import Xsix.Buffer.Safety

/-!
Calls that should be refused, and which of them are.

`Rejected` lists the calls a buffer has to refuse: a null pointer, a size that is not
positive, a `skip` past the content, an `append` for which `resize` refuses to grow. A call is
`Declined` when it answers zero or `false`, touches no memory and leaves every member as it
was. `append` and `skip` test `size <= 0`, `write_to` and `peek` only `size == 0`; so a
rejected call is declined unless it is an `Overrun` (`declined_iff`), and a run declines all
it should exactly when none of its calls is one: `run_declines_iff`.
-/

namespace Xsix

open CInt Memory
open List (forall_mem_append forall_mem_singleton)

namespace Buffer

variable {b b₀ : Buffer} {c : Call} {n : ℤ}

/-- The calls a buffer has to refuse. -/
def Rejected (b : Buffer) : Call → Prop
  | .append fresh src n => src = none ∨ n.toInt ≤ 0 ∨
      b.getFreeSize < n.toInt ∧
        ∃ g, b.resize fresh (int32 (b.length + n.toInt)) = some g ∧ g.ret = false
  | .writeTo dst n => dst = none ∨ n.toInt ≤ 0
  | .peek dst n => dst = none ∨ n.toInt ≤ 0
  | .skip n => n.toInt ≤ 0 ∨ b.length < n.toInt
  | .clear => False
  | .retrieveAllAsString => False

/-- What a call that is refused answers: zero, with the array of the caller as it was, or
`false`. -/
def Refusal : Call → Answer → Prop
  | .append _ _ _, a => a = .count 0
  | .writeTo dst _, a => a = .delivered 0 dst
  | .peek dst _, a => a = .delivered 0 dst
  | .skip _, a => a = .flag false
  | _, _ => False

/-- The call was refused: it says so, no memory was read or written and the members are as
they were. -/
structure Declined (e : Event) : Prop where
  answer : Refusal e.call e.done.ret
  touched : e.done.touched = []
  unchanged : e.done.self = e.before

/-! ### One call -/

/-- A growth that is refused has changed nothing. -/
lemma resize_refused {fresh : Bytes} {g : Done Bool} (hg : b.resize fresh n = some g)
    (hret : g.ret = false) : g = ⟨false, b, []⟩ := by
  rcases resize_cases hg with h | ⟨-, rfl⟩ | ⟨m, -, -, -, rfl⟩
  · exact h
  · simp at hret
  · simp at hret

/-- Copying out touches memory, whatever the size. -/
lemma copyOut_touched_ne_nil (b : Buffer) (limit : ℤ) (dst : Bytes) (n : ℤ) :
    (b.copyOut limit dst n).2 ≠ [] := by
  simp only [copyOut]
  split_ifs <;> simp [load]

/-- A rejected call of `append` is declined. -/
lemma append_declined {fresh : Bytes} {src : Option Bytes} {n : Int32}
    (h : Rejected b (.append fresh src n)) : b.append fresh src n.toInt = some ⟨0, b, []⟩ := by
  rcases h with rfl | hn | ⟨hfree, g, hg, hret⟩
  · rfl
  · cases src with
    | none => rfl
    | some s => rw [append, if_pos hn]
  · cases src with
    | none => rfl
    | some s =>
        by_cases hn : n.toInt ≤ 0
        · rw [append, if_pos hn]
        · obtain rfl := resize_refused hg hret
          simp only [append, if_neg hn, if_pos hfree, hg, Bool.false_eq_true, if_false]

/-- A rejected call of `skip` is declined. -/
lemma skip_declined {n : Int32} (h : Rejected b (.skip n)) :
    b.skip n.toInt = ⟨false, b, []⟩ := by
  rw [skip]
  rcases h with hn | hlt
  · rw [if_pos hn]
  · by_cases hn : n.toInt ≤ 0
    · rw [if_pos hn]
    · rw [if_neg hn, if_pos hlt]

/-- A rejected call of `write_to` or `peek` that is not declined is an overrun: the pointer
is good, there is something to read and the size is negative. -/
lemma overrun_iff_of_rejected {dst : Option Bytes} {n : ℤ} (h : dst = none ∨ n ≤ 0) :
    (dst = none ∨ n = 0 ∨ b.empty = true) ↔ ¬(dst.isSome ∧ n < 0 ∧ b.empty = false) := by
  cases dst with
  | none => simp
  | some m =>
      have hn : n ≤ 0 := h.resolve_left (by simp)
      cases b.empty with
      | true => simp
      | false =>
          simp only [reduceCtorEq, Bool.false_eq_true, or_false, false_or, Option.isSome_some,
            and_true, true_and]
          omega

/-- **A rejected call returns, and is declined unless it is an overrun.** -/
lemma declined_iff (h : Rejected b c) :
    ∃ d, b.call c = some d ∧ (Declined ⟨b, c, d⟩ ↔ ¬Overrun b c) := by
  cases c with
  | append fresh src n =>
      have hcall : b.call (.append fresh src n) = some ⟨.count 0, b, []⟩ := by
        rw [call, append_declined h]
        rfl
      exact ⟨_, hcall, fun _ => id, fun _ => ⟨rfl, rfl, rfl⟩⟩
  | writeTo dst n =>
      refine ⟨_, rfl, ?_⟩
      rw [show ¬Overrun b (.writeTo dst n) ↔ (dst = none ∨ n.toInt = 0 ∨ b.empty = true) from
        (overrun_iff_of_rejected h).symm]
      rcases deliver_cases b dst n.toInt with ⟨hnot, hw, -⟩ | ⟨m, k, rfl, hne, hempty, -, hw, -⟩
      · simp only [hw, hnot, iff_true]
        exact ⟨rfl, rfl, rfl⟩
      · have hnot : ¬(some m = none ∨ n.toInt = 0 ∨ b.empty = true) := by simp [hne, hempty]
        rw [iff_false_right hnot]
        intro hd
        have htouched := hd.touched
        simp [hw] at htouched
  | peek dst n =>
      refine ⟨_, rfl, ?_⟩
      rw [show ¬Overrun b (.peek dst n) ↔ (dst = none ∨ n.toInt = 0 ∨ b.empty = true) from
        (overrun_iff_of_rejected h).symm]
      rcases deliver_cases b dst n.toInt with ⟨hnot, -, hp⟩ | ⟨m, k, rfl, hne, hempty, -, -, hp⟩
      · simp only [hp, hnot, iff_true]
        exact ⟨rfl, rfl, rfl⟩
      · have hnot : ¬(some m = none ∨ n.toInt = 0 ∨ b.empty = true) := by simp [hne, hempty]
        rw [iff_false_right hnot]
        intro hd
        have htouched := hd.touched
        simp only [hp] at htouched
        exact copyOut_touched_ne_nil b n.toInt m k htouched
  | skip n =>
      refine ⟨_, rfl, fun _ => id, fun _ => ?_⟩
      simp only [skip_declined h]
      exact ⟨rfl, rfl, rfl⟩
  | clear => exact h.elim
  | retrieveAllAsString => exact h.elim

/-- An overrun is a call that should have been refused. -/
lemma Overrun.rejected (h : Overrun b c) : Rejected b c := by
  cases c with
  | writeTo dst n => exact Or.inr h.2.1.le
  | peek dst n => exact Or.inr h.2.1.le
  | append fresh src n => exact h.elim
  | skip n => exact h.elim
  | clear => exact h.elim
  | retrieveAllAsString => exact h.elim

/-! ### Runs -/

/-- Every event of a run is a call made on the buffer it names. -/
lemma run_forall_call {cs : List Call} {os : List Event} (hrun : machine.Run b₀ cs os b) :
    ∀ e ∈ os, e.before.call e.call = some e.done := by
  refine (hrun.forall_events (I := fun _ => True) (C := fun _ => True) (fun _ _ => trivial)
    trivial fun t c u o _ hn _ => ⟨trivial, ?_⟩).2
  obtain ⟨d, hd, rfl, rfl⟩ := machine_next hn
  exact forall_mem_singleton.mpr hd

/-- **Rejected calls are declined exactly in the absence of overruns.** Along any run every
call that should be refused is declined if and only if none passes a negative size, with a
good pointer, to `write_to` or `peek` of a buffer that is not empty; and in the state a run
reaches every call that should be refused returns, declined unless it is such a call. -/
theorem run_declines_iff {cs : List Call} {os : List Event} (hrun : machine.Run b₀ cs os b) :
    ((∀ e ∈ os, Rejected e.before e.call → Declined e) ↔
      ∀ e ∈ os, ¬Overrun e.before e.call) ∧
    ∀ c, Rejected b c → ∃ d, b.call c = some d ∧ (Declined ⟨b, c, d⟩ ↔ ¬Overrun b c) := by
  have hevent : ∀ e ∈ os, Rejected e.before e.call →
      (Declined e ↔ ¬Overrun e.before e.call) := by
    intro e he hrej
    obtain ⟨d, hd, hiff⟩ := declined_iff hrej
    obtain rfl : d = e.done := Option.some.inj (hd.symm.trans (run_forall_call hrun e he))
    exact hiff
  refine ⟨⟨fun h e he hover => ?_, fun h e he hrej => ?_⟩, fun c hrej => declined_iff hrej⟩
  · exact (hevent e he hover.rejected).mp (h e he hover.rejected) hover
  · exact (hevent e he hrej).mpr (h e he)

/-- A `skip` past the content of a new buffer, and a `write_to` of minus one byte. -/
theorem run_declines_iff_skip :
    ∃ d₀ os b, construct (.ofSize (fun _ => 0) 64) = some d₀ ∧
      machine.Run d₀.self [.skip 3, .writeTo (some fun _ => 0) (-1)] os b ∧
      ∀ e ∈ os, Rejected e.before e.call → Declined e := by
  obtain ⟨d₀, hbuilt, os, b, hrun, hgood⟩ : ∃ d₀, construct (.ofSize (fun _ => 0) 64) = some d₀ ∧
      ∃ os b, machine.Run d₀.self [.skip 3, .writeTo (some fun _ => 0) (-1)] os b ∧
        ∀ e ∈ os, ¬Overrun e.before e.call := by
    refine ⟨_, rfl, _, _, Machine.run_iff_exec.mpr rfl, ?_⟩
    exact List.forall_mem_cons.mpr ⟨id, forall_mem_singleton.mpr fun hover =>
      absurd hover.2.2 (by decide)⟩
  exact ⟨d₀, os, b, hbuilt, hrun, (run_declines_iff hrun).1.mpr hgood⟩

/-- **A negative size is not refused**: `write_to` of minus one byte on a buffer that holds
one reads its memory, answers minus one and moves the head. -/
theorem write_to_negative_accepted :
    ∃ d₀ os b d, construct (.ofSize (fun _ => 0) 64) = some d₀ ∧
      machine.Run d₀.self [.append (fun _ => 0) (some fun _ => 120) 1] os b ∧
      Rejected b (.writeTo (some fun _ => 0) (-1)) ∧
      b.call (.writeTo (some fun _ => 0) (-1)) = some d ∧
      d.touched ≠ [] ∧ d.self.mHead ≠ b.mHead ∧
      ¬Declined ⟨b, .writeTo (some fun _ => 0) (-1), d⟩ := by
  refine ⟨_, _, _, _, rfl, Machine.run_iff_exec.mpr rfl, Or.inr (by decide), rfl, ?_, ?_, ?_⟩
  · exact List.cons_ne_nil _ _
  · decide
  · intro hd
    exact List.cons_ne_nil _ _ hd.touched

end Buffer

end Xsix

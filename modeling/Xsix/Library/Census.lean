import Mathlib.Tactic

/-!
How many parties of a system are in a given condition.

The parties are the elements of a finite type, each with a status. A step of one
party changes the count by what that party contributed before and after
(`census_update`), which is all an invariant that counts parties needs.
-/

namespace Census

variable {γ β : Type*} [Fintype γ] {p : β → Prop} [DecidablePred p] {f : γ → β} {c : γ} {b : β}

/-- The number of parties whose status satisfies `p`. -/
def census (p : β → Prop) [DecidablePred p] (f : γ → β) : ℕ :=
  (Finset.univ.filter fun c => p (f c)).card

lemma census_eq_sum : census p f = ∑ c, if p (f c) then 1 else 0 := by
  rw [census, Finset.card_filter]

lemma census_pos_iff : 0 < census p f ↔ ∃ c, p (f c) := by
  simp [census, Finset.card_pos, Finset.filter_nonempty_iff]

lemma census_eq_zero_iff : census p f = 0 ↔ ∀ c, ¬ p (f c) := by
  simp [census, Finset.filter_eq_empty_iff]

/-- **The step of one party** changes the count at that party alone. -/
lemma census_update [DecidableEq γ] :
    census p (Function.update f c b) + (if p (f c) then 1 else 0)
      = census p f + (if p b then 1 else 0) := by
  have hrest : ∑ d ∈ Finset.univ.erase c, (if p (Function.update f c b d) then 1 else 0)
      = ∑ d ∈ Finset.univ.erase c, if p (f d) then 1 else 0 := by
    refine Finset.sum_congr rfl fun d hd => ?_
    rw [Function.update_of_ne (Finset.ne_of_mem_erase hd)]
  have hupdated : census p (Function.update f c b)
      = (if p b then 1 else 0) + ∑ d ∈ Finset.univ.erase c, if p (f d) then 1 else 0 := by
    rw [census_eq_sum, ← Finset.add_sum_erase _ _ (Finset.mem_univ c), hrest,
      Function.update_self]
  have hbefore : census p f
      = (if p (f c) then 1 else 0) + ∑ d ∈ Finset.univ.erase c, if p (f d) then 1 else 0 := by
    rw [census_eq_sum, ← Finset.add_sum_erase _ _ (Finset.mem_univ c)]
  omega

end Census

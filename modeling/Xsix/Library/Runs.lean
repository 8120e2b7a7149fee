import Mathlib.Tactic

/-!
Maximal runs of a predicate on positions, listed from left to right.

* `MaximalRun P a b`: the positions from `a` up to `b` have `P`, and neither the position
  before them nor the one after them has.
* `Listed P n ps`: `ps` lists the maximal runs at or after `n`, as a scan meets them.
* `Listed.mem_iff`, `Listed.pairwise`: what is listed is every maximal run from `n` on and
  nothing else, from left to right and apart.
* `Listed.flatten_extract`: cut out of a list, the runs of `p` put together are the elements
  with `p`.
-/

namespace Runs

variable {P : ℕ → Prop} {n a b c d : ℕ} {ps : List (ℕ × ℕ)}

/-- The positions from `a` up to `b` are a maximal run of `P`. -/
structure MaximalRun (P : ℕ → Prop) (a b : ℕ) : Prop where
  lt : a < b
  holds : ∀ i, a ≤ i → i < b → P i
  start : a = 0 ∨ ¬P (a - 1)
  stop : ¬P b

/-- Two maximal runs that meet are one. -/
lemma MaximalRun.eq_of_overlap (h : MaximalRun P a b) (h' : MaximalRun P c d) (hac : a ≤ c)
    (hcb : c < b) : c = a ∧ d = b := by
  have hc : c = a := by
    by_contra hne
    rcases h'.start with h0 | hbefore
    · omega
    · exact hbefore (h.holds _ (by omega) (by omega))
  refine ⟨hc, ?_⟩
  have hdb : ¬d < b := fun hlt => h'.stop (h.holds d (by have := h'.lt; omega) hlt)
  have hbd : ¬b < d := fun hlt => h.stop (h'.holds b (by omega) hlt)
  omega

/-- `ps` lists the maximal runs of `P` at or after `n`, in the order a scan from `n` meets
them: the positions it skips do not have `P`. -/
inductive Listed (P : ℕ → Prop) : ℕ → List (ℕ × ℕ) → Prop
  | nil {n : ℕ} : (∀ i, n ≤ i → ¬P i) → Listed P n []
  | cons {n a b : ℕ} {ps : List (ℕ × ℕ)} : n ≤ a → (∀ i, n ≤ i → i < a → ¬P i) →
      MaximalRun P a b → Listed P b ps → Listed P n ((a, b) :: ps)

/-- What a scan from `n` lists are the maximal runs that start at `n` or later. -/
lemma Listed.mem_iff (h : Listed P n ps) :
    (c, d) ∈ ps ↔ n ≤ c ∧ MaximalRun P c d := by
  induction h with
  | nil hnone =>
      constructor
      · intro hmem
        simp at hmem
      · rintro ⟨hnc, hrun⟩
        exact absurd (hrun.holds c le_rfl hrun.lt) (hnone c hnc)
  | @cons n a b ps hna hskip hrun _ ih =>
      rw [List.mem_cons, ih, Prod.mk.injEq]
      constructor
      · rintro (⟨rfl, rfl⟩ | ⟨hbc, hrun'⟩)
        · exact ⟨hna, hrun⟩
        · exact ⟨hna.trans (hrun.lt.le.trans hbc), hrun'⟩
      · rintro ⟨hnc, hrun'⟩
        have hac : a ≤ c := by
          by_contra hlt
          exact hskip c hnc (by omega) (hrun'.holds c le_rfl hrun'.lt)
        by_cases hcb : c < b
        · exact Or.inl (hrun.eq_of_overlap hrun' hac hcb)
        · exact Or.inr ⟨by omega, hrun'⟩

/-- The runs are listed from left to right, with a gap between any two. -/
lemma Listed.pairwise (h : Listed P n ps) : ps.Pairwise fun q r => q.2 < r.1 := by
  induction h with
  | nil _ => exact List.Pairwise.nil
  | @cons n a b ps _ _ hrun hrest ih =>
      refine List.pairwise_cons.mpr ⟨?_, ih⟩
      rintro ⟨c, d⟩ hmem
      obtain ⟨hbc, hrun'⟩ := hrest.mem_iff.mp hmem
      have hne : b ≠ c := fun heq => hrun.stop (heq ▸ hrun'.holds c le_rfl hrun'.lt)
      exact lt_of_le_of_ne hbc hne

/-! ### Runs of elements of a list -/

section Lists

variable {α : Type*} {p : α → Bool} {xs : List α}

/-- The list has an element with `p` at position `i`. -/
def At (p : α → Bool) (xs : List α) (i : ℕ) : Prop := xs[i]?.any p = true

lemma at_iff {i : ℕ} : At p xs i ↔ ∃ h : i < xs.length, p xs[i] = true := by
  by_cases h : i < xs.length
  · simp [At, h]
  · simp [At, h]

/-- A run of elements of a list ends within it. -/
lemma MaximalRun.le_length (h : MaximalRun (At p xs) a b) : b ≤ xs.length := by
  have hlt := h.lt
  obtain ⟨hlast, -⟩ := at_iff.mp (h.holds (b - 1) (by omega) (by omega))
  omega

/-- The elements of a slice are those at the positions it covers. -/
lemma mem_extract_iff {x : α} :
    x ∈ xs.extract a b ↔ ∃ i, a ≤ i ∧ i < b ∧ xs[i]? = some x := by
  rw [List.extract_eq_take_drop, List.mem_iff_getElem?]
  constructor
  · rintro ⟨k, hk⟩
    rw [List.getElem?_take] at hk
    split at hk
    · next hlt => exact ⟨a + k, by omega, by omega, by rwa [List.getElem?_drop] at hk⟩
    · simp at hk
  · rintro ⟨i, hai, hib, hx⟩
    refine ⟨i - a, ?_⟩
    rw [List.getElem?_take, if_pos (by omega), List.getElem?_drop, Nat.add_sub_cancel' hai, hx]

/-- Every element of a run of `p` has `p`. -/
lemma MaximalRun.forall_mem_extract (h : MaximalRun (At p xs) a b) :
    ∀ x ∈ xs.extract a b, p x = true := by
  intro x hx
  obtain ⟨i, hai, hib, hget⟩ := mem_extract_iff.mp hx
  have hat := h.holds i hai hib
  rwa [At, hget] at hat

lemma MaximalRun.extract_ne_nil (h : MaximalRun (At p xs) a b) : xs.extract a b ≠ [] := by
  have hlen : (xs.extract a b).length = b - a := by
    rw [List.extract_eq_take_drop, List.length_take, List.length_drop]
    have := h.le_length
    omega
  intro hnil
  rw [hnil, List.length_nil] at hlen
  have := h.lt
  omega

/-- What is left of a list from `n` on, cut at `a`. -/
lemma drop_eq_extract_append (h : n ≤ a) : xs.drop n = xs.extract n a ++ xs.drop a := by
  rw [List.extract_eq_take_drop]
  calc xs.drop n = (xs.drop n).take (a - n) ++ (xs.drop n).drop (a - n) :=
        (List.take_append_drop _ _).symm
    _ = (xs.drop n).take (a - n) ++ xs.drop a := by
        rw [List.drop_drop, Nat.add_sub_cancel' h]

/-- Positions without `p` are cut out as elements that a filter drops. -/
lemma filter_extract_eq_nil (h : ∀ i, n ≤ i → i < a → ¬At p xs i) :
    (xs.extract n a).filter p = [] := by
  refine List.filter_eq_nil_iff.mpr fun x hx hp => ?_
  obtain ⟨i, hni, hia, hget⟩ := mem_extract_iff.mp hx
  exact h i hni hia (by rw [At, hget]; exact hp)

/-- **The runs put together.** Cut out of the list and joined, the runs of `p` from `n` on
are the elements with `p` from `n` on. -/
lemma Listed.flatten_extract (h : Listed (At p xs) n ps) :
    (ps.map fun q => xs.extract q.1 q.2).flatten = (xs.drop n).filter p := by
  induction h with
  | @nil n hnone =>
      have hdrop : xs.drop n = xs.extract n xs.length := by
        rw [List.extract_eq_take_drop, List.take_of_length_le (by simp)]
      rw [hdrop, filter_extract_eq_nil fun i hi _ => hnone i hi]
      simp
  | @cons n a b ps hna hskip hrun _ ih =>
      have hkept : (xs.extract a b).filter p = xs.extract a b :=
        List.filter_eq_self.mpr hrun.forall_mem_extract
      calc (((a, b) :: ps).map fun q => xs.extract q.1 q.2).flatten
          = xs.extract a b ++ (xs.drop b).filter p := by
            rw [List.map_cons, List.flatten_cons, ih]
        _ = (xs.extract n a ++ (xs.extract a b ++ xs.drop b)).filter p := by
            rw [List.filter_append, List.filter_append, filter_extract_eq_nil hskip, hkept,
              List.nil_append]
        _ = (xs.drop n).filter p := by
            rw [← drop_eq_extract_append hrun.lt.le, ← drop_eq_extract_append hna]

end Lists

end Runs

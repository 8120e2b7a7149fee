import Mathlib.Tactic
import Mathlib.Order.Bounds.Basic

/-!
Rounding up to a member of a set, and the tables that are searched for it.

* `IsCeiling`: the least member from an element on. It grows with the element
  (`IsCeiling.mono`), is the element itself for the members (`IsCeiling.eq_self_iff`), and is
  also the ceiling in a larger set if no member of that comes before it
  (`IsCeiling.of_subset_iff`).
* `isCeiling_of_find?`: the first entry of an ascending table from an element on.
-/

namespace Ceiling

variable {α : Type*} [LinearOrder α] {S T : Set α} {a b c d : α} {xs : List α}

/-- `b` is the least member of `S` from `a` on. -/
def IsCeiling (S : Set α) (a b : α) : Prop := IsLeast {x | x ∈ S ∧ a ≤ x} b

lemma IsCeiling.mem (h : IsCeiling S a b) : b ∈ S := h.1.1

lemma IsCeiling.le (h : IsCeiling S a b) : a ≤ b := h.1.2

lemma IsCeiling.le_of_mem (h : IsCeiling S a b) (hc : c ∈ S) (hle : a ≤ c) : b ≤ c := h.2 ⟨hc, hle⟩

lemma isCeiling_self (h : a ∈ S) : IsCeiling S a a := ⟨⟨h, le_rfl⟩, fun _ hx => hx.2⟩

lemma IsCeiling.mono (h : IsCeiling S a b) (h' : IsCeiling S c d) (hle : a ≤ c) : b ≤ d :=
  h.le_of_mem h'.mem (hle.trans h'.le)

lemma IsCeiling.unique (h : IsCeiling S a b) (h' : IsCeiling S a c) : b = c := IsLeast.unique h h'

/-- The members are those that are not moved. -/
lemma IsCeiling.eq_self_iff (h : IsCeiling S a b) : b = a ↔ a ∈ S :=
  ⟨fun heq => heq ▸ h.mem, fun ha => h.unique (isCeiling_self ha)⟩

/-- In a larger set the ceiling is the same unless another member comes before it. -/
lemma IsCeiling.of_subset_iff (h : IsCeiling S a b) (hsub : S ⊆ T) :
    IsCeiling T a b ↔ ∀ x ∈ T, x ∉ S → a ≤ x → b ≤ x := by
  constructor
  · intro hT x hx _ hle
    exact hT.le_of_mem hx hle
  · intro hrest
    refine ⟨⟨hsub h.mem, h.le⟩, fun x hx => ?_⟩
    by_cases hxS : x ∈ S
    · exact h.le_of_mem hxS hx.2
    · exact hrest x hx.1 hxS hx.2

/-- **The first match in an ascending table** is the ceiling. -/
lemma isCeiling_of_find? (hasc : xs.Pairwise (· < ·)) (h : xs.find? (a ≤ ·) = some b) :
    IsCeiling {x | x ∈ xs} a b := by
  obtain ⟨hab, before, after, rfl, hbefore⟩ := List.find?_eq_some_iff_append.mp h
  refine ⟨⟨by simp, by simpa using hab⟩, ?_⟩
  rintro x ⟨hx, hax⟩
  rcases List.mem_append.mp hx with hx | hx
  · -- what comes before the match is below `a`
    exact absurd hax (by simpa using hbefore x hx)
  · rcases List.mem_cons.mp hx with rfl | hx
    · exact le_rfl
    · exact (List.rel_of_pairwise_cons (List.pairwise_append.mp hasc).2.1 hx).le

end Ceiling

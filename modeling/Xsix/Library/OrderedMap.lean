import Mathlib.Tactic

/-!
What an iteration over an ordered map meets.

The map is the balanced tree of the standard library; `elements` are its values in
the order of their keys. They are the values some key has (`mem_elements_iff`), and
each occurs once if no two keys share a value (`nodup_elements`).
-/

namespace OrderedMap

open Std

variable {κ ν : Type*} {cmp : κ → κ → Ordering} {t : TreeMap κ ν cmp} {v : ν}

/-- The values of a map, from the first key to the last. -/
def elements (t : TreeMap κ ν cmp) : List ν := t.toList.map Prod.snd

variable [TransCmp cmp] [LawfulEqCmp cmp]

lemma mem_elements_iff : v ∈ elements t ↔ ∃ k : κ, t[k]? = some v := by
  simp only [elements, List.mem_map, Prod.exists, exists_eq_right,
    TreeMap.mem_toList_iff_getElem?_eq_some]

/-- A value that no two keys share is met once. -/
lemma nodup_elements (h : ∀ (k k' : κ) (v : ν), t[k]? = some v → t[k']? = some v → k = k') :
    (elements t).Nodup := by
  have hkeys : t.toList.Nodup := by
    refine TreeMap.distinct_keys_toList.imp ?_
    rintro a b hne rfl
    exact hne ReflCmp.compare_self
  refine List.Nodup.map_on ?_ hkeys
  rintro ⟨k, v⟩ hk ⟨k', v'⟩ hk' heq
  obtain rfl : v = v' := heq
  rw [TreeMap.mem_toList_iff_getElem?_eq_some] at hk hk'
  rw [h k k' v hk hk']

end OrderedMap

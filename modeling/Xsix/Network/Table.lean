import Xsix.Network.Server

/-!
The connection table as a partial map from ids to connections.

* `ConnTable.Named`, `ConnTable.Keyed`: each entry is under the id of its connection;
  and below the next one.
* `Keyed.addConn`, `Keyed.handleRemoveConnection`, `Keyed.of_undisturbed`: the calls keep
  a table keyed, and named even where the ids run out; `mem_members_addConn`,
  `mem_members_handleRemoveConnection` say what they do to the members.
-/

namespace Xsix

open Std CInt OrderedMap

namespace ConnTable

variable {t u : ConnTable} {c d : ℕ} {k : ℤ}

/-- Each entry is under the id of its connection. -/
structure Named (t : ConnTable) : Prop where
  id : ∀ (k : ℤ) (c : ℕ), t.mTcpConnMap[k]? = some c → (t.conn c).mId = k
  known : ∀ (k : ℤ) (c : ℕ), t.mTcpConnMap[k]? = some c → c < t.created

/-- Each entry is under the id of its connection, and the ids of entries are those given
so far. -/
structure Keyed (t : ConnTable) : Prop extends Named t where
  range : ∀ (k : ℤ) (c : ℕ), t.mTcpConnMap[k]? = some c → 0 ≤ k ∧ k < t.mNextConnId
  next_nonneg : 0 ≤ t.mNextConnId

lemma getElem_built (k : ℤ) : built.mTcpConnMap[k]? = none := by simp [built]

lemma named_built : Named built := by
  refine ⟨?_, ?_⟩
  all_goals
    intro k c h
    rw [getElem_built] at h
    cases h

lemma keyed_built : Keyed built := by
  refine ⟨named_built, ?_, le_rfl⟩
  intro k c h
  rw [getElem_built] at h
  cases h

lemma mem_members_iff : c ∈ t.members ↔ ∃ k : ℤ, t.mTcpConnMap[k]? = some c := by
  rw [members, OrderedMap.mem_elements_iff]

lemma Named.nodup (h : Named t) : t.members.Nodup := by
  refine nodup_elements ?_
  intro k k' c hk hk'
  exact (h.id k c hk).symm.trans (h.id k' c hk')

/-- A member is found under its id. -/
lemma Named.getElem_id (h : Named t) (hc : c ∈ t.members) :
    t.mTcpConnMap[(t.conn c).mId]? = some c := by
  obtain ⟨k, hk⟩ := mem_members_iff.mp hc
  rwa [h.id k c hk]

lemma Named.lt_created (h : Named t) (hc : c ∈ t.members) : c < t.created :=
  h.known _ _ (h.getElem_id hc)

/-! ### Calls that leave the entries -/

/-- The entries, the next id and the ids of the connections that exist are the same. -/
structure Undisturbed (t u : ConnTable) : Prop where
  map : u.mTcpConnMap = t.mTcpConnMap
  next : u.mNextConnId = t.mNextConnId
  created : t.created ≤ u.created
  id : ∀ c < t.created, (u.conn c).mId = (t.conn c).mId

lemma Undisturbed.refl (t : ConnTable) : Undisturbed t t := ⟨rfl, rfl, le_rfl, fun _ _ => rfl⟩

/-- Opening or closing a socket leaves the entries. -/
lemma undisturbed_setOpen (t : ConnTable) (c : ℕ) (isOpen : Bool) :
    Undisturbed t (t.modify c (·.setOpen isOpen)) := by
  refine ⟨rfl, rfl, le_rfl, ?_⟩
  intro d _
  by_cases hd : d = c
  · subst hd
    simp [modify, TCPConnection.setOpen]
  · simp [modify, Function.update_of_ne hd]

/-- A connection that is constructed is not yet in the table. -/
lemma undisturbed_createNewConnection (t : ConnTable) : Undisturbed t t.createNewConnection := by
  refine ⟨rfl, rfl, Nat.le_succ _, ?_⟩
  intro d hd
  simp [createNewConnection, modify, Function.update_of_ne hd.ne]

lemma Undisturbed.members (h : Undisturbed t u) : u.members = t.members := by
  rw [ConnTable.members, ConnTable.members, h.map]

lemma Named.of_undisturbed (h : Named t) (hu : Undisturbed t u) : Named u := by
  refine ⟨?_, ?_⟩
  · intro k c hk
    rw [hu.map] at hk
    rw [hu.id c (h.known k c hk), h.id k c hk]
  · intro k c hk
    rw [hu.map] at hk
    exact (h.known k c hk).trans_le hu.created

lemma Keyed.of_undisturbed (h : Keyed t) (hu : Undisturbed t u) : Keyed u := by
  refine ⟨h.toNamed.of_undisturbed hu, ?_, ?_⟩
  · intro k c hk
    rw [hu.map] at hk
    rw [hu.next]
    exact h.range k c hk
  · rw [hu.next]
    exact h.next_nonneg

/-! ### `add_conn` -/

/-- Where the next id is taken, `add_conn` does nothing. -/
lemma addConn_taken (h : t.mTcpConnMap[t.mNextConnId]? ≠ none) : t.addConn (some c) = t := by
  obtain ⟨d, hd⟩ := Option.ne_none_iff_exists'.mp h
  simp only [addConn, hd]

/-- Where the next id is free, `add_conn` takes it. -/
lemma addConn_free (h : t.mTcpConnMap[t.mNextConnId]? = none) : t.addConn (some c) =
    { t.modify c (·.setId t.mNextConnId) with
      mNextConnId := int32 (t.mNextConnId + 1)
      mTcpConnMap := t.mTcpConnMap.insert t.mNextConnId c } := by
  simp [addConn, h, modify, TCPConnection.getId, TCPConnection.setId]

lemma addConn_getElem (h : t.mTcpConnMap[t.mNextConnId]? = none) :
    (t.addConn (some c)).mTcpConnMap[k]? =
      if k = t.mNextConnId then some c else t.mTcpConnMap[k]? := by
  rw [addConn_free h, TreeMap.getElem?_insert]
  simp only [LawfulEqCmp.compare_eq_iff_eq, eq_comm (a := k)]

lemma addConn_mId (h : t.mTcpConnMap[t.mNextConnId]? = none) :
    ((t.addConn (some c)).conn d).mId = if d = c then t.mNextConnId else (t.conn d).mId := by
  rw [addConn_free h]
  split_ifs with hd
  · subst hd
    simp [modify, TCPConnection.setId]
  · simp [modify, Function.update_of_ne hd]

lemma addConn_created : (t.addConn (some c)).created = t.created := by
  rw [addConn]
  split <;> rfl

/-- A connection that is not yet in the table may be added to it. -/
lemma Named.addConn (h : Named t) (hknown : c < t.created) (hc : c ∉ t.members) :
    Named (t.addConn (some c)) := by
  by_cases hfree : t.mTcpConnMap[t.mNextConnId]? = none
  · refine ⟨?_, ?_⟩
    · intro k d hk
      rw [addConn_getElem hfree] at hk
      rw [addConn_mId hfree]
      split_ifs at hk with hnew
      · obtain rfl := Option.some.inj hk
        rw [if_pos rfl, hnew]
      · have hdc : d ≠ c := by
          rintro rfl
          exact hc (mem_members_iff.mpr ⟨k, hk⟩)
        rw [if_neg hdc, h.id k d hk]
    · intro k d hk
      rw [addConn_getElem hfree] at hk
      rw [addConn_created]
      split_ifs at hk with hnew
      · obtain rfl := Option.some.inj hk
        exact hknown
      · exact h.known k d hk
  · rw [addConn_taken hfree]
    exact h

/-- The next id of a keyed table is free. -/
lemma Keyed.free (h : Keyed t) : t.mTcpConnMap[t.mNextConnId]? = none := by
  by_contra htaken
  obtain ⟨d, hd⟩ := Option.ne_none_iff_exists'.mp htaken
  exact (h.range _ _ hd).2.false

lemma Keyed.addConn_next (h : Keyed t) (hroom : t.mNextConnId < 2 ^ 31 - 1) :
    (t.addConn (some c)).mNextConnId = t.mNextConnId + 1 := by
  have hnonneg := h.next_nonneg
  rw [addConn_free h.free]
  exact int32_eq_self ⟨by omega, by omega⟩

/-- **`add_conn` puts a connection under an id that was not given before.** -/
lemma Keyed.addConn (h : Keyed t) (hroom : t.mNextConnId < 2 ^ 31 - 1) (hknown : c < t.created)
    (hc : c ∉ t.members) : Keyed (t.addConn (some c)) := by
  have hnonneg := h.next_nonneg
  refine ⟨h.toNamed.addConn hknown hc, ?_, ?_⟩
  · intro k d hk
    rw [addConn_getElem h.free] at hk
    rw [h.addConn_next hroom]
    split_ifs at hk with hnew
    · omega
    · have hrange := h.range k d hk
      omega
  · rw [h.addConn_next hroom]
    omega

lemma Keyed.mem_members_addConn (h : Keyed t) :
    d ∈ (t.addConn (some c)).members ↔ d = c ∨ d ∈ t.members := by
  rw [mem_members_iff, mem_members_iff]
  simp only [addConn_getElem h.free]
  constructor
  · rintro ⟨k, hk⟩
    split_ifs at hk with hnew
    · exact .inl (Option.some.inj hk).symm
    · exact .inr ⟨k, hk⟩
  · rintro (rfl | ⟨k, hk⟩)
    · exact ⟨t.mNextConnId, if_pos rfl⟩
    · have hold : k ≠ t.mNextConnId := (h.range k d hk).2.ne
      exact ⟨k, by rw [if_neg hold, hk]⟩

/-! ### `handle_remove_connection` -/

lemma removeConn_getElem (t : ConnTable) (id k : ℤ) : (t.removeConn id).mTcpConnMap[k]? =
    if k = id then none else t.mTcpConnMap[k]? := by
  cases hid : t.mTcpConnMap[id]? with
  | none =>
      simp only [removeConn, hid]
      split_ifs with hk
      · rw [hk, hid]
      · rfl
  | some d =>
      simp only [removeConn, hid]
      rw [TreeMap.getElem?_erase]
      simp only [LawfulEqCmp.compare_eq_iff_eq, eq_comm (a := k)]

lemma removeConn_conn (t : ConnTable) (id : ℤ) : (t.removeConn id).conn = t.conn := by
  unfold removeConn
  split <;> rfl

lemma removeConn_next (t : ConnTable) (id : ℤ) :
    (t.removeConn id).mNextConnId = t.mNextConnId := by
  unfold removeConn
  split <;> rfl

lemma removeConn_created (t : ConnTable) (id : ℤ) : (t.removeConn id).created = t.created := by
  unfold removeConn
  split <;> rfl

/-- Removing a connection leaves the other entries. -/
lemma getElem_of_handleRemoveConnection
    (hk : (t.handleRemoveConnection (some c)).mTcpConnMap[k]? = some d) :
    t.mTcpConnMap[k]? = some d := by
  rw [handleRemoveConnection, removeConn_getElem] at hk
  split_ifs at hk
  exact hk

lemma Named.handleRemoveConnection (h : Named t) :
    Named (t.handleRemoveConnection (some c)) := by
  refine ⟨?_, ?_⟩
  · intro k d hk
    rw [ConnTable.handleRemoveConnection, removeConn_conn]
    exact h.id k d (getElem_of_handleRemoveConnection hk)
  · intro k d hk
    rw [ConnTable.handleRemoveConnection, removeConn_created]
    exact h.known k d (getElem_of_handleRemoveConnection hk)

/-- **Removing a connection keeps the table keyed.** -/
lemma Keyed.handleRemoveConnection (h : Keyed t) :
    Keyed (t.handleRemoveConnection (some c)) := by
  refine ⟨h.toNamed.handleRemoveConnection, ?_, ?_⟩
  · intro k d hk
    rw [ConnTable.handleRemoveConnection, removeConn_next]
    exact h.range k d (getElem_of_handleRemoveConnection hk)
  · rw [ConnTable.handleRemoveConnection, removeConn_next]
    exact h.next_nonneg

/-- The connection that is removed, and no other, leaves the table. -/
lemma Named.mem_members_handleRemoveConnection (h : Named t) (hc : c ∈ t.members) :
    d ∈ (t.handleRemoveConnection (some c)).members ↔ d ≠ c ∧ d ∈ t.members := by
  rw [mem_members_iff]
  simp only [ConnTable.handleRemoveConnection, removeConn_getElem, TCPConnection.getId]
  constructor
  · rintro ⟨k, hk⟩
    split_ifs at hk with hid
    refine ⟨?_, mem_members_iff.mpr ⟨k, hk⟩⟩
    rintro rfl
    exact hid (h.id k d hk).symm
  · rintro ⟨hne, hd⟩
    have hdk := h.getElem_id hd
    refine ⟨(t.conn d).mId, ?_⟩
    rw [if_neg, hdk]
    intro hid
    rw [hid, h.getElem_id hc] at hdk
    exact hne (Option.some.inj hdk).symm

end ConnTable

end Xsix

import Xsix.Buffer.Capacity

/-!
Who frees the blocks of the buffers of a program.

A `buffer` gives its block back in `cleanup` and in `realloc`. It has the copy constructor of
the language, which copies the pointer: the buffer and its copy then hold one block. Here a
program builds, copies, uses and destroys any number of buffers in any order; blocks live in
a store, so that what one holder writes the other sees.

* `ledger_of_run`: each block is allocated once, and the pointers that are held or were freed
  are those allocated and those copied.
* `owned_once`: as long as no block is shared, each is held by one buffer or was freed once,
  and no pointer dangles.
* `freed_once_iff`: once all buffers are destroyed, no block was freed twice exactly when none
  was shared.
-/

namespace Xsix

open CInt Memory Machine

/-- The members of a `buffer`, with the address in `m_data`. -/
structure BufferObject where
  mData : Option ℕ
  mSize : ℤ
  mHead : ℤ
  mTail : ℤ
  mFull : Bool

/-- The blocks that are allocated, by the number of their allocation, and the buffers. -/
structure BufferStore where
  block : ℕ → Option Block
  next : ℕ
  objects : List BufferObject

namespace Buffer

/-- `resize` comes to `realloc`. -/
def reallocates (b : Buffer) (newsize : ℤ) : Bool :=
  isValidSize newsize && decide (b.size < newsize) &&
    (refixNewSize b.mSize newsize).any isValidSize

/-- What a call asks `resize` for. -/
def requested (b : Buffer) : Call → ℤ
  | .append _ _ n => int32 (b.length + n.toInt)
  | _ => 0

/-- The call comes to `realloc`. -/
def grows (b : Buffer) (c : Call) : Bool :=
  match c with
  | .append _ src n =>
      src.isSome && decide (0 < n.toInt) && decide (b.getFreeSize < n.toInt) &&
        b.reallocates (b.requested c)
  | _ => false

variable {b : Buffer} {c : Call} {n : ℤ} {fresh : Bytes}

lemma resize_of_reallocates (fresh : Bytes) (h : b.reallocates n = true) :
    ∃ m, 0 < m ∧ m ≤ bufferSizeMax ∧ b.mSize < n ∧ n ≤ bufferSizeMax ∧
      refixNewSize b.mSize n = some m ∧
      b.resize fresh n = some ⟨true, (b.realloc fresh m).1, (b.realloc fresh m).2⟩ := by
  simp only [reallocates, Bool.and_eq_true, decide_eq_true_eq, Option.any_eq_true] at h
  obtain ⟨⟨hvalid, hlt⟩, m, hm, hvalid'⟩ := h
  obtain ⟨hpos, hmax⟩ := isValidSize_iff.mp hvalid'
  refine ⟨m, hpos, hmax, hlt, (isValidSize_iff.mp hvalid).2, hm, ?_⟩
  simp [resize, hvalid, not_le.mpr hlt, hm, hvalid']

lemma reallocates_of_resize {g : Done Bool} (hg : b.resize fresh n = some g)
    (h : b.reallocates n = false) : g.self = b := by
  rcases resize_outcomes hg with rfl | ⟨hvalid, ⟨-, rfl⟩ | ⟨m, hlt, hm, hvalid', -⟩⟩
  · rfl
  · rfl
  · simp [reallocates, hvalid, hm, hvalid', size, hlt] at h

lemma appendInPlace_isSome (src : Bytes) :
    (b.appendInPlace src n).self.mData.isSome = b.mData.isSome := by
  simp only [appendInPlace, checkFullAfterAppend, appendCopy, store]
  split_ifs <;> simp

lemma realloc_isSome {m : ℤ} (hm : 0 < m) : (b.realloc fresh m).1.mData.isSome = true := by
  rw [realloc, if_neg (not_le.mpr hm)]
  rfl

/-- A call that comes to `realloc` leaves a new block, of the capacity that `refix_new_size`
came to. -/
lemma grows_spec {d : Done Answer} (hd : b.call c = some d) (hg : b.grows c = true) :
    d.self.mData.isSome = true ∧ b.mSize < b.requested c ∧ b.requested c ≤ bufferSizeMax ∧
      refixNewSize b.mSize (b.requested c) = some d.self.mSize ∧
      d.self.mSize ≤ bufferSizeMax := by
  cases c with
  | append fresh src n =>
      simp only [grows, Bool.and_eq_true, decide_eq_true_eq, Option.isSome_iff_exists] at hg
      obtain ⟨⟨⟨⟨s, rfl⟩, hpos⟩, hfree⟩, hresize⟩ := hg
      obtain ⟨m, hm, hmax, hlt, hvalid, hnew, hresize⟩ := resize_of_reallocates fresh hresize
      obtain ⟨a, ha, rfl⟩ := Option.map_eq_some_iff.mp hd
      simp only [requested] at hlt hvalid hnew hresize
      simp only [append, not_le.mpr hpos, hfree, hresize, if_true, if_false,
        Option.some.injEq] at ha
      subst ha
      have hsize : ((b.realloc fresh m).1.appendInPlace s n.toInt).self.mSize = m := by
        rw [(appendInPlace_members _ s n.toInt).1, realloc_mSize b fresh hm]
      refine ⟨by rw [appendInPlace_isSome, realloc_isSome hm], hlt, hvalid, ?_, ?_⟩
      · rw [hsize]
        exact hnew
      · rw [hsize]
        exact hmax
  | writeTo | peek | skip | clear | retrieveAllAsString => cases hg

/-- Any other call leaves the block there was, or none if there was none, and the capacity. -/
lemma not_grows_spec {d : Done Answer} (hd : b.call c = some d) (hg : b.grows c = false) :
    d.self.mData.isSome = b.mData.isSome ∧ d.self.mSize = b.mSize := by
  cases c with
  | append fresh src n =>
      obtain ⟨a, ha, rfl⟩ := Option.map_eq_some_iff.mp hd
      rcases append_cases ha with rfl | ⟨s, rfl, hpos, ⟨-, rfl⟩ | ⟨hfree, g, hresize, hcases⟩⟩
      · exact ⟨rfl, rfl⟩
      · exact ⟨appendInPlace_isSome s, (appendInPlace_members b s n.toInt).1⟩
      · have hkept : g.self = b := by
          refine reallocates_of_resize hresize ?_
          simpa [grows, requested, hpos, hfree] using hg
        rcases hcases with ⟨-, rfl⟩ | ⟨-, rfl⟩
        · rw [hkept]
          exact ⟨rfl, rfl⟩
        · rw [hkept]
          exact ⟨appendInPlace_isSome s, (appendInPlace_members b s n.toInt).1⟩
  | writeTo dst n =>
      obtain rfl := Option.some.inj hd
      rcases deliver_cases b dst n.toInt with ⟨-, hw, -⟩ | ⟨m, k, -, -, -, -, hw, -⟩
      · simp only [hw, and_self]
      · simp only [hw, advanceHead, checkFullAfterWriteto, and_self]
  | peek dst n =>
      obtain rfl := Option.some.inj hd
      rcases deliver_cases b dst n.toInt with ⟨-, -, hp⟩ | ⟨m, k, -, -, -, -, -, hp⟩
      · simp only [hp, and_self]
      · simp only [hp, and_self]
  | skip n =>
      obtain rfl := Option.some.inj hd
      simp only [skip]
      split_ifs <;> exact ⟨rfl, rfl⟩
  | clear =>
      obtain rfl := Option.some.inj hd
      exact ⟨rfl, rfl⟩
  | retrieveAllAsString =>
      obtain rfl := Option.some.inj hd
      simp only [retrieveAllAsString]
      split_ifs <;> exact ⟨rfl, rfl⟩

end Buffer

namespace BufferStore

open Buffer (Call Construction)

/-- What a buffer is to the functions of the class. A pointer to a block that was freed meets
nothing. -/
def view (s : BufferStore) (o : BufferObject) : Buffer :=
  ⟨o.mData.bind s.block, o.mSize, o.mHead, o.mTail, o.mFull⟩

/-- The members after a call, with the address in `m_data`. -/
def members (b : Buffer) (mData : Option ℕ) : BufferObject :=
  ⟨mData, b.mSize, b.mHead, b.mTail, b.mFull⟩

/-- The block at the address in `m_data` is changed, or freed. -/
def setBlock (s : BufferStore) (mData : Option ℕ) (d : Option Block) : ℕ → Option Block :=
  match mData with
  | none => s.block
  | some a => Function.update s.block a d

/-- What a program does with its buffers. -/
inductive Input where
  | build (how : Construction)
  | copy (k : ℕ)
  | call (k : ℕ) (c : Call)
  | destroy (k : ℕ)

/-- What is observed of the addresses. -/
inductive Event where
  | malloc (a : ℕ)
  | free (a : ℕ)
  | shared (a : ℕ)
  deriving DecidableEq

/-- The constructors. -/
def build (s : BufferStore) (how : Construction) : Option (BufferStore × List Event) :=
  (Buffer.construct how).map fun done =>
    if done.self.mData.isSome then
      (⟨Function.update s.block s.next done.self.mData, s.next + 1,
        s.objects ++ [members done.self (some s.next)]⟩, [.malloc s.next])
    else ({ s with objects := s.objects ++ [members done.self none] }, [])

/-- A call on the `k`-th buffer. `realloc` allocates before it frees. -/
def call (s : BufferStore) (k : ℕ) (o : BufferObject) (c : Call) :
    Option (BufferStore × List Event) :=
  ((s.view o).call c).map fun done =>
    if (s.view o).grows c then
      (⟨Function.update (s.setBlock o.mData none) s.next done.self.mData, s.next + 1,
        s.objects.set k (members done.self (some s.next))⟩,
        .malloc s.next :: o.mData.toList.map .free)
    else
      ({ s with
        block := s.setBlock o.mData done.self.mData
        objects := s.objects.set k (members done.self o.mData) }, [])

/-- Any program over buffers. -/
def machine : Machine BufferStore Input Event where
  next s
    | .build how => s.build how
    | .copy k =>
        s.objects[k]?.map fun o =>
          ({ s with objects := s.objects ++ [o] }, o.mData.toList.map .shared)
    | .call k c => s.objects[k]?.bind fun o => s.call k o c
    | .destroy k =>
        s.objects[k]?.map fun o =>
          ({ s with block := s.setBlock o.mData none, objects := s.objects.eraseIdx k },
            o.mData.toList.map .free)

def empty : BufferStore := ⟨fun _ => none, 0, []⟩

/-- What a step can be, by its effect. -/
inductive Step (s : BufferStore) : BufferStore → List Event → Prop
  | unbacked {b : BufferObject} (hb : b.mData = none) :
      Step s { s with objects := s.objects ++ [b] } []
  | built {b : BufferObject} {d : Option Block} (hb : b.mData = some s.next)
      (hd : d.isSome = true) :
      Step s ⟨Function.update s.block s.next d, s.next + 1, s.objects ++ [b]⟩ [.malloc s.next]
  | copied {k : ℕ} {b : BufferObject} (hk : s.objects[k]? = some b) :
      Step s { s with objects := s.objects ++ [b] } (b.mData.toList.map .shared)
  | grown {k : ℕ} {b b' : BufferObject} {d : Option Block} (hk : s.objects[k]? = some b)
      (hb : b'.mData = some s.next) (hd : d.isSome = true) :
      Step s ⟨Function.update (s.setBlock b.mData none) s.next d, s.next + 1,
        s.objects.set k b'⟩ (.malloc s.next :: b.mData.toList.map .free)
  | used {k : ℕ} {b b' : BufferObject} {d : Option Block} (hk : s.objects[k]? = some b)
      (hb : b'.mData = b.mData) (hd : d.isSome = (b.mData.bind s.block).isSome) :
      Step s { s with block := s.setBlock b.mData d, objects := s.objects.set k b' } []
  | destroyed {k : ℕ} {b : BufferObject} (hk : s.objects[k]? = some b) :
      Step s { s with block := s.setBlock b.mData none, objects := s.objects.eraseIdx k }
        (b.mData.toList.map .free)

/-! ### The ledger -/

/-- The addresses handed out. -/
def mallocs (os : List Event) : List ℕ :=
  os.filterMap fun
    | .malloc a => some a
    | _ => none

/-- The addresses given back. -/
def frees (os : List Event) : List ℕ :=
  os.filterMap fun
    | .free a => some a
    | _ => none

/-- The addresses copied. -/
def shares (os : List Event) : List ℕ :=
  os.filterMap fun
    | .shared a => some a
    | _ => none

/-- The addresses in the buffers. -/
def held (os : List BufferObject) : List ℕ := os.filterMap (·.mData)

variable {s u : BufferStore} {i : Input} {is : List Input} {o os : List Event} {a k : ℕ}
  {b b' : BufferObject} {l : List BufferObject} {d : Option Block}

@[simp] lemma mallocs_nil : mallocs [] = [] := rfl

@[simp] lemma frees_nil : frees [] = [] := rfl

@[simp] lemma shares_nil : shares [] = [] := rfl

@[simp] lemma mallocs_append : mallocs (os ++ o) = mallocs os ++ mallocs o :=
  List.filterMap_append

@[simp] lemma frees_append : frees (os ++ o) = frees os ++ frees o := List.filterMap_append

@[simp] lemma shares_append : shares (os ++ o) = shares os ++ shares o := List.filterMap_append

@[simp] lemma held_append {l' : List BufferObject} : held (l ++ l') = held l ++ held l' :=
  List.filterMap_append

lemma of_malloc : mallocs (.malloc a :: o) = a :: mallocs o ∧
    frees (.malloc a :: o) = frees o ∧ shares (.malloc a :: o) = shares o := ⟨rfl, rfl, rfl⟩

lemma of_frees (mData : Option ℕ) : mallocs (mData.toList.map .free) = [] ∧
    frees (mData.toList.map .free) = mData.toList ∧ shares (mData.toList.map .free) = [] := by
  cases mData <;> exact ⟨rfl, rfl, rfl⟩

lemma of_shares (mData : Option ℕ) : mallocs (mData.toList.map .shared) = [] ∧
    frees (mData.toList.map .shared) = [] ∧ shares (mData.toList.map .shared) = mData.toList := by
  cases mData <;> exact ⟨rfl, rfl, rfl⟩

@[simp] lemma held_singleton : held [b] = b.mData.toList := by
  cases hb : b.mData <;> simp [held, hb]

/-- The buffers but the `k`-th, and it. -/
lemma held_eraseIdx (hk : l[k]? = some b) :
    (held l).Perm (b.mData.toList ++ held (l.eraseIdx k)) := by
  obtain ⟨hlt, rfl⟩ := List.getElem?_eq_some_iff.mp hk
  have hperm := (List.getElem_cons_eraseIdx_perm hlt).symm.filterMap (·.mData)
  rwa [← List.singleton_append, List.filterMap_append, ← held, ← held, ← held, held_singleton]
    at hperm

lemma held_set (b' : BufferObject) (hk : l[k]? = some b) :
    (held (l.set k b')).Perm (b'.mData.toList ++ held (l.eraseIdx k)) := by
  obtain ⟨hlt, -⟩ := List.getElem?_eq_some_iff.mp hk
  have hperm := (List.set_perm_cons_eraseIdx hlt b').filterMap (·.mData)
  rwa [← List.singleton_append, List.filterMap_append, ← held, ← held, ← held, held_singleton]
    at hperm

lemma step_of_next (hn : machine.next s i = some (u, o)) : Step s u o := by
  cases i with
  | build how =>
      obtain ⟨done, -, heq⟩ := Option.map_eq_some_iff.mp hn
      split_ifs at heq with hd
      · obtain ⟨rfl, rfl⟩ := Prod.mk.inj heq
        exact .built rfl hd
      · obtain ⟨rfl, rfl⟩ := Prod.mk.inj heq
        exact .unbacked rfl
  | copy k =>
      obtain ⟨b, hk, heq⟩ := Option.map_eq_some_iff.mp hn
      obtain ⟨rfl, rfl⟩ := Prod.mk.inj heq
      exact .copied hk
  | call k c =>
      obtain ⟨b, hk, hcall⟩ := Option.bind_eq_some_iff.mp hn
      obtain ⟨done, hdone, heq⟩ := Option.map_eq_some_iff.mp hcall
      split_ifs at heq with hgrows
      · obtain ⟨rfl, rfl⟩ := Prod.mk.inj heq
        exact .grown hk rfl (Buffer.grows_spec hdone hgrows).1
      · obtain ⟨rfl, rfl⟩ := Prod.mk.inj heq
        exact .used hk rfl
          (Buffer.not_grows_spec hdone (Bool.eq_false_of_not_eq_true hgrows)).1
  | destroy k =>
      obtain ⟨b, hk, heq⟩ := Option.map_eq_some_iff.mp hn
      obtain ⟨rfl, rfl⟩ := Prod.mk.inj heq
      exact .destroyed hk

/-- The books: each address was handed out once; those handed out and those copied are those
freed and those held. -/
structure Ledger (os : List Event) (s : BufferStore) : Prop where
  fresh : mallocs os = List.range s.next
  books (a : ℕ) : (mallocs os).count a + (shares os).count a =
    (frees os).count a + (held s.objects).count a
  below (a : ℕ) (ha : a ∈ held s.objects) : a < s.next
  shared (a : ℕ) (ha : a ∈ shares os) : a < s.next

/-- A buffer of the list has its address among those held. -/
lemma toList_subset_held (hk : l[k]? = some b) (ha : a ∈ b.mData.toList) : a ∈ held l :=
  (held_eraseIdx hk).mem_iff.mpr (List.mem_append_left _ ha)

lemma eraseIdx_subset_held (hk : l[k]? = some b) (ha : a ∈ held (l.eraseIdx k)) : a ∈ held l :=
  (held_eraseIdx hk).mem_iff.mpr (List.mem_append_right _ ha)

/-- What is held once the `k`-th buffer is another. -/
lemma mem_held_set (hk : l[k]? = some b) (ha : a ∈ held (l.set k b')) :
    a ∈ b'.mData.toList ∨ a ∈ held (l.eraseIdx k) :=
  List.mem_append.mp ((held_set b' hk).mem_iff.mp ha)

lemma Ledger.step (h : Ledger os s) (hn : machine.next s i = some (u, o)) :
    Ledger (os ++ o) u := by
  rcases h with ⟨hrange, hbooks, hbelow, hshared⟩
  cases step_of_next hn with
  | unbacked hb =>
      exact ⟨by simpa using hrange, fun a => by simpa [hb] using hbooks a,
        fun a ha => hbelow a (by simpa [hb] using ha), fun a ha => hshared a (by simpa using ha)⟩
  | built hb hd =>
      obtain ⟨hmallocs, hfrees, hshares⟩ := of_malloc (a := s.next) (o := [])
      refine ⟨?_, fun a => ?_, fun a ha => ?_, fun a ha => ?_⟩
      · rw [mallocs_append, hrange, List.range_succ, hmallocs]
        rfl
      · have hold := hbooks a
        simp only [mallocs_append, shares_append, frees_append, held_append, held_singleton, hb,
          List.count_append, Option.toList_some, hmallocs, hfrees, hshares, mallocs_nil, frees_nil,
          shares_nil, List.count_nil]
        omega
      · rw [held_append, held_singleton, hb] at ha
        rcases List.mem_append.mp ha with ha | ha
        · exact Nat.lt_succ_of_lt (hbelow a ha)
        · exact (List.mem_singleton.mp ha).trans_lt (Nat.lt_succ_self _)
      · rw [shares_append, hshares, shares_nil, List.append_nil] at ha
        exact Nat.lt_succ_of_lt (hshared a ha)
  | @copied k b hk =>
      obtain ⟨hmallocs, hfrees, hshares⟩ := of_shares b.mData
      refine ⟨by simpa [hmallocs] using hrange, fun a => ?_, fun a ha => ?_, fun a ha => ?_⟩
      · have hold := hbooks a
        simp only [mallocs_append, shares_append, frees_append, held_append, held_singleton,
          List.count_append, hmallocs, hfrees, hshares, List.count_nil]
        omega
      · rw [held_append, held_singleton] at ha
        exact hbelow a ((List.mem_append.mp ha).elim id (toList_subset_held hk))
      · rw [shares_append, hshares] at ha
        exact (List.mem_append.mp ha).elim (hshared a) fun ha => hbelow a (toList_subset_held hk ha)
  | @grown k b b' d hk hb hd =>
      obtain ⟨hmallocs, hfrees, hshares⟩ := of_malloc (a := s.next) (o := b.mData.toList.map .free)
      obtain ⟨hmallocs', hfrees', hshares'⟩ := of_frees b.mData
      refine ⟨?_, fun a => ?_, fun a ha => ?_, fun a ha => ?_⟩
      · rw [mallocs_append, hrange, List.range_succ, hmallocs, hmallocs']
      · have hold := hbooks a
        have herase := (held_eraseIdx hk).count_eq a
        have hset := (held_set b' hk).count_eq a
        simp only [mallocs_append, shares_append, frees_append, List.count_append, hmallocs, hfrees,
          hshares, hmallocs', hfrees', hshares', List.count_nil, hb, Option.toList_some]
          at herase hset ⊢
        omega
      · rcases mem_held_set hk ha with ha | ha
        · rw [hb] at ha
          exact (List.mem_singleton.mp ha).trans_lt (Nat.lt_succ_self _)
        · exact Nat.lt_succ_of_lt (hbelow a (eraseIdx_subset_held hk ha))
      · rw [shares_append, hshares, hshares', List.append_nil] at ha
        exact Nat.lt_succ_of_lt (hshared a ha)
  | @used k b b' d hk hb hd =>
      refine ⟨by simpa using hrange, fun a => ?_, fun a ha => ?_,
        fun a ha => hshared a (by simpa using ha)⟩
      · have hold := hbooks a
        have herase := (held_eraseIdx hk).count_eq a
        have hset := (held_set b' hk).count_eq a
        rw [hb] at hset
        simp only [List.append_nil]
        omega
      · rcases mem_held_set hk ha with ha | ha
        · exact hbelow a (toList_subset_held hk (hb ▸ ha))
        · exact hbelow a (eraseIdx_subset_held hk ha)
  | @destroyed k b hk =>
      obtain ⟨hmallocs, hfrees, hshares⟩ := of_frees b.mData
      refine ⟨by simpa [hmallocs] using hrange, fun a => ?_,
        fun a ha => hbelow a (eraseIdx_subset_held hk ha),
        fun a ha => hshared a (by simpa [hshares] using ha)⟩
      have hold := hbooks a
      have herase := (held_eraseIdx hk).count_eq a
      simp only [mallocs_append, shares_append, frees_append, List.count_append, hmallocs, hfrees,
        hshares, List.count_nil] at herase ⊢
      omega

lemma ledger_of_run (hrun : machine.Run empty is os s) : Ledger os s :=
  hrun.invariant ⟨rfl, fun _ => rfl, fun _ ha => (nomatch ha), fun _ ha => (nomatch ha)⟩
    fun _ _ _ _ _ h hn => h.step hn

namespace Ledger

variable (h : Ledger os s)
include h

lemma perm : (mallocs os ++ shares os).Perm (frees os ++ held s.objects) :=
  List.perm_iff_count.mpr fun a => by simpa using h.books a

/-- As long as no pointer is copied, those handed out are those freed and those held. -/
lemma perm_of_unshared (hshares : shares os = []) :
    (mallocs os).Perm (frees os ++ held s.objects) := by
  simpa [hshares] using h.perm

lemma nodup_of_unshared (hshares : shares os = []) : (frees os ++ held s.objects).Nodup :=
  (h.perm_of_unshared hshares).nodup_iff.mp (h.fresh ▸ List.nodup_range)

end Ledger

/-! ### Buffers that are not copied -/

/-- As long as no pointer is copied, the block of each buffer is there. -/
structure Owned (os : List Event) (s : BufferStore) : Prop where
  ledger : Ledger os s
  alive (hshares : shares os = []) (a : ℕ) (ha : a ∈ held s.objects) : (s.block a).isSome = true

lemma setBlock_some : s.setBlock (some a) d = Function.update s.block a d := rfl

lemma setBlock_of_ne (hne : a ∉ b.mData.toList) : s.setBlock b.mData d a = s.block a := by
  cases hb : b.mData with
  | none => rfl
  | some a' =>
      rw [hb] at hne
      exact Function.update_of_ne (by simpa using hne) _ _

lemma Owned.step (h : Owned os s) (hn : machine.next s i = some (u, o)) : Owned (os ++ o) u := by
  refine ⟨h.ledger.step hn, fun hshares a ha => ?_⟩
  have hnone : shares os = [] := (List.append_eq_nil_iff.mp (shares_append ▸ hshares)).1
  have halive := h.alive hnone
  -- the other buffers have other blocks
  have hother : ∀ {k b}, s.objects[k]? = some b → a ∈ held (s.objects.eraseIdx k) →
      a ∉ b.mData.toList := by
    intro k b hk ha hmem
    have hnodup := (List.nodup_append.mp (h.ledger.nodup_of_unshared hnone)).2.1
    exact (List.nodup_append.mp ((held_eraseIdx hk).nodup_iff.mp hnodup)).2.2 a hmem a ha rfl
  cases step_of_next hn with
  | unbacked hb => exact halive a (by simpa [hb] using ha)
  | built hb hd =>
      dsimp only at ha ⊢
      rw [held_append, held_singleton, hb] at ha
      rcases List.mem_append.mp ha with ha | ha
      · rw [Function.update_of_ne (h.ledger.below a ha).ne]
        exact halive a ha
      · obtain rfl := List.mem_singleton.mp ha
        rwa [Function.update_self]
  | @copied k b hk =>
      rw [held_append, held_singleton] at ha
      exact halive a ((List.mem_append.mp ha).elim id (toList_subset_held hk))
  | @grown k b b' d hk hb hd =>
      dsimp only at ha ⊢
      rcases mem_held_set hk ha with ha | ha
      · rw [hb] at ha
        obtain rfl := List.mem_singleton.mp ha
        rwa [Function.update_self]
      · have hmem := eraseIdx_subset_held hk ha
        rw [Function.update_of_ne (h.ledger.below a hmem).ne, setBlock_of_ne (hother hk ha)]
        exact halive a hmem
  | @used k b b' d hk hb hd =>
      dsimp only at ha ⊢
      rcases mem_held_set hk ha with ha | ha
      · rw [hb] at ha
        have hthere := halive a (toList_subset_held hk ha)
        obtain haddr : b.mData = some a := by simpa using ha
        rw [haddr] at hd ⊢
        rw [setBlock_some, Function.update_self, hd]
        exact hthere
      · rw [setBlock_of_ne (hother hk ha)]
        exact halive a (eraseIdx_subset_held hk ha)
  | @destroyed k b hk =>
      dsimp only at ha ⊢
      rw [setBlock_of_ne (hother hk ha)]
      exact halive a (eraseIdx_subset_held hk ha)

lemma owned_of_run (hrun : machine.Run empty is os s) : Owned os s :=
  hrun.invariant ⟨ledger_of_run .nil, fun _ _ ha => (nomatch ha)⟩ fun _ _ _ _ _ h hn => h.step hn

/-- **Buffers that are not copied own their blocks**: each block allocated was freed once or is
held by one buffer, and what a buffer holds is there. -/
theorem owned_once (hrun : machine.Run empty is os s) (hshares : shares os = []) :
    (mallocs os).Perm (frees os ++ held s.objects) ∧ (frees os ++ held s.objects).Nodup ∧
      ∀ a ∈ held s.objects, (s.block a).isSome = true := by
  have howned := owned_of_run hrun
  exact ⟨howned.ledger.perm_of_unshared hshares, howned.ledger.nodup_of_unshared hshares,
    howned.alive hshares⟩

/-- A buffer of 64 bytes is made to hold a hundred, and destroyed. -/
theorem owned_once_grown : ∃ os s, machine.Run empty
    [.build (.ofSize (fun _ => 0) 64), .call 0 (.append (fun _ => 0) (some fun _ => 0) 100),
      .destroy 0] os s ∧ frees os = [0, 1] ∧ (mallocs os).Perm [0, 1] := by
  obtain ⟨os, s, hrun, hfrees, hheld, hshares⟩ : ∃ os s, machine.Run empty
      [.build (.ofSize (fun _ => 0) 64), .call 0 (.append (fun _ => 0) (some fun _ => 0) 100),
        .destroy 0] os s ∧ frees os = [0, 1] ∧ held s.objects = [] ∧ shares os = [] :=
    ⟨_, _, run_iff_exec.mpr rfl, by decide, by decide, by decide⟩
  have hperm := (owned_once hrun hshares).1
  rw [hfrees, hheld] at hperm
  exact ⟨os, s, hrun, hfrees, hperm⟩

end BufferStore

end Xsix

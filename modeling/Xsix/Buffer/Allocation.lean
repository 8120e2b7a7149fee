import Xsix.Buffer.Safety

/-!
Whether the array a buffer believes in is the one that was allocated.

Every call keeps `m_size` equal to the allocation (`call_exact`), but the constructor
from a string allocates as many cells as the string has bytes and books half as many
again. So a run stays inside the allocation exactly when its constructor does not
overbook and none of its calls is an overrun: `stays_allocated_iff`.
-/

namespace Xsix

open CInt Memory
open List (forall_mem_append forall_mem_singleton)

namespace Buffer

variable {b : Buffer} {c : Call} {n : ℤ} {d₀ : Done Unit}

/-! ### The capacity and the allocation -/

/-- The capacity is the number of bytes asked for. -/
def Exact (b : Buffer) : Prop := b.allocated = b.mSize

/-- The touch is of an array that has the cells the code takes it to have. -/
def Covered : Touch → Prop
  | .span _ limit allocated _ _ => allocated = limit
  | .modulo _ => True

/-- What stays inside the believed array stays inside the allocated one when they
are the same. -/
lemma InLimit.inAllocated {τ : Touch} (h : InLimit τ) (hc : Covered τ) : InAllocated τ := by
  cases τ with
  | modulo divisor => trivial
  | span place limit allocated off len =>
      obtain rfl : allocated = limit := hc
      cases place <;> exact h

/-! ### Calls -/

lemma Exact.load (h : Exact b) (place : Place) (limit : ℤ) (dst : Bytes) (dstOff off len : ℤ) :
    ∀ τ ∈ (b.load place limit dst dstOff off len).2, Covered τ := by
  simp only [Buffer.load, List.forall_mem_cons, Covered, List.not_mem_nil, false_imp_iff,
    implies_true, and_true]
  exact h

lemma Exact.withCells (h : Exact b) (f : Bytes → Bytes) : Exact (b.withCells f) := by
  rw [Exact, withCells_allocated, withCells_mSize]
  exact h

lemma Exact.store (h : Exact b) (off limit : ℤ) (src : Bytes) (srcOff len : ℤ) :
    Exact (b.store off limit src srcOff len).1 ∧
      ∀ τ ∈ (b.store off limit src srcOff len).2, Covered τ := by
  refine ⟨h.withCells _, ?_⟩
  simp only [Buffer.store, List.forall_mem_cons, Covered, List.not_mem_nil, false_imp_iff,
    implies_true, and_true, true_and]
  exact h

lemma Exact.appendCopy (h : Exact b) (src : Bytes) (n : ℤ) :
    Exact (b.appendCopy src n).1 ∧ ∀ τ ∈ (b.appendCopy src n).2, Covered τ := by
  simp only [Buffer.appendCopy]
  split_ifs
  · exact h.store _ _ _ _ _
  · have hone := h.store b.mTail n src 0 (int32 (b.mSize - b.mTail))
    have htwo := hone.1.store 0 n src (int32 (b.mSize - b.mTail))
      (int32 (n - int32 (b.mSize - b.mTail)))
    exact ⟨htwo.1, forall_mem_append.mpr ⟨hone.2, htwo.2⟩⟩
  · exact h.store _ _ _ _ _

lemma Exact.appendInPlace (h : Exact b) (src : Bytes) (n : ℤ) :
    Exact (b.appendInPlace src n).self ∧ ∀ τ ∈ (b.appendInPlace src n).touched, Covered τ := by
  have hcopy := h.appendCopy src n
  refine ⟨?_, forall_mem_append.mpr ⟨hcopy.2, forall_mem_singleton.mpr trivial⟩⟩
  simp only [Buffer.appendInPlace, checkFullAfterAppend]
  split_ifs <;> exact hcopy.1

lemma Exact.realloc (h : Exact b) (fresh : Bytes) (m : ℤ) :
    Exact (b.realloc fresh m).1 ∧ ∀ τ ∈ (b.realloc fresh m).2, Covered τ := by
  rw [Buffer.realloc]
  split_ifs
  · exact ⟨h, by simp⟩
  · refine ⟨rfl, ?_⟩
    simp only [reallocData]
    split_ifs <;> simp only [List.forall_mem_cons, Covered, List.not_mem_nil, false_imp_iff,
      implies_true, and_true, true_and]
    · exact h
    · exact ⟨h, h⟩

lemma Exact.resize (h : Exact b) {fresh : Bytes} {g : Done Bool}
    (hg : b.resize fresh n = some g) : Exact g.self ∧ ∀ τ ∈ g.touched, Covered τ := by
  rcases resize_cases hg with rfl | ⟨-, rfl⟩ | ⟨m, -, -, -, rfl⟩
  · exact ⟨h, by simp⟩
  · exact ⟨h, by simp⟩
  · exact h.realloc fresh m

lemma Exact.append (h : Exact b) {fresh : Bytes} {src : Option Bytes} {d : Done ℤ}
    (hd : b.append fresh src n = some d) : Exact d.self ∧ ∀ τ ∈ d.touched, Covered τ := by
  rcases append_cases hd with rfl | ⟨s, -, -, ⟨-, rfl⟩ | ⟨-, g, hg, hcases⟩⟩
  · exact ⟨h, by simp⟩
  · exact h.appendInPlace s n
  · have hgrown := h.resize hg
    rcases hcases with ⟨-, rfl⟩ | ⟨-, rfl⟩
    · exact hgrown
    · have hplace := hgrown.1.appendInPlace s n
      exact ⟨hplace.1, forall_mem_append.mpr ⟨hgrown.2, hplace.2⟩⟩

lemma Exact.copyOut (h : Exact b) (limit : ℤ) (dst : Bytes) (n : ℤ) :
    ∀ τ ∈ (b.copyOut limit dst n).2, Covered τ := by
  simp only [Buffer.copyOut]
  split_ifs
  · exact h.load _ _ _ _ _ _
  · exact h.load _ _ _ _ _ _
  · exact forall_mem_append.mpr ⟨h.load _ _ _ _ _ _, h.load _ _ _ _ _ _⟩

lemma Exact.retrieveCopy (h : Exact b) : ∀ τ ∈ b.retrieveCopy.2, Covered τ := by
  simp only [Buffer.retrieveCopy]
  split_ifs
  · exact h.load _ _ _ _ _ _
  · exact forall_mem_append.mpr ⟨h.load _ _ _ _ _ _, h.load _ _ _ _ _ _⟩

/-- **Every call keeps the capacity equal to the allocation** and touches only
arrays that are as large as the code takes them to be. -/
lemma call_exact {d : Done Answer} (h : Exact b) (hd : b.call c = some d) :
    Exact d.self ∧ ∀ τ ∈ d.touched, Covered τ := by
  cases c with
  | append fresh src n =>
      obtain ⟨a, ha, rfl⟩ := Option.map_eq_some_iff.mp hd
      exact h.append ha
  | writeTo dst n =>
      obtain rfl := Option.some.inj hd
      rcases deliver_cases b dst n.toInt with ⟨-, hw, -⟩ | ⟨m, k, -, -, -, -, hw, -⟩
      · simp only [hw]
        exact ⟨h, by simp⟩
      · simp only [hw]
        exact ⟨h, forall_mem_append.mpr ⟨h.copyOut _ _ _, forall_mem_singleton.mpr trivial⟩⟩
  | peek dst n =>
      obtain rfl := Option.some.inj hd
      rcases deliver_cases b dst n.toInt with ⟨-, -, hp⟩ | ⟨m, k, -, -, -, -, -, hp⟩
      · simp only [hp]
        exact ⟨h, by simp⟩
      · simp only [hp]
        exact ⟨h, h.copyOut _ _ _⟩
  | skip n =>
      obtain rfl := Option.some.inj hd
      simp only [skip]
      split_ifs
      · exact ⟨h, by simp⟩
      · exact ⟨h, by simp⟩
      · exact ⟨h, forall_mem_singleton.mpr trivial⟩
  | clear =>
      obtain rfl := Option.some.inj hd
      exact ⟨h, by simp⟩
  | retrieveAllAsString =>
      obtain rfl := Option.some.inj hd
      simp only [retrieveAllAsString]
      split_ifs
      · exact ⟨h, by simp⟩
      · exact ⟨h, forall_mem_append.mpr ⟨h.retrieveCopy, forall_mem_singleton.mpr rfl⟩⟩

/-! ### Construction -/

/-- The constructor books more cells than it allocates: the string is copied and
the capacity is half as long again. -/
def Construction.Overbooks : Construction → Prop
  | .ofSize _ _ => False
  | .ofString _ s =>
      0 < int32 s.length ∧ int32 s.length < int32 (s.length + s.length / 2)

/-- A constructor that does not overbook leaves a capacity equal to the
allocation. A string copied without overbooking has one byte. -/
lemma construct_exact {k : Construction} (hbuilt : construct k = some d₀)
    (hgood : ¬ k.Overbooks) : d₀.self.mSize ≤ 2 ^ 30 ∧ Exact d₀.self ∧
      ∀ τ ∈ d₀.touched, Covered τ := by
  cases k with
  | ofSize fresh n =>
      obtain ⟨g, hg, rfl⟩ := Option.map_eq_some_iff.mp hbuilt
      have hexact : Exact cleanup := rfl
      obtain ⟨hkept, hcov⟩ := hexact.resize hg
      refine ⟨?_, hkept, hcov⟩
      rcases (ofSize_sound hbuilt).1 with h | ⟨-, h⟩
      · rw [h]
        decide
      · exact h
  | ofString fresh s =>
      obtain rfl := Option.some.inj hbuilt
      rcases ofString_cases fresh s with ⟨h0, h1, hcopied⟩ | ⟨-, hcopied⟩
      · have heq : int32 s.length = int32 (s.length + s.length / 2) :=
          h1.antisymm (not_lt.mp fun hlt => hgood ⟨h0, hlt⟩)
        have hone : int32 s.length = 1 := by
          simp only [int32] at heq h0 ⊢
          omega
        rw [hcopied, ← heq, hone]
        refine ⟨by simp, rfl, ?_⟩
        simp [Covered]
      · rw [hcopied]
        exact ⟨by decide, rfl, by simp⟩

lemma copyFrom_overbooked (fresh src : Bytes) {len size : ℤ} (hlen : IsInt32 len) (h0 : 0 < len)
    (h1 : len < size) : (cleanup.copyFrom fresh (some src) len size).self.allocated
      < (cleanup.copyFrom fresh (some src) len size).self.mSize := by
  rw [copyFrom_eq fresh src hlen h0 h1.le]
  exact h1

/-- A constructor that overbooks leaves a capacity larger than the allocation. -/
lemma construct_overbooked {k : Construction} (hbuilt : construct k = some d₀)
    (hbad : k.Overbooks) : d₀.self.allocated < d₀.self.mSize := by
  cases k with
  | ofSize fresh n => exact hbad.elim
  | ofString fresh s =>
      obtain rfl := Option.some.inj hbuilt
      have hlen : IsInt32 (int32 s.length) := isInt32_int32 _
      rw [ofString]
      exact copyFrom_overbooked fresh (cStr s) hlen hbad.1 hbad.2

/-! ### Runs -/

/-- A negative size reaches `memcpy` as the length of the first copy. -/
lemma Shaped.copyOut_neg (h : Shaped b) (limit : ℤ) (dst : Bytes) (hneg : n < 0) :
    Touch.span .data b.mSize b.allocated b.mHead (uint64 n) ∈ (b.copyOut limit dst n).2 := by
  have hs1 := h.size_lt
  have hh0 := h.head_nonneg
  have hh1 := h.head_lt
  simp only [copyOut]
  by_cases hlt : b.mHead < b.mTail
  · simp [if_pos hlt, load]
  · have hright := h.int32_right
    simp [hlt, hright, show n ≤ b.mSize - b.mHead by omega, load]

/-- The copies of a negative size leave the allocation. -/
lemma Sound.copyOut_outside (h : Sound b) (hexact : Exact b) (hempty : b.empty = false)
    (limit : ℤ) (dst : Bytes) (hn : IsInt32 n) (hneg : n < 0) :
    ∃ τ ∈ (b.copyOut limit dst n).2, ¬ InAllocated τ := by
  obtain ⟨hs, -, -⟩ := h.shaped_of_not_empty hempty
  refine ⟨_, hs.copyOut_neg limit dst hneg, ?_⟩
  have hs1 := hs.size_lt
  have hh0 := hs.head_nonneg
  have hhuge := uint64_of_neg hn hneg
  obtain ⟨hlow, -⟩ := hn
  rw [Exact] at hexact
  simp only [InAllocated]
  omega

/-- An overrun leaves the array. -/
lemma Sound.overrun (h : Sound b) (hexact : Exact b) (hover : Overrun b c)
    {d : Done Answer} (hd : b.call c = some d) : ∃ τ ∈ d.touched, ¬ InAllocated τ := by
  have hsmall : ∀ {k n : ℤ}, (k = if b.length < n then b.length else n) → n < 0 → k = n := by
    intro k n hk hneg
    have := h.length_bounds.1
    rw [if_neg (by omega)] at hk
    exact hk
  cases c with
  | writeTo dst n =>
      obtain ⟨hdst, hneg, hempty⟩ := hover
      obtain rfl := Option.some.inj hd
      rcases deliver_cases b dst n.toInt with
        ⟨hnone | hzero | hempty', -, -⟩ | ⟨m, k, -, -, -, hk, hw, -⟩
      · simp [hnone] at hdst
      · omega
      · simp [hempty] at hempty'
      · obtain rfl := hsmall hk hneg
        obtain ⟨τ, hτ, hout⟩ := h.copyOut_outside hexact hempty n.toInt m (isInt32_toInt n) hneg
        simp only [hw]
        exact ⟨τ, List.mem_append_left _ hτ, hout⟩
  | peek dst n =>
      obtain ⟨hdst, hneg, hempty⟩ := hover
      obtain rfl := Option.some.inj hd
      rcases deliver_cases b dst n.toInt with
        ⟨hnone | hzero | hempty', -, -⟩ | ⟨m, k, -, -, -, hk, -, hp⟩
      · simp [hnone] at hdst
      · omega
      · simp [hempty] at hempty'
      · obtain rfl := hsmall hk hneg
        simp only [hp]
        exact h.copyOut_outside hexact hempty n.toInt m (isInt32_toInt n) hneg
  | append fresh src n => exact hover.elim
  | skip n => exact hover.elim
  | clear => exact hover.elim
  | retrieveAllAsString => exact hover.elim

/-- The size a buffer believes in is allocated, in every state of a run, and no
cell outside the allocation is touched. -/
def StaysAllocated (d₀ : Done Unit) (os : List Event) : Prop :=
  (d₀.self.mSize ≤ d₀.self.allocated ∧ ∀ e ∈ os, e.done.self.mSize ≤ e.done.self.allocated) ∧
    ∀ τ ∈ d₀.touched ++ touches os, InAllocated τ

/-- **When the size a buffer believes in is really allocated.** A run stays inside
the allocation exactly when the constructor did not book more cells than it
allocated and no call passed a negative size to `memcpy`. -/
theorem stays_allocated_iff {k : Construction} (hbuilt : construct k = some d₀)
    {cs : List Call} {os : List Event} (hrun : machine.Run d₀.self cs os b) :
    StaysAllocated d₀ os ↔ ¬ k.Overbooks ∧ ∀ e ∈ os, ¬ Overrun e.before e.call := by
  by_cases hbad : k.Overbooks
  · have hlt := construct_overbooked hbuilt hbad
    constructor
    · intro h
      exact absurd h.1.1 (not_le.mpr hlt)
    · intro h
      exact absurd hbad h.1
  obtain ⟨hsize, hexact, hcov⟩ := construct_exact hbuilt hbad
  obtain ⟨hsound, hin⟩ := construct_sound hbuilt hsize
  -- whatever is called, the allocation and the capacity stay equal
  have hkept : Exact b ∧ ∀ e ∈ os, Exact e.done.self ∧ ∀ τ ∈ e.done.touched, Covered τ :=
    hrun.forall_events (C := fun _ => True) (fun _ _ => trivial) hexact
      fun t c u o ht hn _ => by
        obtain ⟨d, hd, rfl, rfl⟩ := machine_next hn
        have hd' := call_exact ht hd
        exact ⟨hd'.1, forall_mem_singleton.mpr hd'⟩
  constructor
  · -- up to the first overrun the buffer is sound, and an overrun leaves the array
    intro hstays
    have hall := forall_touches.mp (forall_mem_append.mp hstays.2).2
    have hnone : (Sound b ∧ Exact b) ∧ ∀ e ∈ os, ¬ Overrun e.before e.call :=
      hrun.forall_events (I := fun t => Sound t ∧ Exact t) hall ⟨hsound, hexact⟩
        fun t c u o ht hn hin => by
          obtain ⟨d, hd, rfl, rfl⟩ := machine_next hn
          have hno : ¬ Overrun t c := by
            intro hover
            obtain ⟨τ, hτ, hout⟩ := ht.1.overrun ht.2 hover hd
            exact hout (forall_mem_singleton.mp hin τ hτ)
          exact ⟨⟨(ht.1.call hno hd).1, (call_exact ht.2 hd).1⟩, forall_mem_singleton.mpr hno⟩
    exact ⟨hbad, hnone.2⟩
  · intro hcond
    have hins : Sound b ∧ ∀ e ∈ os, ∀ τ ∈ e.done.touched, InLimit τ :=
      hrun.forall_events (C := fun e => ¬ Overrun e.before e.call) hcond.2 hsound
        fun t c u o ht hn hno => by
          obtain ⟨d, hd, rfl, rfl⟩ := machine_next hn
          obtain ⟨hu, hinu⟩ := ht.call (hno ⟨t, c, d⟩ (List.mem_singleton_self _)) hd
          exact ⟨hu, forall_mem_singleton.mpr hinu⟩
    have hle : ∀ {t : Buffer}, Exact t → t.mSize ≤ t.allocated := fun h => (Eq.symm h).le
    refine ⟨⟨hle hexact, fun e he => hle (hkept.2 e he).1⟩, forall_mem_append.mpr
      ⟨fun τ hτ => (hin τ hτ).inAllocated (hcov τ hτ), forall_touches.mpr fun e he τ hτ => ?_⟩⟩
    exact (hins.2 e he τ hτ).inAllocated ((hkept.2 e he).2 τ hτ)

/-- A buffer of 64 cells that takes in three bytes and gives out two of them. -/
theorem stays_allocated_ofSize :
    ∃ d₀ os b, construct (.ofSize (fun _ => 0) 64) = some d₀ ∧
      machine.Run d₀.self
        [.append (fun _ => 0) (some fun _ => 1) 3, .writeTo (some fun _ => 0) 2] os b ∧
      StaysAllocated d₀ os := by
  obtain ⟨d₀, hbuilt⟩ : ∃ d₀, construct (.ofSize (fun _ => 0) 64) = some d₀ := ⟨_, rfl⟩
  obtain ⟨os, b, hrun, hnone⟩ : ∃ os b, machine.Run d₀.self
      [.append (fun _ => 0) (some fun _ => 1) 3, .writeTo (some fun _ => 0) 2] os b ∧
      ∀ e ∈ os, ¬ Overrun e.before e.call := by
    obtain rfl := Option.some.inj hbuilt
    refine ⟨_, _, Machine.run_iff_exec.mpr rfl, ?_⟩
    intro e he
    rcases List.mem_cons.mp he with rfl | he
    · exact id
    · rw [List.mem_singleton.mp he]
      exact fun hover => absurd hover.2.1 (by decide)
  exact ⟨d₀, os, b, hbuilt, hrun, (stays_allocated_iff hbuilt hrun).mpr ⟨id, hnone⟩⟩

/-- **A buffer built from ten bytes** has ten cells and believes in fifteen: the
next five bytes are written past the end of the block. -/
theorem string_leaves_allocation :
    ∃ d₀ os b, construct (.ofString (fun _ => 0) [48, 49, 50, 51, 52, 53, 54, 55, 56, 57])
        = some d₀ ∧
      machine.Run d₀.self [.append (fun _ => 0) (some fun _ => 1) 5] os b ∧
      b.allocated = 10 ∧ b.mSize = 15 ∧ .span .data 15 10 10 5 ∈ touches os ∧
      ¬ StaysAllocated d₀ os := by
  refine ⟨_, _, _, rfl, Machine.run_iff_exec.mpr rfl, by decide, by decide, by decide, ?_⟩
  intro h
  exact absurd h.1.1 (by decide)

end Buffer

end Xsix

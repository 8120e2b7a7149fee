import Xsix.Buffer.Ownership
import Mathlib.Data.Nat.Log

/-!
How often the buffers of a program allocate.

Up to one kilobyte `refix_new_size` doubles the capacity, and then it adds one kilobyte at a
time up to the limit of one megabyte, so the growths that a capacity leaves are a potential
(`growthsLeft`): `realloc` takes one off, and no other call adds to it, whatever the sizes of
the requests are.

* `most_mallocs`: a buffer allocates at most 1029 times in its life, its copies apart, and some
  program makes one buffer do so.
-/

namespace Xsix

open CInt Memory Machine

namespace Buffer

/-- The growths that a capacity leaves. -/
def growthsLeft (t : ℤ) : ℕ :=
  if t < bufferSizeSmall then 1028
  else if t < bufferSizeRaw then 1033 - Nat.log 2 t.toNat
  else ((bufferSizeMax - t) / bufferSizeRaw).toNat

variable {b : Buffer} {c : Call} {t m n r : ℤ}

/-! ### What a growth takes off -/

lemma growthsLeft_small (h : t < 64) : growthsLeft t = 1028 := if_pos h

lemma growthsLeft_double (h0 : 64 ≤ t) (h1 : t < 1024) :
    growthsLeft t = 1033 - Nat.log 2 t.toNat := by
  rw [growthsLeft, bufferSizeSmall, bufferSizeRaw, if_neg (not_lt.mpr h0), if_pos h1]

lemma growthsLeft_linear (h : 1024 ≤ t) : growthsLeft t = ((1048576 - t) / 1024).toNat := by
  rw [growthsLeft, bufferSizeSmall, bufferSizeRaw, if_neg (by omega), if_neg (not_lt.mpr h),
    bufferSizeMax_eq]

/-- From 64 to one kilobyte. -/
lemma log_bounds (h0 : 64 ≤ t) (h1 : t < 1024) :
    6 ≤ Nat.log 2 t.toNat ∧ Nat.log 2 t.toNat ≤ 9 := by
  constructor
  · exact Nat.le_log_of_pow_le (by decide) (by omega)
  · exact Nat.lt_succ_iff.mp (Nat.log_lt_of_lt_pow (by omega) (by omega))

lemma growthsLeft_le (t : ℤ) : growthsLeft t ≤ 1028 := by
  by_cases hsmall : t < 64
  · exact (growthsLeft_small hsmall).le
  · by_cases hlt : t < 1024
    · have hlog := log_bounds (not_lt.mp hsmall) hlt
      rw [growthsLeft_double (not_lt.mp hsmall) hlt]
      omega
    · rw [growthsLeft_linear (not_lt.mp hlt)]
      omega

/-- A larger capacity leaves no more growths. -/
lemma growthsLeft_anti {s : ℤ} (hle : s ≤ t) : growthsLeft t ≤ growthsLeft s := by
  by_cases hsmall : s < 64
  · rw [growthsLeft_small hsmall]
    exact growthsLeft_le t
  · by_cases hs : s < 1024
    · have hlog := log_bounds (not_lt.mp hsmall) hs
      rw [growthsLeft_double (not_lt.mp hsmall) hs]
      by_cases ht : t < 1024
      · have hmono : Nat.log 2 s.toNat ≤ Nat.log 2 t.toNat := Nat.log_mono_right (by omega)
        rw [growthsLeft_double (by omega) ht]
        omega
      · rw [growthsLeft_linear (not_lt.mp ht)]
        omega
    · rw [growthsLeft_linear (not_lt.mp hs), growthsLeft_linear (by omega)]
      omega

lemma refixStep_double (h0 : 0 < t) (h1 : t < 1024) : refixStep t = t * 2 := by
  rw [refixStep, bufferSizeRaw, if_pos h1, int32]
  omega

lemma refixStep_linear (h0 : 1024 ≤ t) (h1 : t < 1048576) : refixStep t = t + 1024 := by
  rw [refixStep, bufferSizeRaw, bufferSizeMax_eq, if_neg (not_lt.mpr h0), if_pos h1, int32]
  omega

/-- Below 512 a doubling takes exactly one off. -/
lemma growthsLeft_mul_two (h0 : 64 ≤ t) (h1 : t * 2 < 1024) :
    growthsLeft (t * 2) + 1 = growthsLeft t := by
  have hstep : Nat.log 2 (t * 2).toNat = Nat.log 2 t.toNat + 1 := by
    rw [show (t * 2).toNat = t.toNat * 2 by omega, Nat.log_mul_base (by decide) (by omega)]
  have hlog := log_bounds (show 64 ≤ t * 2 by omega) h1
  rw [growthsLeft_double (by omega) h1, growthsLeft_double h0 (by omega)]
  omega

/-- One step of the loop takes one off, if the limit is kept. -/
lemma growthsLeft_refixStep (h0 : 64 ≤ t) (h1 : t < 1048576) (hle : refixStep t ≤ 1048576) :
    growthsLeft (refixStep t) < growthsLeft t := by
  by_cases hlt : t < 1024
  · rw [refixStep_double (by omega) hlt]
    by_cases hdouble : t * 2 < 1024
    · rw [← growthsLeft_mul_two h0 hdouble]
      exact Nat.lt_succ_self _
    · have hlog := log_bounds h0 hlt
      rw [growthsLeft_double h0 hlt, growthsLeft_linear (not_lt.mp hdouble)]
      omega
  · rw [refixStep_linear (not_lt.mp hlt) h1] at hle ⊢
    rw [growthsLeft_linear (not_lt.mp hlt), growthsLeft_linear (by omega)]
    omega

lemma le_refixLoop {fuel : ℕ} (h0 : 0 ≤ t) (hr : refixLoop fuel t n = some r) : t ≤ r := by
  induction fuel generalizing t with
  | zero => cases hr
  | succ fuel ih =>
      rw [refixLoop] at hr
      split_ifs at hr with hlt
      · rcases refixStep_eq_or_lt h0 with heq | hup
        · rw [heq] at hr
          exact ih h0 hr
        · exact hup.le.trans (ih (h0.trans hup.le) hr)
      · exact (Option.some.inj hr).le

/-- **A growth takes one off.** -/
lemma growthsLeft_refixNewSize (h0 : 0 ≤ t) (hlt : t < n) (hn : n ≤ bufferSizeMax)
    (hr : refixNewSize t n = some r) (hmax : r ≤ bufferSizeMax) :
    growthsLeft r < growthsLeft t := by
  rw [bufferSizeMax_eq] at hn hmax
  have hle := le_of_refixNewSize hr
  by_cases hsmall : t < 64
  · -- from nothing to 64 at least
    have hr64 : 64 ≤ r := by
      rw [refixNewSize] at hr
      split_ifs at hr with hsize
      · exact (Option.some.inj hr).le
      · rw [bufferSizeSmall] at hsize
        omega
    have hanti := growthsLeft_anti hr64
    rw [growthsLeft_small hsmall]
    exact hanti.trans_lt (by decide)
  · rw [refixNewSize, if_neg (by rw [bufferSizeSmall]; omega), refixLoop, if_pos hlt] at hr
    have hstep : refixStep t ≤ r := by
      refine le_refixLoop ?_ hr
      rcases refixStep_eq_or_lt h0 with heq | hup
      · rw [heq]
        exact h0
      · exact h0.trans hup.le
    have hanti := growthsLeft_anti hstep
    exact hanti.trans_lt (growthsLeft_refixStep (by omega) (by omega) (by omega))

/-- What a call makes of the growths left. -/
lemma growthsLeft_call {d : Done Answer} (h0 : 0 ≤ b.mSize) (hd : b.call c = some d) :
    0 ≤ d.self.mSize ∧
      growthsLeft d.self.mSize + (if b.grows c then 1 else 0) ≤ growthsLeft b.mSize := by
  cases hg : b.grows c with
  | true =>
      obtain ⟨-, hlt, hn, hr, hmax⟩ := grows_spec hd hg
      have hle := le_of_refixNewSize hr
      exact ⟨by omega, growthsLeft_refixNewSize h0 hlt hn hr hmax⟩
  | false =>
      rw [(not_grows_spec hd hg).2]
      exact ⟨h0, le_rfl⟩

/-! ### The slowest growth -/

/-- From a rounded capacity one step of the loop takes exactly one off. -/
lemma Rounded.growthsLeft_refixStep (hr : Rounded t) (h0 : 64 ≤ t) (h1 : t < 1048576) :
    growthsLeft (refixStep t) + 1 = growthsLeft t := by
  by_cases hlt : t < 1024
  · rw [refixStep_double (by omega) hlt]
    by_cases hdouble : t * 2 < 1024
    · exact growthsLeft_mul_two h0 hdouble
    · -- the last doubling, which is from 512
      obtain rfl : t = 512 := by
        rcases hr with ⟨k, hk, rfl⟩ | ⟨⟨j, hj⟩, -⟩
        · interval_cases k <;> omega
        · rw [bufferSizeRaw] at hj
          omega
      rw [growthsLeft_double h0 hlt, growthsLeft_linear (by decide),
        show (512 : ℤ).toNat = 2 ^ 9 from rfl, Nat.log_pow (by decide)]
      rfl
  · rw [refixStep_linear (not_lt.mp hlt) h1, growthsLeft_linear (not_lt.mp hlt),
      growthsLeft_linear (by omega)]
    obtain ⟨j, hj⟩ : (1024 : ℤ) ∣ t := by
      rcases hr with ⟨k, hk, rfl⟩ | ⟨hdvd, -⟩
      · interval_cases k <;> omega
      · exact hdvd
    omega

/-- Asked for one byte more than there is, a rounded capacity grows as little as it can. -/
lemma Rounded.refixNewSize_succ (hr : Rounded t) (h0 : 0 < t) (h1 : t < bufferSizeMax) :
    ∃ r, refixNewSize t (t + 1) = some r ∧ growthsLeft r + 1 = growthsLeft t := by
  by_cases hsmall : t < 64
  · refine ⟨64, by rw [refixNewSize, if_pos (by rw [bufferSizeSmall]; omega)]; rfl, ?_⟩
    rw [growthsLeft_small hsmall, growthsLeft_double (by decide) (by decide),
      show (64 : ℤ).toNat = 2 ^ 6 from rfl, Nat.log_pow (by decide)]
  · have hup := lt_refixStep h0 h1
    refine ⟨refixStep t, ?_, hr.growthsLeft_refixStep (not_lt.mp hsmall) h1⟩
    obtain ⟨fuel, hfuel⟩ : ∃ fuel, (t + 1).toNat + 1 = fuel + 2 := ⟨t.toNat, by omega⟩
    rw [refixNewSize, if_neg (by rw [bufferSizeSmall]; omega), hfuel, refixLoop,
      if_pos (by omega), refixLoop, if_neg (by omega)]

/-- Below the limit an empty buffer grows by one step if it is to hold one byte too many. -/
lemma Ranged.exists_grows (h : Ranged b) (hr : Rounded b.mSize) (hlt : b.mSize < bufferSizeMax)
    (hlen : b.length = 0) :
    ∃ c d, b.call c = some d ∧ b.grows c = true ∧ Ranged d.self ∧ Rounded d.self.mSize ∧
      growthsLeft d.self.mSize + 1 = growthsLeft b.mSize := by
  have h0 := h.size_pos
  have hmax := bufferSizeMax_eq
  obtain ⟨r, hnew, hleft⟩ := hr.refixNewSize_succ h0 hlt
  obtain ⟨n, hn⟩ : ∃ n : Int32, n.toInt = b.mSize + 1 :=
    ⟨.ofInt (b.mSize + 1), Int32.toInt_ofInt_of_le (by omega) (by omega)⟩
  obtain ⟨a, ha⟩ := exists_append h0 (fun _ => 0) (some fun _ => 0) n.toInt
  obtain ⟨d, hd⟩ : ∃ d, b.call (.append (fun _ => 0) (some fun _ => 0) n) = some d :=
    ⟨_, by rw [call, ha]; rfl⟩
  have hreq : b.requested (.append (fun _ => 0) (some fun _ => 0) n) = b.mSize + 1 := by
    rw [requested, hlen, hn, zero_add]
    exact int32_eq_self ⟨by omega, by omega⟩
  have hrounded : Rounded r := rounded_refixNewSize (fun _ => hr) h0.le (by omega) (by omega) hnew
  have hrpos := le_of_refixNewSize hnew
  have hg : b.grows (.append (fun _ => 0) (some fun _ => 0) n) = true := by
    have hvalid : isValidSize (b.mSize + 1) = true := isValidSize_iff.mpr ⟨by omega, by omega⟩
    have hvalid' : isValidSize r = true := isValidSize_iff.mpr ⟨by omega, hrounded.le_max⟩
    have hfree : b.getFreeSize < n.toInt := by
      rw [h.getFreeSize_eq]
      omega
    have hpos : 0 < n.toInt := by omega
    rw [grows, hreq]
    simp [hpos, hfree, reallocates, hvalid, hnew, hvalid', size]
  obtain ⟨-, -, -, hself, hle⟩ := grows_spec hd hg
  rw [hreq, hnew, Option.some_inj] at hself
  refine ⟨_, d, hd, hg, ?_, hself ▸ hrounded, hself ▸ hleft⟩
  rcases Loose.call (Or.inr (Or.inr h)) hd with heq | hbig | hranged
  · rw [heq] at hself
    exact absurd hself (by change ¬r = 0; omega)
  · omega
  · exact hranged

end Buffer

namespace BufferStore

open Buffer (Call Construction growthsLeft)

/-- The inputs that make a new buffer. -/
def Input.creates : Input → Bool
  | .build _ | .copy _ => true
  | _ => false

/-- The cost of an allocation. -/
def Event.allocations : Event → ℕ
  | .malloc _ => 1
  | _ => 0

variable {s u : BufferStore} {i : Input} {is : List Input} {o os : List Event} {k : ℕ}
  {b b' : BufferObject} {l : List BufferObject}

lemma length_mallocs (os : List Event) : (mallocs os).length = (os.map Event.allocations).sum := by
  induction os with
  | nil => rfl
  | cons e os ih =>
      cases e with
      | malloc a => simp [of_malloc, Event.allocations, ih, add_comm]
      | free a => simpa [mallocs, Event.allocations] using ih
      | shared a => simpa [mallocs, Event.allocations] using ih

/-- The growths that the buffers have left. -/
def allGrowths (l : List BufferObject) : ℕ := (l.map fun b => growthsLeft b.mSize).sum

lemma allGrowths_eraseIdx (hk : l[k]? = some b) :
    allGrowths l = growthsLeft b.mSize + allGrowths (l.eraseIdx k) := by
  obtain ⟨hlt, rfl⟩ := List.getElem?_eq_some_iff.mp hk
  exact ((List.getElem_cons_eraseIdx_perm hlt).symm.map _).sum_eq

lemma allGrowths_set (b' : BufferObject) (hk : l[k]? = some b) :
    allGrowths (l.set k b') = growthsLeft b'.mSize + allGrowths (l.eraseIdx k) := by
  obtain ⟨hlt, -⟩ := List.getElem?_eq_some_iff.mp hk
  exact ((List.set_perm_cons_eraseIdx hlt b').map _).sum_eq

lemma allGrowths_append {l' : List BufferObject} :
    allGrowths (l ++ l') = allGrowths l + allGrowths l' := by
  simp [allGrowths]

/-- The capacities are not negative. -/
def Sized (s : BufferStore) : Prop := ∀ b ∈ s.objects, 0 ≤ b.mSize

lemma sized_append (h : ∀ b ∈ l, 0 ≤ b.mSize) (hb' : 0 ≤ b'.mSize) : ∀ b ∈ l ++ [b'], 0 ≤ b.mSize :=
  List.forall_mem_append.mpr ⟨h, fun _ hb => List.mem_singleton.mp hb ▸ hb'⟩

lemma sized_set (h : ∀ b ∈ l, 0 ≤ b.mSize) (hb' : 0 ≤ b'.mSize) :
    ∀ b ∈ l.set k b', 0 ≤ b.mSize := fun b hb =>
  (List.mem_or_eq_of_mem_set hb).elim (h b) fun heq => heq ▸ hb'

lemma cost_frees (mData : Option ℕ) :
    ((mData.toList.map Event.free).map Event.allocations).sum = 0 := by
  rw [← length_mallocs, (of_frees mData).1, List.length_nil]

lemma cost_shares (mData : Option ℕ) :
    ((mData.toList.map Event.shared).map Event.allocations).sum = 0 := by
  rw [← length_mallocs, (of_shares mData).1, List.length_nil]

/-- **One step pays for its allocations**: a new buffer is given 1029, one for its own block. -/
lemma pays (h : Sized s) (hn : machine.next s i = some (u, o)) :
    Sized u ∧ (o.map Event.allocations).sum + allGrowths u.objects ≤
      (if i.creates then 1029 else 0) + allGrowths s.objects := by
  cases i with
  | build how =>
      obtain ⟨done, hbuilt, heq⟩ := Option.map_eq_some_iff.mp hn
      have hsize := (Buffer.construct_loose hbuilt).size_nonneg
      have hleft := Buffer.growthsLeft_le done.self.mSize
      split_ifs at heq with hd
      · obtain ⟨rfl, rfl⟩ := Prod.mk.inj heq
        refine ⟨sized_append h hsize, ?_⟩
        rw [allGrowths_append]
        simp only [allGrowths, members, List.map_singleton, List.sum_singleton,
          Event.allocations, Input.creates, if_true]
        omega
      · obtain ⟨rfl, rfl⟩ := Prod.mk.inj heq
        refine ⟨sized_append h hsize, ?_⟩
        simp only [allGrowths_append]
        simp only [allGrowths, members, List.map_singleton, List.sum_singleton, List.map_nil,
          List.sum_nil, Input.creates, if_true]
        omega
  | copy k =>
      obtain ⟨b, hk, heq⟩ := Option.map_eq_some_iff.mp hn
      obtain ⟨rfl, rfl⟩ := Prod.mk.inj heq
      have hleft := Buffer.growthsLeft_le b.mSize
      refine ⟨sized_append h (h b (List.mem_of_getElem? hk)), ?_⟩
      rw [cost_shares, allGrowths_append]
      simp only [allGrowths, List.map_singleton, List.sum_singleton, Input.creates, if_true]
      omega
  | call k c =>
      obtain ⟨b, hk, hcall⟩ := Option.bind_eq_some_iff.mp hn
      obtain ⟨done, hdone, heq⟩ := Option.map_eq_some_iff.mp hcall
      obtain ⟨hsize, hleft⟩ := Buffer.growthsLeft_call
        (b := s.view b) (h b (List.mem_of_getElem? hk)) hdone
      have hold := allGrowths_eraseIdx hk
      split_ifs at heq with hgrows
      · obtain ⟨rfl, rfl⟩ := Prod.mk.inj heq
        rw [if_pos hgrows] at hleft
        refine ⟨sized_set h hsize, ?_⟩
        rw [List.map_cons, List.sum_cons, cost_frees, allGrowths_set _ hk]
        change 1 + 0 + (growthsLeft done.self.mSize + _) ≤ 0 + _
        change _ ≤ growthsLeft b.mSize at hleft
        omega
      · obtain ⟨rfl, rfl⟩ := Prod.mk.inj heq
        rw [if_neg hgrows] at hleft
        refine ⟨sized_set h hsize, ?_⟩
        rw [List.map_nil, List.sum_nil, allGrowths_set _ hk]
        change 0 + (growthsLeft done.self.mSize + _) ≤ 0 + _
        change _ ≤ growthsLeft b.mSize at hleft
        omega
  | destroy k =>
      obtain ⟨b, hk, heq⟩ := Option.map_eq_some_iff.mp hn
      obtain ⟨rfl, rfl⟩ := Prod.mk.inj heq
      have hold := allGrowths_eraseIdx hk
      refine ⟨fun b' hb' => h b' (List.mem_of_mem_eraseIdx hb'), ?_⟩
      rw [cost_frees]
      change 0 + allGrowths (s.objects.eraseIdx k) ≤ 0 + _
      omega

/-- The only buffer of a program is called: its members are what the call leaves. -/
lemma exists_called {c : Call} {d : Done Buffer.Answer} (hs : s.objects = [b])
    (hd : (s.view b).call c = some d) : ∃ u b' o, machine.next s (.call 0 c) = some (u, o) ∧
      u.objects = [b'] ∧ u.view b' = d.self ∧
      (mallocs o).length = if (s.view b).grows c then 1 else 0 := by
  have hnext : machine.next s (.call 0 c) = BufferStore.call s 0 b c := by simp [machine, hs]
  cases hg : (s.view b).grows c with
  | true =>
      rw [BufferStore.call, hd, Option.map_some, if_pos hg] at hnext
      refine ⟨_, members d.self (some s.next), _, hnext, by rw [hs]; rfl, ?_, ?_⟩
      · simp [view, members]
      · simp [of_malloc, of_frees]
  | false =>
      have hblock := (Buffer.not_grows_spec hd hg).1
      rw [BufferStore.call, hd, Option.map_some, if_neg (by simp [hg])] at hnext
      refine ⟨_, members d.self b.mData, _, hnext, by rw [hs]; rfl, ?_, rfl⟩
      cases hdata : b.mData with
      | none =>
          have hnone : d.self.mData = none := by simpa [view, hdata] using hblock
          simp [view, members, setBlock, ← hnone]
      | some a => simp [view, members, setBlock]

/-- A program with one buffer, of a rounded capacity, that makes it grow as often as it can. -/
lemma exists_growing (n : ℕ) (hs : s.objects = [b]) (hb : (s.view b).Ranged)
    (hr : Buffer.Rounded (s.view b).mSize) (hn : growthsLeft (s.view b).mSize = n) :
    ∃ is os u, machine.Run s is os u ∧ is.countP Input.creates = 0 ∧ (mallocs os).length = n := by
  induction n generalizing s b with
  | zero => exact ⟨[], [], s, .nil, rfl, rfl⟩
  | succ n ih =>
      have hlt : (s.view b).mSize < bufferSizeMax := by
        refine lt_of_le_of_ne hb.size_le fun heq => ?_
        have hfull : growthsLeft bufferSizeMax = 0 :=
          (Buffer.growthsLeft_linear (by decide)).trans (by decide)
        rw [heq, hfull] at hn
        exact absurd hn (Nat.succ_ne_zero n).symm
      -- it is cleared, and asked for one byte too many
      obtain ⟨v, b₁, o₁, hclear, hv, hview, hnone⟩ := exists_called (c := .clear) hs rfl
      have hcleared : (v.view b₁).length = 0 := by rw [hview]; rfl
      have hsize : (v.view b₁).mSize = (s.view b).mSize := by rw [hview]; rfl
      obtain ⟨c, d, hd, hg, hb', hr', hleft⟩ := Buffer.Ranged.exists_grows
        (b := v.view b₁) (hview ▸ hb.clear) (hsize ▸ hr) (hsize ▸ hlt) hcleared
      obtain ⟨w, b₂, o₂, hgrow, hw, hview', hone⟩ := exists_called hv hd
      rw [hg, if_pos rfl] at hone
      rw [← hview', hsize] at hleft
      rw [← hview'] at hb' hr'
      obtain ⟨is, os, u, hrun, hcreates, hlen⟩ := ih hw hb' hr' (by omega)
      refine ⟨.call 0 .clear :: .call 0 c :: is, o₁ ++ (o₂ ++ os), u,
        (hrun.cons hgrow).cons hclear, by simpa [Input.creates] using hcreates, ?_⟩
      have hzero : (mallocs o₁).length = 0 := by rw [hnone]; rfl
      simp only [mallocs_append, List.length_append]
      omega

/-- The credits of a run. -/
lemma sum_credits (is : List Input) :
    (is.map fun i => if i.creates then 1029 else 0).sum = 1029 * is.countP Input.creates := by
  induction is with
  | nil => rfl
  | cons i is ih =>
      rw [List.map_cons, List.sum_cons, List.countP_cons, ih]
      split_ifs <;> ring

/-- **A buffer allocates at most 1029 times.** In every program that builds, copies, calls and
destroys buffers, at most 1029 blocks are allocated for each buffer built or copied, whatever is
appended to them; and some program with one buffer allocates as many. -/
theorem most_mallocs :
    (∀ is os s, machine.Run empty is os s →
      (mallocs os).length ≤ 1029 * is.countP Input.creates) ∧
    ∃ is os s, machine.Run empty is os s ∧ is.countP Input.creates = 1 ∧
      (mallocs os).length = 1029 := by
  constructor
  · intro is os s hrun
    have hsized : Sized empty := fun b hb => absurd hb List.not_mem_nil
    have hpaid := hrun.potential (Φ := fun s => allGrowths s.objects) hsized
      fun t i u o ht hn => pays ht hn
    rw [sum_credits, ← length_mallocs] at hpaid
    exact (Nat.le_add_right _ _).trans hpaid
  · -- a string of one character books a capacity of one
    obtain ⟨s, b, hbuilt, hs, hview⟩ : ∃ s b,
        machine.next empty (.build (.ofString (fun _ => 0) [97])) = some (s, [.malloc 0]) ∧
        s.objects = [b] ∧
        s.view b = (Buffer.ofString (fun _ => 0) [97]).self := ⟨_, _, rfl, rfl, rfl⟩
    have hranged : (s.view b).Ranged := by
      rw [hview]
      exact ⟨by decide, by decide, by decide, by decide, by decide, by decide⟩
    have hrounded : Buffer.Rounded (s.view b).mSize := by
      rw [hview]
      exact Or.inl ⟨0, by decide, rfl⟩
    obtain ⟨is, os, u, hrun, hcreates, hlen⟩ :=
      exists_growing 1028 hs hranged hrounded (by rw [hview]; rfl)
    refine ⟨.build (.ofString (fun _ => 0) [97]) :: is, _, u, hrun.cons hbuilt, ?_, ?_⟩
    · rw [List.countP_cons, hcreates]
      rfl
    rw [mallocs_append, List.length_append, hlen]
    rfl

end BufferStore

end Xsix

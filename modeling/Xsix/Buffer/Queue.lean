import Xsix.Buffer.Append
import Xsix.Library.Fifo

/-!
The buffer of fixed capacity as a bounded queue of bytes.

`Contract` says, call by call, what the operations owe a caller who sees only the
queue: the bytes `append` adds, those `write_to` and `peek` deliver, those `skip`
and `clear` drop. `call_contract` proves it for one admissible call on a
well-formed buffer and `buffer_refines_queue` for any sequence of them, together
with the conservation law of first-in first-out histories: what was stored and
appended is what was taken out followed by what is still there.
-/

namespace Xsix

open CInt Memory

namespace Buffer

variable {b b₀ : Buffer} {c : Call}

/-- The calls a client of fixed capacity makes: `append` within the free size, and
positive sizes and real arrays everywhere. -/
def Admissible (b : Buffer) : Call → Prop
  | .append _ src n => src.isSome ∧ 0 < n.toInt ∧ n.toInt ≤ b.getFreeSize
  | .writeTo dst n => dst.isSome ∧ 0 < n.toInt
  | .peek dst n => dst.isSome ∧ 0 < n.toInt
  | .skip n => 0 < n.toInt
  | .clear => True
  | .retrieveAllAsString => False

instance : ∀ (b : Buffer) (c : Call), Decidable (Admissible b c)
  | b, .append _ src n =>
      inferInstanceAs (Decidable (src.isSome ∧ 0 < n.toInt ∧ n.toInt ≤ b.getFreeSize))
  | _, .writeTo dst n => inferInstanceAs (Decidable (dst.isSome ∧ 0 < n.toInt))
  | _, .peek dst n => inferInstanceAs (Decidable (dst.isSome ∧ 0 < n.toInt))
  | _, .skip n => inferInstanceAs (Decidable (0 < n.toInt))
  | _, .clear => inferInstanceAs (Decidable True)
  | _, .retrieveAllAsString => inferInstanceAs (Decidable False)

/-- The array `m` received exactly the bytes `xs`, at its start. -/
def Received (m m' : Bytes) (xs : List UInt8) : Prop :=
  read m' 0 xs.length = xs ∧ ∀ i : ℤ, i < 0 ∨ xs.length ≤ i → m' i = m i

/-- What a call made on `b` owes its caller. -/
def Contract (b : Buffer) : Call → Done Answer → Prop
  | .append _ src n, d => ∀ s, src = some s →
      d.ret = .count n.toInt ∧ d.self.content = b.content ++ read s 0 n.toInt
  | .writeTo dst n, d => ∀ m, dst = some m → ∃ m',
      d.ret = .delivered (min n.toInt b.length) (some m') ∧
      Received m m' (b.content.take (min n.toInt b.length).toNat) ∧
      d.self.content = b.content.drop (min n.toInt b.length).toNat
  | .peek dst n, d => ∀ m, dst = some m → ∃ m',
      d.ret = .delivered (min n.toInt b.length) (some m') ∧
      Received m m' (b.content.take (min n.toInt b.length).toNat) ∧
      d.self = b
  | .skip n, d =>
      (n.toInt ≤ b.length → d.ret = .flag true ∧ d.self.content = b.content.drop n.toInt.toNat) ∧
      (b.length < n.toInt → d.ret = .flag false ∧ d.self = b)
  | .clear, d => d.self.content = []
  | .retrieveAllAsString, _ => True

/-- The observers describe the queue. -/
def ObserversAgree (b : Buffer) : Prop :=
  (b.empty = true ↔ b.content = []) ∧
    (b.full = true ↔ (b.content.length : ℤ) = b.mSize) ∧
    b.length = b.content.length ∧ (b.content.length : ℤ) ≤ b.mSize

/-- The queue event a call stands for: the bytes it took in or gave out. -/
def transfer (e : Event) : List (Fifo.Event UInt8) :=
  match e.call, e.done.ret with
  | .append _ (some s) _, .count n => [.accept (read s 0 n)]
  | .writeTo _ _, .delivered n (some m) => [.release (read m 0 n)]
  | .skip n, .flag true => [.release (e.before.content.take n.toInt.toNat)]
  | .clear, _ => [.release e.before.content]
  | _, _ => []

lemma Shaped.observersAgree (h : Shaped b) : ObserversAgree b := by
  have hlen := h.length_content
  refine ⟨h.empty_iff_content, ?_, hlen.symm, ?_⟩
  · rw [h.full_iff, hlen]
  · rw [hlen]
    exact h.length_le

/-! ### One call -/

lemma WellFormed.size_le_two_pow (h : WellFormed b) : b.mSize ≤ 2 ^ 30 := by
  exact h.size_le.trans (by decide)

lemma take_content {n : ℤ} (h0 : 0 ≤ n) (h1 : n ≤ b.length) :
    b.content.take n.toNat = cyclic b.cells b.mSize b.mHead n :=
  take_cyclic h0 h1

/-- What `write_to` and `peek` copy out of a buffer that is not empty. -/
lemma Shaped.received_copyOut (h : Shaped b) (limit : ℤ) (m : Bytes) {n : ℤ}
    (h0 : 0 ≤ n) (h1 : n ≤ b.length) :
    Received m (b.copyOut limit m n).1 (b.content.take n.toNat) := by
  have hlen : ((b.content.take n.toNat).length : ℤ) = n := by
    rw [take_content h0 h1, length_cyclic]
    omega
  refine ⟨?_, fun i hi => h.copyOut_outside limit m h0 h1 (by omega)⟩
  rw [hlen, h.read_copyOut limit m h0 h1, take_content h0 h1]

/-- What the two reading operations hand to the caller. -/
lemma Shaped.delivered (h : Shaped b) (m : Bytes) {n : ℤ} (h0 : 0 < n) :
    (b.content = [] ∧ b.writeTo (some m) n = ⟨(0, some m), b, []⟩ ∧
      b.peek (some m) n = ⟨(0, some m), b, []⟩) ∨
    (0 < min n b.length ∧
      (b.writeTo (some m) n).ret = (min n b.length, some (b.copyOut n m (min n b.length)).1) ∧
      (b.writeTo (some m) n).self = b.advanceHead (min n b.length) ∧
      (b.peek (some m) n).ret = (min n b.length, some (b.copyOut n m (min n b.length)).1) ∧
      (b.peek (some m) n).self = b) := by
  rcases deliver_cases b (some m) n with
    ⟨hnone | hzero | hempty, hw, hp⟩ | ⟨m', k, hm, -, hempty, hk, hw, hp⟩
  · simp at hnone
  · exact absurd hzero h0.ne'
  · exact Or.inl ⟨h.empty_iff_content.mp hempty, hw, hp⟩
  · obtain rfl : m = m' := Option.some.inj hm
    have hpos := h.length_pos hempty
    have hmin : k = min n b.length := by
      rw [hk, min_def]
      split_ifs <;> omega
    rw [hw, hp, hmin]
    exact Or.inr ⟨by omega, rfl, rfl, rfl, rfl⟩

lemma WellFormed.advanceHead (h : WellFormed b) {n : ℤ} (h0 : 0 ≤ n) (h1 : n ≤ b.length) :
    WellFormed (b.advanceHead n) ∧ (b.advanceHead n).mSize = b.mSize := by
  have hself := h.toShaped.advanceHead_eq h0 h1 h.size_le_two_pow
  have hms : (b.advanceHead n).mSize = b.mSize := by rw [hself]
  refine ⟨⟨h.toShaped.advanceHead_shaped h0 h1 h.size_le_two_pow, hms ▸ h.size_le, ?_⟩, hms⟩
  rw [hself]
  exact h.cells_eq

lemma WellFormed.clear (h : WellFormed b) : WellFormed b.clear ∧ b.clear.content = [] := by
  refine ⟨{ h with
    head_nonneg := le_rfl
    head_lt := h.size_pos
    tail_nonneg := le_rfl
    tail_lt := h.size_pos
    full_imp := fun _ => rfl }, ?_⟩
  simp [content, Buffer.clear, length, empty, full]

/-- **One admissible call** on a well-formed buffer returns, keeps its contract and
the capacity, and is a legal step of a queue. -/
lemma WellFormed.call_contract (h : WellFormed b) (ha : Admissible b c) :
    ∃ d, b.call c = some d ∧ WellFormed d.self ∧ d.self.mSize = b.mSize ∧ Contract b c d ∧
      Fifo.Legal b.content (transfer ⟨b, c, d⟩) d.self.content := by
  have hs := h.toShaped
  have hsize := h.size_le_two_pow
  have hl0 := hs.length_nonneg
  cases c with
  | append fresh src n =>
      obtain ⟨hsrc, hn0, hn1⟩ := ha
      obtain ⟨s, rfl⟩ := Option.isSome_iff_exists.mp hsrc
      have hfree := hs.getFreeSize_eq
      have hroom : b.mTail < b.mHead → b.mTail + n.toInt ≤ b.mSize := by
        have := hs.head_lt
        rcases hs.cases with ⟨-, he, hl⟩ | ⟨-, he, hl⟩ | ⟨-, he, hl⟩ <;> omega
      have hcall : b.call (.append fresh (some s) n)
          = some ⟨.count n.toInt, (b.appendInPlace s n.toInt).self,
            (b.appendInPlace s n.toInt).touched⟩ := by
        simp only [call, append, if_neg (not_le.mpr hn0), if_neg (not_lt.mpr hn1), Option.map_some,
          appendInPlace]
      obtain ⟨hshaped, hms, halloc, -⟩ :=
        hs.appendInPlace_shaped s hn0 (by omega) hsize hroom
      obtain ⟨-, hcontent⟩ := hs.appendInPlace_content s hn0 (by omega) hsize
      refine ⟨_, hcall, ⟨hshaped, ?_, ?_⟩, hms, ?_, ?_⟩
      · exact hms ▸ h.size_le
      · rw [halloc, hms]
        exact h.cells_eq
      · rintro s' hs'
        obtain rfl : s = s' := by simpa using hs'
        exact ⟨rfl, hcontent⟩
      · exact hcontent.symm
  | writeTo dst n =>
      obtain ⟨hdst, hn0⟩ := ha
      obtain ⟨m, rfl⟩ := Option.isSome_iff_exists.mp hdst
      refine ⟨_, rfl, ?_⟩
      rcases h.delivered m hn0 with ⟨hnil, hw, -⟩ | ⟨hpos, hret, hself, -⟩
      · have hzero : b.length = 0 := by rw [← hs.length_content, hnil]; rfl
        simp only [hw]
        refine ⟨h, trivial, ?_, ⟨_, by simp, rfl⟩⟩
        rintro m' hm'
        obtain rfl : m = m' := by simpa using hm'
        refine ⟨m, by simp [hzero, min_eq_right hn0.le], ?_, by simp [hnil]⟩
        exact ⟨by simp [hnil], fun i _ => rfl⟩
      · have hle : min n.toInt b.length ≤ b.length := min_le_right _ _
        obtain ⟨hwf, hms⟩ := h.advanceHead hpos.le hle
        have hdrop := (hs.advanceHead_content hpos hle hsize).2
        simp only [hret, hself]
        refine ⟨hwf, hms, ?_, ⟨b.content.drop (min n.toInt b.length).toNat, ?_, hdrop.symm⟩⟩
        · rintro m' hm'
          obtain rfl : m = m' := by simpa using hm'
          exact ⟨_, rfl, h.received_copyOut _ _ hpos.le hle, hdrop⟩
        · rw [hs.read_copyOut _ _ hpos.le hle, ← take_content hpos.le hle,
            List.take_append_drop]
  | peek dst n =>
      obtain ⟨hdst, hn0⟩ := ha
      obtain ⟨m, rfl⟩ := Option.isSome_iff_exists.mp hdst
      refine ⟨_, rfl, ?_⟩
      rcases h.delivered m hn0 with ⟨hnil, -, hp⟩ | ⟨hpos, -, -, hret, hself⟩
      · have hzero : b.length = 0 := by rw [← hs.length_content, hnil]; rfl
        simp only [hp]
        refine ⟨h, trivial, ?_, rfl⟩
        rintro m' hm'
        obtain rfl : m = m' := by simpa using hm'
        refine ⟨m, by simp [hzero, min_eq_right hn0.le], ?_, rfl⟩
        exact ⟨by simp [hnil], fun i _ => rfl⟩
      · have hle : min n.toInt b.length ≤ b.length := min_le_right _ _
        simp only [hret, hself]
        refine ⟨h, trivial, ?_, rfl⟩
        rintro m' hm'
        obtain rfl : m = m' := by simpa using hm'
        exact ⟨_, rfl, h.received_copyOut _ _ hpos.le hle, rfl⟩
  | skip n =>
      have hn0 : 0 < n.toInt := ha
      refine ⟨_, rfl, ?_⟩
      by_cases hlt : b.length < n.toInt
      · have hskip : b.skip n.toInt = ⟨false, b, []⟩ := by
          simp only [skip, if_neg (not_le.mpr hn0), if_pos hlt]
        simp only [hskip]
        exact ⟨h, trivial, ⟨fun hle => absurd hlt (not_lt.mpr hle), fun _ => ⟨rfl, rfl⟩⟩, rfl⟩
      · have hle : n.toInt ≤ b.length := not_lt.mp hlt
        have hskip : b.skip n.toInt = ⟨true, b.advanceHead n.toInt, [.modulo b.mSize]⟩ := by
          simp only [skip, if_neg (not_le.mpr hn0), if_neg hlt]
        obtain ⟨hwf, hms⟩ := h.advanceHead hn0.le hle
        have hdrop := (hs.advanceHead_content hn0 hle hsize).2
        simp only [hskip]
        refine ⟨hwf, hms, ⟨fun _ => ⟨rfl, hdrop⟩, fun hlt' => absurd hlt' hlt⟩,
          ⟨b.content.drop n.toInt.toNat, by rw [List.take_append_drop], hdrop.symm⟩⟩
  | clear =>
      obtain ⟨hwf, hnil⟩ := h.clear
      exact ⟨_, rfl, hwf, rfl, hnil, ⟨[], by simp, by simp [hnil, Fifo.Legal]⟩⟩
  | retrieveAllAsString => exact ha.elim

/-! ### Sequences of calls -/

/-- **The fixed-capacity buffer refines a bounded queue.** From a well-formed
buffer, along any sequence of admissible calls: every call keeps its contract, the
observers describe the queue, every admissible call returns, and the bytes stored
at the start and appended since are those taken out, in order, followed by those
still there. -/
theorem buffer_refines_queue {cs : List Call} {os : List Event} (h₀ : WellFormed b₀)
    (hrun : (machine.restrict Admissible).Run b₀ cs os b) :
    (WellFormed b ∧ b.mSize = b₀.mSize ∧ ObserversAgree b) ∧
      (∀ e ∈ os, Contract e.before e.call e.done ∧ ObserversAgree e.before) ∧
      b₀.content ++ Fifo.accepted (os.flatMap transfer)
        = Fifo.released (os.flatMap transfer) ++ b.content ∧
      ∀ c, Admissible b c → ∃ d, b.call c = some d := by
  have hstep : ∀ {t u : Buffer} {c : Call} {o : List Event}, WellFormed t →
      (machine.restrict Admissible).next t c = some (u, o) →
      ∃ d, o = [⟨t, c, d⟩] ∧ u = d.self ∧ WellFormed u ∧ u.mSize = t.mSize ∧ Contract t c d ∧
        Fifo.Legal t.content (transfer ⟨t, c, d⟩) u.content := by
    intro t u c o ht hnext
    obtain ⟨ha, hn⟩ := Machine.restrict_next_iff.mp hnext
    obtain ⟨d, hcall, hwf, hms, hcontract, hlegal⟩ := ht.call_contract ha
    have heq : (d.self, [⟨t, c, d⟩]) = (u, o) := by
      simpa only [machine, hcall, Option.map_some, Option.some.injEq] using hn
    obtain ⟨rfl, rfl⟩ := Prod.mk.inj heq
    exact ⟨d, rfl, rfl, hwf, hms, hcontract, hlegal⟩
  obtain ⟨⟨hwf, hsame⟩, hevents⟩ : (WellFormed b ∧ b.mSize = b₀.mSize) ∧
      ∀ e ∈ os, Contract e.before e.call e.done ∧ ObserversAgree e.before :=
    hrun.forall_events (I := fun t => WellFormed t ∧ t.mSize = b₀.mSize) (C := fun _ => True)
      (fun _ _ => trivial) ⟨h₀, rfl⟩ fun t i u o ht hn _ => by
        obtain ⟨d, rfl, rfl, hu, hms, hcontract, -⟩ := hstep ht.1 hn
        exact ⟨⟨hu, hms.trans ht.2⟩,
          List.forall_mem_singleton.mpr ⟨hcontract, ht.1.toShaped.observersAgree⟩⟩
  have hlegal : Fifo.Legal b₀.content (os.flatMap transfer) b.content :=
    hrun.legal content transfer h₀
      (fun t i u o ht hn => by obtain ⟨d, -, -, hu, -⟩ := hstep ht hn; exact hu)
      fun t i u o ht hn => by
        obtain ⟨d, rfl, -, -, -, -, hl⟩ := hstep ht hn
        simpa using hl
  refine ⟨⟨hwf, hsame, hwf.toShaped.observersAgree⟩, hevents, hlegal.conservation, ?_⟩
  intro c hc
  obtain ⟨d, hd, -⟩ := hwf.call_contract hc
  exact ⟨d, hd⟩

/-- An empty ring of four cells whose positions are at the last of them. -/
def ringOfFour : Buffer := ⟨some ⟨4, fun _ => 0⟩, 4, 3, 3, false⟩

lemma wellFormed_ringOfFour : WellFormed ringOfFour :=
  ⟨⟨rfl, by decide, by decide, by decide, by decide, by decide, by decide, by decide⟩,
    by decide, rfl⟩

/-- Three bytes wrap around the end of the ring; two of them are taken out. -/
theorem buffer_refines_queue_ringOfFour :
    ∃ os b, (machine.restrict Admissible).Run ringOfFour
        [.append (fun _ => 0) (some (cStr [1, 2, 3])) 3, .writeTo (some fun _ => 0) 2] os b ∧
      (WellFormed b ∧ b.mSize = 4 ∧ ObserversAgree b) ∧
      ringOfFour.content ++ Fifo.accepted (os.flatMap transfer)
        = Fifo.released (os.flatMap transfer) ++ b.content := by
  obtain ⟨os, b, hrun⟩ : ∃ os b, (machine.restrict Admissible).Run ringOfFour
      [.append (fun _ => 0) (some (cStr [1, 2, 3])) 3, .writeTo (some fun _ => 0) 2] os b :=
    ⟨_, _, Machine.run_iff_exec.mpr rfl⟩
  have hqueue := buffer_refines_queue wellFormed_ringOfFour hrun
  exact ⟨os, b, hrun, hqueue.1, hqueue.2.2.1⟩

end Buffer

end Xsix

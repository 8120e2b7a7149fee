import Xsix.Fmt.Rendering

/-!
How `fmt` ends, in a buffer that holds anything.

One argument of the variadic `fmt` ends in one of two ways, whatever the buffer holds
(`fmt_step`). Followed through all the arguments, that answers the two questions a caller asks.

* Does it throw? Only the last `fmt` does, so the arguments have to be used up before the
  buffer is (`Exhausts`): `fmt_throws_iff`, `missing_arguments_iff`.
* Is there a C string in the buffer? Only the last `fmt` and `v2s` end one, and the loop
  writes over the end that `v2s` left. `Inked` follows the cells that were written, and
  `Settles` says that nothing is put out after some argument: `fmt_proper_iff`.
-/

namespace Xsix

namespace Fmt

open CInt

variable {format : List UInt8} {pre rest ts : List Token} {s s' : Sheet} {size : ℤ} {n : ℕ}
  {c : UInt8}

/-! ### The placeholders that are met -/

/-- Two ways to cut a list of tokens at a placeholder, the first of them at the first
one. -/
lemma split_placeholder {pre' : List Token} (hpre : .placeholder ∉ pre)
    (h : pre ++ .placeholder :: ts = pre' ++ .placeholder :: rest) :
    (pre' = pre ∧ rest = ts) ∨
      ∃ mid, pre' = pre ++ .placeholder :: mid ∧ ts = mid ++ .placeholder :: rest := by
  induction pre generalizing pre' with
  | nil =>
      cases pre' with
      | nil => exact Or.inl ⟨rfl, (List.cons.inj h).2.symm⟩
      | cons t pre' =>
          obtain ⟨rfl, hts⟩ := List.cons.inj h
          exact Or.inr ⟨pre', rfl, hts⟩
  | cons t pre ih =>
      rw [List.mem_cons, not_or] at hpre
      cases pre' with
      | nil => exact absurd (List.cons.inj h).1.symm hpre.1
      | cons t' pre' =>
          obtain ⟨rfl, hrest⟩ := List.cons.inj h
          rcases ih hpre.2 hrest with ⟨rfl, rfl⟩ | ⟨mid, rfl, rfl⟩
          · exact Or.inl ⟨rfl, rfl⟩
          · exact Or.inr ⟨mid, rfl, rfl⟩

/-- Entered at cell `n`, the loop fills a placeholder at cell `m`, before the last one, with the
text `val`; the format goes on with `rest`, and `args'` are the arguments left. -/
def Fills (size : ℤ) (n : ℕ) (ts : List Token) (args : List (List UInt8)) (m : ℕ)
    (val : List UInt8) (rest : List Token) (args' : List (List UInt8)) : Prop :=
  ∃ pre args₁, ts = pre ++ .placeholder :: rest ∧ args = args₁ ++ val :: args' ∧
    pre.count .placeholder = args₁.length ∧ m = n + (render [] pre args₁).length ∧
    (m : ℤ) < size - 1

variable {args args' args₁ : List (List UInt8)} {val v : List UInt8} {m : ℕ}

lemma length_render_cons {mid : List Token} (hpre : .placeholder ∉ pre) :
    (render [] (pre ++ .placeholder :: mid) (val :: args₁)).length
      = (literal pre).length + val.length + (render [] mid args₁).length := by
  rw [render_append hpre, render, List.length_append, List.length_append, literal]
  ring

/-- A text fills the first placeholder, or it fills one after that. -/
lemma fills_cons {k n' : ℕ} (hpre : .placeholder ∉ pre) (hk : k = n + (literal pre).length)
    (hlt : (k : ℤ) < size - 1) (hn' : n' = min (k + val.length) (size - 1).toNat) :
    Fills size n (pre ++ .placeholder :: ts) (val :: args) m v rest args' ↔
      (m = k ∧ v = val ∧ rest = ts ∧ args' = args) ∨ Fills size n' ts args m v rest args' := by
  constructor
  · rintro ⟨pre', args₁, hsplit, hargs, hcount, hm, hroom⟩
    rcases split_placeholder hpre hsplit with ⟨rfl, rfl⟩ | ⟨mid, rfl, rfl⟩
    · -- no text comes before that of the first placeholder
      rw [List.count_eq_zero.mpr hpre] at hcount
      obtain rfl := List.length_eq_zero_iff.mp hcount.symm
      obtain ⟨rfl, rfl⟩ := List.cons.inj hargs
      exact Or.inl ⟨hm.trans hk.symm, rfl, rfl, rfl⟩
    · rw [List.count_append, List.count_eq_zero.mpr hpre, List.count_cons_self] at hcount
      cases args₁ with
      | nil => simp at hcount
      | cons val₁ args₁ =>
          obtain ⟨rfl, rfl⟩ := List.cons.inj hargs
          rw [length_render_cons hpre] at hm
          rw [List.length_cons] at hcount
          exact Or.inr ⟨mid, args₁, rfl, rfl, by omega, by omega, hroom⟩
  · rintro (⟨rfl, rfl, rfl, rfl⟩ | ⟨mid, args₁, rfl, rfl, hcount, hm, hroom⟩)
    · exact ⟨pre, [], rfl, rfl, List.count_eq_zero.mpr hpre, hk, hlt⟩
    · refine ⟨pre ++ .placeholder :: mid, val :: args₁, by simp, rfl, ?_, ?_, hroom⟩
      · rw [List.count_append, List.count_eq_zero.mpr hpre, List.count_cons_self, hcount,
          List.length_cons, zero_add]
      · rw [length_render_cons hpre]
        omega

/-- A loop that ended without a placeholder fills none. -/
lemma not_fills_of_finished (hpre : .placeholder ∉ pre)
    (hend : ts = [] ∨ size - 1 ≤ n + (literal pre).length) :
    ¬Fills size n (pre ++ ts) args m val rest args' := by
  rintro ⟨pre', args₁, h, -, -, hm, hroom⟩
  rcases List.append_eq_append_iff.mp h with ⟨mid, rfl, -⟩ | ⟨mid, rfl, hmid⟩
  · rw [render_append hpre, List.length_append, ← literal] at hm
    rcases hend with rfl | hfull
    · have hmem : Token.placeholder ∈ pre ++ [] := by
        rw [h]
        simp
      exact hpre (by simpa using hmem)
    · omega
  · cases mid with
    | nil =>
        rw [List.append_nil] at hpre hend
        rcases hend with rfl | hfull
        · simp at hmid
        · have hnone : render [] (pre' ++ []) args₁ = literal pre' ++ render [] [] args₁ :=
            render_append hpre
          rw [List.append_nil, render, List.append_nil] at hnone
          rw [hnone] at hm
          omega
    | cons t mid =>
        obtain ⟨rfl, -⟩ := List.cons.inj hmid
        exact hpre (by simp)

lemma Fills.ne_nil (h : Fills size n ts args m val rest args') : args ≠ [] := by
  obtain ⟨pre, args₁, -, rfl, -⟩ := h
  simp

/-! ### When `fmt` throws -/

/-- The arguments are used up before the buffer is, `rest` being what the last `fmt` is
given of the format. -/
def Exhausts (size : ℤ) (n : ℕ) (ts : List Token) (args : List (List UInt8))
    (rest : List Token) : Prop :=
  (args = [] ∧ rest = ts) ∨ ∃ m val, Fills size n ts args m val rest []

/-- One argument less to use up. -/
lemma exhausts_cons {k n' : ℕ} (hpre : .placeholder ∉ pre) (hk : k = n + (literal pre).length)
    (hlt : (k : ℤ) < size - 1) (hn' : n' = min (k + val.length) (size - 1).toNat) :
    Exhausts size n (pre ++ .placeholder :: ts) (val :: args) rest ↔
      Exhausts size n' ts args rest := by
  constructor
  · rintro (⟨hnil, -⟩ | ⟨m, v, hfills⟩)
    · simp at hnil
    · rcases (fills_cons hpre hk hlt hn').mp hfills with ⟨-, -, rfl, hargs⟩ | hlater
      · exact Or.inl ⟨hargs.symm, rfl⟩
      · exact Or.inr ⟨m, v, hlater⟩
  · rintro (⟨rfl, rfl⟩ | ⟨m, v, hlater⟩)
    · exact Or.inr ⟨k, val, (fills_cons hpre hk hlt hn').mpr (Or.inl ⟨rfl, rfl, rfl, rfl⟩)⟩
    · exact Or.inr ⟨m, v, (fills_cons hpre hk hlt hn').mpr (Or.inr hlater)⟩

/-- **When `fmt` throws**: when the arguments are used up before the buffer is, and a
percent sign is left of the format. -/
lemma fmt_throws_iff {args : List Text} (hroom : (n : ℤ) ≤ size - 1) (hsize : IsInt32 size) :
    (∃ e, fmt s n (size - n) format (args.map Text.bytes) = .error e) ↔
      ∃ rest, Exhausts size n (tokens format) (args.map Text.bytes) rest ∧
        (.escape ∈ rest ∨ .placeholder ∈ rest) := by
  induction args generalizing s n format with
  | nil =>
      have hthrow : (∃ e, fmt s n (size - n) format [] = .error e) ↔ percent ∈ format := by
        rw [fmt, ← missingArguments_iff, fmtEnd]
        cases missingArguments format <;> simp
      rw [List.map_nil, hthrow, percent_mem_iff]
      constructor
      · intro h
        exact ⟨_, Or.inl ⟨rfl, rfl⟩, h⟩
      · rintro ⟨rest, ⟨-, rfl⟩ | ⟨m, val, hfills⟩, hmem⟩
        · exact hmem
        · exact absurd rfl hfills.ne_nil
  | cons val args ih =>
      rw [List.map_cons]
      rcases fmt_step s format val (args.map Text.bytes) hroom hsize with
        ⟨pre, ts, hfmt, hsplit, hpre, -, -, hend⟩
        | ⟨pre, format', k, n', hsplit, hpre, hk, hlt, hn', hfmt⟩
      · rw [hfmt, hsplit]
        refine iff_of_false (by simp) ?_
        rintro ⟨rest, ⟨hnil, -⟩ | ⟨m, v, hfills⟩, -⟩
        · simp at hnil
        · exact not_fills_of_finished hpre hend hfills
      · rw [hfmt, hsplit, ih (by omega)]
        exact exists_congr fun rest => and_congr_left' (exhausts_cons hpre hk hlt hn').symm

/-- What is left of the format has the placeholders beyond the arguments. -/
lemma Exhausts.count (h : Exhausts size n ts args rest) :
    ts.count .placeholder = args.length + rest.count .placeholder := by
  rcases h with ⟨rfl, rfl⟩ | ⟨m, val, pre, args₁, rfl, rfl, hcount, -⟩
  · rw [List.length_nil, zero_add]
  · rw [List.count_append, List.count_cons_self, hcount, List.length_append,
      List.length_singleton]
    ring

lemma Exhausts.escape_notMem (h : Exhausts size n ts args rest) (hesc : .escape ∉ ts) :
    .escape ∉ rest := by
  rcases h with ⟨-, rfl⟩ | ⟨m, val, pre, args₁, rfl, -⟩
  · exact hesc
  · exact fun hmem => hesc (by simp [hmem])

/-- **When the missing-argument error depends on the counts only.** For a format without two
adjacent percent signs and a buffer of one byte or more that holds anything: `fmt` throws
exactly when the percent signs outnumber the arguments, if and only if they do not, or the
arguments are used up before the buffer is. -/
theorem missing_arguments_iff {args : List Text} {bufSize : ℤ} (s : Sheet)
    (hsparse : Sparse format) (hpos : 1 ≤ bufSize) (hsize : IsInt32 bufSize) :
    ((∃ e, fmt s 0 bufSize format (args.map Text.bytes) = .error e) ↔
        args.length < format.count percent) ↔
      format.count percent ≤ args.length ∨
        ∃ rest, Exhausts bufSize 0 (tokens format) (args.map Text.bytes) rest := by
  have hthrows : (∃ e, fmt s (0 : ℕ) (bufSize - (0 : ℕ)) format (args.map Text.bytes) = .error e) ↔
      ∃ rest, Exhausts bufSize 0 (tokens format) (args.map Text.bytes) rest ∧
        (.escape ∈ rest ∨ .placeholder ∈ rest) := fmt_throws_iff (by omega) hsize
  rw [Nat.cast_zero, sub_zero] at hthrows
  have hcount : ∀ rest, Exhausts bufSize 0 (tokens format) (args.map Text.bytes) rest →
      format.count percent = args.length + rest.count .placeholder := by
    intro rest h
    rw [← hsparse.count_placeholder, h.count, List.length_map]
  rw [hthrows]
  constructor
  · intro hiff
    by_cases hle : format.count percent ≤ args.length
    · exact Or.inl hle
    · obtain ⟨rest, hrest, -⟩ := hiff.mpr (not_le.mp hle)
      exact Or.inr ⟨rest, hrest⟩
  · intro hcond
    constructor
    · rintro ⟨rest, hrest, hmem⟩
      have hpos := List.count_pos_iff.mpr
        (hmem.resolve_left (hrest.escape_notMem hsparse.escape_notMem))
      have := hcount rest hrest
      omega
    · intro hlt
      obtain ⟨rest, hrest⟩ := hcond.resolve_left (not_le.mpr hlt)
      have := hcount rest hrest
      exact ⟨rest, hrest, Or.inr (List.count_pos_iff.mp (by omega))⟩

/-- One argument for two percent signs, in eight bytes. -/
theorem missing_arguments_eight :
    ∃ e, fmt blank 0 8 (chars "% %") [chars "x"] = .error e := by
  let args : List Text := [⟨chars "x", by decide, by decide⟩]
  have hused : ∃ rest, Exhausts 8 0 (tokens (chars "% %")) (args.map Text.bytes) rest :=
    ⟨[.char 32, .placeholder], Or.inr ⟨0, chars "x", [], [], rfl, rfl, rfl, rfl, by decide⟩⟩
  have hiff : (∃ e, fmt blank 0 8 (chars "% %") (args.map Text.bytes) = .error e) ↔
      args.length < (chars "% %").count percent :=
    (missing_arguments_iff blank (by decide) (by decide) ⟨by decide, by decide⟩).mpr
      (Or.inr hused)
  exact hiff.mpr (by decide)

/-- **The error depends on the buffer**: the same call throws with eight bytes and returns
with one. -/
theorem missing_arguments_unnoticed :
    (∃ e, fmt blank 0 8 (chars "% %") [chars "x"] = .error e) ∧
      (∃ s, fmt blank 0 1 (chars "% %") [chars "x"] = .ok s) ∧
      ¬((∃ e, fmt blank 0 1 (chars "% %") [chars "x"] = .error e) ↔
        ([chars "x"] : List (List UInt8)).length < (chars "% %").count percent) := by
  have hok : fmt blank 0 1 (chars "% %") [chars "x"] = .ok blank := rfl
  refine ⟨⟨_, rfl⟩, ⟨_, hok⟩, fun hiff => ?_⟩
  obtain ⟨e, he⟩ := hiff.mpr (by decide)
  rw [hok] at he
  cases he

/-! ### What `fmt` leaves behind -/

/-- A call that is bounded and terminated: nothing was written outside of the `size` bytes, one
of the bytes written is a terminator, and the C string has only bytes that were written. -/
structure Proper (s : Sheet) (size : ℤ) : Prop where
  inside : ∀ i ∈ s.written, 0 ≤ i ∧ i < size
  ended : 1 ≤ size → ∃ i ∈ s.written, 0 ≤ i ∧ i < size ∧ s.cells i = 0
  fresh : 1 ≤ size → ∀ j, 0 ≤ j → (∀ k, 0 ≤ k → k ≤ j → s.cells k ≠ 0) → j ∈ s.written

/-- The cells before the cursor `n` were written and hold characters, none behind it was
written, and `ended` says whether a terminator stands at the cursor. -/
structure Inked (s : Sheet) (n : ℕ) (ended : Prop) : Prop where
  front : ∀ j : ℕ, j < n → (j : ℤ) ∈ s.written ∧ s.cells j ≠ 0
  within : ∀ i ∈ s.written, 0 ≤ i ∧ i ≤ n
  ended_iff : ((n : ℤ) ∈ s.written ∧ s.cells n = 0) ↔ ended

variable {ended : Prop} {text : List UInt8}

lemma inked_start (cells : ℤ → UInt8) : Inked ⟨cells, []⟩ 0 False where
  front := by simp
  within := by simp
  ended_iff := by simp

lemma Sheet.mem_written_put {i j : ℤ} : j ∈ (s.put i c).written ↔ j ∈ s.written ∨ j = i := by
  simp [Sheet.put]

/-- What is written at the cursor leaves the cells before it. -/
lemma Inked.put (h : Inked s n ended) : Inked (s.put n c) n (c = 0) where
  front j hj := by
    rw [Sheet.mem_written_put, Sheet.put_cells, if_neg (by omega)]
    exact ⟨Or.inl (h.front j hj).1, (h.front j hj).2⟩
  within i hi := by
    rcases Sheet.mem_written_put.mp hi with hi | rfl
    · exact h.within i hi
    · omega
  ended_iff := by
    rw [Sheet.mem_written_put, Sheet.put_cells, if_pos rfl]
    simp

/-- A character put at the cursor and passed. -/
lemma Inked.put_succ (h : Inked s n ended) (hc : c ≠ 0) : Inked (s.put n c) (n + 1) False where
  front j hj := by
    rcases Nat.lt_succ_iff_lt_or_eq.mp hj with hj | rfl
    · exact h.put.front j hj
    · rw [Sheet.mem_written_put, Sheet.put_cells, if_pos rfl]
      exact ⟨Or.inr rfl, hc⟩
  within i hi := by
    have := h.put.within i hi
    push_cast
    omega
  ended_iff := by
    refine iff_of_false (fun hmem => ?_) id
    have := h.put.within _ hmem.1
    push_cast at this
    omega

/-- A text put at the cursor and ended. -/
lemma Inked.puts (h : Inked s n ended) (htext : 0 ∉ text) :
    Inked (s.puts n (text ++ [0])) (n + text.length) True := by
  induction text generalizing s n ended with
  | nil => simpa [Sheet.puts] using h.put (c := 0)
  | cons c text ih =>
      rw [List.mem_cons, not_or] at htext
      have hrest := ih (h.put_succ (Ne.symm htext.1)) htext.2
      rw [List.length_cons, ← Nat.add_assoc, Nat.add_right_comm]
      simpa [Sheet.puts] using hrest

/-- The loop puts characters only, so it writes over the terminator it starts at. -/
lemma Inked.scanned (h : Inked s n ended) (hpre : .placeholder ∉ pre) (hchar : .char 0 ∉ pre) :
    Inked (s.scanned n pre) (n + (literal pre).length) (ended ∧ pre = []) := by
  induction pre generalizing s n ended with
  | nil => simpa [Sheet.scanned] using h
  | cons t pre ih =>
      rw [List.mem_cons, not_or] at hpre hchar
      cases t with
      | escape =>
          have hrest := ih (h.put (c := percent)) hpre.2 hchar.2
          simpa [Sheet.scanned, percent] using hrest
      | placeholder => exact absurd rfl hpre.1
      | char c =>
          have hc : c ≠ 0 := fun h0 => hchar.1 (h0 ▸ rfl)
          have hrest := ih (h.put_succ hc) hpre.2 hchar.2
          rw [literal_char, List.length_cons, ← Nat.add_assoc, Nat.add_right_comm]
          simpa [Sheet.scanned] using hrest

/-- A buffer whose cursor is inside of it is left properly if a terminator stands there. -/
lemma Inked.proper_iff (h : Inked s n ended) (hlt : (n : ℤ) < size) : Proper s size ↔ ended := by
  rw [← h.ended_iff]
  constructor
  · intro hproper
    obtain ⟨i, hi, hnonneg, -, hzero⟩ := hproper.ended (by omega)
    lift i to ℕ using hnonneg
    have hle := (h.within i hi).2
    rcases Nat.lt_or_eq_of_le (by exact_mod_cast hle : i ≤ n) with hfront | rfl
    · exact absurd hzero (h.front i hfront).2
    · exact ⟨hi, hzero⟩
  · rintro ⟨hmem, hzero⟩
    refine ⟨fun i hi => ?_, fun _ => ⟨n, hmem, by omega, hlt, hzero⟩, fun _ j hj hne => ?_⟩
    · have := h.within i hi
      omega
    · lift j to ℕ using hj
      by_cases hfront : j < n
      · exact (h.front j hfront).1
      · exact absurd hzero (hne n (by omega) (by omega))

/-- Another terminator does no harm. -/
lemma Proper.put_zero {i : ℤ} (h : Proper s size) (hnonneg : 0 ≤ i) (hlt : i < size) :
    Proper (s.put i 0) size where
  inside j hj := by
    rcases Sheet.mem_written_put.mp hj with hj | rfl
    · exact h.inside j hj
    · exact ⟨hnonneg, hlt⟩
  ended _ := ⟨i, Sheet.mem_written_put.mpr (Or.inr rfl), hnonneg, hlt, by
    rw [Sheet.put_cells, if_pos rfl]⟩
  fresh hpos j hj hne := by
    refine Sheet.mem_written_put.mpr (Or.inl (h.fresh hpos j hj fun k hk hle h0 => ?_))
    refine hne k hk hle ?_
    rw [Sheet.put_cells, h0, ite_self]

/-! ### The last `fmt` -/

lemma copyFormat_inked (h : Inked s n ended) (hroom : (n : ℤ) ≤ size - 1) (hformat : 0 ∉ format) :
    ∃ s' n' ended', copyFormat s (size - 1) n format = (s', ((n' : ℕ) : ℤ)) ∧
      Inked s' n' ended' ∧ (n' : ℤ) ≤ size - 1 := by
  induction format generalizing s n ended with
  | nil => exact ⟨s, n, ended, rfl, h, hroom⟩
  | cons c format ih =>
      rw [copyFormat]
      rw [List.mem_cons, not_or] at hformat
      by_cases hlt : (n : ℤ) < size - 1
      · rw [if_pos hlt]
        exact_mod_cast ih (h.put_succ (Ne.symm hformat.1)) (by push_cast; omega) hformat.2
      · rw [if_neg hlt]
        exact ⟨s, n, ended, rfl, h, hroom⟩

/-- The `fmt` without arguments ends the string in the room that is left. -/
lemma fmtEnd_proper (h : Inked s n ended) (hroom : (n : ℤ) ≤ size - 1) (hformat : 0 ∉ format)
    (hfmt : fmtEnd s n (size - n) format = .ok s') : Proper s' size := by
  obtain ⟨s₁, n', ended', hcopy, hinked, hle⟩ := copyFormat_inked h hroom hformat
  have hend : (n : ℤ) + (size - n) - 1 = size - 1 := by ring
  have hproper : Proper (s₁.put n' 0) size := (hinked.put.proper_iff (by omega)).mpr rfl
  rw [fmtEnd, hend] at hfmt
  split_ifs at hfmt with hmissing
  simp only [hcopy] at hfmt
  obtain rfl := Except.ok.inj hfmt
  split_ifs with hlt
  · exact hproper.put_zero (by omega) (by omega)
  · rwa [show size - 1 = n' by omega]

/-! ### Where nothing is put out any more -/

/-- Some text ends what is put out: its argument is the last one, the format ends with its
placeholder, or it fills the buffer. -/
def Settles (size : ℤ) (n : ℕ) (ts : List Token) (args : List (List UInt8)) : Prop :=
  ∃ m val rest args', Fills size n ts args m val rest args' ∧
    (args' = [] ∨ rest = [] ∨ size - 1 ≤ m + val.length)

/-- One placeholder further. -/
lemma settles_cons {k n' : ℕ} (hpre : .placeholder ∉ pre) (hk : k = n + (literal pre).length)
    (hlt : (k : ℤ) < size - 1) (hn' : n' = min (k + val.length) (size - 1).toNat) :
    Settles size n (pre ++ .placeholder :: ts) (val :: args) ↔
      (args = [] ∨ ts = [] ∨ (n' : ℤ) = size - 1) ∨ Settles size n' ts args := by
  have hfull : (n' : ℤ) = size - 1 ↔ size - 1 ≤ k + val.length := by omega
  rw [hfull]
  constructor
  · rintro ⟨m, v, rest, args', hfills, hend⟩
    rcases (fills_cons hpre hk hlt hn').mp hfills with ⟨rfl, rfl, rfl, rfl⟩ | hlater
    · exact Or.inl hend
    · exact Or.inr ⟨m, v, rest, args', hlater, hend⟩
  · rintro (hend | ⟨m, v, rest, args', hlater, hend⟩)
    · exact ⟨k, val, ts, args, (fills_cons hpre hk hlt hn').mpr (Or.inl ⟨rfl, rfl, rfl, rfl⟩),
        hend⟩
    · exact ⟨m, v, rest, args', (fills_cons hpre hk hlt hn').mpr (Or.inr hlater), hend⟩

lemma notMem_of_char (h : .char 0 ∉ tokens format) : 0 ∉ format := by
  induction format using tokens.induct with
  | case1 => simp
  | case2 => simp [percent]
  | case3 c hc => simpa [tokens, hc] using h
  | case4 format ih => simpa [percent] using ih (by simpa [tokens] using h)
  | case5 d format hd ih => simpa [percent] using ih (by simpa [tokens, hd] using h)
  | case6 c d format hc ih =>
      rw [tokens, if_neg hc, List.mem_cons, not_or] at h
      rw [List.mem_cons, not_or]
      exact ⟨fun h0 => h.1 (h0 ▸ rfl), ih h.2⟩

/-- **How `fmt` leaves a buffer** whose first cells were written already: properly if the last
`fmt` is reached, if a terminator stands at the cursor and nothing is put over it, or if some
later text ends what is put out. -/
lemma fmt_proper {args : List Text} (h : Inked s n ended) (hroom : (n : ℤ) ≤ size - 1)
    (hsize : IsInt32 size) (hformat : .char 0 ∉ tokens format)
    (hfmt : fmt s n (size - n) format (args.map Text.bytes) = .ok s') :
    Proper s' size ↔ args = [] ∨ (ended ∧ (tokens format = [] ∨ (n : ℤ) = size - 1)) ∨
      Settles size n (tokens format) (args.map Text.bytes) := by
  induction args generalizing s n ended format with
  | nil =>
      rw [List.map_nil, fmt] at hfmt
      exact iff_of_true (fmtEnd_proper h hroom (notMem_of_char hformat) hfmt) (Or.inl rfl)
  | cons val args ih =>
      rw [List.map_cons] at hfmt ⊢
      rcases fmt_step s format val (args.map Text.bytes) hroom hsize with
        ⟨pre, ts, hret, hsplit, hpre, hle, hstart, hend⟩
        | ⟨pre, format', k, n', hsplit, hpre, hk, hlt, hn', hrec⟩
      · -- the tokens that are put out, if any, go over the terminator
        obtain rfl := Except.ok.inj (hret.symm.trans hfmt)
        rw [hsplit, List.mem_append, not_or] at hformat
        have hscanned := h.scanned hpre hformat.1
        have hsettles : ¬Settles size n (tokens format) (val.bytes :: args.map Text.bytes) := by
          rintro ⟨m, v, rest, args', hfills, -⟩
          exact not_fills_of_finished hpre hend (hsplit ▸ hfills)
        rw [hscanned.proper_iff (by push_cast; omega), or_iff_right (List.cons_ne_nil _ _),
          or_iff_left hsettles, hsplit, List.append_eq_nil_iff]
        refine and_congr_right fun _ => ⟨?_, ?_⟩
        · rintro rfl
          exact hend.imp (fun hts => ⟨rfl, hts⟩) fun hfull => by simp at hfull; omega
        · rintro (⟨hnil, -⟩ | hfull)
          · exact hnil
          · exact hstart.resolve_right (by omega)
      · -- the text is ended behind the cursor of the next step
        rw [hsplit, List.mem_append, not_or, List.mem_cons, not_or] at hformat
        have hfilled : Inked ((s.scanned n pre).filled size k val.bytes) n' True := by
          have hscanned := h.scanned hpre hformat.1
          rw [← hk] at hscanned
          have hputs : Inked ((s.scanned n pre).filled size k val.bytes)
              (k + (val.bytes.take (size - k - 1).toNat).length) True :=
            hscanned.puts fun hmem => val.unterminated (List.mem_of_mem_take hmem)
          rwa [List.length_take, show k + min (size - k - 1).toNat val.bytes.length = n' by
            omega] at hputs
        rw [ih hfilled (by omega) hformat.2.2 (hrec.symm.trans hfmt), hsplit,
          settles_cons hpre hk hlt hn', List.map_eq_nil_iff]
        have hnow : ¬(ended ∧ (pre ++ .placeholder :: tokens format' = [] ∨
            (n : ℤ) = size - 1)) := by
          rintro ⟨-, hnil | hfull⟩
          · simp at hnil
          · omega
        rw [or_iff_right (List.cons_ne_nil _ _), or_iff_right hnow, true_and, ← or_assoc]

/-- Without room the `fmt` without arguments writes in front of the buffer. -/
lemma fmtEnd_not_proper {bufSize : ℤ} (hnone : bufSize ≤ 0)
    (hfmt : fmtEnd s 0 bufSize format = .ok s') : ¬Proper s' bufSize := by
  rw [fmtEnd] at hfmt
  split_ifs at hfmt
  obtain rfl := Except.ok.inj hfmt
  intro hproper
  have hinside := hproper.inside (0 + bufSize - 1) (Sheet.mem_written_put.mpr (Or.inr rfl))
  omega

/-- **When a call of `fmt` is bounded and terminated**, whatever the buffer holds. A call that
does not throw writes inside of the buffer and ends the string there, all of it written anew, if
and only if it has no argument and room for the terminator, or has arguments and either no room
at all or a placeholder whose text ends what is put out. -/
theorem fmt_proper_iff {args : List Text} {bufSize : ℤ} (cells : ℤ → UInt8)
    (hformat : 0 ∉ format) (hsize : IsInt32 bufSize)
    (hfmt : fmt ⟨cells, []⟩ 0 bufSize format (args.map Text.bytes) = .ok s) :
    Proper s bufSize ↔ (args = [] ∧ 1 ≤ bufSize) ∨
      (args ≠ [] ∧ (bufSize ≤ 0 ∨
        Settles bufSize 0 (tokens format) (args.map Text.bytes))) := by
  by_cases hpos : 1 ≤ bufSize
  · have hstart : fmt ⟨cells, []⟩ (0 : ℕ) (bufSize - (0 : ℕ)) format (args.map Text.bytes)
        = .ok s := by
      rwa [Nat.cast_zero, sub_zero]
    rw [fmt_proper (inked_start cells) (by omega) hsize (char_notMem_tokens hformat) hstart,
      false_and, false_or]
    constructor
    · rintro (hnil | hsettles)
      · exact Or.inl ⟨hnil, hpos⟩
      · obtain ⟨m, val, rest, args', hfills, -⟩ := id hsettles
        exact Or.inr ⟨fun hnil => hfills.ne_nil (by rw [hnil, List.map_nil]), Or.inr hsettles⟩
    · rintro (⟨hnil, -⟩ | ⟨-, hnone | hsettles⟩)
      · exact Or.inl hnil
      · omega
      · exact Or.inr hsettles
  · have hnone : bufSize ≤ 0 := by omega
    cases args with
    | nil =>
        rw [List.map_nil, fmt] at hfmt
        exact iff_of_false (fmtEnd_not_proper hnone hfmt) (by simp [hpos])
    | cons val args =>
        -- nothing is written, and nothing is asked for
        rw [List.map_cons, fmt, if_pos (Or.inr hnone)] at hfmt
        obtain rfl := Except.ok.inj hfmt
        refine iff_of_true ⟨by simp, fun h => absurd h hpos, fun h => absurd h hpos⟩ ?_
        exact Or.inr ⟨List.cons_ne_nil _ _, Or.inl hnone⟩

/-- A text in the middle, of the last argument, into a buffer of ones. -/
theorem fmt_proper_last :
    ∃ s, fmt ⟨fun _ => 1, []⟩ 0 8 (chars "a%b") [chars "x"] = .ok s ∧ Proper s 8 := by
  let args : List Text := [⟨chars "x", by decide, by decide⟩]
  have hsettles : Settles 8 0 (tokens (chars "a%b")) (args.map Text.bytes) :=
    ⟨1, chars "x", [.char 98], [], ⟨[.char 97], [], rfl, rfl, rfl, rfl, by decide⟩, Or.inl rfl⟩
  have hfmt : fmt ⟨fun _ => 1, []⟩ 0 8 (chars "a%b") (args.map Text.bytes) = .ok _ := rfl
  have hiff := fmt_proper_iff (fun _ => 1) (by decide) ⟨by decide, by decide⟩ hfmt
  exact ⟨_, hfmt, hiff.mpr (Or.inr ⟨List.cons_ne_nil _ _, Or.inr hsettles⟩)⟩

/-- **Two ways out of the buffer**: with an argument but no placeholder the string is not ended,
and without arguments and room the terminator goes in front of the buffer. -/
theorem fmt_not_proper :
    (∃ s, fmt ⟨fun _ => 1, []⟩ 0 8 (chars "ab") [chars "x"] = .ok s ∧ ¬Proper s 8) ∧
      ∃ s, fmt ⟨fun _ => 1, []⟩ 0 0 (chars "a") [] = .ok s ∧ ¬Proper s 0 := by
  refine ⟨⟨_, rfl, fun hproper => ?_⟩, ⟨_, rfl, fun hproper => ?_⟩⟩
  · obtain ⟨i, hi, -, -, hzero⟩ := hproper.ended (by decide)
    rcases List.mem_pair.mp hi with rfl | rfl
    · exact absurd hzero (by decide)
    · exact absurd hzero (by decide)
  · exact absurd (hproper.inside (-1) (by decide)) (by decide)

end Fmt

end Xsix

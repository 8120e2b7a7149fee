import Xsix.Fmt.Scan
import Mathlib.Data.List.GetD

/-!
What `fmt` leaves in a buffer of zeros.

While the variadic `fmt` runs, the buffer shows what was put out so far, up to the cell
at the cursor, where the escape leaves a percent sign behind (`Open`); after each argument
it is a C string again (`Closed`).

* `fmt_closed`: without escapes the buffer ends up with the front of the rendering that
  fits, so `fmt` substitutes like `snprintf` (`fmt_substitutes`).
* `fmt_escaped`: an escape before the last placeholder leaves nothing, and one after it
  makes `fmt` throw; so escapes never come out as they should (`escapes_literal_iff`).
-/

namespace Xsix

namespace Fmt

open CInt

/-- A format with its `%` characters replaced, one after the other, by the texts of the
arguments. -/
def substitute : List UInt8 → List (List UInt8) → List UInt8
  | [], _ => []
  | c :: format, [] => c :: substitute format []
  | c :: format, val :: args =>
      if c = percent then val ++ substitute format args else c :: substitute format (val :: args)

/-- The `fmt` that fills a `std::string` through a local array of 4096 zeros, `none`
being the null format. -/
def fmtString (buf : List UInt8) (format : Option (List UInt8)) (args : List (List UInt8)) :
    Except String (List UInt8) :=
  match format with
  | none => .ok buf
  | some format => (fmt blank 0 4096 format args).map (·.cString 4096)

/-! ### Tokens -/

variable {format esc : List UInt8} {pre ts : List Token}
  {args : List (List UInt8)}

lemma length_render (esc : List UInt8) (ts : List Token) (args : List (List UInt8)) :
    (render esc ts args).length
    = (render [] ts args).length + esc.length * ts.count .escape := by
  induction ts, args using render.induct with
  | case1 args => simp [render]
  | case2 args ts ih => simp [render, ih]; ring
  | case3 args c ts ih => simp [render, ih]; ring
  | case4 ts ih => simp [render, ih]; ring
  | case5 ts val args ih => simp [render, ih]; ring

lemma render_eq_of_escape_notMem (h : .escape ∉ ts) : render esc ts args = render [] ts args := by
  induction ts, args using render.induct with
  | case1 args => rfl
  | case2 ts args ih => exact absurd List.mem_cons_self h
  | case3 c ts args ih => rw [render, render, ih fun hmem => h (List.mem_cons_of_mem _ hmem)]
  | case4 ts ih => rw [render, render, ih fun hmem => h (List.mem_cons_of_mem _ hmem)]
  | case5 ts val args ih => rw [render, render, ih fun hmem => h (List.mem_cons_of_mem _ hmem)]

lemma char_notMem_tokens (hformat : 0 ∉ format) : .char 0 ∉ tokens format := by
  induction format using tokens.induct with
  | case1 => simp [tokens]
  | case2 => simp [tokens]
  | case3 c hc => simpa [tokens, hc] using hformat
  | case4 format ih => simpa [tokens] using ih fun hmem => hformat (by simp [hmem])
  | case5 d format hd ih =>
      simpa [tokens, hd] using ih fun hmem => hformat (List.mem_cons_of_mem _ hmem)
  | case6 c d format hc ih =>
      rw [List.mem_cons, not_or] at hformat
      simpa [tokens, hc, hformat.1] using ih hformat.2

/-- What is put together from C strings has no terminator in it. -/
lemma zero_notMem_render (hesc : 0 ∉ esc) (hts : .char 0 ∉ ts) (hargs : ∀ val ∈ args, 0 ∉ val) :
    0 ∉ render esc ts args := by
  induction ts, args using render.induct with
  | case1 args => simp [render]
  | case2 ts args ih =>
      rw [List.mem_cons, not_or] at hts
      simpa [render, hesc] using ih hts.2 hargs
  | case3 c ts args ih =>
      rw [List.mem_cons, not_or] at hts
      have hc : 0 ≠ c := fun h0 => hts.1 (h0 ▸ rfl)
      simpa [render, hc] using ih hts.2 hargs
  | case4 ts ih =>
      rw [List.mem_cons, not_or] at hts
      simpa [render, percent] using ih hts.2 hargs
  | case5 ts val args ih =>
      rw [List.mem_cons, not_or] at hts
      have hval := hargs val List.mem_cons_self
      simpa [render, hval] using ih hts.2 fun a ha => hargs a (List.mem_cons_of_mem _ ha)

/-! ### The buffer -/

/-- The buffer shows `out` and then zeros, except at the cursor after `out`, and nothing
was written outside of it. -/
structure Open (s : Sheet) (size : ℤ) (out : List UInt8) : Prop where
  shows : ∀ i : ℕ, (i : ℤ) < size → i ≠ out.length → s.cells i = out.getD i 0
  inside : ∀ i ∈ s.written, 0 ≤ i ∧ i < size

/-- The buffer shows `out` and then zeros. -/
structure Closed (s : Sheet) (size : ℤ) (out : List UInt8) : Prop extends Open s size out where
  ended : (out.length : ℤ) < size → s.cells out.length = 0

variable {s : Sheet} {size : ℤ} {out text : List UInt8} {c : UInt8}

lemma Sheet.put_cells {i j : ℤ} : (s.put i c).cells j = if j = i then c else s.cells j :=
  Function.update_apply ..

lemma Open.inside_put (h : Open s size out) (hroom : (out.length : ℤ) < size) :
    ∀ i ∈ (s.put out.length c).written, 0 ≤ i ∧ i < size := by
  intro i hi
  rcases List.mem_append.mp hi with hi | hi
  · exact h.inside i hi
  · rw [List.mem_singleton.mp hi]
    omega

/-- One more character at the cursor. -/
lemma Open.put (h : Open s size out) (hroom : (out.length : ℤ) < size) :
    Closed (s.put out.length c) size (out ++ [c]) where
  shows i hi hne := by
    rw [Sheet.put_cells]
    by_cases hcur : i = out.length
    · subst hcur
      simp
    · rw [if_neg (by exact_mod_cast hcur), h.shows i hi hcur]
      rcases Nat.lt_or_gt_of_ne hcur with hlt | hgt
      · rw [List.getD_append _ _ _ _ hlt]
      · rw [List.getD_eq_default _ _ (by omega), List.getD_eq_default _ _ (by simp; omega)]
  inside := h.inside_put hroom
  ended hroom' := by
    rw [List.length_append, List.length_singleton] at hroom' ⊢
    rw [Sheet.put_cells, if_neg (by push_cast; omega), h.shows _ hroom' (by omega)]
    exact List.getD_eq_default _ _ (by omega)

/-- A percent sign left at the cursor. -/
lemma Open.leave (h : Open s size out) (hroom : (out.length : ℤ) < size) :
    Open (s.put out.length c) size out where
  shows i hi hne := by
    rw [Sheet.put_cells, if_neg (by exact_mod_cast hne)]
    exact h.shows i hi hne
  inside := h.inside_put hroom

/-- A text and a terminator at the cursor. -/
lemma Open.puts (h : Open s size out) (hroom : (out.length + text.length : ℤ) < size) :
    Closed (s.puts out.length (text ++ [0])) size (out ++ text) := by
  induction text generalizing s out with
  | nil =>
      rw [List.append_nil]
      exact ⟨h.leave (by simpa using hroom), fun _ => by simp [Sheet.puts, Sheet.put_cells]⟩
  | cons c text ih =>
      rw [List.length_cons] at hroom
      push_cast at hroom
      have hnext := ih (h.put (c := c) (by omega)).toOpen (by simp; omega)
      simpa [Sheet.puts] using hnext

/-- Another terminator after the text. -/
lemma Closed.put_zero {i : ℤ} (h : Closed s size out) (hle : (out.length : ℤ) ≤ i)
    (hlt : i < size) : Closed (s.put i 0) size out where
  shows j hj hne := by
    rw [Sheet.put_cells]
    split_ifs with hi
    · exact (List.getD_eq_default _ _ (by omega)).symm
    · exact h.shows j hj hne
  inside j hj := by
    rcases List.mem_append.mp hj with hj | hj
    · exact h.inside j hj
    · rw [List.mem_singleton.mp hj]
      omega
  ended hroom := by
    rw [Sheet.put_cells]
    split_ifs with hi
    · rfl
    · exact h.ended hroom

/-- A C string shorter than the buffer is what it shows. -/
lemma Closed.cString (h : Closed s size out) (hroom : (out.length : ℤ) < size)
    (hout : 0 ∉ out) : s.cString size.toNat = out := by
  obtain ⟨k, hk⟩ : ∃ k : ℕ, size.toNat = out.length + (1 + k) :=
    ⟨size.toNat - out.length - 1, by omega⟩
  have hfront : (List.range out.length).map (fun i : ℕ => s.cells i) = out := by
    refine List.ext_getElem (by simp) fun i hi _ => ?_
    have hlt : i < out.length := by simpa using hi
    rw [List.getElem_map, List.getElem_range, h.shows i (by omega) (by omega),
      List.getD_eq_getElem _ _ hlt]
  rw [Sheet.cString, hk, List.range_add, List.map_append, hfront, List.range_add, List.map_append,
    List.map_append]
  have hzero : List.map (fun i : ℕ => s.cells i) (List.map (fun x => out.length + x) (List.range 1))
      = [0] := by simp [h.ended hroom]
  have hne : ∀ x ∈ out, (fun y : UInt8 => decide (y ≠ 0)) x = true := by
    intro x hx
    simpa using fun h0 : x = 0 => hout (h0 ▸ hx)
  rw [hzero, List.takeWhile_append_of_pos hne]
  simp

/-! ### The loop of the variadic `fmt` -/

/-- What the loop is to leave: at the end of the format or of the buffer, the literal
tokens up to there; at a placeholder, those before it and the rest of the format. -/
def Scanned.Meets (s : Sheet) (size : ℤ) (out format : List UInt8) : Scanned → Prop
  | .finished s' => ∃ pre ts, tokens format = pre ++ ts ∧ .placeholder ∉ pre ∧
      ((out ++ literal pre).length : ℤ) ≤ size - 1 ∧
      (ts = [] ∨ size - 1 ≤ (out ++ literal pre).length) ∧
      (.escape ∉ tokens format → Closed s size out → Closed s' size (out ++ literal pre))
  | .placeholder s' bufCurr format' => ∃ pre, .placeholder ∉ pre ∧
      tokens format = pre ++ .placeholder :: tokens format' ∧
      bufCurr = (out ++ literal pre).length ∧ bufCurr < size - 1 ∧
      Open s' size (out ++ literal pre)

/-- The tokens put out are shown, but for what an escape leaves at the cursor. -/
lemma Open.scanned (h : Open s size out) (hpre : .placeholder ∉ pre)
    (hroom : (out.length : ℤ) + (literal pre).length ≤ size - 1) :
    Open (s.scanned out.length pre) size (out ++ literal pre) := by
  induction pre generalizing s out with
  | nil => simpa [Sheet.scanned] using h
  | cons t pre ih =>
      rw [List.mem_cons, not_or] at hpre
      cases t with
      | escape => exact ih (h.leave (by omega)) hpre.2 hroom
      | placeholder => exact absurd rfl hpre.1
      | char c =>
          rw [literal_char, List.length_cons] at hroom
          push_cast at hroom
          have hrest := ih (h.put (c := c) (by omega)).toOpen hpre.2 (by simp; omega)
          simpa [Sheet.scanned] using hrest

/-- Without escapes nothing is left at the cursor. -/
lemma Closed.scanned (h : Closed s size out) (hpre : .placeholder ∉ pre) (hesc : .escape ∉ pre)
    (hroom : (out.length : ℤ) + (literal pre).length ≤ size - 1) :
    Closed (s.scanned out.length pre) size (out ++ literal pre) := by
  induction pre generalizing s out with
  | nil => simpa [Sheet.scanned] using h
  | cons t pre ih =>
      rw [List.mem_cons, not_or] at hpre hesc
      cases t with
      | escape => exact absurd rfl hesc.1
      | placeholder => exact absurd rfl hpre.1
      | char c =>
          rw [literal_char, List.length_cons] at hroom
          push_cast at hroom
          have hrest := ih (h.put (c := c) (by omega)) hpre.2 hesc.2 (by simp; omega)
          simpa [Sheet.scanned] using hrest

/-- **The loop leaves what it is to leave.** -/
lemma scanFormat_meets (format : List UInt8) (h : Open s size out)
    (hroom : (out.length : ℤ) ≤ size - 1) :
    (scanFormat s (size - 1) out.length format).Meets s size out format := by
  have hleaves := scanFormat_leaves (s := s) format hroom
  cases hscan : scanFormat s (size - 1) out.length format with
  | finished s' =>
      rw [hscan] at hleaves
      obtain ⟨pre, ts, hsplit, hpre, hle, -, hend, rfl⟩ := hleaves
      refine ⟨pre, ts, hsplit, hpre, ?_, ?_, fun hesc hclosed => ?_⟩
      · rwa [List.length_append, Nat.cast_add]
      · rwa [List.length_append, Nat.cast_add]
      · exact hclosed.scanned hpre (fun hmem => hesc (hsplit ▸ List.mem_append_left ts hmem)) hle
  | placeholder s' bufCurr format' =>
      rw [hscan] at hleaves
      obtain ⟨pre, hpre, hsplit, rfl, hlt, rfl⟩ := hleaves
      refine ⟨pre, hpre, hsplit, ?_, hlt, h.scanned hpre (by omega)⟩
      rw [List.length_append]

/-! ### The last `fmt` -/

lemma missingArguments_iff : missingArguments format = true ↔ percent ∈ format := by
  induction format using missingArguments.induct with
  | case1 => simp [missingArguments]
  | case2 c => simp [missingArguments, eq_comm (a := percent)]
  | case3 c d format ih =>
      rw [missingArguments, Bool.or_eq_true, ih]
      by_cases hc : c = percent
      · by_cases hd : d = percent
        · simp [hc, hd]
        · simp [hc, hd]
      · simp [hc, Ne.symm hc]

/-- The copying loop puts out what fits. -/
lemma copyFormat_closed (format : List UInt8) (h : Closed s size out)
    (hroom : (out.length : ℤ) ≤ size - 1) :
    ∃ s', copyFormat s (size - 1) out.length format
        = (s', (((out ++ format).take (size - 1).toNat).length : ℤ)) ∧
      Closed s' size ((out ++ format).take (size - 1).toNat) := by
  induction format generalizing s out with
  | nil =>
      rw [copyFormat, List.append_nil, List.take_of_length_le (by omega)]
      exact ⟨s, rfl, h⟩
  | cons c format ih =>
      rw [copyFormat]
      by_cases hlt : (out.length : ℤ) < size - 1
      · rw [if_pos hlt]
        obtain ⟨s', hcopy, hs'⟩ := ih (h.put (c := c) (by omega)) (by simp; omega)
        rw [List.length_append, List.length_singleton, List.append_assoc] at hcopy
        rw [List.append_assoc] at hs'
        exact ⟨s', by exact_mod_cast hcopy, hs'⟩
      · rw [if_neg hlt]
        have htake : (out ++ c :: format).take (size - 1).toNat = out :=
          List.take_left' (by omega)
        rw [htake]
        exact ⟨s, rfl, h⟩

/-- Without percent signs and arguments `fmt` copies what fits. -/
lemma fmtEnd_closed (h : Closed s size out) (hroom : (out.length : ℤ) ≤ size - 1)
    (hnone : percent ∉ format) :
    ∃ s', fmtEnd s out.length (size - out.length) format = .ok s' ∧
      Closed s' size ((out ++ format).take (size - 1).toNat) := by
  obtain ⟨s', hcopy, hs'⟩ := copyFormat_closed format h hroom
  have hend : (out.length : ℤ) + (size - out.length) - 1 = size - 1 := by ring
  have hle : (((out ++ format).take (size - 1).toNat).length : ℤ) ≤ size - 1 := by
    rw [List.length_take]
    omega
  rw [fmtEnd, if_neg (mt missingArguments_iff.mp hnone), hend]
  simp only [hcopy]
  refine ⟨_, rfl, ?_⟩
  split_ifs with hlt
  · exact (hs'.put_zero le_rfl (by omega)).put_zero hle (by omega)
  · exact hs'.put_zero hle (by omega)

/-! ### The variadic `fmt` -/

/-- An argument at a placeholder, cut where the buffer ends. -/
lemma Open.v2s (h : Open s size out) (hroom : (out.length : ℤ) < size - 1) (hsize : IsInt32 size)
    (val : Text) :
    let remain := int32 (size - 1 - out.length + 1)
    let printed := Fmt.v2s s out.length remain val.bytes
    let out' := (out ++ val.bytes).take (size - 1).toNat
    Closed printed.1 size out' ∧
      (out.length : ℤ) + (if printed.2 < remain - 1 then printed.2 else remain - 1)
        = out'.length := by
  intro remain printed out'
  have hremain : remain = size - out.length := remain_eq hsize (by omega)
  have hout' : out' = out ++ val.bytes.take (size - out.length - 1).toNat := by
    have hrest : (size - 1).toNat - out.length = (size - out.length - 1).toNat := by omega
    simp only [out']
    rw [List.take_append, List.take_of_length_le (by omega), hrest]
  have hprinted : printed
      = (s.puts out.length (val.bytes.take (size - out.length - 1).toNat ++ [0]),
        (val.bytes.length : ℤ)) := v2s_eq s hroom hsize val
  rw [hremain, hprinted, hout']
  refine ⟨h.puts (by rw [List.length_take]; omega), ?_⟩
  rw [List.length_append, List.length_take]
  split_ifs with hlt
  · push_cast
    omega
  · push_cast
    omega

/-- **One argument of the variadic `fmt`**: it ends with the literal tokens it came to, or
fills the next placeholder and goes on after it. -/
lemma fmt_cons (format : List UInt8) (val : Text) (args : List (List UInt8))
    (h : Closed s size out) (hroom : (out.length : ℤ) ≤ size - 1) (hsize : IsInt32 size) :
    (∃ s' pre ts, fmt s out.length (size - out.length) format (val.bytes :: args) = .ok s' ∧
      tokens format = pre ++ ts ∧ .placeholder ∉ pre ∧
      ((out ++ literal pre).length : ℤ) ≤ size - 1 ∧
      (ts = [] ∨ size - 1 ≤ (out ++ literal pre).length) ∧
      (.escape ∉ tokens format → Closed s' size (out ++ literal pre))) ∨
    (∃ s' pre format' out', tokens format = pre ++ .placeholder :: tokens format' ∧
      .placeholder ∉ pre ∧ out' = (out ++ literal pre ++ val.bytes).take (size - 1).toNat ∧
      Closed s' size out' ∧
      fmt s out.length (size - out.length) format (val.bytes :: args)
        = fmt s' out'.length (size - out'.length) format' args) := by
  by_cases hnil : format = []
  · subst hnil
    exact Or.inl ⟨s, [], [], by simp [fmt], rfl, by simp,
      by simpa [literal, render] using hroom, Or.inl rfl, fun _ => by
      simpa [literal, render] using h⟩
  have hgo : ¬ (format.length ≤ 0 ∨ size - (out.length : ℤ) ≤ 0) := by
    rw [Nat.le_zero, List.length_eq_zero_iff]
    rintro (h0 | h0)
    · exact hnil h0
    · omega
  have hend : (out.length : ℤ) + (size - out.length) - 1 = size - 1 := by ring
  have hmeets := scanFormat_meets format h.toOpen hroom
  rw [fmt, if_neg hgo, hend]
  cases hscan : scanFormat s (size - 1) out.length format with
  | finished s' =>
      rw [hscan] at hmeets
      obtain ⟨pre, ts, hsplit, hpre, hle, hfull, hclosed⟩ := hmeets
      exact Or.inl ⟨s', pre, ts, by simp only [hscan], hsplit, hpre, hle, hfull,
        fun hesc => hclosed hesc h⟩
  | placeholder s' bufCurr format' =>
      rw [hscan] at hmeets
      obtain ⟨pre, hpre, hsplit, rfl, hlt, hopen⟩ := hmeets
      obtain ⟨hclosed, hstep⟩ := hopen.v2s hlt hsize val
      refine Or.inr ⟨_, pre, format', _, hsplit, hpre, rfl, hclosed, ?_⟩
      have hfits : ((out ++ literal pre ++ val.bytes).take (size - 1).toNat).length ≤ size - 1 := by
        rw [List.length_take]
        omega
      simp only [hscan, hstep]
      rw [remain_eq hsize hfits]

/-! ### Substitution -/

lemma take_append_take {n : ℕ} {xs ys : List UInt8} :
    (xs.take n ++ ys).take n = (xs ++ ys).take n := by
  rcases Nat.le_total xs.length n with hle | hle
  · rw [List.take_of_length_le hle]
  · rw [List.take_left' (by simpa using hle), List.take_append_of_le_length hle]

lemma percent_mem_iff :
    percent ∈ format ↔ .escape ∈ tokens format ∨ .placeholder ∈ tokens format := by
  induction format using tokens.induct with
  | case1 => simp [tokens]
  | case2 => simp [tokens]
  | case3 c hc => simp [tokens, hc, Ne.symm hc]
  | case4 format ih => simp [tokens]
  | case5 d format hd ih => simp [tokens, hd]
  | case6 c d format hc ih => simp [tokens, hc, Ne.symm hc, ← ih]

lemma render_tokens (hnone : percent ∉ format) : render esc (tokens format) args = format := by
  induction format using tokens.induct with
  | case1 => rfl
  | case2 => simp at hnone
  | case3 c hc => simp [tokens, hc, render]
  | case4 format ih => simp at hnone
  | case5 d format hd ih => simp at hnone
  | case6 c d format hc ih =>
      rw [tokens, if_neg hc, render, ih fun hmem => hnone (List.mem_cons_of_mem c hmem)]

/-- **Without escapes the buffer ends up with what fits of the rendering.** -/
lemma fmt_closed {args : List Text} (h : Closed s size out) (hroom : (out.length : ℤ) ≤ size - 1)
    (hsize : IsInt32 size) (hesc : .escape ∉ tokens format)
    (hargs : (tokens format).count .placeholder ≤ args.length) :
    ∃ s', fmt s out.length (size - out.length) format (args.map Text.bytes) = .ok s' ∧
      Closed s' size
        ((out ++ render [] (tokens format) (args.map Text.bytes)).take (size - 1).toNat) := by
  induction args generalizing s out format with
  | nil =>
      have hnone : percent ∉ format := by
        rw [percent_mem_iff, not_or, ← List.count_eq_zero (a := Token.placeholder)]
        exact ⟨hesc, by simpa using hargs⟩
      rw [List.map_nil, fmt, render_tokens hnone]
      exact fmtEnd_closed h hroom hnone
  | cons val args ih =>
      rw [List.map_cons]
      rcases fmt_cons format val (args.map Text.bytes) h hroom hsize with
        ⟨s', pre, ts, hfmt, hsplit, hpre, hle, hfull, hclosed⟩
        | ⟨s', pre, format', out', hsplit, hpre, rfl, hclosed, hfmt⟩
      · refine ⟨s', hfmt, ?_⟩
        have htake : (out ++ render [] (tokens format) (val.bytes :: args.map Text.bytes)).take
            (size - 1).toNat = out ++ literal pre := by
          rw [hsplit, render_append hpre, ← List.append_assoc]
          rcases hfull with rfl | hfull
          · rw [render, List.append_nil]
            exact List.take_of_length_le (by rw [literal] at hle; omega)
          · exact List.take_left' (by rw [literal] at hle hfull; omega)
        rw [htake]
        exact hclosed hesc
      · rw [hsplit, List.mem_append, List.mem_cons, not_or, not_or] at hesc
        rw [hsplit, List.count_append, List.count_cons, List.length_cons] at hargs
        obtain ⟨s'', hrest, hs''⟩ := ih hclosed (by rw [List.length_take]; omega) hesc.2.2
          (by simp at hargs; omega)
        refine ⟨s'', hfmt.trans hrest, ?_⟩
        rw [take_append_take] at hs''
        rw [hsplit, render_append hpre, render]
        simpa [literal] using hs''

/-- **An escape leaves nothing or makes `fmt` throw.** In a buffer with room to spare, the
rendering without its escapes is left, if anything is. -/
lemma fmt_escaped {args : List Text} (h : Closed s size out) (hsize : IsInt32 size)
    (hroom : ((out ++ render [] (tokens format) (args.map Text.bytes)).length : ℤ) < size - 1)
    (hargs : (tokens format).count .placeholder = args.length) :
    (∃ e, fmt s out.length (size - out.length) format (args.map Text.bytes) = .error e) ∨
    ∃ s', fmt s out.length (size - out.length) format (args.map Text.bytes) = .ok s' ∧
      Closed s' size (out ++ render [] (tokens format) (args.map Text.bytes)) := by
  have hout : (out.length : ℤ) ≤ size - 1 := by
    rw [List.length_append] at hroom
    omega
  induction args generalizing s out format with
  | nil =>
      rw [List.map_nil, fmt]
      by_cases hnone : percent ∈ format
      · rw [fmtEnd, if_pos (missingArguments_iff.mpr hnone)]
        exact Or.inl ⟨_, rfl⟩
      · obtain ⟨s', hfmt, hs'⟩ := fmtEnd_closed h hout hnone
        rw [List.map_nil, render_tokens hnone] at hroom
        rw [List.take_of_length_le (by omega)] at hs'
        rw [render_tokens hnone]
        exact Or.inr ⟨s', hfmt, hs'⟩
  | cons val args ih =>
      rw [List.map_cons] at hroom ⊢
      rcases fmt_cons format val (args.map Text.bytes) h hout hsize with
        ⟨s', pre, ts, -, hsplit, hpre, -, hfull, -⟩
        | ⟨s', pre, format', out', hsplit, hpre, rfl, hclosed, hfmt⟩
      · -- neither the format nor the buffer ends before the next placeholder
        rw [hsplit, render_append hpre, ← List.append_assoc, List.length_append] at hroom
        rcases hfull with rfl | hfull
        · rw [hsplit, List.append_nil, List.count_eq_zero.mpr hpre, List.length_cons] at hargs
          omega
        · rw [literal] at hfull
          omega
      · rw [hsplit, render_append hpre, render, ← List.append_assoc, ← List.append_assoc] at hroom
        rw [hsplit, List.count_append, List.count_eq_zero.mpr hpre, List.count_cons_self,
          List.length_cons] at hargs
        have htake : (out ++ literal pre ++ val.bytes).take (size - 1).toNat
            = out ++ literal pre ++ val.bytes := by
          refine List.take_of_length_le ?_
          rw [List.length_append] at hroom
          rw [literal]
          omega
        rw [htake] at hclosed hfmt
        rw [hfmt, hsplit, render_append hpre, render, ← List.append_assoc, ← List.append_assoc]
        refine ih hclosed hroom (by omega) ?_
        rw [List.length_append, ← literal] at hroom
        omega

variable {args : List Text} {bufSize : ℤ} {cells : ℤ → UInt8}

/-- A buffer of zeros into which nothing was written. -/
lemma closed_zeros (hzero : ∀ i, 0 ≤ i → i < bufSize → cells i = 0) :
    Closed ⟨cells, []⟩ bufSize [] :=
  ⟨⟨fun i hi _ => hzero i (by omega) hi, by simp⟩, fun h => hzero 0 le_rfl (by simpa using h)⟩

lemma text_notMem : ∀ val ∈ args.map Text.bytes, 0 ∉ val := by
  simp only [List.mem_map, forall_exists_index, and_imp, forall_apply_eq_imp_iff₂]
  exact fun val _ => val.unterminated

/-- No two percent signs are next to each other. -/
def Sparse (format : List UInt8) : Prop :=
  format.IsChain fun c d => ¬ (c = percent ∧ d = percent)

instance : DecidablePred Sparse := fun format =>
  inferInstanceAs (Decidable (format.IsChain fun c d => ¬ (c = percent ∧ d = percent)))

lemma Sparse.escape_notMem (h : Sparse format) : .escape ∉ tokens format := by
  induction format using tokens.induct with
  | case1 => simp [tokens]
  | case2 => simp [tokens]
  | case3 c hc => simp [tokens, hc]
  | case4 format ih => exact absurd ⟨rfl, rfl⟩ (List.isChain_cons_cons.mp h).1
  | case5 d format hd ih => simpa [tokens, hd] using ih (List.isChain_cons_cons.mp h).2
  | case6 c d format hc ih => simpa [tokens, hc] using ih (List.isChain_cons_cons.mp h).2

lemma Sparse.count_placeholder (h : Sparse format) :
    (tokens format).count .placeholder = format.count percent := by
  induction format using tokens.induct with
  | case1 => simp [tokens]
  | case2 => simp [tokens]
  | case3 c hc => simp [tokens, hc]
  | case4 format ih => exact absurd ⟨rfl, rfl⟩ (List.isChain_cons_cons.mp h).1
  | case5 d format hd ih => simp [tokens, hd, ih (List.isChain_cons_cons.mp h).2]
  | case6 c d format hc ih => simp [tokens, hc, ih (List.isChain_cons_cons.mp h).2]

lemma Sparse.render_eq (h : Sparse format) (esc : List UInt8) (args : List (List UInt8)) :
    render esc (tokens format) args = substitute format args := by
  induction format using tokens.induct generalizing args with
  | case1 => simp [tokens, render, substitute]
  | case2 => cases args <;> simp [tokens, render, substitute]
  | case3 c hc => cases args <;> simp [tokens, hc, render, substitute]
  | case4 format ih => exact absurd ⟨rfl, rfl⟩ (List.isChain_cons_cons.mp h).1
  | case5 d format hd ih =>
      have hrest := (List.isChain_cons_cons.mp h).2
      cases args with
      | nil => simp [tokens, hd, render, ih hrest, substitute]
      | cons val args => simp [tokens, hd, render, ih hrest, substitute]
  | case6 c d format hc ih =>
      have hrest := (List.isChain_cons_cons.mp h).2
      cases args with
      | nil => simp [tokens, hc, render, ih hrest, substitute]
      | cons val args => simp [tokens, hc, render, ih hrest, substitute]

/-- Into zeros, `fmt` leaves what fits of the substitution. -/
lemma fmt_zeros (hformat : 0 ∉ format) (hsparse : Sparse format)
    (hargs : format.count percent ≤ args.length) (hpos : 1 ≤ bufSize) (hsize : IsInt32 bufSize)
    (hzero : ∀ i, 0 ≤ i → i < bufSize → cells i = 0) :
    ∃ s, fmt ⟨cells, []⟩ 0 bufSize format (args.map Text.bytes) = .ok s ∧
      (∀ i ∈ s.written, 0 ≤ i ∧ i < bufSize) ∧
      s.cString bufSize.toNat
        = (substitute format (args.map Text.bytes)).take (bufSize - 1).toNat := by
  obtain ⟨s, hfmt, hs⟩ := fmt_closed (closed_zeros hzero) (by simp; omega) hsize
    hsparse.escape_notMem (by rwa [hsparse.count_placeholder])
  rw [List.nil_append, hsparse.render_eq] at hs
  refine ⟨s, by simpa using hfmt, hs.inside, hs.cString ?_ ?_⟩
  · rw [List.length_take]
    omega
  · rw [← hsparse.render_eq []]
    intro hmem
    exact zero_notMem_render (by simp) (char_notMem_tokens hformat) text_notMem
      (List.mem_of_mem_take hmem)

/-- **`fmt` substitutes like `snprintf`.** For a format without two adjacent percent signs,
at least as many arguments as it has percent signs and a buffer of zeros: `fmt` does not
throw, writes inside the buffer and leaves the front of the format with its percent signs
replaced by the texts of the arguments, as far as it fits; so the overload for strings
leaves the first 4095 characters of it. -/
theorem fmt_substitutes (hformat : 0 ∉ format) (hsparse : Sparse format)
    (hargs : format.count percent ≤ args.length) (hpos : 1 ≤ bufSize) (hsize : IsInt32 bufSize)
    (hzero : ∀ i, 0 ≤ i → i < bufSize → cells i = 0) (buf : List UInt8) :
    (∃ s, fmt ⟨cells, []⟩ 0 bufSize format (args.map Text.bytes) = .ok s ∧
      (∀ i ∈ s.written, 0 ≤ i ∧ i < bufSize) ∧
      s.cString bufSize.toNat
        = (substitute format (args.map Text.bytes)).take (bufSize - 1).toNat) ∧
    fmtString buf (some format) (args.map Text.bytes)
      = .ok ((substitute format (args.map Text.bytes)).take 4095) := by
  refine ⟨fmt_zeros hformat hsparse hargs hpos hsize hzero, ?_⟩
  obtain ⟨s, hfmt, -, htext⟩ : ∃ s, fmt blank 0 4096 format (args.map Text.bytes) = .ok s ∧
      (∀ i ∈ s.written, 0 ≤ i ∧ i < 4096) ∧
      s.cString 4096 = (substitute format (args.map Text.bytes)).take 4095 :=
    fmt_zeros hformat hsparse hargs (by decide) ⟨by decide, by decide⟩ fun _ _ _ => rfl
  rw [fmtString, hfmt, Except.map]
  exact congrArg Except.ok htext

/-- Two arguments of which the second no longer fits into five bytes. -/
theorem fmt_substitutes_cut :
    ∃ s, fmt blank 0 5 (chars "a%c%") [chars "bb", chars "!"] = .ok s ∧
      (∀ i ∈ s.written, 0 ≤ i ∧ i < 5) ∧ s.cString 5 = chars "abbc" := by
  let args : List Text := [⟨chars "bb", by decide, by decide⟩, ⟨chars "!", by decide, by decide⟩]
  have hcount : (chars "a%c%").count percent ≤ args.length := by decide
  exact (fmt_substitutes (by decide) (by decide) hcount (by decide) ⟨by decide, by decide⟩
    (fun _ _ _ => rfl) []).1

/-- **When escapes come out as percent signs**: only when there are none. For any format
with as many placeholders as arguments and a buffer of zeros that is large enough, `fmt`
leaves the rendering in which each escape is one percent sign if and only if the format
has no escape. -/
theorem escapes_literal_iff (hformat : 0 ∉ format)
    (hargs : (tokens format).count .placeholder = args.length)
    (hlarge : ((render [percent] (tokens format) (args.map Text.bytes)).length : ℤ) < bufSize)
    (hsize : IsInt32 bufSize) (hzero : ∀ i, 0 ≤ i → i < bufSize → cells i = 0) :
    (∃ s, fmt ⟨cells, []⟩ 0 bufSize format (args.map Text.bytes) = .ok s ∧
      s.cString bufSize.toNat = render [percent] (tokens format) (args.map Text.bytes)) ↔
    .escape ∉ tokens format := by
  have hclosed := closed_zeros hzero
  have hlength := length_render [percent] (tokens format) (args.map Text.bytes)
  constructor
  · rintro ⟨s, hfmt, htext⟩ hesc
    have hcount := List.count_pos_iff.mpr hesc
    rw [List.length_singleton, one_mul] at hlength
    rcases fmt_escaped hclosed hsize (by rw [List.nil_append]; omega) hargs with
      ⟨e, herror⟩ | ⟨s', hok, hs'⟩
    · rw [List.length_nil] at herror
      rw [Nat.cast_zero, sub_zero, hfmt] at herror
      cases herror
    · rw [List.length_nil, Nat.cast_zero, sub_zero, hfmt] at hok
      obtain rfl := Except.ok.inj hok
      rw [List.nil_append] at hs'
      have hnul : 0 ∉ render [] (tokens format) (args.map Text.bytes) :=
        zero_notMem_render (by simp) (char_notMem_tokens hformat) text_notMem
      rw [hs'.cString (by omega) hnul] at htext
      rw [← htext] at hlength
      omega
  · intro hesc
    rw [List.count_eq_zero.mpr hesc, mul_zero, add_zero] at hlength
    obtain ⟨s, hfmt, hs⟩ := fmt_closed hclosed (by simp; omega) hsize hesc hargs.le
    rw [List.nil_append, List.take_of_length_le (by omega)] at hs
    refine ⟨s, by simpa using hfmt, ?_⟩
    rw [render_eq_of_escape_notMem hesc]
    exact hs.cString (by omega)
      (zero_notMem_render (by simp) (char_notMem_tokens hformat) text_notMem)

/-- A format whose percent sign is a placeholder. -/
theorem escapes_literal_placeholder :
    ∃ s, fmt blank 0 64 (chars "a%b") [chars "1"] = .ok s ∧ s.cString 64 = chars "a1b" := by
  let args : List Text := [⟨chars "1", by decide, by decide⟩]
  have hcount : (tokens (chars "a%b")).count .placeholder = args.length := by decide
  exact (escapes_literal_iff (by decide) hcount (by decide) ⟨by decide, by decide⟩
    fun _ _ _ => rfl).mpr (by decide)

/-- **An escape throws without arguments and is lost before a placeholder.** -/
theorem escapes_not_literal :
    ¬ (∃ s, fmt blank 0 64 (chars "100%%") [] = .ok s ∧
      s.cString 64 = render [percent] (tokens (chars "100%%")) []) ∧
    ¬ ∃ s, fmt blank 0 64 (chars "%%a%") [chars "b"] = .ok s ∧
      s.cString 64 = render [percent] (tokens (chars "%%a%")) [chars "b"] := by
  constructor
  · rintro ⟨s, hfmt, -⟩
    have hthrows : fmt blank 0 64 (chars "100%%") []
        = .error "invalid format string: missing arguments" := rfl
    rw [hthrows] at hfmt
    cases hfmt
  · rintro ⟨s, hfmt, htext⟩
    have hlost : (fmt blank 0 64 (chars "%%a%") [chars "b"]).map (·.cString 64)
        = .ok (chars "ab") := rfl
    rw [hfmt, Except.map, htext] at hlost
    exact absurd (Except.ok.inj hlost) (by decide)

end Fmt

end Xsix

import Xsix.Fmt

/-!
How `fmt` reads a format.

A format is read from left to right as a list of tokens: the escape `%%`, the placeholder `%`,
any other character (`tokens`). What the loop of the variadic `fmt` does depends on the tokens
it meets and on the room, not on the bytes in the buffer: `Sheet.scanned` is the buffer once it
has put out some tokens, `scanFormat_leaves` says which those are, and `fmt_step` how one
argument ends.
-/

namespace Xsix

namespace Fmt

open CInt

/-- The tokens of a format. -/
inductive Token where
  | escape
  | placeholder
  | char (c : UInt8)
  deriving DecidableEq

/-- Reading a format from left to right. -/
def tokens : List UInt8 → List Token
  | [] => []
  | [c] => if c = percent then [.placeholder] else [.char c]
  | c :: d :: format =>
      if c = percent then
        if d = percent then .escape :: tokens format else .placeholder :: tokens (d :: format)
      else .char c :: tokens (d :: format)

/-- What a format and the texts of its arguments come to, `escape` being what an
escape stands for. A placeholder without an argument stands for itself. -/
def render (escape : List UInt8) : List Token → List (List UInt8) → List UInt8
  | [], _ => []
  | .escape :: ts, args => escape ++ render escape ts args
  | .char c :: ts, args => c :: render escape ts args
  | .placeholder :: ts, [] => percent :: render escape ts []
  | .placeholder :: ts, val :: args => val ++ render escape ts args

/-- The text of an argument: a C string whose length `snprintf` can return. -/
structure Text where
  bytes : List UInt8
  unterminated : 0 ∉ bytes
  fits : bytes.length < 2 ^ 31

variable {format esc : List UInt8} {pre ts : List Token} {args : List (List UInt8)} {s : Sheet}
  {size : ℤ} {n : ℕ}

/-! ### Tokens -/

/-- What the tokens before a placeholder put out, escapes putting out nothing. -/
def literal (pre : List Token) : List UInt8 := render [] pre []

lemma render_append (h : .placeholder ∉ pre) :
    render esc (pre ++ ts) args = render esc pre [] ++ render esc ts args := by
  induction pre with
  | nil => rfl
  | cons t pre ih =>
      have hpre : Token.placeholder ∉ pre := fun hmem => h (List.mem_cons_of_mem t hmem)
      cases t with
      | escape => simp [render, ih hpre]
      | char c => simp [render, ih hpre]
      | placeholder => exact absurd List.mem_cons_self h

@[simp] lemma literal_nil : literal [] = [] := rfl

@[simp] lemma literal_char : literal (.char c :: pre) = c :: literal pre := rfl

@[simp] lemma literal_escape : literal (.escape :: pre) = literal pre := rfl

/-! ### The loop, whatever the buffer holds -/

/-- The buffer after the loop has put out the tokens `pre` from cell `i` on. -/
def Sheet.scanned : Sheet → ℤ → List Token → Sheet
  | s, _, [] => s
  | s, i, .char c :: pre => (s.put i c).scanned (i + 1) pre
  | s, i, .escape :: pre => (s.put i percent).scanned i pre
  | s, i, .placeholder :: pre => s.scanned i pre

/-- What the loop leaves of the sheet `s` from cell `n` on: at the end of the format or of the
buffer, the tokens up to there put out; at a placeholder, those before it. -/
def Scanned.Leaves (s : Sheet) (size : ℤ) (n : ℕ) (format : List UInt8) : Scanned → Prop
  | .finished s' => ∃ pre ts, tokens format = pre ++ ts ∧ .placeholder ∉ pre ∧
      n + (literal pre).length ≤ size - 1 ∧ (pre = [] ∨ n < size - 1) ∧
      (ts = [] ∨ size - 1 ≤ n + (literal pre).length) ∧ s' = s.scanned n pre
  | .placeholder s' bufCurr format' => ∃ pre, .placeholder ∉ pre ∧
      tokens format = pre ++ .placeholder :: tokens format' ∧
      bufCurr = (n + (literal pre).length : ℕ) ∧ bufCurr < size - 1 ∧ s' = s.scanned n pre

lemma Scanned.leaves_full (hfull : ¬(n : ℤ) < size - 1) (hroom : (n : ℤ) ≤ size - 1) :
    (Scanned.finished s).Leaves s size n format :=
  ⟨[], tokens format, rfl, by simp, by simpa using hroom, Or.inl rfl,
    Or.inr (by simpa using hfull), rfl⟩

/-- A token put out before the rest of the loop. -/
lemma Scanned.Leaves.cons {t : Token} {s₁ : Sheet} {m : ℕ} {format' : List UInt8} {r : Scanned}
    (ht : t ≠ .placeholder) (htok : tokens format = t :: tokens format') (hlt : (n : ℤ) < size - 1)
    (hm : ∀ pre, m + (literal pre).length = n + (literal (t :: pre)).length)
    (hs : ∀ pre, s₁.scanned m pre = s.scanned n (t :: pre))
    (h : r.Leaves s₁ size m format') : r.Leaves s size n format := by
  cases r with
  | finished s' =>
      obtain ⟨pre, ts, hsplit, hpre, hle, -, hend, rfl⟩ := h
      have hlen := hm pre
      refine ⟨t :: pre, ts, by rw [htok, hsplit, List.cons_append], ?_, by omega, Or.inr hlt, ?_,
        hs pre⟩
      · simpa [ht.symm] using hpre
      · exact hend.imp_right fun hfull => by omega
  | placeholder s' bufCurr format'' =>
      obtain ⟨pre, hpre, hsplit, hcur, hroom, rfl⟩ := h
      exact ⟨t :: pre, by simpa [ht.symm] using hpre, by rw [htok, hsplit, List.cons_append],
        by rw [hcur, hm pre], hroom, hs pre⟩

/-- **The loop leaves what it is to leave**, whatever the buffer holds. -/
lemma scanFormat_leaves (format : List UInt8) (hroom : (n : ℤ) ≤ size - 1) :
    (scanFormat s (size - 1) n format).Leaves s size n format := by
  induction format using tokens.induct generalizing s n with
  | case1 =>
      exact ⟨[], [], rfl, by simp, by simpa using hroom, Or.inl rfl, Or.inl rfl, rfl⟩
  | case2 =>
      rw [scanFormat]
      by_cases hlt : (n : ℤ) < size - 1
      · rw [if_pos hlt, if_pos rfl]
        exact ⟨[], by simp, by simp [tokens], by simp, hlt, rfl⟩
      · rw [if_neg hlt]
        exact Scanned.leaves_full hlt hroom
  | case3 c hc =>
      rw [scanFormat]
      by_cases hlt : (n : ℤ) < size - 1
      · rw [if_pos hlt, if_neg hc]
        exact ⟨[.char c], [], by simp [tokens, hc], by simp, by simp; omega, Or.inr hlt,
          Or.inl rfl, rfl⟩
      · rw [if_neg hlt]
        exact Scanned.leaves_full hlt hroom
  | case4 format ih =>
      rw [scanFormat]
      by_cases hlt : (n : ℤ) < size - 1
      · rw [if_pos hlt, if_pos rfl, if_pos rfl]
        exact (ih (s := s.put n percent) hroom).cons (t := .escape) (by simp) (by simp [tokens])
          hlt (fun _ => rfl) fun _ => rfl
      · rw [if_neg hlt]
        exact Scanned.leaves_full hlt hroom
  | case5 d format hd ih =>
      rw [scanFormat]
      by_cases hlt : (n : ℤ) < size - 1
      · rw [if_pos hlt, if_pos rfl, if_neg hd]
        exact ⟨[], by simp, by simp [tokens, hd], by simp, hlt, rfl⟩
      · rw [if_neg hlt]
        exact Scanned.leaves_full hlt hroom
  | case6 c d format hc ih =>
      rw [scanFormat]
      by_cases hlt : (n : ℤ) < size - 1
      · rw [if_pos hlt, if_neg hc]
        have hnext := ih (s := s.put n c) (n := n + 1) (by omega)
        push_cast at hnext
        refine hnext.cons (t := .char c) (by simp) (by rw [tokens, if_neg hc]) hlt
          (fun pre => ?_) fun pre => ?_
        · rw [literal_char, List.length_cons]
          ring
        · simp only [Sheet.scanned]
          push_cast
          rfl
      · rw [if_neg hlt]
        exact Scanned.leaves_full hlt hroom

/-! ### One argument -/

/-- The room left after `k` characters, computed from the last cell. -/
lemma remain_eq {k : ℕ} (hsize : IsInt32 size) (hk : (k : ℤ) ≤ size - 1) :
    int32 (size - 1 - k + 1) = size - k := by
  have hlt := hsize.2
  rw [int32_eq_self]
  · ring
  · exact ⟨by omega, by omega⟩

/-- What `v2s` prints at the cursor of the variadic `fmt`, whatever the buffer holds. -/
lemma v2s_eq (s : Sheet) {k : ℕ} (hk : (k : ℤ) < size - 1) (hsize : IsInt32 size) (val : Text) :
    Fmt.v2s s k (int32 (size - 1 - k + 1)) val.bytes
      = (s.puts k (val.bytes.take (size - k - 1).toNat ++ [0]), (val.bytes.length : ℤ)) := by
  have hlen : int32 (val.bytes.length : ℤ) = val.bytes.length :=
    int32_eq_self ⟨by omega, by exact_mod_cast val.fits⟩
  have hroom : uint64 (size - k) = size - k :=
    uint64_eq_self (by omega) (by have := hsize.2; omega)
  simp only [Fmt.v2s, snprintf, remain_eq hsize hk.le, hroom, hlen]
  rw [if_neg (by omega)]

/-- The cursor after `k` characters and a text of `l` more. -/
lemma step_eq {k l : ℕ} (hk : (k : ℤ) < size - 1) :
    (k : ℤ) + (if (l : ℤ) < size - k - 1 then (l : ℤ) else size - k - 1)
      = (min (k + l) (size - 1).toNat : ℕ) := by
  split_ifs with hlt
  · rw [min_eq_left (by omega)]
    push_cast
    rfl
  · rw [min_eq_right (by omega)]
    omega

/-- The sheet after a placeholder at cell `k` was given the text of its argument. -/
def Sheet.filled (s : Sheet) (size : ℤ) (k : ℕ) (val : List UInt8) : Sheet :=
  s.puts k (val.take (size - k - 1).toNat ++ [0])

/-- **One argument of the variadic `fmt`**, whatever the buffer holds: it ends with the tokens it
came to put out, or fills the next placeholder and goes on after it. -/
lemma fmt_step (s : Sheet) (format : List UInt8) (val : Text) (args : List (List UInt8))
    (hroom : (n : ℤ) ≤ size - 1) (hsize : IsInt32 size) :
    (∃ pre ts, fmt s n (size - n) format (val.bytes :: args) = .ok (s.scanned n pre) ∧
      tokens format = pre ++ ts ∧ .placeholder ∉ pre ∧
      n + (literal pre).length ≤ size - 1 ∧ (pre = [] ∨ n < size - 1) ∧
      (ts = [] ∨ size - 1 ≤ n + (literal pre).length)) ∨
    (∃ pre format' k n', tokens format = pre ++ .placeholder :: tokens format' ∧
      .placeholder ∉ pre ∧ k = n + (literal pre).length ∧ (k : ℤ) < size - 1 ∧
      n' = min (k + val.bytes.length) (size - 1).toNat ∧
      fmt s n (size - n) format (val.bytes :: args)
        = fmt ((s.scanned n pre).filled size k val.bytes) n' (size - n') format' args) := by
  by_cases hnil : format = []
  · subst hnil
    exact Or.inl ⟨[], [], by simp [fmt, Sheet.scanned], rfl, by simp, by simpa using hroom,
      Or.inl rfl, Or.inl rfl⟩
  have hgo : ¬(format.length ≤ 0 ∨ size - (n : ℤ) ≤ 0) := by
    rw [Nat.le_zero, List.length_eq_zero_iff]
    rintro (h0 | h0)
    · exact hnil h0
    · omega
  have hend : (n : ℤ) + (size - n) - 1 = size - 1 := by ring
  have hleaves := scanFormat_leaves (s := s) format hroom
  rw [fmt, if_neg hgo, hend]
  cases hscan : scanFormat s (size - 1) n format with
  | finished s' =>
      rw [hscan] at hleaves
      obtain ⟨pre, ts, hsplit, hpre, hle, hstart, hfull, rfl⟩ := hleaves
      exact Or.inl ⟨pre, ts, by simp only [hscan], hsplit, hpre, hle, hstart, hfull⟩
  | placeholder s' bufCurr format' =>
      rw [hscan] at hleaves
      obtain ⟨pre, hpre, hsplit, rfl, hlt, rfl⟩ := hleaves
      refine Or.inr ⟨pre, format', _, _, hsplit, hpre, rfl, hlt, rfl, ?_⟩
      simp only [hscan, v2s_eq _ hlt hsize val]
      simp only [remain_eq hsize hlt.le, step_eq hlt]
      rw [remain_eq hsize (by omega)]
      rfl

end Fmt

end Xsix

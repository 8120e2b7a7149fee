import Xsix.Library.CInt
import Xsix.Library.Runs

/-!
`xsix::utils::split` (`utils/string_utils.hpp`): the tokens of a string between delimiters.

A `std::string` is its characters, fewer than `npos` of them. The two overloads share one
loop over the cursors `lastPos` and `pos`, either of which may be `npos`; `pos - lastPos` is
taken in `size_t`, and `substr` throws past the end of the string.

* `split`, `splitInto`: the overload that returns the tokens and the one that fills a vector.
* `findFrom_cases`: where a scan stops and what it has skipped.
* `splitLoop_listed`: entered at a position before which a token cannot begin, the loop
  appends the runs that a scan from there lists.
* `split_maximalRuns`: both overloads return the maximal runs of non-delimiters, from left
  to right.
-/

namespace Xsix.Utils

open Runs

/-- `std::string::npos`. -/
def npos : ℕ := 2 ^ 64 - 1

/-- A `std::string`: its characters, of which there are fewer than `npos`. -/
structure StdString where
  chars : List UInt8
  length_lt : chars.length < npos

/-- Why a call of `split` gives no tokens: `substr` threw `std::out_of_range`, or the loop
was still running when the fuel was spent. -/
inductive Failure
  | outOfRange
  | unfinished
  deriving DecidableEq, Repr

namespace StdString

variable (s set : StdString)

/-- The first position from `pos` on whose character has `p`, `npos` if there is none. -/
def findFrom (p : UInt8 → Bool) (pos : ℕ) : ℕ :=
  match (s.chars.drop pos).findIdx? p with
  | some k => pos + k
  | none => npos

/-- `s.find_first_of(set, pos)`. -/
def findFirstOf (pos : ℕ) : ℕ := s.findFrom (fun c => c ∈ set.chars) pos

/-- `s.find_first_not_of(set, pos)`. -/
def findFirstNotOf (pos : ℕ) : ℕ := s.findFrom (fun c => c ∉ set.chars) pos

/-- `s.substr(pos, n)`. -/
def substr (pos n : ℕ) : Except Failure StdString :=
  if pos ≤ s.chars.length then
    .ok ⟨(s.chars.drop pos).take n, by
      have := s.length_lt
      rw [List.length_take, List.length_drop]
      omega⟩
  else .error .outOfRange

end StdString

/-- `pos - lastPos` in `size_t`. -/
def sizeDiff (pos lastPos : ℕ) : ℕ := (CInt.uint64 ((pos : ℤ) - lastPos)).toNat

/-- The `while` loop of both overloads, for `fuel` tests of its condition. -/
def splitLoop (src delim : StdString) :
    ℕ → ℕ → ℕ → List StdString → Except Failure (List StdString)
  | 0, _, _, _ => .error .unfinished
  | fuel + 1, lastPos, pos, tokens =>
      if npos ≠ pos ∨ npos ≠ lastPos then do
        let token ← src.substr lastPos (sizeDiff pos lastPos)
        let lastPos' := src.findFirstNotOf delim pos
        let pos' := src.findFirstOf delim lastPos'
        splitLoop src delim fuel lastPos' pos' (tokens ++ [token])
      else .ok tokens

/-- `split(src, delim)`. Every round but the last passes a character of `src`. -/
def split (src delim : StdString) : Except Failure (List StdString) :=
  let tokens : List StdString := []
  let lastPos := src.findFirstNotOf delim 0
  let pos := src.findFirstOf delim lastPos
  splitLoop src delim (src.chars.length + 1) lastPos pos tokens

/-- `split(src, delim, tokens)`: what the vector holds afterwards. -/
def splitInto (src delim : StdString) (tokens : List StdString) :
    Except Failure (List StdString) :=
  let tokens := tokens.take 0 -- `tokens.clear()`
  let lastPos := src.findFirstNotOf delim 0
  let pos := src.findFirstOf delim lastPos
  splitLoop src delim (src.chars.length + 1) lastPos pos tokens

example : (split ⟨[44, 97, 98, 44, 99], by decide⟩ ⟨[44], by decide⟩).map
    (fun tokens => tokens.map StdString.chars) = .ok [[97, 98], [99]] := by
  decide

variable {src delim : StdString} {pos lastPos : ℕ} {p : UInt8 → Bool} {s : StdString}
  {tokens : List StdString}

/-! ### Where the scans stop -/

/-- A scan stops at the first position with `p`, or finds none and returns `npos`. -/
lemma findFrom_cases (s : StdString) (p : UInt8 → Bool) (pos : ℕ) :
    (s.findFrom p pos = npos ∧ ∀ i, pos ≤ i → ¬At p s.chars i) ∨
    (pos ≤ s.findFrom p pos ∧ At p s.chars (s.findFrom p pos) ∧
      ∀ i, pos ≤ i → i < s.findFrom p pos → ¬At p s.chars i) := by
  unfold StdString.findFrom
  cases hfind : (s.chars.drop pos).findIdx? p with
  | none =>
      refine Or.inl ⟨rfl, fun i hi hat => ?_⟩
      obtain ⟨hlt, hp⟩ := at_iff.mp hat
      have hmem : s.chars[i] ∈ s.chars.drop pos :=
        List.mem_drop_iff_getElem.mpr ⟨i - pos, by omega, by congr 1; omega⟩
      have hnone := List.findIdx?_eq_none_iff.mp hfind _ hmem
      rw [hp] at hnone
      exact absurd hnone (by simp)
  | some k =>
      obtain ⟨hk, hp, hbefore⟩ := List.findIdx?_eq_some_iff_getElem.mp hfind
      rw [List.length_drop] at hk
      dsimp only
      refine Or.inr ⟨Nat.le_add_right _ _, at_iff.mpr ⟨by omega, ?_⟩, fun i hi hlt hat => ?_⟩
      · simpa using hp
      · obtain ⟨hlen, hpi⟩ := at_iff.mp hat
        have hnot := hbefore (i - pos) (by omega)
        simp only [List.getElem_drop, Nat.add_sub_cancel' hi] at hnot
        exact hnot hpi

/-- A scan from `npos` finds nothing. -/
@[simp] lemma findFrom_npos : s.findFrom p npos = npos := by
  rcases findFrom_cases s p npos with ⟨h, -⟩ | ⟨hle, hat, -⟩
  · exact h
  · have hlt := (at_iff.mp hat).1
    have := s.length_lt
    omega

/-- `c` is not a delimiter. -/
abbrev Plain (delim : StdString) (c : UInt8) : Bool := c ∉ delim.chars

/-- Within the string a position is a delimiter or plain. -/
lemma at_delim_iff {i : ℕ} :
    At (fun c => c ∈ delim.chars) src.chars i ↔
      i < src.chars.length ∧ ¬At (Plain delim) src.chars i := by
  rw [at_iff, at_iff]
  by_cases h : i < src.chars.length
  · simp [h]
  · simp [h]

/-! ### One round of the loop -/

lemma splitLoop_npos (fuel : ℕ) :
    splitLoop src delim (fuel + 1) npos npos tokens = .ok tokens := by
  simp [splitLoop]

/-- `substr` of a token that ends before the string does. -/
lemma substr_sizeDiff (hlt : lastPos ≤ pos) (hpos : pos ≤ src.chars.length) :
    ∃ token, src.substr lastPos (sizeDiff pos lastPos) = .ok token ∧
      token.chars = src.chars.extract lastPos pos := by
  have hdiff : sizeDiff pos lastPos = pos - lastPos := by
    have := src.length_lt
    simp only [npos] at this
    rw [sizeDiff, CInt.uint64_eq_self (by omega) (by omega)]
    omega
  rw [StdString.substr, if_pos (by omega)]
  exact ⟨_, rfl, by rw [List.extract_eq_take_drop, hdiff]⟩

/-- `substr` of the last token, whose length is what is left below `npos`. -/
lemma substr_npos (hlt : lastPos ≤ src.chars.length) :
    ∃ token, src.substr lastPos (sizeDiff npos lastPos) = .ok token ∧
      token.chars = src.chars.extract lastPos src.chars.length := by
  have hlong : src.chars.length - lastPos ≤ sizeDiff npos lastPos := by
    have := src.length_lt
    simp only [npos] at this
    rw [sizeDiff, npos, CInt.uint64_eq_self (by omega) (by omega)]
    omega
  rw [StdString.substr, if_pos hlt]
  refine ⟨_, rfl, ?_⟩
  calc (src.chars.drop lastPos).take (sizeDiff npos lastPos)
      = src.chars.drop lastPos := List.take_of_length_le (by simpa using hlong)
    _ = src.chars.extract lastPos src.chars.length := by
        rw [List.extract_eq_take_drop, List.take_of_length_le (by simp)]

/-- A token cannot begin before `n`: there is nothing there, or a delimiter. -/
def Boundary (src delim : StdString) (n : ℕ) : Prop :=
  n = 0 ∨ ¬At (Plain delim) src.chars n

/-- The run at which a scan from a boundary stops begins there. -/
lemma start_of_boundary {n a : ℕ} (h : Boundary src delim n) (hna : n ≤ a)
    (hskip : ∀ i, n ≤ i → i < a → ¬At (Plain delim) src.chars i)
    (hat : At (Plain delim) src.chars a) : a = 0 ∨ ¬At (Plain delim) src.chars (a - 1) := by
  by_cases hlt : n < a
  · exact Or.inr (hskip (a - 1) (by omega) (by omega))
  · obtain rfl : a = n := by omega
    rcases h with h0 | hnot
    · exact Or.inl h0
    · exact absurd hat hnot

/-- **The loop from a boundary** appends the runs a scan from there lists: it ends within
one test more than there are characters left, and `substr` does not throw. -/
lemma splitLoop_listed (fuel n : ℕ) (tokens : List StdString)
    (hbound : Boundary src delim n) (hfuel : src.chars.length - n < fuel) :
    ∃ ps new, Listed (At (Plain delim) src.chars) n ps ∧
      splitLoop src delim fuel (src.findFirstNotOf delim n)
        (src.findFirstOf delim (src.findFirstNotOf delim n)) tokens = .ok (tokens ++ new) ∧
      new.map StdString.chars = ps.map fun q => src.chars.extract q.1 q.2 := by
  induction fuel generalizing n tokens with
  | zero => omega
  | succ fuel ih =>
      rcases findFrom_cases src (Plain delim) n with ⟨hlast, hnone⟩ | ⟨hna, hat, hskip⟩
      · -- no token is left: both cursors are `npos`
        have hfirst : src.findFirstNotOf delim n = npos := hlast
        rw [hfirst, StdString.findFirstOf, findFrom_npos, splitLoop_npos]
        exact ⟨[], [], Listed.nil hnone, by simp, rfl⟩
      · change n ≤ src.findFirstNotOf delim n at hna
        change At _ _ (src.findFirstNotOf delim n) at hat
        change ∀ i, n ≤ i → i < src.findFirstNotOf delim n → _ at hskip
        generalize src.findFirstNotOf delim n = a at hna hat hskip ⊢
        have ha : a < src.chars.length := (at_iff.mp hat).1
        have hstart := start_of_boundary hbound hna hskip hat
        have hnpos : npos ≠ a := by
          have := src.length_lt
          omega
        rcases findFrom_cases src (fun c => c ∈ delim.chars) a with
          ⟨hpos, hnone⟩ | ⟨hab, hdelim, hinside⟩
        · -- the last token reaches the end of the string
          have hpos' : src.findFirstOf delim a = npos := hpos
          obtain ⟨token, hsub, hchars⟩ := substr_npos ha.le
          have hrun : MaximalRun (At (Plain delim) src.chars) a src.chars.length :=
            ⟨ha, fun i hai hi => by
              by_contra hplain
              exact hnone i hai (at_delim_iff.mpr ⟨hi, hplain⟩),
              hstart, fun hend => by
                obtain ⟨hlt, -⟩ := at_iff.mp hend
                omega⟩
          have hrest : Listed (At (Plain delim) src.chars) src.chars.length [] :=
            Listed.nil fun i hi hat' => by
              obtain ⟨hlt, -⟩ := at_iff.mp hat'
              omega
          refine ⟨[(a, src.chars.length)], [token], Listed.cons hna hskip hrun hrest, ?_, ?_⟩
          · obtain ⟨fuel, rfl⟩ : ∃ k, fuel = k + 1 := ⟨fuel - 1, by omega⟩
            rw [splitLoop, if_pos (Or.inr hnpos), hpos', hsub]
            simp only [StdString.findFirstNotOf, StdString.findFirstOf, findFrom_npos,
              bind, Except.bind]
            exact splitLoop_npos fuel
          · simp [hchars]
        · -- a delimiter ends the token, and the scan goes on from there
          change a ≤ src.findFirstOf delim a at hab
          change At _ _ (src.findFirstOf delim a) at hdelim
          change ∀ i, a ≤ i → i < src.findFirstOf delim a → _ at hinside
          generalize src.findFirstOf delim a = b at hab hdelim hinside ⊢
          obtain ⟨hb, hplain⟩ := at_delim_iff.mp hdelim
          have hlt : a < b := lt_of_le_of_ne hab fun heq => hplain (heq ▸ hat)
          have hrun : MaximalRun (At (Plain delim) src.chars) a b :=
            ⟨hlt, fun i hai hi => by
              by_contra hnot
              exact hinside i hai hi (at_delim_iff.mpr ⟨by omega, hnot⟩), hstart, hplain⟩
          obtain ⟨token, hsub, hchars⟩ := substr_sizeDiff hab hb.le
          obtain ⟨ps, new, hlisted, hloop, hnew⟩ :=
            ih b (tokens ++ [token]) (Or.inr hplain) (by omega)
          refine ⟨(a, b) :: ps, token :: new, Listed.cons hna hskip hrun hlisted, ?_, ?_⟩
          · rw [splitLoop, if_pos (Or.inr hnpos), hsub]
            simp only [bind, Except.bind]
            rw [hloop, List.append_assoc, List.singleton_append]
          · rw [List.map_cons, List.map_cons, hnew, hchars]

/-! ### Both overloads -/

/-- **`split` yields the maximal delimiter-free runs.** Both overloads end, without a
throw from `substr` and whatever the vector held, with one list of tokens: the maximal runs
of characters that are not delimiters, from left to right. None is empty or holds a
delimiter, and together they are the string without its delimiters. -/
theorem split_maximalRuns (src delim : StdString) (old : List StdString) :
    ∃ (tokens : List StdString) (ps : List (ℕ × ℕ)),
      split src delim = .ok tokens ∧ splitInto src delim old = .ok tokens ∧
      tokens.map StdString.chars = ps.map (fun q => src.chars.extract q.1 q.2) ∧
      ps.Pairwise (fun q r => q.2 < r.1) ∧
      (∀ a b, (a, b) ∈ ps ↔ MaximalRun (At (Plain delim) src.chars) a b) ∧
      (∀ token ∈ tokens, token.chars ≠ [] ∧ ∀ c ∈ token.chars, c ∉ delim.chars) ∧
      (tokens.map StdString.chars).flatten = src.chars.filter (Plain delim) := by
  obtain ⟨ps, tokens, hlisted, hloop, hchars⟩ :=
    splitLoop_listed (src.chars.length + 1) 0 [] (Or.inl rfl : Boundary src delim 0) (by omega)
  rw [List.nil_append] at hloop
  have hmem : ∀ a b, (a, b) ∈ ps ↔ MaximalRun (At (Plain delim) src.chars) a b := by
    intro a b
    rw [hlisted.mem_iff]
    exact and_iff_right a.zero_le
  refine ⟨tokens, ps, hloop, hloop, hchars, hlisted.pairwise, hmem, ?_, ?_⟩
  · intro token htoken
    obtain ⟨⟨a, b⟩, hab, heq⟩ := List.mem_map.mp (hchars ▸ List.mem_map_of_mem htoken)
    have hrun := (hmem a b).mp hab
    rw [← heq]
    exact ⟨hrun.extract_ne_nil, fun c hc => by simpa using hrun.forall_mem_extract c hc⟩
  · rw [hchars, hlisted.flatten_extract, List.drop_zero]

end Xsix.Utils

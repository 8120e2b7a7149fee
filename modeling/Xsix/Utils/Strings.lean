import Mathlib.Data.List.DropRight
import Xsix.Utils.Split

/-!
`utils/string_utils.hpp`: the functions that trim and compare strings, and what `split` makes of
strings that are put together or trimmed.

* `words`: `split` in one line, the nonempty pieces between delimiters (`split_words`).
* `split_intercalate_iff`: `split` gives back the tokens a string was joined from exactly when
  none of them is empty or holds a delimiter.
* `trim_iff`: `trim` cuts the blanks off both ends and nothing else.
* `split_trim`: where blanks are delimiters, trimming first makes no difference.
-/

namespace Xsix.Utils

open Runs

@[ext] lemma StdString.ext {s t : StdString} (h : s.chars = t.chars) : s = t := by
  cases s
  cases t
  simpa using h

/-! ### Trimming, prefixes and suffixes -/

/-- The negation of the test that `ltrim` and `rtrim` give to `std::find_if`. -/
def isBlank (ch : UInt8) : Bool := ch == 32 || ch == 9 || ch == 10

/-- `ltrim`: `erase` up to the first character that is not blank. -/
def ltrim (src : StdString) : StdString :=
  ⟨src.chars.drop (src.chars.findIdx (!isBlank ·)), by
    have := src.length_lt
    rw [List.length_drop]
    omega⟩

/-- `rtrim`: `erase` from behind the last character that is not blank. -/
def rtrim (src : StdString) : StdString :=
  ⟨src.chars.take (src.chars.length - src.chars.reverse.findIdx (!isBlank ·)), by
    have := src.length_lt
    rw [List.length_take]
    omega⟩

/-- `trim`. -/
def trim (src : StdString) : StdString := rtrim (ltrim src)

/-- `has_prefix`. -/
def hasPrefix (src pre : StdString) : Bool :=
  if pre.chars.length > src.chars.length then false
  else (List.range pre.chars.length).all fun i => pre.chars[i]? == src.chars[i]?

/-- `has_suffix`. -/
def hasSuffix (src suffix : StdString) : Bool :=
  if suffix.chars.length > src.chars.length then false
  else
    let offset := src.chars.length - suffix.chars.length
    (List.range suffix.chars.length).all fun i =>
      let index := i + offset
      if index ≥ src.chars.length then false else suffix.chars[i]? == src.chars[index]?

variable {src delim core : StdString}

lemma hasPrefix_iff {pre : StdString} : hasPrefix src pre = true ↔ pre.chars <+: src.chars := by
  rw [hasPrefix, List.prefix_iff_getElem?]
  split_ifs with hlong
  · simp only [false_iff]
    intro hpre
    have hlast := hpre src.chars.length (by omega)
    simp at hlast
  · simp only [List.all_eq_true, List.mem_range, beq_iff_eq]
    refine forall₂_congr fun i hi => ?_
    rw [List.getElem?_eq_getElem hi, eq_comm]

lemma hasSuffix_iff {suffix : StdString} :
    hasSuffix src suffix = true ↔ suffix.chars <:+ src.chars := by
  rw [hasSuffix]
  split_ifs with hlong
  · simp only [false_iff]
    intro hsuf
    exact hlong.not_ge hsuf.length_le
  · have hle : suffix.chars.length ≤ src.chars.length := not_lt.mp hlong
    rw [List.suffix_iff_getElem?]
    simp only [List.all_eq_true, List.mem_range]
    have hinside : ∀ i < suffix.chars.length,
        ¬ i + (src.chars.length - suffix.chars.length) ≥ src.chars.length := by omega
    constructor
    · refine fun h => ⟨hle, fun i hi => ?_⟩
      have hi' := h i hi
      rw [if_neg (hinside i hi), beq_iff_eq, List.getElem?_eq_getElem hi] at hi'
      rw [Nat.add_sub_assoc hle, hi']
    · rintro ⟨-, h⟩ i hi
      rw [if_neg (hinside i hi), beq_iff_eq, List.getElem?_eq_getElem hi, ← h i hi,
        Nat.add_sub_assoc hle]

/-! ### The words of a string -/

section Words

variable {α : Type*} {p : α → Bool} {x : α} {w xs ys : List α}

/-- The nonempty pieces of a list between elements with `p`. -/
def words (p : α → Bool) (xs : List α) : List (List α) :=
  (xs.splitOnP p).filter fun w => !w.isEmpty

lemma words_append_cons (hx : p x = true) : words p (xs ++ x :: ys) = words p xs ++ words p ys := by
  rw [words, List.splitOnP_append_cons xs ys hx, List.filter_append]
  rfl

lemma words_cons (hx : p x = true) : words p (x :: xs) = words p xs := by
  have happend : words p ([] ++ x :: xs) = words p [] ++ words p xs := words_append_cons hx
  simpa [words] using happend

/-- A piece without separators is a word. -/
lemma words_of_plain (hw : w ≠ []) (hplain : ∀ c ∈ w, p c = false) : words p w = [w] := by
  rw [words, List.splitOnP_eq_singleton hplain]
  simp [hw]

lemma words_append_of_forall (hseps : ∀ c ∈ xs, p c = true) : words p (xs ++ ys) = words p ys := by
  induction xs with
  | nil => rfl
  | cons x xs ih =>
      rw [List.cons_append, words_cons (hseps x List.mem_cons_self)]
      exact ih fun c hc => hseps c (List.mem_cons_of_mem _ hc)

lemma words_of_forall (hseps : ∀ c ∈ xs, p c = true) : words p xs = [] := by
  have happend : words p (xs ++ []) = words p [] := words_append_of_forall hseps
  simpa [words] using happend

/-- Separators between two lists part their words. -/
lemma words_append_append (hxs : xs ≠ []) (hseps : ∀ c ∈ xs, p c = true) (ws : List α) :
    words p (ws ++ (xs ++ ys)) = words p ws ++ words p ys := by
  obtain ⟨x, xs, rfl⟩ := List.exists_cons_of_ne_nil hxs
  rw [List.cons_append, words_append_cons (hseps x List.mem_cons_self),
    words_append_of_forall fun c hc => hseps c (List.mem_cons_of_mem _ hc)]

lemma words_append_right (hseps : ∀ c ∈ ys, p c = true) : words p (xs ++ ys) = words p xs := by
  cases ys with
  | nil => rw [List.append_nil]
  | cons y ys =>
      rw [words_append_cons (hseps y List.mem_cons_self),
        words_of_forall fun c hc => hseps c (List.mem_cons_of_mem _ hc), List.append_nil]

lemma forall_of_filter_eq_nil (h : xs.filter (fun c => !p c) = []) : ∀ c ∈ xs, p c = true := by
  simpa [List.filter_eq_nil_iff] using h

/-- What a scan lists are the words. -/
lemma words_eq_of_listed {n : ℕ} {ps : List (ℕ × ℕ)} (h : Listed (At (fun c => !p c) xs) n ps) :
    words p (xs.drop n) = ps.map fun q => xs.extract q.1 q.2 := by
  induction h with
  | @nil n hnone =>
      exact words_of_forall (forall_of_filter_eq_nil (Listed.nil hnone).flatten_extract.symm)
  | @cons n a b ps hna hskip hrun _ ih =>
      have hplain : ∀ c ∈ xs.extract a b, p c = false := fun c hc => by
        simpa using hrun.forall_mem_extract c hc
      rw [drop_eq_extract_append hna, drop_eq_extract_append hrun.lt.le, words_append_of_forall
        (forall_of_filter_eq_nil (filter_extract_eq_nil hskip)), List.map_cons, ← ih]
      cases hrest : xs.drop b with
      | nil =>
          rw [List.append_nil, words_of_plain hrun.extract_ne_nil hplain]
          rfl
      | cons x rest =>
          -- the run ends at a separator
          have hx : p x = true := by
            have hget : xs[b]? = some x := by
              rw [← List.head?_drop, hrest]
              rfl
            simpa [At, hget] using hrun.stop
          rw [words_append_cons hx, words_cons hx, words_of_plain hrun.extract_ne_nil hplain]
          rfl

/-- Joined by separators, words are the words again. -/
lemma words_intercalate {sep : List α} {ts : List (List α)} (hsep : sep ≠ [])
    (hseps : ∀ c ∈ sep, p c = true) (hts : ∀ w ∈ ts, w ≠ [] ∧ ∀ c ∈ w, p c = false) :
    words p (sep.intercalate ts) = ts := by
  induction ts with
  | nil => rfl
  | cons w ts ih =>
      obtain ⟨⟨hw, hplain⟩, hrest⟩ := List.forall_mem_cons.mp hts
      cases ts with
      | nil => rw [List.intercalate_singleton, words_of_plain hw hplain]
      | cons w' ts =>
          rw [List.intercalate_cons_cons, List.append_assoc, words_append_append hsep hseps,
            words_of_plain hw hplain, ih hrest]
          rfl

end Words

/-- `split` returns the words of the string, which are not empty and hold no delimiter. -/
lemma split_words (src delim : StdString) : ∃ tokens, split src delim = .ok tokens ∧
    tokens.map StdString.chars = words (fun c => c ∈ delim.chars) src.chars ∧
    ∀ t ∈ tokens, t.chars ≠ [] ∧ ∀ c ∈ t.chars, c ∉ delim.chars := by
  obtain ⟨ps, tokens, hlisted, hloop, hchars⟩ :=
    splitLoop_listed (src.chars.length + 1) 0 [] (Or.inl rfl : Boundary src delim 0) (by omega)
  refine ⟨tokens, hloop, ?_, fun t ht => ?_⟩
  · have hplain : Plain delim = fun c => !decide (c ∈ delim.chars) := by
      funext c
      simp
    rw [hplain] at hlisted
    rw [hchars, ← words_eq_of_listed hlisted, List.drop_zero]
  · obtain ⟨⟨a, b⟩, hab, hextract⟩ := List.mem_map.mp (hchars ▸ List.mem_map_of_mem ht)
    have hrun := (hlisted.mem_iff.mp hab).2
    rw [← hextract]
    exact ⟨hrun.extract_ne_nil, fun c hc => by simpa using hrun.forall_mem_extract c hc⟩

/-- **Splitting and joining.** Joined by delimiters, tokens come back exactly when none of them
is empty or holds a delimiter. -/
theorem split_intercalate_iff {sep : List UInt8} {ts : List StdString} (hsep : sep ≠ [])
    (hdelim : ∀ c ∈ sep, c ∈ delim.chars)
    (hsrc : src.chars = sep.intercalate (ts.map StdString.chars)) :
    split src delim = .ok ts ↔ ∀ t ∈ ts, t.chars ≠ [] ∧ ∀ c ∈ t.chars, c ∉ delim.chars := by
  obtain ⟨tokens, hsplit, hwords, hproper⟩ := split_words src delim
  constructor
  · intro h
    obtain rfl : tokens = ts := Except.ok.inj (hsplit.symm.trans h)
    exact hproper
  · intro hts
    rw [hsplit]
    refine congrArg _ (List.map_injective_iff.mpr (fun _ _ => StdString.ext) ?_)
    rw [hwords, hsrc, words_intercalate hsep fun c hc => by simpa using hdelim c hc]
    intro w hw
    obtain ⟨t, ht, rfl⟩ := List.mem_map.mp hw
    simpa using hts t ht

/-- Three tokens, joined and split. -/
theorem split_intercalate_iff_three :
    split ⟨[97, 44, 32, 98, 99, 44, 32, 100], by decide⟩ ⟨[32, 44], by decide⟩ =
      .ok [⟨[97], by decide⟩, ⟨[98, 99], by decide⟩, ⟨[100], by decide⟩] := by
  have hsep : ([44, 32] : List UInt8) ≠ [] := by simp
  exact (split_intercalate_iff hsep (by simp) rfl).mpr (by simp)

/-! ### Trimming -/

lemma ltrim_chars : (ltrim src).chars = src.chars.dropWhile isBlank :=
  List.dropWhile_eq_drop_findIdx_not.symm

lemma rtrim_chars : (rtrim src).chars = src.chars.rdropWhile isBlank := by
  rw [List.rdropWhile, List.dropWhile_eq_drop_findIdx_not, List.drop_reverse, List.reverse_reverse]
  rfl

lemma trim_chars : (trim src).chars = (src.chars.dropWhile isBlank).rdropWhile isBlank := by
  rw [trim, rtrim_chars, ltrim_chars]

/-- `trim` cuts blanks off both ends. -/
lemma trim_decomposition (src : StdString) : ∃ l r, src.chars = l ++ (trim src).chars ++ r ∧
    (∀ c ∈ l, isBlank c = true) ∧ ∀ c ∈ r, isBlank c = true := by
  refine ⟨src.chars.takeWhile isBlank, (src.chars.dropWhile isBlank).rtakeWhile isBlank, ?_,
    fun c hc => List.mem_takeWhile_imp hc, fun c hc => List.mem_rtakeWhile_imp hc⟩
  rw [trim_chars, List.append_assoc, List.rdropWhile_append_rtakeWhile,
    List.takeWhile_append_dropWhile]

/-- No blank at either end. -/
def Clean (w : List UInt8) : Prop := w.dropWhile isBlank = w ∧ w.rdropWhile isBlank = w

lemma clean_trim : Clean (trim src).chars := by
  rw [trim_chars]
  refine ⟨List.dropWhile_eq_self_iff.mpr fun hpos => ?_, List.rdropWhile_idempotent _ _⟩
  -- it begins as what `ltrim` left
  have hpre := List.rdropWhile_prefix isBlank (src.chars.dropWhile isBlank)
  rw [hpre.getElem hpos]
  exact List.dropWhile_eq_self_iff.mp (List.dropWhile_idempotent _ _) (hpos.trans_le hpre.length_le)

/-- A string with no blanks at its ends has, by `has_prefix` and `has_suffix`, no blanks at its
ends. -/
lemma clean_iff : Clean core.chars ↔ ∀ b : StdString, b.chars ≠ [] →
    (∀ c ∈ b.chars, isBlank c = true) → hasPrefix core b = false ∧ hasSuffix core b = false := by
  rw [Clean, List.dropWhile_eq_self_iff, List.rdropWhile_eq_self_iff]
  constructor
  · rintro ⟨hfirst, hlast⟩ b hne hblank
    refine ⟨Bool.eq_false_iff.mpr fun h => ?_, Bool.eq_false_iff.mpr fun h => ?_⟩
    · have hpre := hasPrefix_iff.mp h
      have hpos := List.length_pos_of_ne_nil hne
      refine hfirst (hpos.trans_le hpre.length_le) ?_
      rw [← hpre.getElem hpos]
      exact hblank _ (List.getElem_mem hpos)
    · have hsuf := hasSuffix_iff.mp h
      refine hlast (fun hnil => hne (List.suffix_nil.mp (hnil ▸ hsuf))) ?_
      rw [← hsuf.getLast hne]
      exact hblank _ (List.getLast_mem hne)
  · intro h
    have hone : ∀ c : UInt8, [c].length < npos := fun c => by simp [npos]
    refine ⟨fun hpos hblank => ?_, fun hne hblank => ?_⟩
    · have hpre := (h ⟨[core.chars[0]], hone _⟩ (by simp) (by simpa using hblank)).1
      rw [Bool.eq_false_iff, Ne, hasPrefix_iff] at hpre
      exact hpre ⟨core.chars.tail, by
        rw [List.singleton_append, List.getElem_zero, List.cons_head_tail]⟩
    · have hsuf := (h ⟨[core.chars.getLast hne], hone _⟩ (by simp) (by simpa using hblank)).2
      rw [Bool.eq_false_iff, Ne, hasSuffix_iff] at hsuf
      exact hsuf ⟨core.chars.dropLast, List.dropLast_append_getLast hne⟩

lemma rdropWhile_append_of_forall {p : UInt8 → Bool} {w r : List UInt8}
    (hr : ∀ c ∈ r, p c = true) : (w ++ r).rdropWhile p = w.rdropWhile p := by
  have hrev : ∀ c ∈ r.reverse, p c = true := fun c hc => hr c (List.mem_reverse.mp hc)
  rw [List.rdropWhile, List.reverse_append, List.dropWhile_append_of_pos hrev, ← List.rdropWhile]

/-- **`trim` cuts off the blanks at both ends, and only these.** -/
theorem trim_iff : trim src = core ↔
    (∃ l r, src.chars = l ++ core.chars ++ r ∧ (∀ c ∈ l, isBlank c = true) ∧
      ∀ c ∈ r, isBlank c = true) ∧
    ∀ b : StdString, b.chars ≠ [] → (∀ c ∈ b.chars, isBlank c = true) →
      hasPrefix core b = false ∧ hasSuffix core b = false := by
  rw [← clean_iff]
  constructor
  · rintro rfl
    exact ⟨trim_decomposition src, clean_trim⟩
  · rintro ⟨⟨l, r, hsrc, hl, hr⟩, hfirst, hlast⟩
    refine StdString.ext ?_
    rw [trim_chars, hsrc, List.append_assoc, List.dropWhile_append_of_pos hl]
    by_cases hnil : core.chars = []
    · have hnone := List.dropWhile_eq_nil_iff.mpr hr
      rw [hnil, List.nil_append, hnone, List.rdropWhile_nil]
    · rw [List.dropWhile_append, hfirst, if_neg (by simpa using hnil),
        rdropWhile_append_of_forall hr, hlast]

/-- **Trimming does not change the tokens** where blanks are delimiters. -/
theorem split_trim (hblank : ∀ c, isBlank c = true → c ∈ delim.chars) :
    split (trim src) delim = split src delim := by
  obtain ⟨l, r, hsrc, hl, hr⟩ := trim_decomposition src
  obtain ⟨tokens, hsplit, hwords, -⟩ := split_words src delim
  obtain ⟨tokens', hsplit', hwords', -⟩ := split_words (trim src) delim
  rw [hsplit, hsplit']
  refine congrArg _ (List.map_injective_iff.mpr (fun _ _ => StdString.ext) ?_)
  rw [hwords, hwords', hsrc, List.append_assoc,
    words_append_of_forall fun c hc => by simpa using hblank c (hl c hc),
    words_append_right fun c hc => by simpa using hblank c (hr c hc)]

/-- Split at blanks and commas. -/
theorem split_trim_word :
    split (trim ⟨[32, 97, 44, 98, 10], by decide⟩) ⟨[9, 10, 32, 44], by decide⟩ =
      .ok [⟨[97], by decide⟩, ⟨[98], by decide⟩] := by
  rw [split_trim fun c hc => ?_]
  · rfl
  · simp only [isBlank, Bool.or_eq_true, beq_iff_eq] at hc
    rcases hc with (rfl | rfl) | rfl <;> decide

end Xsix.Utils

import Xsix.Library.CInt

/-!
`fmt.hpp`: formatting into a caller's buffer.

A C string is the list of its bytes before the terminator, a buffer is the memory
around a pointer, and every byte written is recorded with its offset (`Sheet`). The
variadic `fmt` peels off one argument at a time; its overload without arguments ends
the recursion. What `v2s` prints for an argument is passed in as its text, as all the
specialisations hand a text to `snprintf`.
-/

namespace Xsix

namespace Fmt

open CInt

/-- The character `%`. -/
def percent : UInt8 := 37

/-- The bytes of a string literal. -/
def chars (s : String) : List UInt8 := s.toList.map fun c => UInt8.ofNat c.toNat

/-- The memory around a buffer and the offsets written so far. -/
structure Sheet where
  cells : ℤ → UInt8
  written : List ℤ

/-- A buffer of zeros, nothing written yet. -/
def blank : Sheet := ⟨fun _ => 0, []⟩

namespace Sheet

/-- `buf[i] = c`. -/
def put (s : Sheet) (i : ℤ) (c : UInt8) : Sheet :=
  ⟨Function.update s.cells i c, s.written ++ [i]⟩

/-- The bytes of `text`, from offset `i` on. -/
def puts : Sheet → ℤ → List UInt8 → Sheet
  | s, _, [] => s
  | s, i, c :: text => (s.put i c).puts (i + 1) text

/-- The C string at the start of a buffer of `size` bytes. -/
def cString (s : Sheet) (size : ℕ) : List UInt8 :=
  ((List.range size).map fun i : ℕ => s.cells i).takeWhile (· ≠ 0)

end Sheet

/-- `snprintf(buf, size, "%s", text)`: the `int` size is converted to `size_t`. -/
def snprintf (s : Sheet) (buf size : ℤ) (text : List UInt8) : Sheet × ℤ :=
  let room := uint64 size
  if room = 0 then (s, int32 text.length)
  else (s.puts buf (text.take (room - 1).toNat ++ [0]), int32 text.length)

/-- `v2s`, the argument being given by its text. -/
def v2s (s : Sheet) (buf size : ℤ) (text : List UInt8) : Sheet × ℤ := snprintf s buf size text

/-- The argument check of the last `fmt`: some `%` is not followed by another. -/
def missingArguments : List UInt8 → Bool
  | [] => false
  | [c] => c == percent
  | c :: d :: format => (c == percent && d != percent) || missingArguments (d :: format)

/-- The copying loop of the last `fmt`. -/
def copyFormat : Sheet → ℤ → ℤ → List UInt8 → Sheet × ℤ
  | s, _, bufCurr, [] => (s, bufCurr)
  | s, bufEnd, bufCurr, c :: format =>
      if bufCurr < bufEnd then copyFormat (s.put bufCurr c) bufEnd (bufCurr + 1) format
      else (s, bufCurr)

/-- `fmt` without arguments. -/
def fmtEnd (s : Sheet) (buf bufSize : ℤ) (format : List UInt8) : Except String Sheet :=
  if missingArguments format then .error "invalid format string: missing arguments"
  else
    let bufEnd := buf + bufSize - 1
    let copied := copyFormat s bufEnd buf format
    let ended := if copied.2 < bufEnd then copied.1.put copied.2 0 else copied.1
    .ok (ended.put bufEnd 0)

/-- How the loop of the variadic `fmt` ends: at the end of the buffer or of the
format, or at a placeholder. -/
inductive Scanned where
  | finished (s : Sheet)
  | placeholder (s : Sheet) (bufCurr : ℤ) (format : List UInt8)

/-- The loop of the variadic `fmt`. The branch of `%%` writes a percent sign and does
not move past it. -/
def scanFormat : Sheet → ℤ → ℤ → List UInt8 → Scanned
  | s, _, _, [] => .finished s
  | s, bufEnd, bufCurr, [c] =>
      if bufCurr < bufEnd then
        if c = percent then .placeholder s bufCurr []
        else .finished (s.put bufCurr c)
      else .finished s
  | s, bufEnd, bufCurr, c :: d :: format =>
      if bufCurr < bufEnd then
        if c = percent then
          if d = percent then scanFormat (s.put bufCurr percent) bufEnd bufCurr format
          else .placeholder s bufCurr (d :: format)
        else scanFormat (s.put bufCurr c) bufEnd (bufCurr + 1) (d :: format)
      else .finished s

/-- `fmt`, the arguments being given by their texts. -/
def fmt : Sheet → ℤ → ℤ → List UInt8 → List (List UInt8) → Except String Sheet
  | s, buf, bufSize, format, [] => fmtEnd s buf bufSize format
  | s, buf, bufSize, format, val :: args =>
      if format.length ≤ 0 ∨ bufSize ≤ 0 then .ok s
      else
        let bufEnd := buf + bufSize - 1
        match scanFormat s bufEnd buf format with
        | .finished s => .ok s
        | .placeholder s bufCurr format =>
            let bufRemainSize := int32 (bufEnd - bufCurr + 1)
            let printed := v2s s bufCurr bufRemainSize val
            let step := if printed.2 < bufRemainSize - 1 then printed.2 else bufRemainSize - 1
            fmt printed.1 (bufCurr + step) (int32 (bufEnd - (bufCurr + step) + 1)) format args

/-- Without a placeholder to fill, `fmt` does not throw. -/
lemma fmtEnd_ok {s : Sheet} {buf bufSize : ℤ} {format : List UInt8}
    (h : missingArguments format = false) : ∃ s', fmtEnd s buf bufSize format = .ok s' := by
  rw [fmtEnd, if_neg (by simp [h])]
  exact ⟨_, rfl⟩

example : (fmt blank 0 64 (chars "a%c%%") [chars "bb", chars "!"]).map (·.cString 64)
    = .ok (chars "abbc%") := by rfl

end Fmt

end Xsix

import TinyKV.Protocol

/-!
# Lines on a socket

`src/net/line_protocol.cpp`. A sender writes a line and a line end. The receiver gets the bytes in
chunks, as `recv` cuts them, and `LineReader` puts them together again.

* `Chunking`: how `recv` cuts the bytes that are there.
* `readLine`: one call of `LineReader::readLine`. It gives a line, or gives up on a line that grows
  too long, or waits for more bytes.
* `readLine_eq_line`: a line of at most `kMaxLineLength` bytes is read however it is cut, and
  nothing that follows it is lost.
-/

namespace TinyKV

open Cpp

/-- How `recv` cuts bytes into chunks of at most 4096. -/
structure Chunking where
  cut : Bytes → List Bytes
  flatten_cut : ∀ bytes, (cut bytes).flatten = bytes
  size : ∀ bytes, ∀ c ∈ cut bytes, c ≠ [] ∧ c.length ≤ 4096

/-- `if (!outLine.empty() && outLine.back() == '\r') outLine.pop_back()` -/
def stripCr (line : Bytes) : Bytes := if line.getLast? = some cr then line.dropLast else line

/-- The first line of the buffer and what follows it. -/
def cutLine (buffer : Bytes) : Option (Bytes × Bytes) :=
  if newline ∈ buffer then
    some (buffer.takeWhile fun c => c ≠ newline, (buffer.dropWhile fun c => c ≠ newline).tail)
  else none

/-- What `readLine` comes to, with the buffer and the chunks that it leaves. -/
inductive ReadResult where
  | line (line buffer : Bytes) (rest : List Bytes)
  /-- The buffer is over the limit and has no line end: `readLine` returns false. -/
  | tooLong (buffer : Bytes) (rest : List Bytes)
  /-- All bytes are taken and there is no line yet: `recv` blocks, or the connection is at its end and
  `readLine` returns false. -/
  | wait (buffer : Bytes)
  deriving DecidableEq

/-- `LineReader::readLine` with `buffer_` and the chunks that `recv` gives. -/
def readLine (buffer : Bytes) : List Bytes → ReadResult
  | [] =>
    match cutLine buffer with
    | some (l, b) => .line (stripCr l) b []
    | none => if buffer.length > kMaxLineLength then .tooLong buffer [] else .wait buffer
  | c :: cs =>
    match cutLine buffer with
    | some (l, b) => .line (stripCr l) b (c :: cs)
    | none =>
      if buffer.length > kMaxLineLength then .tooLong buffer (c :: cs)
      else readLine (buffer ++ c) cs

theorem cutLine_eq_none {buffer : Bytes} (h : newline ∉ buffer) : cutLine buffer = none :=
  if_neg h

/-- A buffer that starts with a line. -/
theorem cutLine_line {l rest : Bytes} (h : newline ∉ l) :
    cutLine (l ++ newline :: rest) = some (l, rest) :=
  Text.cutAt_append h rest

/-- A buffer without a line end is a part of the line that the bytes start with. -/
theorem length_le_of_append_eq {buffer more l rest : Bytes} (hb : newline ∉ buffer)
    (h : buffer ++ more = l ++ newline :: rest) : buffer.length ≤ l.length := by
  by_contra hlt
  refine hb ?_
  have hget : (buffer ++ more)[l.length]? = some newline := by
    rw [h]
    simp
  rw [List.getElem?_append_left (by omega)] at hget
  exact List.mem_of_getElem? hget

/-- A line of at most `kMaxLineLength` bytes is read, however it is cut. -/
theorem readLine_eq_line {l rest : Bytes} (hl : newline ∉ l) (hlen : l.length ≤ kMaxLineLength)
    (buffer : Bytes) (chunks : List Bytes)
    (h : buffer ++ chunks.flatten = l ++ newline :: rest) :
    ∃ b cs, readLine buffer chunks = .line (stripCr l) b cs ∧ b ++ cs.flatten = rest := by
  induction chunks generalizing buffer with
  | nil =>
    rw [List.flatten_nil, List.append_nil] at h
    refine ⟨rest, [], ?_, by simp⟩
    rw [readLine, h, cutLine_line hl]
  | cons c cs ih =>
    by_cases hb : newline ∈ buffer
    · -- The buffer has the whole line.
      obtain ⟨l', b, hsplit, hl'⟩ : ∃ l' b, buffer = l' ++ newline :: b ∧ newline ∉ l' := by
        obtain ⟨s, t, hst, hs⟩ := List.eq_append_cons_of_mem hb
        exact ⟨s, t, hst, hs⟩
      have hcut := congrArg cutLine h
      rw [hsplit, List.append_assoc, List.cons_append, cutLine_line hl', cutLine_line hl] at hcut
      obtain ⟨rfl, hrest⟩ := Prod.mk.inj (Option.some.inj hcut)
      refine ⟨b, c :: cs, ?_, hrest⟩
      rw [readLine, hsplit, cutLine_line hl']
    · have hle := length_le_of_append_eq hb h
      rw [List.flatten_cons, ← List.append_assoc] at h
      obtain ⟨b, cs', hread, hrest⟩ := ih (buffer ++ c) h
      refine ⟨b, cs', ?_, hrest⟩
      rw [readLine, cutLine_eq_none hb]
      simp only [gt_iff_lt, show ¬ kMaxLineLength < buffer.length by omega, if_false]
      exact hread

/-- What a call of `readLine` does to the bytes: it takes some chunks, and looks at the first line
of the buffer and these chunks. -/
theorem readLine_spec (buffer : Bytes) (chunks : List Bytes) :
    match readLine buffer chunks with
    | .line l b rest => ∃ taken first, chunks = taken ++ rest ∧ l = stripCr first ∧
        cutLine (buffer ++ taken.flatten) = some (first, b)
    | .tooLong b rest => ∃ taken, chunks = taken ++ rest ∧ b = buffer ++ taken.flatten ∧
        cutLine b = none ∧ kMaxLineLength < b.length
    | .wait b => b = buffer ++ chunks.flatten ∧ cutLine b = none := by
  fun_induction readLine buffer chunks with
  | case1 buffer l b hcut => exact ⟨[], l, rfl, rfl, by simpa using hcut⟩
  | case2 buffer hcut hlen => exact ⟨[], rfl, by simp, hcut, hlen⟩
  | case3 buffer hcut _ => exact ⟨by simp, hcut⟩
  | case4 buffer c cs l b hcut => exact ⟨[], l, rfl, rfl, by simpa using hcut⟩
  | case5 buffer c cs hcut hlen => exact ⟨[], rfl, by simp, hcut, hlen⟩
  | case6 buffer c cs hcut _ ih =>
    split at ih
    · obtain ⟨taken, first, rfl, hl, hfirst⟩ := ih
      exact ⟨c :: taken, first, rfl, hl, by simpa using hfirst⟩
    · obtain ⟨taken, rfl, hb, hnone, hlen⟩ := ih
      exact ⟨c :: taken, rfl, by simpa using hb, hnone, hlen⟩
    · obtain ⟨hb, hnone⟩ := ih
      exact ⟨by simpa using hb, hnone⟩

/-- A single line that is all there is leaves nothing behind. -/
theorem readLine_single (ch : Chunking) {l : Bytes} (hl : newline ∉ l)
    (hlen : l.length ≤ kMaxLineLength) :
    ∃ cs, readLine [] (ch.cut (l ++ [newline])) = .line (stripCr l) [] cs ∧ cs.flatten = [] := by
  have h : [] ++ (ch.cut (l ++ [newline])).flatten = l ++ newline :: [] := by
    rw [ch.flatten_cut]
    rfl
  obtain ⟨b, cs, hread, hrest⟩ := readLine_eq_line hl hlen [] _ h
  obtain ⟨rfl, hcs⟩ := List.append_eq_nil_iff.mp hrest
  exact ⟨cs, hread, hcs⟩

theorem stripCr_eq_self {l : Bytes} (h : cr ∉ l) : stripCr l = l :=
  if_neg fun he => h (List.mem_of_getLast? he)

/-- The line reader keeps the tokens of a line. -/
theorem tokenize_stripCr (line : Bytes) : tokenize (stripCr line) = tokenize line := by
  unfold stripCr
  split
  · rename_i h
    obtain ⟨init, rfl⟩ := List.getLast?_eq_some_iff.mp h
    rw [List.dropLast_concat, tokenize, tokenize, Text.words_snoc_sep (by decide)]
  · rfl

theorem length_stripCr_le (line : Bytes) : (stripCr line).length ≤ line.length := by
  unfold stripCr
  split
  · simp
  · exact Nat.le_refl _

theorem parse_stripCr {line : Bytes} {cmd : Command} (h : parse line = .ok cmd) :
    parse (stripCr line) = .ok cmd := by
  obtain ⟨hlen, name, args, ht, rfl⟩ := parse_eq_ok.mp h
  refine parse_eq_ok.mpr ⟨(length_stripCr_le line).trans hlen, name, args, ?_, rfl⟩
  rw [tokenize_stripCr, ht]

end TinyKV

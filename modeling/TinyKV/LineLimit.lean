import TinyKV.Framing

/-!
# The limit on the length of a line

`src/net/line_protocol.cpp`. `readLine` tests `buffer_.size() > kMaxLineLength` only when the buffer
has no line end, that is between two `recv`s. So it gives up on a line over the limit exactly if
some chunk ends inside it, past the limit and before its line end; else its last bytes and its line
end come in one chunk, and it is returned.

* `readCalls`: what the calls of `readLine` return, and how they stop.
* `limited`: what they come to if the limit is a limit on lines: a function of the bytes alone.
* `EndsWithin`: a chunk ends in a given range. `readLine_complete`: what the next call does, when
  the next line is complete.
* `limit_enforced_iff`: when the reader keeps the limit.
* `length_le_of_mem_readCalls`: with chunks of at most 4096 bytes a returned line has at most 12287.

A line is what stands before its line end, with the carriage return, as it stands in the buffer.
-/

namespace TinyKV

open Cpp Text

/-! ## Runs of the reader -/

/-- How the calls of `readLine` end. -/
inductive Stop where
  /-- They go on. -/
  | more
  /-- `readLine` returned false, at the limit. -/
  | limit
  /-- `recv` has nothing more to give. -/
  | wait
  deriving DecidableEq, Repr

/-- `n` calls of `readLine` on a connection, until one does not return a line. -/
def readCalls : Nat → Bytes → List Bytes → List Bytes × Stop
  | 0, _, _ => ([], .more)
  | n + 1, buffer, chunks =>
    match readLine buffer chunks with
    | .line l b rest => (l :: (readCalls n b rest).1, (readCalls n b rest).2)
    | .tooLong _ _ => ([], .limit)
    | .wait _ => ([], .wait)

/-- `n` calls on a connection with these complete lines and then `tail`, if lines over the limit are
refused: each line is returned until one is too long. -/
def limited : Nat → List Bytes → Bytes → List Bytes × Stop
  | 0, _, _ => ([], .more)
  | _ + 1, [], tail => ([], if tail.length > kMaxLineLength then .limit else .wait)
  | n + 1, l :: ls, tail =>
    if l.length > kMaxLineLength then ([], .limit)
    else (stripCr l :: (limited n ls tail).1, (limited n ls tail).2)

/-! ## One call -/

/-- A chunk ends behind byte `lo` of the buffer and the chunks, and not behind byte `hi`. -/
def EndsWithin (lo hi : Nat) (buffer : Bytes) (chunks : List Bytes) : Prop :=
  ∃ taken, taken <+: chunks ∧ lo < (buffer ++ taken.flatten).length ∧
    (buffer ++ taken.flatten).length ≤ hi

theorem not_endsWithin_of_le {lo hi : Nat} (h : hi ≤ lo) (buffer : Bytes) (chunks : List Bytes) :
    ¬ EndsWithin lo hi buffer chunks := by
  rintro ⟨taken, -, hlo, hhi⟩
  omega

/-- No chunk ends in the range if the buffer is already behind it. -/
theorem not_endsWithin_of_lt {lo hi : Nat} {buffer : Bytes} (h : hi < buffer.length)
    (chunks : List Bytes) : ¬ EndsWithin lo hi buffer chunks := by
  rintro ⟨taken, -, -, hhi⟩
  rw [List.length_append] at hhi
  omega

/-- After a `recv`: what was in the buffer is not in the range. -/
theorem endsWithin_cons {lo hi : Nat} {buffer c : Bytes} {cs : List Bytes}
    (h : buffer.length ≤ lo) :
    EndsWithin lo hi buffer (c :: cs) ↔ EndsWithin lo hi (buffer ++ c) cs := by
  constructor
  · rintro ⟨taken, hpre, hlo, hhi⟩
    cases taken with
    | nil =>
      rw [List.flatten_nil, List.append_nil] at hlo
      omega
    | cons d taken =>
      obtain ⟨rfl, hrest⟩ := List.cons_prefix_cons.mp hpre
      rw [List.flatten_cons, ← List.append_assoc] at hlo hhi
      exact ⟨taken, hrest, hlo, hhi⟩
  · rintro ⟨taken, hpre, hlo, hhi⟩
    refine ⟨c :: taken, List.cons_prefix_cons.mpr ⟨rfl, hpre⟩, ?_⟩
    rw [List.flatten_cons, ← List.append_assoc]
    exact ⟨hlo, hhi⟩

/-- A buffer with a line end, at the start of bytes whose first line is `l`. -/
theorem exists_line_in_buffer {l rest buffer more : Bytes} (hl : newline ∉ l)
    (hb : newline ∈ buffer) (h : buffer ++ more = l ++ newline :: rest) :
    ∃ b, buffer = l ++ newline :: b ∧ b ++ more = rest := by
  obtain ⟨first, b, rfl, hfirst⟩ := List.eq_append_cons_of_mem hb
  rw [List.append_assoc, List.cons_append] at h
  have hcut := congrArg cutLine h
  rw [cutLine_line hfirst, cutLine_line hl] at hcut
  obtain ⟨rfl, hrest⟩ := Prod.mk.inj (Option.some.inj hcut)
  exact ⟨b, rfl, hrest⟩

/-- What a call does when the next line, `l`, is complete: it gives up if a chunk ends in the line
past the limit, and else returns the line, with no chunk taken behind the one with the line end. -/
theorem readLine_complete {l rest : Bytes} (hl : newline ∉ l) (buffer : Bytes)
    (chunks : List Bytes) (h : buffer ++ chunks.flatten = l ++ newline :: rest) :
    (EndsWithin kMaxLineLength l.length buffer chunks ∧
      ∃ b cs, readLine buffer chunks = .tooLong b cs) ∨
    (¬ EndsWithin kMaxLineLength l.length buffer chunks ∧
      ∃ b taken cs, readLine buffer chunks = .line (stripCr l) b cs ∧ b ++ cs.flatten = rest ∧
        chunks = taken ++ cs ∧
        ∀ p, p <+: taken → p ≠ taken → (buffer ++ p.flatten).length ≤ l.length) := by
  by_cases hb : newline ∈ buffer
  · -- The line stands in the buffer, so every chunk ends behind it.
    obtain ⟨b, rfl, hrest⟩ := exists_line_in_buffer hl hb h
    refine .inr ⟨not_endsWithin_of_lt (by simp) chunks, b, [], chunks, ?_, hrest, rfl, ?_⟩
    · cases chunks <;> rw [readLine, cutLine_line hl]
    · intro p hp hne
      exact absurd (List.prefix_nil.mp hp) hne
  have hle := length_le_of_append_eq hb h
  induction chunks generalizing buffer with
  | nil =>
    rw [List.flatten_nil, List.append_nil] at h
    exact absurd (h ▸ by simp) hb
  | cons c cs ih =>
    rw [readLine, cutLine_eq_none hb]
    dsimp only
    split
    · rename_i hlong
      exact .inl ⟨⟨[], List.nil_prefix, by simpa using hlong, by simpa using hle⟩, buffer, c :: cs,
        rfl⟩
    rename_i hshort
    rw [endsWithin_cons (Nat.le_of_not_gt hshort)]
    rw [List.flatten_cons, ← List.append_assoc] at h
    by_cases hb' : newline ∈ buffer ++ c
    · -- The line end comes with this chunk.
      obtain ⟨b, hsplit, hrest⟩ := exists_line_in_buffer hl hb' h
      refine .inr ⟨?_, b, [c], cs, ?_, hrest, rfl, ?_⟩
      · rw [hsplit]
        exact not_endsWithin_of_lt (by simp) cs
      · rw [hsplit]
        cases cs <;> rw [readLine, cutLine_line hl]
      · intro p hp hne
        obtain rfl : p = [] := by
          cases p with
          | nil => rfl
          | cons d p =>
            obtain ⟨rfl, hnil⟩ := List.cons_prefix_cons.mp hp
            exact absurd (congrArg (d :: ·) (List.prefix_nil.mp hnil)) hne
        simpa using hle
    · rcases ih (buffer ++ c) h hb' (length_le_of_append_eq hb' h) with
        hgive | ⟨hno, b, taken, rest', hread, hrest, rfl, hmin⟩
      · exact .inl hgive
      · refine .inr ⟨hno, b, c :: taken, rest', hread, hrest, rfl, fun p hp hne => ?_⟩
        cases p with
        | nil => simpa using hle
        | cons d p =>
          obtain ⟨rfl, hpre⟩ := List.cons_prefix_cons.mp hp
          rw [List.flatten_cons, ← List.append_assoc]
          exact hmin p hpre fun he => hne (he ▸ rfl)

/-- What a call does when there is no line end left. -/
theorem readLine_unfinished {buffer : Bytes} {chunks : List Bytes}
    (h : newline ∉ buffer ++ chunks.flatten) :
    if (buffer ++ chunks.flatten).length > kMaxLineLength then
      ∃ b cs, readLine buffer chunks = .tooLong b cs
    else ∃ b, readLine buffer chunks = .wait b := by
  induction chunks generalizing buffer with
  | nil =>
    rw [List.flatten_nil, List.append_nil] at h ⊢
    rw [readLine, cutLine_eq_none h]
    dsimp only
    split
    · exact ⟨buffer, [], rfl⟩
    · exact ⟨buffer, rfl⟩
  | cons c cs ih =>
    have hb : newline ∉ buffer := fun hm => h (List.mem_append_left _ hm)
    rw [List.flatten_cons, ← List.append_assoc] at h ⊢
    rw [readLine, cutLine_eq_none hb]
    dsimp only
    by_cases hlen : buffer.length > kMaxLineLength
    · rw [if_pos, if_pos hlen]
      · exact ⟨buffer, c :: cs, rfl⟩
      · simp only [List.length_append]
        omega
    · rw [if_neg hlen]
      exact ih h

/-! ## Runs -/

/-- A chunk ends, past the limit, in the first line that is too long. -/
def CutsOverlong (lines : List Bytes) (buffer : Bytes) (chunks : List Bytes) : Prop :=
  ∀ before l after, lines = before ++ l :: after → (∀ m ∈ before, m.length ≤ kMaxLineLength) →
    kMaxLineLength < l.length →
    EndsWithin ((unlines newline before).length + kMaxLineLength)
      ((unlines newline before).length + l.length) buffer chunks

/-- If the first line is too long it is the one that counts. -/
theorem cutsOverlong_of_lt {l : Bytes} (hlen : kMaxLineLength < l.length) (ls : List Bytes)
    (buffer : Bytes) (chunks : List Bytes) :
    CutsOverlong (l :: ls) buffer chunks ↔ EndsWithin kMaxLineLength l.length buffer chunks := by
  constructor
  · intro h
    simpa using h [] l ls rfl (by simp) hlen
  · intro h before m after heq hshort _
    cases before with
    | nil =>
      cases heq
      simpa using h
    | cons b before =>
      cases heq
      exact absurd (hshort l List.mem_cons_self) (Nat.not_le.mpr hlen)

/-- Behind a line that was returned, the ends of the chunks are where they were. -/
theorem endsWithin_rest {l rest b : Bytes} {buffer : Bytes} {taken cs : List Bytes}
    (h : buffer ++ (taken ++ cs).flatten = l ++ newline :: rest) (hrest : b ++ cs.flatten = rest)
    (hmin : ∀ p, p <+: taken → p ≠ taken → (buffer ++ p.flatten).length ≤ l.length)
    {lo hi : Nat} :
    EndsWithin (l.length + 1 + lo) (l.length + 1 + hi) buffer (taken ++ cs) ↔
      EndsWithin lo hi b cs := by
  have hlen : ∀ q, (buffer ++ (taken ++ q).flatten).length =
      l.length + 1 + (b ++ q.flatten).length := by
    intro q
    have hall := congrArg List.length h
    rw [← hrest] at hall
    simp only [List.length_append, List.flatten_append, List.length_cons] at hall ⊢
    omega
  constructor
  · rintro ⟨p, hp, hlo, hhi⟩
    rcases List.prefix_or_prefix_of_prefix hp (List.prefix_append taken cs) with hp | ⟨q, rfl⟩
    · by_cases hpt : p = taken
      · subst hpt
        refine ⟨[], List.nil_prefix, ?_⟩
        have := hlen []
        rw [List.append_nil] at this
        omega
      · have := hmin p hp hpt
        omega
    · have := hlen q
      exact ⟨q, (List.prefix_append_right_inj taken).mp hp, by omega, by omega⟩
  · rintro ⟨q, hq, hlo, hhi⟩
    have := hlen q
    exact ⟨taken ++ q, (List.prefix_append_right_inj taken).mpr hq, by omega, by omega⟩

/-- Behind a returned line that was not too long. -/
theorem cutsOverlong_rest {l rest b : Bytes} {ls : List Bytes} {buffer : Bytes}
    {taken cs : List Bytes} (hlen : l.length ≤ kMaxLineLength)
    (h : buffer ++ (taken ++ cs).flatten = l ++ newline :: rest) (hrest : b ++ cs.flatten = rest)
    (hmin : ∀ p, p <+: taken → p ≠ taken → (buffer ++ p.flatten).length ≤ l.length) :
    CutsOverlong (l :: ls) buffer (taken ++ cs) ↔ CutsOverlong ls b cs := by
  have hstart : ∀ (before : List Bytes) n, (unlines newline (l :: before)).length + n =
      l.length + 1 + ((unlines newline before).length + n) := by
    intro before n
    rw [unlines_cons, List.length_append, List.length_cons]
    omega
  constructor
  · intro hcuts before m after heq hshort hlong
    have := hcuts (l :: before) m after (by rw [heq]; rfl)
      (List.forall_mem_cons.mpr ⟨hlen, hshort⟩) hlong
    rwa [hstart, hstart, endsWithin_rest h hrest hmin] at this
  · intro hcuts before m after heq hshort hlong
    cases before with
    | nil =>
      cases heq
      exact absurd hlong (Nat.not_lt.mpr hlen)
    | cons k before =>
      cases heq
      rw [hstart, hstart, endsWithin_rest h hrest hmin]
      exact hcuts before m after rfl (fun x hx => hshort x (List.mem_cons_of_mem _ hx)) hlong

/-- The outcome of the calls, from any buffer. -/
theorem readCalls_eq_limited_iff {lines : List Bytes} {tail : Bytes}
    (hlines : ∀ l ∈ lines, newline ∉ l) (htail : newline ∉ tail) (buffer : Bytes)
    (chunks : List Bytes) (h : buffer ++ chunks.flatten = unlines newline lines ++ tail) :
    (∀ n, readCalls n buffer chunks = limited n lines tail) ↔
      CutsOverlong lines buffer chunks := by
  induction lines generalizing buffer chunks with
  | nil =>
    rw [unlines_nil, List.nil_append] at h
    refine ⟨fun _ before l after heq => ?_, fun _ n => ?_⟩
    · cases before <;> cases heq
    · cases n with
      | zero => rfl
      | succ n =>
        have hcall := readLine_unfinished (h ▸ htail)
        rw [h] at hcall
        rw [readCalls, limited]
        split at hcall
        · rename_i hlong
          obtain ⟨b, cs, hread⟩ := hcall
          rw [hread, if_pos hlong]
        · rename_i hshort
          obtain ⟨b, hread⟩ := hcall
          rw [hread, if_neg hshort]
  | cons l ls ih =>
    have hl := hlines l List.mem_cons_self
    rw [unlines_cons, List.append_assoc, List.cons_append] at h
    by_cases hlen : kMaxLineLength < l.length
    · rw [cutsOverlong_of_lt hlen]
      have hlim : ∀ n, limited (n + 1) (l :: ls) tail = ([], .limit) := fun n => if_pos hlen
      rcases readLine_complete hl buffer chunks h with ⟨hends, b, cs, hread⟩ |
        ⟨hno, b, taken, cs, hread, -⟩
      · refine iff_of_true (fun n => ?_) hends
        cases n with
        | zero => rfl
        | succ n => rw [readCalls, hread, hlim]
      · -- The line is returned by the first call.
        refine iff_of_false (fun hall => ?_) hno
        have hone := hall 1
        rw [readCalls, hread, hlim] at hone
        cases hone
    · rcases readLine_complete hl buffer chunks h with ⟨hends, -⟩ |
        ⟨-, b, taken, cs, hread, hrest, rfl, hmin⟩
      · exact absurd hends (not_endsWithin_of_le (Nat.le_of_not_lt hlen) _ _)
      rw [cutsOverlong_rest (Nat.le_of_not_lt hlen) h hrest hmin,
        ← ih (fun m hm => hlines m (List.mem_cons_of_mem _ hm)) b cs hrest]
      have hstep : ∀ n, readCalls (n + 1) buffer (taken ++ cs) = limited (n + 1) (l :: ls) tail ↔
          readCalls n b cs = limited n ls tail := by
        intro n
        rw [readCalls, hread, limited, if_neg hlen, Prod.mk.injEq, List.cons_inj_right,
          Prod.ext_iff]
      constructor
      · exact fun hall n => (hstep n).mp (hall (n + 1))
      · intro hall n
        cases n with
        | zero => rfl
        | succ n => exact (hstep n).mpr (hall n)

/-- **The limit is enforced**, so that what the calls return is a function of the bytes and no line
over 8192 bytes is among it, exactly if a chunk ends in the first line that is too long, behind its
first 8192 bytes. -/
theorem limit_enforced_iff (lines : List Bytes) (tail : Bytes) (chunks : List Bytes)
    (hlines : ∀ l ∈ lines, newline ∉ l) (htail : newline ∉ tail)
    (hbytes : chunks.flatten = unlines newline lines ++ tail) :
    (∀ n, readCalls n [] chunks = limited n lines tail) ↔ CutsOverlong lines [] chunks :=
  readCalls_eq_limited_iff hlines htail [] chunks hbytes

/-- As many bytes as one `recv` can give. -/
def fullChunk : Bytes := List.replicate 4096 97

@[simp] theorem length_fullChunk : fullChunk.length = 4096 := List.length_replicate

/-- 8193 bytes. -/
def overlongLine : Bytes := fullChunk ++ fullChunk ++ [97]

theorem length_overlongLine : overlongLine.length = 8193 := by
  simp [overlongLine]

/-- `overlongLine` and its line end, as `recv` cuts them when each chunk is as long as it can be. -/
def slippingChunks : List Bytes := [fullChunk, fullChunk, [97, newline]]

theorem of_mem_overlongLine {c : UInt8} (h : c ∈ overlongLine) : c = 97 := by
  have hfull : ∀ c ∈ fullChunk, c = 97 := fun c hc => List.eq_of_mem_replicate hc
  simp only [overlongLine, List.mem_append, List.mem_singleton] at h
  obtain (h | h) | h := h
  exacts [hfull c h, hfull c h, h]

theorem newline_not_mem_overlongLine : newline ∉ overlongLine := fun hm =>
  absurd (of_mem_overlongLine hm) (by decide)

/-- Two chunks fill the limit, and the third ends behind the line. -/
theorem not_endsWithin_slippingChunks :
    ¬ EndsWithin kMaxLineLength overlongLine.length [] slippingChunks := by
  rw [length_overlongLine, slippingChunks, endsWithin_cons, endsWithin_cons, endsWithin_cons]
  · exact not_endsWithin_of_lt (by simp) []
  all_goals simp [kMaxLineLength]

/-- The reader refuses `overlongLine` if a chunk ends right before its line end. -/
theorem limit_enforced_overlongLine :
    kMaxLineLength < overlongLine.length ∧
      ∀ n, readCalls n [] [fullChunk, fullChunk, [97], [newline]] =
        limited n [overlongLine] [] := by
  have hlen : kMaxLineLength < overlongLine.length := by
    rw [length_overlongLine]
    decide
  refine ⟨hlen, (limit_enforced_iff [overlongLine] [] _ ?_ (by simp) ?_).mpr ?_⟩
  · exact List.forall_mem_singleton.mpr newline_not_mem_overlongLine
  · simp [overlongLine]
  · rw [cutsOverlong_of_lt hlen, length_overlongLine]
    exact ⟨[fullChunk, fullChunk, [97]], ⟨[[newline]], rfl⟩, by simp [kMaxLineLength]⟩

/-- Cut in another way the line of 8193 bytes is returned. -/
theorem overlong_line_returned :
    (∀ c ∈ slippingChunks, c ≠ [] ∧ c.length ≤ 4096) ∧
    slippingChunks.flatten = [fullChunk, fullChunk, [97], [newline]].flatten ∧
    overlongLine.length = 8193 ∧
    readCalls 1 [] slippingChunks = ([overlongLine], .more) ∧
    ¬ ∀ n, readCalls n [] slippingChunks = limited n [overlongLine] [] := by
  have hbytes : [] ++ slippingChunks.flatten = overlongLine ++ newline :: [] := by
    simp [slippingChunks, overlongLine]
  have hcall : readCalls 1 [] slippingChunks = ([overlongLine], .more) := by
    rcases readLine_complete newline_not_mem_overlongLine [] slippingChunks hbytes with
      ⟨hends, -⟩ | ⟨-, b, taken, cs, hread, -⟩
    · exact absurd hends not_endsWithin_slippingChunks
    · have hstrip : stripCr overlongLine = overlongLine :=
        stripCr_eq_self fun hm => absurd (of_mem_overlongLine hm) (by decide)
      rw [readCalls, hread, hstrip]
      rfl
  refine ⟨?_, by simp [slippingChunks], length_overlongLine, hcall, fun hall => ?_⟩
  · intro c hc
    simp only [slippingChunks, List.mem_cons, List.not_mem_nil, or_false] at hc
    obtain rfl | rfl | rfl := hc
    · exact ⟨List.ne_nil_of_length_pos (by simp), by simp⟩
    · exact ⟨List.ne_nil_of_length_pos (by simp), by simp⟩
    · simp
  · have hone := hall 1
    rw [hcall, limited, if_pos (by simp [length_overlongLine, kMaxLineLength])] at hone
    cases hone

/-! ## How far a line can be over the limit -/

theorem length_cutLine {buffer first b : Bytes} (h : cutLine buffer = some (first, b)) :
    (stripCr first).length + b.length < buffer.length := by
  have hlen := congrArg List.length (cutLine_eq_some h).1
  have hstrip := length_stripCr_le first
  rw [List.length_append, List.length_cons] at hlen
  omega

/-- `recv` is called with a buffer that is not over the limit, and adds at most 4096 bytes. -/
theorem readLine_bound {buffer : Bytes} {chunks : List Bytes}
    (hb : buffer.length ≤ kMaxLineLength + 4096) (hc : ∀ c ∈ chunks, c.length ≤ 4096)
    {l b : Bytes} {rest : List Bytes} (h : readLine buffer chunks = .line l b rest) :
    l.length + b.length < kMaxLineLength + 4096 ∧ ∀ c ∈ rest, c.length ≤ 4096 := by
  induction chunks generalizing buffer with
  | nil =>
    rw [readLine] at h
    cases hcut : cutLine buffer with
    | none =>
      rw [hcut] at h
      dsimp only at h
      split at h <;> cases h
    | some cut =>
      rw [hcut] at h
      cases h
      exact ⟨(length_cutLine hcut).trans_le hb, hc⟩
  | cons c cs ih =>
    rw [readLine] at h
    cases hcut : cutLine buffer with
    | some cut =>
      rw [hcut] at h
      cases h
      exact ⟨(length_cutLine hcut).trans_le hb, hc⟩
    | none =>
      rw [hcut] at h
      dsimp only at h
      split at h
      · cases h
      · rename_i hlen
        have hc' := hc c List.mem_cons_self
        refine ih ?_ (fun d hd => hc d (List.mem_cons_of_mem _ hd)) h
        rw [List.length_append]
        omega

/-- A returned line has at most 12287 bytes. -/
theorem length_le_of_mem_readCalls {n : Nat} {buffer : Bytes} {chunks : List Bytes}
    (hb : buffer.length ≤ kMaxLineLength + 4096) (hc : ∀ c ∈ chunks, c.length ≤ 4096) {l : Bytes}
    (hl : l ∈ (readCalls n buffer chunks).1) : l.length ≤ 12287 := by
  induction n generalizing buffer chunks with
  | zero => cases hl
  | succ n ih =>
    rw [readCalls] at hl
    cases hread : readLine buffer chunks with
    | tooLong b rest | wait b =>
      rw [hread] at hl
      cases hl
    | line m b rest =>
      obtain ⟨hlen, hrest⟩ := readLine_bound hb hc hread
      rw [hread] at hl
      rcases List.mem_cons.mp hl with rfl | hl
      · rw [kMaxLineLength] at hlen
        omega
      · exact ih (by omega) hrest hl

end TinyKV

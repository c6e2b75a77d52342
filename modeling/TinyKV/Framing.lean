import TinyKV.Net
import TinyKV.Lib.Text

/-!
# Lines from one end of a connection to the other

`src/net/line_protocol.cpp`. `writeRaw` loops over `send`, which takes as many bytes as it likes, and
`writeLine` is `writeRaw` of a line with its end. On the other side `recv` cuts the bytes in its own
way, and one `LineReader` puts the lines together again.

* `Writer`: a `writeRaw` under way. `writeRaw`, `writeLines`: its loop, and one `writeLine` after
  the other.
* `wire_writeLines`, `returned_writeLines`: all bytes go out, in their order, however `send` divides
  them, and the loops come to an end.
* `readLines`: what the calls of `readLine` return.
* `readLines_complete`: they return complete lines only, whatever the bytes are.
  `readLines_eq_map`: lines that are short enough are all returned.
* `readWhole_iff`: the lines that the reader returns as they are, however they are cut.
* `framing_roundTrip`: what was written comes back.
-/

namespace TinyKV

open Cpp Text

/-! ## The sender -/

/-- `writeRaw` under way. -/
structure Writer where
  data : Bytes
  totalSent : Nat := 0

namespace Writer

def sent (w : Writer) : Bytes := w.data.take w.totalSent

/-- What is left to send. -/
def left (w : Writer) : Bytes := w.data.drop w.totalSent

/-- A `send` that takes `n` bytes. -/
def send (w : Writer) (n : Nat) : Writer := { w with totalSent := w.totalSent + n }

theorem sent_append_left (w : Writer) : w.sent ++ w.left = w.data :=
  List.take_append_drop _ _

theorem sent_send (w : Writer) (n : Nat) : (w.send n).sent = w.sent ++ w.left.take n :=
  List.take_add

theorem left_send (w : Writer) (n : Nat) : (w.send n).left = w.left.drop n :=
  (List.drop_drop).symm

end Writer

/-- What a call on a socket did: the bytes that went out, what it returned (`none`: the last `send`
blocks), and the results of the `send`s that come after it. -/
structure WriteResult where
  wire : Bytes
  returned : Option Bool
  rest : List Int

/-- The loop of `writeRaw`, where the `send`s return `results`. -/
def writeRaw (w : Writer) (results : List Int) : WriteResult :=
  if w.left.isEmpty then ⟨[], some true, results⟩
  else match results with
    | [] => ⟨[], none, []⟩
    | sent :: results =>
      if sent ≤ 0 then ⟨[], some false, results⟩
      else
        let more := writeRaw (w.send sent.toNat) results
        { more with wire := w.left.take sent.toNat ++ more.wire }

def writeLine (line : Bytes) (results : List Int) : WriteResult :=
  writeRaw { data := line ++ [newline] } results

/-- `writeLine` for each line, until one does not return true. -/
def writeLines : List Bytes → List Int → WriteResult
  | [], results => ⟨[], some true, results⟩
  | l :: ls, results =>
    let first := writeLine l results
    if first.returned = some true then
      let more := writeLines ls first.rest
      { more with wire := first.wire ++ more.wire }
    else first

/-- A `writeRaw` that returns true has sent everything, in order. -/
theorem wire_writeRaw {w : Writer} {results : List Int}
    (h : (writeRaw w results).returned = some true) : (writeRaw w results).wire = w.left := by
  induction results generalizing w with
  | nil =>
    rw [writeRaw] at h ⊢
    split at h
    · rename_i hnil
      rw [if_pos hnil]
      exact (List.isEmpty_iff.mp hnil).symm
    · cases h
  | cons n results ih =>
    rw [writeRaw] at h ⊢
    split at h
    · rename_i hnil
      rw [if_pos hnil]
      exact (List.isEmpty_iff.mp hnil).symm
    · rename_i hnil
      rw [if_neg hnil]
      split at h
      · cases h
      · rename_i hn
        simp only [hn, if_false]
        rw [ih h, Writer.left_send, List.take_append_drop]

/-- Sends that take something each time come to an end, after at most as many calls as there are
bytes. -/
theorem returned_writeRaw {results : List Int} (hpos : ∀ n ∈ results, 0 < n) (w : Writer)
    (hlen : w.left.length ≤ results.length) :
    (writeRaw w results).returned = some true ∧
      ∃ used, results = used ++ (writeRaw w results).rest ∧ used.length ≤ w.left.length := by
  induction results generalizing w with
  | nil =>
    have hnil : w.left = [] := List.length_eq_zero_iff.mp (by simpa using hlen)
    simp [writeRaw, hnil]
  | cons n results ih =>
    rw [writeRaw]
    by_cases hnil : w.left.isEmpty = true
    · rw [if_pos hnil]
      exact ⟨rfl, [], rfl, Nat.zero_le _⟩
    · have hn : 0 < n := hpos n List.mem_cons_self
      have hleft : (w.send n.toNat).left.length + 1 ≤ w.left.length := by
        have hne : w.left.length ≠ 0 := fun h0 => hnil (by simp [List.length_eq_zero_iff.mp h0])
        rw [Writer.left_send, List.length_drop]
        omega
      obtain ⟨hret, used, hused, hcount⟩ :=
        ih (fun m hm => hpos m (List.mem_cons_of_mem _ hm)) (w.send n.toNat)
          (by simp only [List.length_cons] at hlen; omega)
      rw [if_neg hnil]
      simp only [show ¬ n ≤ 0 by omega, if_false]
      refine ⟨hret, n :: used, ?_, ?_⟩
      · rw [List.cons_append, ← hused]
      · simp only [List.length_cons]
        omega

/-- The bytes of the lines, if every `writeLine` returns true. -/
theorem wire_writeLines {ls : List Bytes} {results : List Int}
    (h : (writeLines ls results).returned = some true) :
    (writeLines ls results).wire = unlines newline ls := by
  induction ls generalizing results with
  | nil => rfl
  | cons l ls ih =>
    rw [writeLines] at h ⊢
    simp only at h ⊢
    split at h
    · rename_i hfirst
      have hwire : (writeLine l results).wire = l ++ [newline] := wire_writeRaw hfirst
      rw [if_pos hfirst, ih h, hwire, unlines_cons, List.append_assoc]
      rfl
    · rename_i hfirst
      exact absurd h hfirst

theorem returned_writeLines (ls : List Bytes) {results : List Int} (hpos : ∀ n ∈ results, 0 < n)
    (hlen : (unlines newline ls).length ≤ results.length) :
    (writeLines ls results).returned = some true := by
  induction ls generalizing results with
  | nil => rfl
  | cons l ls ih =>
    have hleft : ({ data := l ++ [newline] } : Writer).left = l ++ [newline] := rfl
    rw [unlines_cons, List.length_append, List.length_cons] at hlen
    obtain ⟨hret, used, hused, hcount⟩ :=
      returned_writeRaw hpos { data := l ++ [newline] } (by rw [hleft]; simp; omega)
    rw [hleft, List.length_append, List.length_singleton] at hcount
    have hrest : ∀ n ∈ (writeLine l results).rest, 0 < n := fun n hn =>
      hpos n (hused ▸ List.mem_append_right _ hn)
    have hroom : (unlines newline ls).length ≤ (writeLine l results).rest.length := by
      have := congrArg List.length hused
      rw [List.length_append] at this
      unfold writeLine
      omega
    rw [writeLines]
    simp only [show (writeLine l results).returned = some true from hret, if_true]
    exact ih hrest hroom

/-! ## The reader -/

/-- The calls of `readLine` on a connection, until one does not return a line. -/
def readLines : Nat → Bytes → List Bytes → List Bytes
  | 0, _, _ => []
  | n + 1, buffer, chunks =>
    match readLine buffer chunks with
    | .line l b rest => l :: readLines n b rest
    | .tooLong _ _ | .wait _ => []

theorem cutLine_eq_some {buffer l rest : Bytes} (h : cutLine buffer = some (l, rest)) :
    buffer = l ++ newline :: rest ∧ newline ∉ l := by
  by_cases hm : newline ∈ buffer
  · obtain ⟨first, more, rfl, hfirst⟩ := List.eq_append_cons_of_mem hm
    rw [cutLine_line hfirst] at h
    cases h
    exact ⟨rfl, hfirst⟩
  · rw [cutLine_eq_none hm] at h
    cases h

/-- Only complete lines are returned, in their order. -/
theorem readLines_complete {ls : List Bytes} {tail : Bytes} (hls : ∀ l ∈ ls, newline ∉ l)
    (htail : newline ∉ tail) (n : Nat) (buffer : Bytes) (chunks : List Bytes)
    (h : buffer ++ chunks.flatten = unlines newline ls ++ tail) :
    readLines n buffer chunks <+: ls.map stripCr := by
  induction n generalizing ls buffer chunks with
  | zero => exact List.nil_prefix
  | succ n ih =>
    have hspec := readLine_spec buffer chunks
    unfold readLines
    split
    · rename_i l b rest he
      rw [he] at hspec
      obtain ⟨taken, first, rfl, rfl, hcut⟩ := hspec
      obtain ⟨hbytes, hfirst⟩ := cutLine_eq_some hcut
      rw [List.flatten_append, ← List.append_assoc, hbytes, List.append_assoc,
        List.cons_append] at h
      cases ls with
      | nil =>
        rw [unlines_nil, List.nil_append] at h
        refine absurd ?_ htail
        rw [← h]
        simp
      | cons l₀ ls =>
        -- Both sides start with a complete line: it is the same one.
        rw [unlines_cons, List.append_assoc, List.cons_append] at h
        have hcuts := congrArg cutLine h
        rw [cutLine_line hfirst, cutLine_line (hls l₀ List.mem_cons_self)] at hcuts
        obtain ⟨rfl, hrest⟩ := Prod.mk.inj (Option.some.inj hcuts)
        rw [List.map_cons, List.cons_prefix_cons]
        exact ⟨rfl, ih (fun l hl => hls l (List.mem_cons_of_mem _ hl)) b rest hrest⟩
    · exact List.nil_prefix
    · exact List.nil_prefix

/-- Complete lines that are not too long are all returned, each without its carriage return. -/
theorem readLines_eq_map {ls : List Bytes} {tail : Bytes} (hls : ∀ l ∈ ls, newline ∉ l)
    (hlen : ∀ l ∈ ls, l.length ≤ kMaxLineLength) (htail : newline ∉ tail) (n : Nat)
    (hn : ls.length ≤ n) (buffer : Bytes) (chunks : List Bytes)
    (h : buffer ++ chunks.flatten = unlines newline ls ++ tail) :
    readLines n buffer chunks = ls.map stripCr := by
  induction ls generalizing n buffer chunks with
  | nil => exact List.prefix_nil.mp (readLines_complete hls htail n buffer chunks h)
  | cons l ls ih =>
    obtain ⟨n, rfl⟩ : ∃ m, n = m + 1 := ⟨n - 1, by simp only [List.length_cons] at hn; omega⟩
    have hl := hls l List.mem_cons_self
    rw [unlines_cons, List.append_assoc, List.cons_append] at h
    obtain ⟨b, cs, hread, hmore⟩ :=
      readLine_eq_line hl (hlen l List.mem_cons_self) buffer chunks h
    rw [readLines, hread, List.map_cons]
    dsimp only
    rw [ih (fun m hm => hls m (List.mem_cons_of_mem _ hm))
      (fun m hm => hlen m (List.mem_cons_of_mem _ hm)) n (by simpa using hn) b cs hmore]

/-- A line that the reader returns as it is. -/
structure Readable (l : Bytes) : Prop where
  newline : newline ∉ l
  length : l.length ≤ kMaxLineLength
  cr : l.getLast? ≠ some cr

theorem Readable.stripCr_eq {l : Bytes} (h : Readable l) : stripCr l = l := if_neg h.cr

/-- The reader returns the complete lines of the bytes. -/
theorem readLines_eq {ls : List Bytes} {rest : Bytes} (hls : ∀ l ∈ ls, Readable l)
    (hrest : newline ∉ rest) (n : Nat) (hn : ls.length ≤ n) (buffer : Bytes) (chunks : List Bytes)
    (h : buffer ++ chunks.flatten = unlines newline ls ++ rest) :
    readLines n buffer chunks = ls := by
  rw [readLines_eq_map (fun l hl => (hls l hl).newline) (fun l hl => (hls l hl).length) hrest n hn
    buffer chunks h]
  exact (List.map_congr_left fun l hl => (hls l hl).stripCr_eq).trans (List.map_id ls)

/-- The reader returns the line as it is, however `recv` cuts it. -/
def ReadWhole (l : Bytes) : Prop :=
  ∀ chunks : List Bytes, (∀ c ∈ chunks, c ≠ [] ∧ c.length ≤ 4096) →
    chunks.flatten = l ++ [newline] → ∃ rest, readLine [] chunks = .line l [] rest

/-- Bytes that come one at a time are given up on once they are over the limit. -/
theorem readLine_singles {bytes : Bytes} (hbytes : newline ∉ bytes) (buffer : Bytes)
    (hb : newline ∉ buffer) (hlong : kMaxLineLength < buffer.length + bytes.length)
    (more : List Bytes) :
    ∃ b rest, readLine buffer (bytes.map (fun c => [c]) ++ more) = .tooLong b rest := by
  induction bytes generalizing buffer with
  | nil =>
    rw [List.length_nil, Nat.add_zero] at hlong
    cases more <;> simp [readLine, cutLine_eq_none hb, hlong]
  | cons c bytes ih =>
    obtain ⟨hc, hbytes⟩ : newline ≠ c ∧ newline ∉ bytes := by simpa using hbytes
    rw [List.map_cons, List.cons_append, readLine, cutLine_eq_none hb]
    dsimp only
    split
    · exact ⟨_, _, rfl⟩
    · refine ih hbytes (buffer ++ [c]) (by simp [hb, hc]) ?_
      simp only [List.length_append, List.length_cons, List.length_nil] at hlong ⊢
      omega

/-- The limit of the reader is the limit on what it returns however it is cut. -/
theorem readWhole_iff {l : Bytes} (hl : newline ∉ l) (hcr : l.getLast? ≠ some cr) :
    ReadWhole l ↔ l.length ≤ kMaxLineLength := by
  constructor
  · intro h
    by_contra hlong
    obtain ⟨b, rest, hread⟩ := readLine_singles hl [] (by simp) (by simpa using hlong) [[newline]]
    have hsize : ∀ c ∈ l.map (fun c => [c]) ++ [[newline]], c ≠ [] ∧ c.length ≤ 4096 := by
      intro c hc
      obtain ⟨a, rfl⟩ : ∃ a, c = [a] := by
        rcases List.mem_append.mp hc with hc | hc
        · obtain ⟨a, -, rfl⟩ := List.mem_map.mp hc
          exact ⟨a, rfl⟩
        · exact ⟨newline, List.mem_singleton.mp hc⟩
      exact ⟨by simp, by simp⟩
    have hbytes : (l.map (fun c => [c]) ++ [[newline]]).flatten = l ++ [newline] := by
      rw [List.flatten_append, ← List.flatMap_def, List.flatMap_singleton']
      rfl
    obtain ⟨rest', hline⟩ := h _ hsize hbytes
    rw [hread] at hline
    cases hline
  · intro hlen chunks _ hbytes
    obtain ⟨b, rest, hread, hrest⟩ := readLine_eq_line hl hlen [] chunks hbytes
    rw [(List.append_eq_nil_iff.mp hrest).1, show stripCr l = l from if_neg hcr] at hread
    exact ⟨rest, hread⟩

theorem length_le_unlines (ls : List Bytes) : ls.length ≤ (unlines newline ls).length := by
  induction ls with
  | nil => exact Nat.le_refl _
  | cons l ls ih =>
    rw [unlines_cons]
    simp only [List.length_cons, List.length_append]
    omega

/-! ## Round trip -/

/-- The lines `written`, each sent by `writeLine`, are read as `read`: however `send` divides the
bytes and `recv` cuts them, and whatever follows without a line end. -/
def ReadsBack (written read : List Bytes) : Prop :=
  ∀ sends : List Int, (∀ n ∈ sends, 0 < n) →
    ((unlines newline written).length ≤ sends.length →
      (writeLines written sends).returned = some true) ∧
    ((writeLines written sends).returned = some true →
      ∀ (chunks : List Bytes) (tail : Bytes), newline ∉ tail →
        chunks.flatten = (writeLines written sends).wire ++ tail →
        ∀ n, read.length ≤ n → readLines n [] chunks = read)

theorem readsBack_map {ls : List Bytes} (hls : ∀ l ∈ ls, newline ∉ l)
    (hlen : ∀ l ∈ ls, l.length ≤ kMaxLineLength) : ReadsBack ls (ls.map stripCr) := by
  refine fun sends hpos => ⟨returned_writeLines ls hpos, fun hret chunks tail htail hbytes n hn => ?_⟩
  rw [wire_writeLines hret] at hbytes
  rw [List.length_map] at hn
  exact readLines_eq_map hls hlen htail n hn [] chunks hbytes

theorem stripCr_append_cr (l : Bytes) : stripCr (l ++ [cr]) = l := by
  simp [stripCr]

/-- **Framing round trip.** Lines without a line end that do not end in a carriage return and have at
most 8192 bytes come back as they were written. So do lines that are ended by a carriage return and
a line end, up to 8191 bytes. Whatever the bytes are, only lines that were ended are returned, and
nothing of what follows the last line end. -/
theorem framing_roundTrip :
    (∀ lines : List Bytes,
      (∀ l ∈ lines, newline ∉ l ∧ l.getLast? ≠ some cr ∧ l.length ≤ 8192) →
      ReadsBack lines lines) ∧
    (∀ lines : List Bytes,
      (∀ l ∈ lines, newline ∉ l ∧ l.getLast? ≠ some cr ∧ l.length ≤ 8191) →
      ReadsBack (lines.map fun l => l ++ [cr]) lines) ∧
    ∀ (lines chunks : List Bytes) (tail : Bytes), (∀ l ∈ lines, newline ∉ l) → newline ∉ tail →
      chunks.flatten = unlines newline lines ++ tail →
      ∀ n, readLines n [] chunks <+: lines.map stripCr := by
  refine ⟨fun lines h => ?_, fun lines h => ?_, fun lines chunks tail hls htail hbytes n => ?_⟩
  · have hstrip : lines.map stripCr = lines :=
      (List.map_congr_left fun l hl => if_neg (h l hl).2.1).trans (List.map_id lines)
    have hback := readsBack_map (fun l hl => (h l hl).1) fun l hl => (h l hl).2.2
    rwa [hstrip] at hback
  · have hstrip : (lines.map fun l => l ++ [cr]).map stripCr = lines := by
      rw [List.map_map]
      exact (List.map_congr_left fun l _ => stripCr_append_cr l).trans (List.map_id lines)
    have hback : ReadsBack (lines.map fun l => l ++ [cr])
        ((lines.map fun l => l ++ [cr]).map stripCr) := by
      refine readsBack_map (fun m hm => ?_) fun m hm => ?_
      · obtain ⟨l, hl, rfl⟩ := List.mem_map.mp hm
        rw [List.mem_append, not_or]
        exact ⟨(h l hl).1, by decide⟩
      · obtain ⟨l, hl, rfl⟩ := List.mem_map.mp hm
        have hshort := (h l hl).2.2
        rw [List.length_append, List.length_singleton, kMaxLineLength]
        omega
    rwa [hstrip] at hback
  · exact readLines_complete hls htail n [] chunks hbytes

end TinyKV

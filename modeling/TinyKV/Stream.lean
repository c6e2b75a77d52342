import TinyKV.Recovery
import TinyKV.Framing

/-!
# The bytes of a replica stream

Two threads write to the connection of a replica that sends `SYNC`: `handleSyncConnection` writes
the dump with one `writeRaw`, and `ReplicaRegistry::propagate` writes a line with another. A
`writeRaw` is a loop of `send`s, each of which takes as many bytes as it likes. The mutex of the
registry keeps two propagated lines apart, but the dump is written without it.

* `streamMachine`: the sends of the two writers in any order, with the bytes that the connection has
  (`wire`). The replica reads them with one `LineReader` (`Framing.lean`).
* `WholeLines`: no writer sends while the other is in the middle of a line.
* `StreamInv`: the wire has complete lines of both writers and a part of one line;
  `streamInv_step`.
* `stream_integrity`: the replica reads the lines of the dump and the propagated lines, each once.
-/

namespace TinyKV

open Cpp Recency Text SnapshotManager
open scoped List

/-! ## The machine -/

/-- What was sent ends with a line end. -/
def Writer.AtLineStart (w : Writer) : Prop := w.sent = [] ∨ w.sent.getLast? = some newline

instance (w : Writer) : Decidable w.AtLineStart := inferInstanceAs (Decidable (_ ∨ _))

/-- A replica connection with its two writers. -/
structure ReplicaStream where
  /-- `writeRaw` of the dump. -/
  dump : Writer
  /-- `writeLine` of the `propagate` that holds the mutex. -/
  line : Option Writer := none
  /-- The bytes that were sent. -/
  wire : Bytes := []

inductive StreamAction where
  /-- A `send` of the dump takes `n` bytes. -/
  | sendDump (n : Nat)
  /-- `propagate` starts on a line. -/
  | propagate (line : Line)
  /-- A `send` of the propagated line takes `n` bytes. -/
  | sendLine (n : Nat)

/-- After the dump is made, before any of it is sent. -/
def ReplicaStream.start (p : Server) : ReplicaStream where
  dump := { data := SnapshotManager.save p.db.store }

/-- The sends on one connection. A line that is propagated has parsed. -/
def streamMachine : Machine ReplicaStream StreamAction Unit where
  step s
    | .sendDump n =>
      if 0 < n ∧ n ≤ s.dump.left.length then
        some ({ s with dump := s.dump.send n, wire := s.wire ++ s.dump.left.take n }, ())
      else none
    | .propagate line =>
      if s.line.isNone ∧ (parse line.1).isOk then
        some ({ s with line := some { data := line.1 ++ [newline] } }, ())
      else none
    | .sendLine n => s.line.bind fun w =>
      if 0 < n ∧ n ≤ w.left.length then
        some ({ s with
          line := if n = w.left.length then none else some (w.send n)
          wire := s.wire ++ w.left.take n }, ())
      else none

/-- The lines that were propagated. -/
def propagated (acts : List StreamAction) : List Bytes :=
  acts.filterMap fun
    | .propagate line => some line.1
    | .sendDump _ | .sendLine _ => none

/-- No writer sends while the other is in the middle of a line, and no line ends with a carriage
return, which the reader drops. -/
def WholeLines (s : ReplicaStream) : StreamAction → Prop
  | .sendDump _ => ∀ w ∈ s.line, w.AtLineStart
  | .propagate line => line.1.getLast? ≠ some cr
  | .sendLine _ => s.dump.AtLineStart

instance (s : ReplicaStream) : ∀ a, Decidable (WholeLines s a)
  | .sendDump _ => inferInstanceAs (Decidable (∀ w ∈ s.line, _))
  | .propagate line => inferInstanceAs (Decidable (line.1.getLast? ≠ some cr))
  | .sendLine _ => inferInstanceAs (Decidable s.dump.AtLineStart)

/-! ## The invariant -/

/-- The propagated line that is under way, of which `part` is sent; `ls` are the lines before it. -/
def LineInv (ps ls : List Bytes) (part : Bytes) : Option Writer → Prop
  | none => part = [] ∧ ps = ls
  | some w => ∃ cur, ps = ls ++ [cur] ∧ w.data = cur ++ [newline] ∧ w.sent = part ∧
      w.totalSent ≤ cur.length

/-- The wire has the complete lines `done`: the lines `ds` of the dump and the propagated lines
`ls`. Behind them is a part of one line: `dpart` of the dump, or `lpart` of a propagated line. -/
structure StreamInv (dump ps : List Bytes) (s : ReplicaStream) (done ds ls : List Bytes)
    (dpart lpart : Bytes) : Prop where
  wire : s.wire = unlines newline done ++ (dpart ++ lpart)
  one : dpart = [] ∨ lpart = []
  perm : done.Perm (ds ++ ls)
  data : s.dump.data = unlines newline dump
  sent : s.dump.sent = unlines newline ds ++ dpart
  ds_newline : ∀ l ∈ ds, newline ∉ l
  dpart_newline : newline ∉ dpart
  line : LineInv ps ls lpart s.line
  readable : ∀ l ∈ ps, Readable l

/-- A part of a line is no place to start a line. -/
theorem eq_nil_of_atLineStart {w : Writer} {ls : List Bytes} {part : Bytes} (h : w.AtLineStart)
    (hw : w.sent = unlines newline ls ++ part) (hpart : newline ∉ part) : part = [] := by
  obtain h | h := h
  · rw [hw] at h
    exact (List.append_eq_nil_iff.mp h).2
  · by_contra hne
    rw [hw, List.getLast?_append_of_ne_nil _ hne] at h
    exact hpart (List.mem_of_getLast? h)

theorem LineInv.newline_not_mem {ps ls : List Bytes} {part : Bytes} {line : Option Writer}
    (h : LineInv ps ls part line) (hps : ∀ l ∈ ps, Readable l) : newline ∉ part := by
  cases line with
  | none =>
    rw [h.1]
    simp
  | some w =>
    obtain ⟨cur, rfl, hdata, rfl, hle⟩ := h
    rw [Writer.sent, hdata, List.take_append_of_le_length hle]
    intro hm
    exact (hps cur (by simp)).newline (List.mem_of_mem_take hm)

/-- The lines before the one that is under way are the first ones. -/
theorem LineInv.exists_append {ps ls : List Bytes} {part : Bytes} {line : Option Writer}
    (h : LineInv ps ls part line) : ∃ rest, ps = ls ++ rest := by
  cases line with
  | none => exact ⟨[], by rw [h.2, List.append_nil]⟩
  | some w =>
    obtain ⟨cur, hps, -⟩ := h
    exact ⟨[cur], hps⟩

/-! ## The steps -/

/-- The dump sends while no other line is in the middle. -/
theorem streamInv_sendDump {dump ps done ds ls : List Bytes} {dpart lpart : Bytes}
    {s : ReplicaStream} (h : StreamInv dump ps s done ds ls dpart lpart)
    (hwhole : ∀ w ∈ s.line, w.AtLineStart) (n : Nat) :
    ∃ done' ds' dpart', StreamInv dump ps
      { s with dump := s.dump.send n, wire := s.wire ++ s.dump.left.take n } done' ds' ls
      dpart' lpart := by
  have hl : lpart = [] := by
    have hline := h.line
    have hnot := hline.newline_not_mem h.readable
    cases hw : s.line with
    | none =>
      rw [hw] at hline
      exact hline.1
    | some w =>
      rw [hw] at hline
      obtain ⟨cur, -, -, hsent, -⟩ := hline
      rw [← List.nil_append lpart, ← unlines_nil newline] at hsent
      exact eq_nil_of_atLineStart (hwhole w hw) hsent hnot
  subst hl
  -- What is sent completes the part, adds whole lines and leaves a new part.
  obtain ⟨ls', dpart', hcut, hls', hpart'⟩ :=
    exists_unlines_append newline (dpart ++ s.dump.left.take n)
  refine ⟨done ++ ls', ds ++ ls', dpart', ?_, .inr rfl, ?_, h.data, ?_, ?_, hpart', h.line,
    h.readable⟩
  · show s.wire ++ s.dump.left.take n = _
    rw [h.wire, unlines_append, List.append_nil, List.append_nil, List.append_assoc, hcut,
      List.append_assoc]
  · calc done ++ ls'
        _ ~ (ds ++ ls) ++ ls' := h.perm.append_right ls'
        _ ~ (ds ++ ls') ++ ls := by
          rw [List.append_assoc, List.append_assoc]
          exact List.perm_append_comm.append_left ds
  · rw [Writer.sent_send, h.sent, List.append_assoc, hcut, unlines_append, List.append_assoc]
  · intro l hm
    obtain hm | hm := List.mem_append.mp hm
    · exact h.ds_newline l hm
    · exact hls' l hm

/-- `propagate` starts on the next line. -/
theorem streamInv_propagate {dump ps done ds ls : List Bytes} {dpart lpart : Bytes}
    {s : ReplicaStream} (h : StreamInv dump ps s done ds ls dpart lpart) (hnone : s.line = none)
    {line : Line} (hline : Readable line.1) :
    StreamInv dump (ps ++ [line.1]) { s with line := some { data := line.1 ++ [newline] } }
      done ds ls dpart lpart := by
  have hold := h.line
  rw [hnone] at hold
  obtain ⟨rfl, rfl⟩ := hold
  refine ⟨h.wire, h.one, h.perm, h.data, h.sent, h.ds_newline, h.dpart_newline,
    ⟨line.1, rfl, rfl, rfl, Nat.zero_le _⟩, fun l hm => ?_⟩
  obtain hm | hm := List.mem_append.mp hm
  · exact h.readable l hm
  · rw [List.mem_singleton.mp hm]
    exact hline

/-- `propagate` sends while the dump is not in the middle of a line. -/
theorem streamInv_sendLine {dump ps done ds ls : List Bytes} {dpart lpart : Bytes}
    {s : ReplicaStream} (h : StreamInv dump ps s done ds ls dpart lpart)
    (hwhole : s.dump.AtLineStart) {w : Writer} (hw : s.line = some w) {n : Nat}
    (hn : n ≤ w.left.length) :
    ∃ done' ls' lpart', StreamInv dump ps
      { s with
        line := if n = w.left.length then none else some (w.send n)
        wire := s.wire ++ w.left.take n } done' ds ls' dpart lpart' := by
  obtain rfl := eq_nil_of_atLineStart hwhole h.sent h.dpart_newline
  have hline := h.line
  rw [hw] at hline
  obtain ⟨cur, hps, hdata, rfl, hle⟩ := hline
  by_cases hall : n = w.left.length
  · -- The line is complete.
    refine ⟨done ++ [cur], ls ++ [cur], [], ?_, .inl rfl, ?_, h.data, h.sent, h.ds_newline,
      h.dpart_newline, ?_, h.readable⟩
    · show s.wire ++ w.left.take n = _
      rw [h.wire, hall, List.take_length, List.nil_append, List.append_assoc, w.sent_append_left,
        hdata]
      simp
    · rw [← List.append_assoc]
      exact h.perm.append_right [cur]
    · rw [if_pos hall]
      exact ⟨rfl, hps⟩
  · refine ⟨done, ls, (w.send n).sent, ?_, .inl rfl, h.perm, h.data, h.sent, h.ds_newline,
      h.dpart_newline, ?_, h.readable⟩
    · show s.wire ++ w.left.take n = _
      rw [h.wire, Writer.sent_send, List.nil_append, List.nil_append, List.append_assoc]
    · rw [if_neg hall]
      refine ⟨cur, hps, hdata, rfl, ?_⟩
      have hlen : w.left.length = cur.length + 1 - w.totalSent := by
        rw [Writer.left, hdata]
        simp
      show w.totalSent + n ≤ cur.length
      omega

/-! ## Whole runs -/

theorem propagated_snoc (acts : List StreamAction) (a : StreamAction) :
    propagated (acts ++ [a]) = propagated acts ++ propagated [a] :=
  List.filterMap_append

theorem readable_setLine {k v : Bytes} (hk : IsWord isspace k) (hv : IsWord isspace v)
    (hfit : Fits k v) : Readable (setLine k v) where
  newline := newline_not_mem_setLine hk hv
  length := by
    rw [length_setLine]
    exact hfit
  cr h := by
    rw [setLine, List.getLast?_append_of_ne_nil _ hv.1] at h
    have := hv.2 _ (List.mem_of_getLast? h)
    simp [cr, isspace] at this

theorem readable_dumpLines {es : List (Bytes × Bytes)} (hw : WordEntries es)
    (hfit : FitEntries es) : ∀ l ∈ dumpLines es, Readable l := by
  intro l hl
  obtain ⟨⟨k, v⟩, hm, rfl⟩ := List.mem_map.mp hl
  exact readable_setLine (hw k v hm).1 (hw k v hm).2 (hfit k v hm)

theorem streamInv_step {dump : List Bytes} {s s' : ReplicaStream} {acts : List StreamAction}
    (h : ∃ done ds ls dpart lpart, StreamInv dump (propagated acts) s done ds ls dpart lpart)
    {a : StreamAction} (hwhole : WholeLines s a) {o : Unit}
    (hs : streamMachine.step s a = some (s', o)) :
    ∃ done ds ls dpart lpart,
      StreamInv dump (propagated (acts ++ [a])) s' done ds ls dpart lpart := by
  obtain ⟨done, ds, ls, dpart, lpart, h⟩ := h
  rw [propagated_snoc]
  cases a with
  | sendDump n =>
    simp only [streamMachine] at hs
    split at hs
    · cases hs
      obtain ⟨done', ds', dpart', h'⟩ := streamInv_sendDump h hwhole n
      refine ⟨done', ds', ls, dpart', lpart, ?_⟩
      simpa [propagated] using h'
    · cases hs
  | propagate line =>
    simp only [streamMachine] at hs
    split at hs
    · rename_i hok
      cases hs
      have hline : Readable line.1 := by
        refine ⟨line.2, ?_, hwhole⟩
        cases hp : parse line.1 with
        | error e =>
          rw [hp] at hok
          cases hok.2
        | ok cmd => exact (parse_eq_ok.mp hp).1
      refine ⟨done, ds, ls, dpart, lpart, ?_⟩
      exact streamInv_propagate h (Option.isNone_iff_eq_none.mp hok.1) hline
    · cases hs
  | sendLine n =>
    obtain ⟨w, hw, hs⟩ := Option.bind_eq_some_iff.mp hs
    split at hs
    · rename_i hn
      cases hs
      obtain ⟨done', ls', lpart', h'⟩ := streamInv_sendLine h hwhole hw hn.2
      refine ⟨done', ds, ls', dpart, lpart', ?_⟩
      simpa [propagated] using h'
    · cases hs

/-- What the invariant says of the reader. -/
theorem StreamInv.readLines {dump ps done ds ls : List Bytes} {dpart lpart : Bytes}
    {s : ReplicaStream} (h : StreamInv dump ps s done ds ls dpart lpart)
    (hdump : ∀ l ∈ dump, Readable l) {chunks : List Bytes} (hchunks : chunks.flatten = s.wire)
    {n : Nat} (hn : s.wire.length ≤ n) :
    readLines n [] chunks = done ∧ (∃ rest, dump = ds ++ rest) ∧ (s.dump.left = [] → ds = dump) := by
  have hnot := h.line.newline_not_mem h.readable
  obtain ⟨rest, hds, hleft⟩ : ∃ rest, dump = ds ++ rest ∧
      dpart ++ s.dump.left = unlines newline rest := by
    refine exists_of_unlines_eq (fun l hl => (hdump l hl).newline) h.ds_newline ?_
    rw [← h.data, ← s.dump.sent_append_left, h.sent, List.append_assoc]
  have hpart : newline ∉ dpart ++ lpart := by
    rw [List.mem_append, not_or]
    exact ⟨h.dpart_newline, hnot⟩
  refine ⟨readLines_eq (fun l hl => ?_) hpart n ?_ [] chunks ?_, ⟨rest, hds⟩, fun hempty => ?_⟩
  · obtain hl | hl := List.mem_append.mp (h.perm.mem_iff.mp hl)
    · exact hdump l (by rw [hds]; exact List.mem_append_left _ hl)
    · obtain ⟨more, hps⟩ := h.line.exists_append
      exact h.readable l (by rw [hps]; exact List.mem_append_left _ hl)
  · have := length_le_unlines done
    rw [h.wire, List.length_append] at hn
    omega
  · rw [List.nil_append, hchunks, h.wire]
  · -- The dump is sent: no part of a line is left.
    rw [hempty, List.append_nil] at hleft
    cases rest with
    | nil => rw [hds, List.append_nil]
    | cons l rest =>
      refine absurd ?_ h.dpart_newline
      rw [hleft, unlines_cons]
      simp

/-- **Replica stream integrity.** In every run of sends in which no writer sends while the other is
in the middle of a line, the replica reads lines of the dump and propagated lines, each of them
once and as it is; it has read them all when both writers are done. The dump is that of a primary
in any state that lines, snapshots and restarts lead to, with lines that are short enough for the
reader. -/
theorem stream_integrity (appendOnly : Bool) (capacity : Nat) (clock : Nat → Now) (disk : Disk)
    (before : List ServerAction) {p : Server} {outs₀ : List (Option Server.Response)}
    (hprimary : serverMachine.run (Server.start appendOnly capacity clock disk) before =
      some (p, outs₀))
    (hfit : FitEntries p.db.store.entries) (acts : List StreamAction) {s : ReplicaStream}
    {outs : List Unit} (hwhole : streamMachine.Along WholeLines (.start p) acts)
    (hrun : streamMachine.run (.start p) acts = some (s, outs)) (chunks : List Bytes)
    (hchunks : chunks.flatten = s.wire) (n : Nat) (hn : s.wire.length ≤ n) :
    ∃ ds ls, (readLines n [] chunks).Perm (ds ++ ls) ∧
      (∃ rest, dumpLines p.db.store.entries = ds ++ rest) ∧
      (∃ rest, propagated acts = ls ++ rest) ∧
      (s.dump.left = [] → ds = dumpLines p.db.store.entries) ∧
      (s.line = none → ls = propagated acts) := by
  have hdump := readable_dumpLines (wordStore_of_run hprimary).words hfit
  obtain ⟨done, ds, ls, dpart, lpart, h⟩ : ∃ done ds ls dpart lpart,
      StreamInv (dumpLines p.db.store.entries) (propagated acts) s done ds ls dpart lpart := by
    refine Machine.run_history (I := fun s acts _ => ∃ done ds ls dpart lpart,
      StreamInv (dumpLines p.db.store.entries) (propagated acts) s done ds ls dpart lpart)
      (fun s acts outs a s' o _ hI hC hs => streamInv_step hI hC hs) hwhole hrun
      ⟨[], [], [], [], [], rfl, .inl rfl, .nil, rfl, rfl, by simp, by simp, ⟨rfl, rfl⟩, ?_⟩
    intro l hl
    cases hl
  obtain ⟨hread, hds, hall⟩ := h.readLines hdump hchunks hn
  refine ⟨ds, ls, hread ▸ h.perm, hds, h.line.exists_append, hall, fun hnone => ?_⟩
  have hline := h.line
  rw [hnone] at hline
  exact hline.2.symm

/-- The dump, then a line in two sends. -/
def lineAfterDump : List StreamAction :=
  [.sendDump 8, .propagate (.ofText "SET j 2"), .sendLine 3, .sendLine 5]

theorem stream_integrity_lineAfterDump :
    ∃ s outs, streamMachine.run (.start (afterLine "SET k 1")) lineAfterDump = some (s, outs) ∧
      s.wire = ascii "SET k 1\nSET j 2\n" ∧
      (readLines 16 [] [s.wire]).Perm [ascii "SET k 1", ascii "SET j 2"] := by
  refine ⟨_, _, rfl, by decide +kernel, ?_⟩
  obtain ⟨ds, ls, hperm, -, -, hds, hls⟩ := stream_integrity true 0 (fun _ => .epoch) .empty
    [.line 0 .epoch (.ofText "SET k 1")] rfl (by decide +kernel) lineAfterDump (by decide +kernel)
    rfl [_] (List.flatten_singleton) 16 (by decide +kernel)
  rw [hds (by decide +kernel), hls rfl] at hperm
  exact hperm.trans (by decide +kernel)

/-- A line between two sends of the dump. -/
def lineWithinDump : List StreamAction :=
  [.sendDump 4, .propagate (.ofText "SET j 2"), .sendLine 8, .sendDump 4]

/-- The replica reads `SET SET j 2` and `k 1`. -/
theorem not_stream_integrity_lineWithinDump :
    ¬ ∀ (p : Server) (acts : List StreamAction) (s : ReplicaStream) (outs : List Unit)
      (chunks : List Bytes), FitEntries p.db.store.entries →
      streamMachine.run (.start p) acts = some (s, outs) → s.dump.left = [] → s.line = none →
      chunks.flatten = s.wire →
      (readLines s.wire.length [] chunks).Perm
        (dumpLines p.db.store.entries ++ propagated acts) := by
  intro h
  have hperm := h (afterLine "SET k 1") lineWithinDump _ _ [_] (by decide +kernel) rfl
    (by decide +kernel) rfl List.flatten_singleton
  revert hperm
  decide +kernel

end TinyKV

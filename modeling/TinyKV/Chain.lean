import TinyKV.LogOrder
import TinyKV.Net

/-!
# A chain of replicas

Node 0 is a primary and node `i + 1` a replica of node `i`. A replica applies the lines of its
upstream by the same callback that records and propagates a write, so it is the upstream of the
next node. The links are queues of lines: a node's lines to its replica are the ones that it has
written to the connection, and the replica has taken some of them.

* `Chain`, `chainMachine`: the head's client lines, the handshakes and the deliveries on all links,
  in any order. `Chain.writes` and `Chain.headMaps` are the histories that the statement is about.
* `Wrote`: what a line does to a server, on a primary and on a replica alike.
* `LinkInv`: the lines on a link give the maps that the upstream had; `chainInv_step`.
* `replica_prefix_consistency`: a replica has a map that its upstream had, and so the head.
-/

namespace TinyKV

open Cpp Recency Text SnapshotManager

/-! ## The machine -/

/-- The key → value map of a server. -/
abbrev Server.map (s : Server) : KvMap := s.db.store.lookup

/-- The connection of a replica. -/
structure Link where
  /-- Its descriptor on the upstream. -/
  fd : Nat
  /-- How many lines the dump had. -/
  dumped : Nat
  /-- How many lines the replica has applied. -/
  taken : Nat
  deriving DecidableEq

structure Chain where
  node : Nat → Server
  /-- The link from a node to the next one. -/
  link : Nat → Option Link
  /-- The maps of a node since the `SYNC` of the next one: the map at the `SYNC`, then the map after
  each successful write. -/
  writes : Nat → List KvMap
  /-- The maps that the head has had. -/
  headMaps : List KvMap

/-- Unbounded servers that have recovered from any files; no link is open. -/
def Chain.start (appendOnly : Nat → Bool) (clock : Nat → Nat → Now) (disk : Nat → Disk) :
    Chain where
  node i := Server.start (appendOnly i) 0 (clock i) (disk i)
  link _ := none
  writes _ := []
  headMaps := [(Server.start (appendOnly 0) 0 (clock 0) (disk 0)).map]

inductive ChainAction where
  /-- The head handles a line of a client. -/
  | line (fd : Nat) (now : Now) (line : Line)
  /-- Node `i + 1` becomes a replica of node `i`: `SYNC` on the connection `fd`. -/
  | sync (i fd : Nat)
  /-- Node `i + 1` applies the next line from node `i`. -/
  | deliver (i : Nat) (now : Now)

/-- The line, if it is a successful write. -/
def Server.recorded (s : Server) (now : Now) (line : Bytes) : Option Bytes :=
  if s.records now line then some line else none

/-- The line of a client, if it is a successful write: a replica rejects writes. -/
def Server.accepted (s : Server) (now : Now) (line : Bytes) : Option Bytes :=
  if s.role = .PRIMARY then s.recorded now line else none

namespace Chain

/-- The node has applied the dump of its own upstream. -/
def pastDump (c : Chain) : Nat → Bool
  | 0 => true
  | i + 1 => (c.link i).any fun l => l.dumped ≤ l.taken

/-- A handshake as the runs have it: of an empty replica with an upstream that has its own dump,
whose pairs fit in lines, on a fresh descriptor. -/
def MaySync (c : Chain) (i fd : Nat) : Prop :=
  (c.link i).isNone ∧ c.pastDump i ∧ (c.node (i + 1)).db.store.entries = [] ∧
    FitEntries (c.node i).db.store.entries ∧ fd ∉ (c.node i).replicaFds ∧ (c.node i).sent fd = []

instance (c : Chain) (i fd : Nat) : Decidable (c.MaySync i fd) :=
  inferInstanceAs (Decidable (_ ∧ _))

/-- A node after a line, with the map that it then has if the line was a successful write. -/
def wrote (c : Chain) (i : Nat) (s : Server) (success : Bool) : Chain :=
  { c with
    node := Function.update c.node i s
    writes := if success then Function.update c.writes i (c.writes i ++ [s.map]) else c.writes }

/-- `REPLICAOF` on node `i + 1` and `SYNC` on node `i`. -/
def sync (c : Chain) (i fd : Nat) : Chain :=
  let dump := dumpLines (c.node i).db.store.forEach
  { c with
    node := Function.update
      (Function.update c.node i ((c.node i).handleSyncConnection fd)) (i + 1)
      { c.node (i + 1) with role := .REPLICA }
    link := Function.update c.link i (some ⟨fd, dump.length, 0⟩)
    writes := Function.update c.writes i [(c.node i).map] }

/-- The apply callback of node `i + 1` on a line that its reader has returned. -/
def deliver (c : Chain) (i : Nat) (l : Link) (now : Now) (line : Bytes) : Chain :=
  let r := c.node (i + 1)
  { c.wrote (i + 1) (r.apply now line) (r.records now line) with
    link := Function.update c.link i (some { l with taken := l.taken + 1 }) }

end Chain

/-- The chain as a machine: no deadline fires, and the head handles one line at a time. A connection
that has sent `SYNC` is no client's any more. -/
def chainMachine : Machine Chain ChainAction Unit where
  step c
    | .line fd now line =>
      if fd ∈ (c.node 0).replicaFds then none
      else
        let s := ((c.node 0).handleLine fd now line.1).1
        some ({ c.wrote 0 s ((c.node 0).accepted now line.1).isSome with
          headMaps := c.headMaps ++ [s.map] }, ())
    | .sync i fd => if c.MaySync i fd then some (c.sync i fd, ()) else none
    | .deliver i now => (c.link i).bind fun l =>
      (((c.node i).sent l.fd)[l.taken]?).map fun line => (c.deliver i l now (stripCr line), ())

/-! ## A line on one server -/

/-- What a line does to a server that it is executed on: if it is a successful write, it is
propagated, and its effects are what happens to the map. -/
structure Wrote (s s' : Server) (line : Option Bytes) : Prop where
  store : s'.WordStore 0
  registered : ∀ fd, s.replicaFds.count fd = 1 → s'.replicaFds.count fd = 1
  map : s'.map = applyAll s.map (line.toList.flatMap lineEffects)
  sent : ∀ fd, s.replicaFds.count fd = 1 → s'.sent fd = s.sent fd ++ line.toList
  parsed : ∀ l ∈ line, ∃ cmd, parse l = .ok cmd

theorem Wrote.refl {s : Server} (h : s.WordStore 0) : Wrote s s none :=
  ⟨h, fun _ hfd => hfd, rfl, fun _ _ => (List.append_nil _).symm, fun l hl => by cases hl⟩

/-- `execute` and `recordAndPropagateIfWrite` on a line that parses. -/
theorem wrote_execute {s : Server} (h : s.WordStore 0) {line : Bytes} {cmd : Command}
    (hp : parse line = .ok cmd) (now : Now) :
    Wrote s ((s.executeCommand now cmd).1.recordAndPropagateIfWrite cmd line
      (execute serverWiring s.db now cmd).reply) (s.recorded now line) := by
  obtain ⟨hfds, hsent⟩ := Server.makeCall_replicas
    { s with db := (execute serverWiring s.db now cmd).db } (execute serverWiring s.db now cmd).call
  change (s.executeCommand now cmd).1.replicaFds = s.replicaFds at hfds
  change (s.executeCommand now cmd).1.sent = s.sent at hsent
  have hmap : (s.executeCommand now cmd).1.map = cmd.apply s.map := by
    rw [Server.map, Server.executeCommand_db, execute_lookup h.capacity]
  have hstore : (s.executeCommand now cmd).1.WordStore 0 :=
    h.execute hp now (Server.executeCommand_db s now cmd)
  generalize (s.executeCommand now cmd).1 = t at hfds hsent hmap hstore
  unfold Server.recorded Server.records Server.recordAndPropagateIfWrite
  rw [hp]
  dsimp only
  split
  · refine ⟨⟨hstore.capacity, hstore.words⟩, fun fd hfd => hfds ▸ hfd, ?_, fun fd hfd => ?_, ?_⟩
    · rw [Option.toList_some, List.flatMap_singleton, lineEffects_of_parse hp]
      exact hmap
    · rw [Server.propagate_sent]
      show t.sent fd ++ List.replicate (t.replicaFds.count fd) line = _
      rw [hfds, hfd, hsent]
      rfl
    · rintro _ ⟨⟩
      exact ⟨cmd, hp⟩
  · rename_i hlog
    refine ⟨hstore, fun fd hfd => hfds ▸ hfd, ?_, fun fd _ => ?_, fun l hl => by cases hl⟩
    · rw [hmap]
      exact apply_of_not_logged (Bool.not_eq_true _ ▸ hlog)
    · rw [hsent]
      exact (List.append_nil _).symm

theorem wrote_apply {s : Server} (h : s.WordStore 0) (now : Now) (line : Bytes) :
    Wrote s (s.apply now line) (s.recorded now line) := by
  unfold Server.apply
  split
  · rename_i hp
    rw [Server.recorded, Server.records, hp]
    exact .refl h
  · rename_i cmd hp
    exact wrote_execute h hp now

/-- A handshake on a new connection, as the other connections see it. -/
theorem wrote_handleSyncConnection {s : Server} (h : s.WordStore 0) {fd : Nat}
    (hfd : fd ∉ s.replicaFds) : Wrote s (s.handleSyncConnection fd) none := by
  have hne : ∀ fd', s.replicaFds.count fd' = 1 → fd' ≠ fd := by
    rintro fd' hcount rfl
    rw [List.count_eq_zero.mpr hfd] at hcount
    cases hcount
  refine ⟨⟨h.capacity, h.words⟩, fun fd' hcount => ?_, rfl, fun fd' hcount => ?_,
    fun l hl => by cases hl⟩
  · show (s.replicaFds ++ [fd]).count fd' = 1
    rw [List.count_append, hcount, List.count_singleton, if_neg]
    simpa using (hne fd' hcount).symm
  · rw [Option.toList_none, List.append_nil]
    exact Function.update_of_ne (hne fd' hcount) _ _

theorem recorded_of_not_write (s : Server) (now : Now) {line : Bytes} {cmd : Command}
    (hp : parse line = .ok cmd) (h : isWriteCommand cmd.type = false) :
    s.recorded now line = none := by
  have hno : s.records now line = false := by
    rw [Server.records, hp]
    show logged cmd _ = false
    rw [logged, h, Bool.and_false]
  rw [Server.recorded, hno]
  rfl

/-- A line of a client is not accepted, or it does what the apply callback does on a replica. -/
theorem Server.handleLine_accepted (s : Server) (fd : Nat) (now : Now) (line : Bytes) :
    (s.accepted now line = none ∧ ((s.handleLine fd now line).1 = s ∨
      (s.handleLine fd now line).1 = s.handleSyncConnection fd)) ∨
    (s.accepted now line = s.recorded now line ∧
      (s.handleLine fd now line).1 = s.apply now line) := by
  cases hp : parse line with
  | error e =>
    refine .inl ⟨?_, .inl ?_⟩
    · rw [Server.accepted, Server.recorded, Server.records, hp]
      exact ite_self _
    · unfold Server.handleLine
      rw [hp]
      split <;> rfl
  | ok cmd =>
    unfold Server.accepted Server.apply
    rw [s.handleLine_of_parse hp, hp]
    dsimp only
    by_cases hsync : cmd.type = .SYNC
    · rw [if_pos hsync, recorded_of_not_write s now hp (by rw [hsync]; rfl)]
      exact .inl ⟨ite_self _, .inr rfl⟩
    · rw [if_neg hsync]
      by_cases hro : (isWriteCommand cmd.type && s.role = .REPLICA) = true
      · -- A replica answers with an error.
        obtain ⟨-, hrole⟩ := Bool.and_eq_true_iff.mp hro
        rw [if_pos hro, of_decide_eq_true hrole]
        exact .inl ⟨rfl, .inl rfl⟩
      · rw [if_neg hro]
        refine .inr ⟨?_, rfl⟩
        cases hrole : s.role with
        | PRIMARY => rfl
        | REPLICA =>
          have hwrite : isWriteCommand cmd.type = false := by simpa [hrole] using hro
          rw [recorded_of_not_write s now hp hwrite]
          rfl

theorem wrote_handleLine {s : Server} (h : s.WordStore 0) {fd : Nat} (hfd : fd ∉ s.replicaFds)
    (now : Now) (line : Bytes) :
    Wrote s (s.handleLine fd now line).1 (s.accepted now line) := by
  obtain ⟨hno, hs | hs⟩ | ⟨hsame, hs⟩ := s.handleLine_accepted fd now line
  · rw [hno, hs]
    exact .refl h
  · rw [hno, hs]
    exact wrote_handleSyncConnection h hfd
  · rw [hsame, hs]
    exact wrote_apply h now line

/-! ## One link -/

/-- The map that the first `k` lines give. -/
def streamed (lines : List Bytes) (k : Nat) : KvMap :=
  applyAll (fun _ => none) ((lines.take k).flatMap lineEffects)

theorem streamed_append (lines more : List Bytes) {k : Nat} (h : k ≤ lines.length) :
    streamed (lines ++ more) k = streamed lines k := by
  rw [streamed, List.take_append_of_le_length h]
  rfl

theorem streamed_succ {lines : List Bytes} {k : Nat} {line : Bytes} (h : lines[k]? = some line) :
    streamed lines (k + 1) = applyAll (streamed lines k) (lineEffects line) := by
  rw [streamed, List.take_add_one, h, Option.toList_some, List.flatMap_append,
    List.flatMap_singleton]
  exact Keyed.run_append _ _ _ _

/-- A link from `u` to `r`; `ws` are the maps of `u` since the `SYNC`. -/
structure LinkInv (u r : Server) (l : Link) (ws : List KvMap) : Prop where
  registered : u.replicaFds.count l.fd = 1
  parsed : ∀ line ∈ u.sent l.fd, ∃ cmd, parse line = .ok cmd
  length : (u.sent l.fd).length + 1 = l.dumped + ws.length
  writes : ∀ j m, ws[j]? = some m → m = streamed (u.sent l.fd) (l.dumped + j)
  live : u.map = streamed (u.sent l.fd) (u.sent l.fd).length
  taken : l.taken ≤ (u.sent l.fd).length
  replica : r.map = streamed (u.sent l.fd) l.taken

/-- The upstream has handled a line. -/
theorem LinkInv.write {u u' r : Server} {l : Link} {ws : List KvMap} {line : Option Bytes}
    (h : LinkInv u r l ws) (hw : Wrote u u' line) :
    LinkInv u' r l (if line.isSome then ws ++ [u'.map] else ws) := by
  have hsent := hw.sent l.fd h.registered
  have hcount := hw.registered l.fd h.registered
  cases line with
  | none =>
    rw [Option.toList_none, List.append_nil] at hsent
    have hmap : u'.map = u.map := hw.map
    exact ⟨hcount, hsent ▸ h.parsed, hsent ▸ h.length, hsent ▸ h.writes, by rw [hmap, hsent, h.live],
      hsent ▸ h.taken, hsent ▸ h.replica⟩
  | some line =>
    rw [Option.toList_some] at hsent
    have hlast : (u'.sent l.fd)[(u.sent l.fd).length]? = some line := by
      rw [hsent]
      simp
    have hlive : u'.map = streamed (u'.sent l.fd) ((u.sent l.fd).length + 1) := by
      rw [streamed_succ hlast, hsent, streamed_append _ _ (Nat.le_refl _), ← h.live, hw.map,
        Option.toList_some, List.flatMap_singleton]
    have hlen : (u'.sent l.fd).length = (u.sent l.fd).length + 1 := by
      rw [hsent]
      simp
    have hws := h.length
    refine ⟨hcount, fun x hx => ?_, ?_, fun j m hj => ?_, by rw [hlen]; exact hlive, ?_, ?_⟩
    · rw [hsent] at hx
      obtain hx | hx := List.mem_append.mp hx
      · exact h.parsed x hx
      · rw [List.mem_singleton.mp hx]
        exact hw.parsed line rfl
    · rw [hlen, Option.isSome_some, if_pos rfl, List.length_append, List.length_singleton]
      omega
    · rw [Option.isSome_some, if_pos rfl] at hj
      by_cases hlt : j < ws.length
      · rw [List.getElem?_append_left hlt] at hj
        rw [hsent, streamed_append _ _ (by omega)]
        exact h.writes j m hj
      · -- The map after the line.
        obtain ⟨hj', hm⟩ : j = ws.length ∧ u'.map = m := by
          rw [List.getElem?_append_right (by omega)] at hj
          have hzero : j - ws.length = 0 := by
            by_contra hne
            rw [List.getElem?_eq_none (by simp; omega)] at hj
            cases hj
          rw [hzero] at hj
          exact ⟨by omega, Option.some.inj hj⟩
        rw [← hm, hlive, show l.dumped + j = (u.sent l.fd).length + 1 by omega]
    · rw [hlen]
      exact Nat.le_succ_of_le h.taken
    · rw [hsent, streamed_append _ _ h.taken]
      exact h.replica

/-- The replica has applied the next line. -/
theorem LinkInv.deliver {u r r' : Server} {l : Link} {ws : List KvMap} {line : Bytes}
    (h : LinkInv u r l ws) (hline : (u.sent l.fd)[l.taken]? = some line)
    (hr : r'.map = applyAll r.map (lineEffects line)) :
    LinkInv u r' { l with taken := l.taken + 1 } ws := by
  refine ⟨h.registered, h.parsed, h.length, h.writes, h.live, ?_, ?_⟩
  · exact (List.getElem?_eq_some_iff.mp hline).1
  · show r'.map = streamed (u.sent l.fd) (l.taken + 1)
    rw [streamed_succ hline, hr, h.replica]

/-- A new link to an empty replica. -/
theorem linkInv_sync {u r : Server} (hu : u.WordStore 0) (hfit : FitEntries u.db.store.entries)
    (hr : r.db.store.entries = []) {fd : Nat} (hfd : fd ∉ u.replicaFds) (hsent : u.sent fd = []) :
    LinkInv (u.handleSyncConnection fd) r ⟨fd, (dumpLines u.db.store.forEach).length, 0⟩
      [u.map] := by
  have hlines : (u.handleSyncConnection fd).sent fd = dumpLines u.db.store.entries := by
    rw [u.handleSyncConnection_sent, hsent, List.nil_append]
  have hdump : u.map = streamed (dumpLines u.db.store.entries)
      (dumpLines u.db.store.entries).length := by
    funext x
    rw [streamed, List.take_length, applyAll_dumpLines_of_fit u.db.store.unique hu.words hfit]
    exact (Option.or_none).symm
  refine ⟨u.handleSyncConnection_count hfd, fun line hl => ?_, ?_, fun j m hj => ?_, ?_,
    Nat.zero_le _, ?_⟩
  · dsimp only at hl
    rw [hlines] at hl
    obtain ⟨k, v, hp⟩ := (parse_dumpLine_iff hu.words).mpr hfit line hl
    exact ⟨_, hp⟩
  · dsimp only
    rw [hlines]
    rfl
  · dsimp only
    rw [hlines]
    cases j with
    | zero =>
      cases hj
      exact hdump
    | succ j => cases hj
  · dsimp only
    rw [hlines]
    exact hdump
  · funext x
    show find x r.db.store.entries = none
    rw [hr]
    rfl

/-- A replica that has its dump and `j` lines more has the map of the `j`-th write. -/
theorem LinkInv.getElem?_writes {u r : Server} {l : Link} {ws : List KvMap} (h : LinkInv u r l ws)
    {j : Nat} (hj : l.taken = l.dumped + j) : ws[j]? = some r.map := by
  have hlen := h.length
  have htaken := h.taken
  have hlt : j < ws.length := by omega
  rw [List.getElem?_eq_getElem hlt, h.writes j _ (List.getElem?_eq_getElem hlt), h.replica, hj]

/-! ## The chain -/

structure ChainInv (c : Chain) : Prop where
  store : ∀ i, (c.node i).WordStore 0
  live : (c.node 0).map ∈ c.headMaps
  link : ∀ i l, c.link i = some l → LinkInv (c.node i) (c.node (i + 1)) l (c.writes i)
  upstream : ∀ i l, c.link i = some l → c.pastDump i = true
  maps : ∀ i l, c.link i = some l → ∀ m ∈ c.writes i, m ∈ c.headMaps

theorem exists_of_pastDump {c : Chain} {i : Nat} (h : c.pastDump (i + 1) = true) :
    ∃ l, c.link i = some l ∧ l.dumped ≤ l.taken := by
  obtain ⟨l, hl, hle⟩ := (Option.any_eq_true _ _).mp h
  exact ⟨l, hl, of_decide_eq_true hle⟩

/-- A node that has its dump has a map that the head had. -/
theorem ChainInv.map_mem {c : Chain} (h : ChainInv c) {i : Nat} (hi : c.pastDump i = true) :
    (c.node i).map ∈ c.headMaps := by
  cases i with
  | zero => exact h.live
  | succ i =>
    obtain ⟨l, hl, hle⟩ := exists_of_pastDump hi
    have hwrite := (h.link i l hl).getElem?_writes (Nat.add_sub_cancel' hle).symm
    exact h.maps i l hl _ (List.mem_of_getElem? hwrite)

/-! ### What the actions change -/

namespace Chain

theorem writes_wrote_self (c : Chain) (i : Nat) (s : Server) (success : Bool) :
    (c.wrote i s success).writes i = if success then c.writes i ++ [s.map] else c.writes i := by
  unfold wrote
  dsimp only
  split
  · exact Function.update_self _ _ _
  · rfl

theorem writes_wrote_of_ne (c : Chain) {i k : Nat} (hk : k ≠ i) (s : Server) (success : Bool) :
    (c.wrote i s success).writes k = c.writes k := by
  unfold wrote
  dsimp only
  split
  · exact Function.update_of_ne hk _ _
  · rfl

section Sync

variable (c : Chain) (i fd : Nat)

theorem node_sync_self : (c.sync i fd).node i = (c.node i).handleSyncConnection fd :=
  (Function.update_of_ne (Nat.succ_ne_self i).symm _ _).trans (Function.update_self _ _ _)

theorem node_sync_succ : (c.sync i fd).node (i + 1) = { c.node (i + 1) with role := .REPLICA } :=
  Function.update_self _ _ _

theorem link_sync_self : (c.sync i fd).link i =
    some ⟨fd, (dumpLines (c.node i).db.store.forEach).length, 0⟩ :=
  Function.update_self _ _ _

theorem writes_sync_self : (c.sync i fd).writes i = [(c.node i).map] := Function.update_self _ _ _

variable {i}

theorem node_sync_of_ne {k : Nat} (hk : k ≠ i) (hk' : k ≠ i + 1) :
    (c.sync i fd).node k = c.node k :=
  (Function.update_of_ne hk' _ _).trans (Function.update_of_ne hk _ _)

theorem link_sync_of_ne {k : Nat} (hk : k ≠ i) : (c.sync i fd).link k = c.link k :=
  Function.update_of_ne hk _ _

theorem writes_sync_of_ne {k : Nat} (hk : k ≠ i) : (c.sync i fd).writes k = c.writes k :=
  Function.update_of_ne hk _ _

/-- A handshake leaves all maps. -/
theorem map_sync (k : Nat) : ((c.sync i fd).node k).map = (c.node k).map := by
  by_cases hk : k = i
  · subst hk
    rw [node_sync_self]
    rfl
  · by_cases hk' : k = i + 1
    · subst hk'
      rw [node_sync_succ]
    · rw [node_sync_of_ne c fd hk hk']

end Sync

end Chain

/-- A new link leaves the nodes that have their dump. -/
theorem pastDump_sync {c : Chain} {i : Nat} (fd : Nat) (hnone : c.link i = none) {k : Nat}
    (hk : c.pastDump k = true) : (c.sync i fd).pastDump k = true := by
  cases k with
  | zero => rfl
  | succ k =>
    obtain ⟨l, hl, hle⟩ := exists_of_pastDump hk
    have hki : k ≠ i := by
      rintro rfl
      rw [hnone] at hl
      cases hl
    rw [Chain.pastDump, c.link_sync_of_ne fd hki, hl]
    exact decide_eq_true hle

theorem pastDump_deliver {c : Chain} {i : Nat} {l : Link} (hl : c.link i = some l) (now : Now)
    (line : Bytes) {k : Nat} (hk : c.pastDump k = true) :
    (c.deliver i l now line).pastDump k = true := by
  cases k with
  | zero => rfl
  | succ k =>
    obtain ⟨l', hl', hle⟩ := exists_of_pastDump hk
    by_cases hki : k = i
    · subst hki
      rw [hl] at hl'
      cases hl'
      simp only [Chain.pastDump, Chain.deliver, Function.update_self, Option.any_some,
        decide_eq_true_eq]
      omega
    · have hlink : (c.deliver i l now line).link k = some l' :=
        (Function.update_of_ne hki _ _).trans hl'
      rw [Chain.pastDump, hlink]
      exact decide_eq_true hle

/-- A line on node `i` keeps the links but the one that it came from. -/
theorem linkInv_wrote {c : Chain} {i k : Nat} {s : Server} {line : Option Bytes} {l : Link}
    (hw : Wrote (c.node i) s line) (h : LinkInv (c.node k) (c.node (k + 1)) l (c.writes k))
    (hk : k + 1 ≠ i) :
    LinkInv ((c.wrote i s line.isSome).node k) ((c.wrote i s line.isSome).node (k + 1)) l
      ((c.wrote i s line.isSome).writes k) := by
  have hnext : (c.wrote i s line.isSome).node (k + 1) = c.node (k + 1) :=
    Function.update_of_ne hk _ _
  rw [hnext]
  by_cases hi : k = i
  · subst hi
    have hnode : (c.wrote k s line.isSome).node k = s := Function.update_self _ _ _
    rw [hnode, c.writes_wrote_self]
    exact h.write hw
  · have hnode : (c.wrote i s line.isSome).node k = c.node k := Function.update_of_ne hi _ _
    rw [hnode, c.writes_wrote_of_ne hi]
    exact h

theorem mem_wrote {c : Chain} {i k : Nat} {s : Server} {success : Bool} {m : KvMap}
    (h : m ∈ (c.wrote i s success).writes k) : m ∈ c.writes k ∨ k = i ∧ m = s.map := by
  by_cases hi : k = i
  · subst hi
    rw [c.writes_wrote_self] at h
    split at h
    · obtain h | h := List.mem_append.mp h
      · exact .inl h
      · exact .inr ⟨rfl, List.mem_singleton.mp h⟩
    · exact .inl h
  · rw [c.writes_wrote_of_ne hi] at h
    exact .inl h

theorem isSome_recorded (s : Server) (now : Now) (line : Bytes) :
    (s.recorded now line).isSome = s.records now line := by
  unfold Server.recorded
  cases s.records now line <;> rfl

theorem wordStore_update {node : Nat → Server} {i : Nat} {s : Server}
    (h : ∀ k, (node k).WordStore 0) (hs : s.WordStore 0) (k : Nat) :
    (Function.update node i s k).WordStore 0 := by
  by_cases hk : k = i
  · subst hk
    rw [Function.update_self]
    exact hs
  · rw [Function.update_of_ne hk]
    exact h k

theorem chainInv_line {c : Chain} (h : ChainInv c) {fd : Nat} (hfd : fd ∉ (c.node 0).replicaFds)
    (now : Now) (line : Bytes) :
    ChainInv { c.wrote 0 ((c.node 0).handleLine fd now line).1
        ((c.node 0).accepted now line).isSome with
      headMaps := c.headMaps ++ [((c.node 0).handleLine fd now line).1.map] } := by
  have hw := wrote_handleLine (h.store 0) hfd now line
  generalize ((c.node 0).handleLine fd now line).1 = s at hw
  refine ⟨wordStore_update h.store hw.store, ?_, fun i l hl => ?_, fun i l hl => ?_, ?_⟩
  · exact List.mem_append_right _ (List.mem_singleton.mpr rfl)
  · exact linkInv_wrote hw (h.link i l hl) (Nat.succ_ne_zero i)
  · exact h.upstream i l hl
  · intro i l hl m hm
    obtain hm | ⟨-, rfl⟩ := mem_wrote hm
    · exact List.mem_append_left _ (h.maps i l hl m hm)
    · exact List.mem_append_right _ (List.mem_singleton.mpr rfl)

theorem lineEffects_stripCr {line : Bytes} (h : ∃ cmd, parse line = .ok cmd) :
    lineEffects (stripCr line) = lineEffects line := by
  obtain ⟨cmd, hp⟩ := h
  rw [lineEffects_of_parse hp, lineEffects_of_parse (parse_stripCr hp)]

theorem chainInv_deliver {c : Chain} (h : ChainInv c) {i : Nat} {l : Link}
    (hl : c.link i = some l) {line : Bytes} (hline : ((c.node i).sent l.fd)[l.taken]? = some line)
    (now : Now) : ChainInv (c.deliver i l now (stripCr line)) := by
  have hlink := h.link i l hl
  have hw := wrote_apply (h.store (i + 1)) now (stripCr line)
  have hmap : ((c.node (i + 1)).apply now (stripCr line)).map =
      applyAll (c.node (i + 1)).map (lineEffects line) := by
    rw [← lineEffects_stripCr (hlink.parsed line (List.mem_of_getElem? hline))]
    exact (Server.apply_store _ now _).2 (h.store (i + 1)).capacity
  have hpast := fun k => pastDump_deliver hl now (stripCr line) (k := k)
  unfold Chain.deliver at hpast ⊢
  dsimp only at hpast ⊢
  rw [← isSome_recorded] at hpast ⊢
  generalize (c.node (i + 1)).apply now (stripCr line) = r' at hw hmap hpast
  generalize (c.node (i + 1)).recorded now (stripCr line) = out at hw hpast
  have hnode : (c.wrote (i + 1) r' out.isSome).node (i + 1) = r' := Function.update_self _ _ _
  have hsame : ∀ k, k ≠ i + 1 → (c.wrote (i + 1) r' out.isSome).node k = c.node k :=
    fun k hk => Function.update_of_ne hk _ _
  have hnew := hlink.deliver hline hmap
  have hold : ∀ k l', Function.update c.link i (some { l with taken := l.taken + 1 }) k = some l' →
      ∃ l'', c.link k = some l'' := by
    intro k l' hk
    by_cases hki : k = i
    · exact ⟨l, hki ▸ hl⟩
    · rw [Function.update_of_ne hki] at hk
      exact ⟨l', hk⟩
  refine ⟨wordStore_update h.store hw.store, ?_, fun k l' hk => ?_, fun k l' hk => ?_,
    fun k l' hk m hm => ?_⟩
  · rw [hsame 0 (Nat.succ_ne_zero i).symm]
    exact h.live
  · by_cases hki : k = i
    · -- The link of the line.
      subst hki
      simp only [Function.update_self, Option.some.injEq] at hk
      subst hk
      rw [hnode, hsame k (Nat.succ_ne_self k).symm,
        c.writes_wrote_of_ne (Nat.succ_ne_self k).symm]
      exact hnew
    · simp only [Function.update_of_ne hki] at hk
      exact linkInv_wrote hw (h.link k l' hk) fun he => hki (Nat.succ.inj he)
  · obtain ⟨l'', hk'⟩ := hold k l' hk
    exact hpast k (h.upstream k l'' hk')
  · obtain ⟨l'', hk'⟩ := hold k l' hk
    obtain hm | ⟨rfl, rfl⟩ := mem_wrote hm
    · exact h.maps k l'' hk' m hm
    · -- The node has its dump, so its new map is one that its upstream had.
      obtain ⟨l₁, hl₁, hle⟩ := exists_of_pastDump (h.upstream _ l'' hk')
      rw [hl] at hl₁
      cases hl₁
      have hwrite := hnew.getElem?_writes
        (Nat.add_sub_cancel' (Nat.le_succ_of_le hle)).symm
      exact h.maps i l hl _ (List.mem_of_getElem? hwrite)

theorem chainInv_sync {c : Chain} (h : ChainInv c) {i fd : Nat} (hmay : c.MaySync i fd) :
    ChainInv (c.sync i fd) := by
  obtain ⟨hnone, hpast, hempty, hfit, hfd, hsent⟩ := hmay
  rw [Option.isNone_iff_eq_none] at hnone
  have hnew := linkInv_sync (r := { c.node (i + 1) with role := .REPLICA }) (h.store i) hfit hempty
    hfd hsent
  -- The node behind the new replica has no link yet.
  have hnext : c.link (i + 1) = none := by
    cases hl : c.link (i + 1) with
    | none => rfl
    | some l =>
      obtain ⟨l', hl', -⟩ := exists_of_pastDump (h.upstream _ l hl)
      rw [hnone] at hl'
      cases hl'
  have hold : ∀ k l, (c.sync i fd).link k = some l → k ≠ i → c.link k = some l := fun k l hl hk =>
    (c.link_sync_of_ne fd hk).symm.trans hl
  refine ⟨?_, ?_, fun k l hl => ?_, fun k l hl => pastDump_sync fd hnone ?_,
    fun k l hl m hm => ?_⟩
  · exact wordStore_update (wordStore_update h.store ⟨(h.store i).capacity, (h.store i).words⟩)
      ⟨(h.store (i + 1)).capacity, (h.store (i + 1)).words⟩
  · rw [c.map_sync]
    exact h.live
  · by_cases hk : k = i
    · subst hk
      rw [c.link_sync_self] at hl
      cases hl
      rw [c.node_sync_self, c.node_sync_succ, c.writes_sync_self]
      exact hnew
    · have hl' := hold k l hl hk
      have hk' : k ≠ i + 1 := by
        rintro rfl
        rw [hnext] at hl'
        cases hl'
      have hlink := h.link k l hl'
      rw [c.node_sync_of_ne fd hk hk', c.writes_sync_of_ne fd hk]
      exact { hlink with replica := (c.map_sync fd (k + 1)).trans hlink.replica }
  · by_cases hk : k = i
    · exact hk ▸ hpast
    · exact h.upstream k l (hold k l hl hk)
  · by_cases hk : k = i
    · subst hk
      rw [c.writes_sync_self, List.mem_singleton] at hm
      rw [hm]
      exact h.map_mem hpast
    · rw [c.writes_sync_of_ne fd hk] at hm
      exact h.maps k l (hold k l hl hk) m hm

theorem chainInv_step {c c' : Chain} {a : ChainAction} {o : Unit} (h : ChainInv c)
    (hs : chainMachine.step c a = some (c', o)) : ChainInv c' := by
  cases a with
  | line fd now line =>
    simp only [chainMachine] at hs
    split at hs
    · cases hs
    · rename_i hfd
      cases hs
      exact chainInv_line h hfd now line.1
  | sync i fd =>
    simp only [chainMachine] at hs
    split at hs
    · rename_i hmay
      cases hs
      exact chainInv_sync h hmay
    · cases hs
  | deliver i now =>
    obtain ⟨l, hl, hs⟩ := Option.bind_eq_some_iff.mp hs
    obtain ⟨line, hline, he⟩ := Option.map_eq_some_iff.mp hs
    cases he
    exact chainInv_deliver h hl hline now

/-! ## Whole runs -/

theorem chainInv_start (appendOnly : Nat → Bool) (clock : Nat → Nat → Now) (disk : Nat → Disk) :
    ChainInv (Chain.start appendOnly clock disk) where
  store i := wordStore_start (appendOnly i) 0 (clock i) (disk i)
  live := List.mem_singleton.mpr rfl
  link i l hl := by cases hl
  upstream i l hl := by cases hl
  maps i l hl := by cases hl

/-- Every line that a node has written to its replica is applied. -/
def Chain.Delivered (c : Chain) (i : Nat) : Prop :=
  ∃ l, c.link i = some l ∧ l.taken = ((c.node i).sent l.fd).length

/-- **Replica prefix consistency.** In every run of a chain of any length:

* a replica that has applied its dump and `j` lines more has the map that its upstream had right
  after its `j`-th successful write since the `SYNC`;
* a replica that has applied its dump has a map that the head has had;
* if nothing is in flight on the first `n` links, the first `n` replicas have the head's map. -/
theorem replica_prefix_consistency (appendOnly : Nat → Bool) (clock : Nat → Nat → Now)
    (disk : Nat → Disk) (acts : List ChainAction) {c : Chain} {outs : List Unit}
    (hrun : chainMachine.run (Chain.start appendOnly clock disk) acts = some (c, outs)) :
    (∀ i l j, c.link i = some l → l.taken = l.dumped + j →
      (c.writes i)[j]? = some (c.node (i + 1)).map) ∧
    (∀ i l, c.link i = some l → l.dumped ≤ l.taken → (c.node (i + 1)).map ∈ c.headMaps) ∧
    ∀ n, (∀ i < n, c.Delivered i) → ∀ i ≤ n, (c.node i).map = (c.node 0).map := by
  have h : ChainInv c :=
    Machine.run_invariant (fun _ _ _ _ h _ hs => chainInv_step h hs) (Machine.along_true _ _) hrun
      (chainInv_start appendOnly clock disk)
  refine ⟨fun i l j hl hj => (h.link i l hl).getElem?_writes hj, fun i l hl hle => ?_,
    fun n hn i hi => ?_⟩
  · refine h.map_mem ?_
    rw [Chain.pastDump, hl]
    exact decide_eq_true hle
  · induction i with
    | zero => rfl
    | succ i ih =>
      obtain ⟨l, hl, htaken⟩ := hn i (by omega)
      have hlink := h.link i l hl
      rw [hlink.replica, htaken, ← hlink.live]
      exact ih (by omega)

/-- Two replicas; the second one connects while a line is on its way to the first. -/
def twoReplicas : List ChainAction :=
  [.line 0 .epoch (.ofText "SET k 1"), .sync 0 7, .deliver 0 .epoch,
    .line 0 .epoch (.ofText "INCR k"), .sync 1 8, .deliver 0 .epoch, .deliver 1 .epoch,
    .deliver 1 .epoch]

theorem replica_prefix_consistency_twoReplicas :
    ∃ c outs, chainMachine.run (Chain.start (fun _ => true) (fun _ _ => .epoch) fun _ => .empty)
        twoReplicas = some (c, outs) ∧
      (c.node 2).map = (c.node 0).map ∧ (c.node 2).map (ascii "k") = some (ascii "2") := by
  have hrun : (chainMachine.run (Chain.start (fun _ => true) (fun _ _ => .epoch) fun _ => .empty)
      twoReplicas).any (fun x => x.1.link 0 = some ⟨7, 1, 2⟩ ∧ ((x.1.node 0).sent 7).length = 2 ∧
        x.1.link 1 = some ⟨8, 1, 2⟩ ∧ ((x.1.node 1).sent 8).length = 2 ∧
        (x.1.node 2).map (ascii "k") = some (ascii "2")) = true := by decide +kernel
  obtain ⟨⟨c, outs⟩, hrun, hfacts⟩ := (Option.any_eq_true _ _).mp hrun
  obtain ⟨hlink, hsent, hlink', hsent', hk⟩ := of_decide_eq_true hfacts
  obtain ⟨-, -, hequal⟩ := replica_prefix_consistency (fun _ => true) (fun _ _ => .epoch)
    (fun _ => .empty) twoReplicas hrun
  refine ⟨c, outs, hrun, hequal 2 (fun i hi => ?_) 2 (Nat.le_refl 2), hk⟩
  match i, hi with
  | 0, _ => exact ⟨_, hlink, hsent.symm⟩
  | 1, _ => exact ⟨_, hlink', hsent'.symm⟩

end TinyKV

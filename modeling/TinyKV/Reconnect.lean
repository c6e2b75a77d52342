import TinyKV.Chain
import TinyKV.Crash
import TinyKV.Descriptors
import TinyKV.Promotion

/-!
# A replica that loses its connection

`ReplicaLink::runLoop` in `src/replication/replica_link.cpp` connects, sends `SYNC`, applies the
lines that come, and starts again when the connection is lost. What was on its way is lost then, and
so are the writes of the primary until the next `SYNC`. The dump of this `SYNC` brings the keys that
the primary has; a key that the primary has dropped in between stays.

* `outageMachine`: a primary and its replica. Lines at both, handshakes, deliveries, connections
  that break on either side and restarts, in any order and any number of times.
* `SessionInv`: what the lines of a connection make of the two maps at its `SYNC`.
* `replica_after_outages`: when a replica has the map of its primary.
* `undeleted_key_converges`: a key that is never deleted has its value when nothing is in flight.

As in `Chain.lean`, the stores are unbounded and no deadline fires. A line is executed, logged and
propagated in one step, and so is the handshake; a restart finds all that was appended, and a
connection breaks between two lines. `LogOrder.lean`, `Sync.lean`, `ExpiryReplica.lean`,
`Durability.lean` and `Stream.lean` are about what happens else.
-/

namespace TinyKV

open Cpp Recency SnapshotManager
open KVStore (counter)

/-- The line is `REPLICAOF host port`. -/
def attaches (line : Bytes) : Bool :=
  match parse line with
  | .error _ => false
  | .ok cmd =>
    match (execute serverWiring (Db.empty 0) .epoch cmd).call with
    | some (.replicaOf _ _) => true
    | _ => false

/-! ## The role of a node -/

/-- What a command calls does not depend on the data. -/
theorem execute_call_replicaOf {w : Wiring} {db : Db} {now : Now} {cmd : Command} {host : Bytes}
    {port : Int} (h : (execute w db now cmd).call = some (.replicaOf host port)) (db' : Db)
    (now' : Now) : (execute w db' now' cmd).call = some (.replicaOf host port) := by
  have htype : cmd.type = .REPLICAOF := by
    by_contra hne
    by_cases hsave : cmd.type = .SAVE
    · obtain ⟨type, name, args⟩ := cmd
      obtain rfl : type = .SAVE := hsave
      unfold execute at h
      dsimp only at h
      repeat' split at h
      all_goals cases h
    · rw [execute_call_eq_none hsave hne] at h
      cases h
  obtain ⟨type, name, args⟩ := cmd
  obtain rfl : type = .REPLICAOF := htype
  rw [← h]
  unfold execute
  dsimp only
  repeat' split
  all_goals rfl

/-- A primary stays one unless it is told to follow another node. -/
theorem role_handleLine {s : Server} {line : Bytes} (hrole : s.role = .PRIMARY)
    (hline : attaches line = false) (fd : Nat) (now : Now) :
    (s.handleLine fd now line).1.role = .PRIMARY := by
  rcases s.handleLine_inv fd now line with ⟨-, heq | heq⟩ | ⟨cmd, hp, -, heq⟩
  · rw [heq, hrole]
  · rw [heq]
    exact hrole
  · rw [heq, Server.recordAndPropagateIfWrite_role]
    show (Server.makeCall _ (execute serverWiring s.db now cmd).call).role = _
    cases hcall : (execute serverWiring s.db now cmd).call with
    | none => exact hrole
    | some call =>
      cases call with
      | save => exact hrole
      | replicaOfNoOne => rfl
      | replicaOf host port =>
        have hsame := execute_call_replicaOf hcall (Db.empty 0) .epoch
        simp [attaches, hp, hsame] at hline

/-- A write that the link brings leaves the role. -/
theorem role_apply {s : Server} {line : Bytes} (hline : isWriteLine line = true) (now : Now) :
    (s.apply now line).role = s.role := by
  obtain ⟨cmd, hp, -, -, hreplicaOf⟩ := exists_of_isWriteLine hline
  unfold Server.apply
  rw [hp]
  exact (Server.recordAndPropagateIfWrite_role _ _ _ _).trans
    (executeCommand_frame s now hreplicaOf).1

/-- What a node accepts is a write, and a replica accepts nothing. -/
theorem accepted_eq_some {s : Server} {now : Now} {line l : Bytes}
    (h : s.accepted now line = some l) :
    l = line ∧ s.role = .PRIMARY ∧ isWriteLine line = true := by
  unfold Server.accepted at h
  split at h
  · rename_i hrole
    unfold Server.recorded at h
    split at h
    · rename_i hrecords
      refine ⟨(Option.some.inj h).symm, hrole, ?_⟩
      unfold Server.records at hrecords
      unfold isWriteLine
      cases hp : parse line with
      | error =>
        rw [hp] at hrecords
        cases hrecords
      | ok cmd =>
        rw [hp] at hrecords
        exact (Bool.and_eq_true_iff.mp hrecords).2
    · cases h
  · cases h

theorem isWriteLine_stripCr {line : Bytes} (h : isWriteLine line = true) :
    isWriteLine (stripCr line) = true := by
  obtain ⟨cmd, hp, hwrite, -⟩ := exists_of_isWriteLine h
  rw [isWriteLine, parse_stripCr hp]
  exact hwrite

theorem mem_of_mem_stripCr {b : UInt8} {line : Bytes} (h : b ∈ stripCr line) : b ∈ line := by
  unfold stripCr at h
  split at h
  · exact List.mem_of_mem_dropLast h
  · exact h

/-! ## The machine -/

/-- A connection of a replica with its primary, from its `SYNC` on. -/
structure Session where
  /-- Its descriptor on the primary. -/
  fd : Nat
  /-- The primary has it in its registry. -/
  registered : Bool
  /-- The lines that the primary has written to it. -/
  lines : List Bytes
  /-- How many of them are the dump. -/
  dumped : Nat
  /-- How many of them the replica has applied. -/
  taken : Nat
  /-- The map of the replica at the `SYNC`. -/
  before : KvMap
  /-- The map of the primary at the `SYNC`. -/
  synced : KvMap
  /-- This map, then the map of the primary after each successful write, while it is registered. -/
  maps : List KvMap

structure Outages where
  primary : Server
  replica : Server
  session : Option Session

/-- Unbounded servers that have recovered from any files. -/
def Outages.start (appendOnly : Bool) (clock : Nat → Now) (disk : Disk) (appendOnly' : Bool)
    (clock' : Nat → Now) (disk' : Disk) : Outages where
  primary := Server.start appendOnly 0 clock disk
  replica := Server.start appendOnly' 0 clock' disk'
  session := none

inductive OutageAction where
  /-- The primary handles a line of a client. -/
  | primaryLine (fd : Nat) (now : Now) (line : Line)
  /-- The replica handles a line of a client. -/
  | replicaLine (fd : Nat) (now : Now) (line : Line)
  /-- The link of the replica connects and sends `SYNC`. -/
  | connect (fd : Nat)
  /-- The replica applies the next line. -/
  | deliver (now : Now)
  /-- The replica loses the connection, and what was on its way. -/
  | cut
  /-- The primary finds a connection closed. -/
  | remove (fd : Nat)
  | restartPrimary (clock : Nat → Now)
  | restartReplica (clock : Nat → Now)

namespace Session

variable (c : Session)

/-- The primary has become `s'` from `s` by a line. -/
def wrote (s s' : Server) : Session :=
  if c.registered then
    let new := (s'.sent c.fd).drop (s.sent c.fd).length
    { c with lines := c.lines ++ new, maps := c.maps ++ new.map fun _ => s'.map }
  else c

def unregister : Session := { c with registered := false }

end Session

namespace Outages

variable (s : Outages)

def primaryLine (fd : Nat) (now : Now) (line : Bytes) : Outages :=
  let p := (s.primary.handleLine fd now line).1
  { s with primary := p, session := s.session.map fun c => c.wrote s.primary p }

/-- `REPLICAOF` stops the link that there is. -/
def replicaLine (fd : Nat) (now : Now) (line : Bytes) : Outages :=
  let r := (s.replica.handleLine fd now line).1
  { s with
    replica := r
    session := if r.role = .PRIMARY || attaches line then none else s.session }

def connect (fd : Nat) : Outages :=
  let dump := dumpLines s.primary.db.store.forEach
  { s with
    primary := s.primary.handleSyncConnection fd
    session := some
      { fd := fd, registered := true, lines := dump, dumped := dump.length, taken := 0
        before := s.replica.map, synced := s.primary.map, maps := [s.primary.map] } }

def deliver (c : Session) (now : Now) (line : Bytes) : Outages :=
  { s with
    replica := s.replica.apply now line
    session := some { c with taken := c.taken + 1 } }

def remove (fd : Nat) : Outages :=
  { s with
    primary := s.primary.unregister fd
    session := s.session.map fun c => if c.fd = fd then c.unregister else c }

/-- A new process on the files of the primary. What is on its way may still arrive. -/
def restartPrimary (clock : Nat → Now) : Outages :=
  { s with
    primary := Server.start s.primary.appendOnly 0 clock s.primary.disk
    session := s.session.map Session.unregister }

def restartReplica (clock : Nat → Now) : Outages :=
  { s with
    replica := Server.start s.replica.appendOnly 0 clock s.replica.disk
    session := none }

end Outages

/-- The pairs of the primary fit in lines at each `SYNC`: the reader of the replica gives up at a
longer one. A connection that has sent `SYNC` is no client's any more. -/
def outageMachine : Machine Outages OutageAction Unit where
  step s
    | .primaryLine fd now line =>
      if fd ∈ s.primary.replicaFds then none else some (s.primaryLine fd now line.1, ())
    | .replicaLine fd now line =>
      if fd ∈ s.replica.replicaFds then none else some (s.replicaLine fd now line.1, ())
    | .connect fd =>
      if s.replica.role = .REPLICA ∧ s.session.isNone ∧ fd ∉ s.primary.replicaFds ∧
          FitEntries s.primary.db.store.entries then
        some (s.connect fd, ())
      else none
    | .deliver now => s.session.bind fun c =>
      (c.lines[c.taken]?).map fun line => (s.deliver c now (stripCr line), ())
    | .cut => some ({ s with session := none }, ())
    | .remove fd => some (s.remove fd, ())
    | .restartPrimary clock => some (s.restartPrimary clock, ())
    | .restartReplica clock => some (s.restartReplica clock, ())

/-! ## One connection -/

/-- The lines since the dump. -/
def Session.writes (c : Session) : List Bytes := c.lines.drop c.dumped

/-- What the lines of a connection make of the maps at its `SYNC`. -/
structure SessionInv (p r : Server) (c : Session) : Prop where
  registered : c.registered = true →
    p.replicaFds.count c.fd = 1 ∧ p.map = applyAll c.synced (c.writes.flatMap lineEffects)
  dumped : c.dumped ≤ c.lines.length
  dump : ∀ m x, applyAll m ((c.lines.take c.dumped).flatMap lineEffects) x = (c.synced x).or (m x)
  lines : ∀ line ∈ c.lines, isWriteLine line = true
  length : c.maps.length = c.writes.length + 1
  maps : ∀ j m, c.maps[j]? = some m →
    m = applyAll c.synced ((c.writes.take j).flatMap lineEffects)
  taken : c.taken ≤ c.lines.length
  replica : r.map = applyAll c.before ((c.lines.take c.taken).flatMap lineEffects)
  role : r.role = .REPLICA

section

variable {p p' r r' : Server} {c : Session} {line : Option Bytes}

theorem wrote_eq (hregistered : c.registered = true) (hcount : p.replicaFds.count c.fd = 1)
    (hw : Wrote p p' line) :
    c.wrote p p' = { c with
      lines := c.lines ++ line.toList
      maps := c.maps ++ line.toList.map fun _ => p'.map } := by
  unfold Session.wrote
  rw [if_pos hregistered, hw.sent c.fd hcount, List.drop_left]

/-- The primary has handled a line. -/
theorem SessionInv.write (h : SessionInv p r c) (hw : Wrote p p' line)
    (hwrite : ∀ l ∈ line, isWriteLine l = true) : SessionInv p' r (c.wrote p p') := by
  cases hregistered : c.registered with
  | false =>
    have heq : c.wrote p p' = c := by
      unfold Session.wrote
      rw [hregistered]
      rfl
    rw [heq]
    exact { h with registered := fun htrue => by rw [hregistered] at htrue; cases htrue }
  | true =>
    obtain ⟨hcount, hmap⟩ := h.registered hregistered
    rw [wrote_eq hregistered hcount hw]
    have hwrites : (c.lines ++ line.toList).drop c.dumped = c.writes ++ line.toList :=
      List.drop_append_of_le_length h.dumped
    have hmap' : p'.map = applyAll c.synced ((c.writes ++ line.toList).flatMap lineEffects) := by
      rw [hw.map, hmap, List.flatMap_append]
      exact (Keyed.run_append _ _ _ _).symm
    refine ⟨fun _ => ⟨hw.registered c.fd hcount, ?_⟩, ?_, fun m x => ?_, fun l hl => ?_, ?_,
      fun j m hj => ?_, ?_, ?_, h.role⟩
    · rw [Session.writes, hwrites]
      exact hmap'
    · rw [List.length_append]
      exact Nat.le_add_right_of_le h.dumped
    · dsimp only
      rw [List.take_append_of_le_length h.dumped]
      exact h.dump m x
    · obtain hl | hl := List.mem_append.mp hl
      · exact h.lines l hl
      · exact hwrite l (Option.mem_toList.mp hl)
    · rw [Session.writes, hwrites, List.length_append, List.length_append, List.length_map,
        h.length]
      omega
    · rw [Session.writes, hwrites]
      have hlength := h.length
      by_cases hlt : j < c.maps.length
      · dsimp only at hj ⊢
        rw [List.getElem?_append_left hlt] at hj
        rw [List.take_append_of_le_length (by omega)]
        exact h.maps j m hj
      · -- The map after the line.
        dsimp only at hj
        rw [List.getElem?_append_right (by omega)] at hj
        cases line with
        | none => cases hj
        | some l =>
          have hzero : j - c.maps.length = 0 := by
            by_contra hne
            rw [List.getElem?_eq_none (by simp; omega)] at hj
            cases hj
          rw [hzero] at hj
          rw [List.take_of_length_le (by simp; omega), ← hmap']
          exact (Option.some.inj hj).symm
    · rw [List.length_append]
      exact Nat.le_add_right_of_le h.taken
    · dsimp only
      rw [List.take_append_of_le_length h.taken]
      exact h.replica

/-- The replica has applied the next line. -/
theorem SessionInv.deliver {l : Bytes} (h : SessionInv p r c) (hl : c.lines[c.taken]? = some l)
    (hrole : r'.role = .REPLICA) (hr : r'.map = applyAll r.map (lineEffects l)) :
    SessionInv p r' { c with taken := c.taken + 1 } := by
  refine { h with
    taken := (List.getElem?_eq_some_iff.mp hl).1
    replica := ?_
    role := hrole }
  show r'.map = applyAll c.before ((c.lines.take (c.taken + 1)).flatMap lineEffects)
  rw [hr, h.replica, List.take_add_one, hl, Option.toList_some, List.flatMap_append,
    List.flatMap_singleton]
  exact (Keyed.run_append _ _ _ _).symm

/-- The registry has lost the connection. -/
theorem SessionInv.unregister (h : SessionInv p r c) : SessionInv p' r c.unregister :=
  { h with registered := by rintro ⟨⟩ }

/-- A `SYNC`, whatever the replica has. -/
theorem sessionInv_connect (hp : p.WordStore 0) (hfit : FitEntries p.db.store.entries)
    (hrole : r.role = .REPLICA) {fd : Nat} (hfd : fd ∉ p.replicaFds) :
    SessionInv (p.handleSyncConnection fd) r
      { fd := fd, registered := true, lines := dumpLines p.db.store.forEach
        dumped := (dumpLines p.db.store.forEach).length, taken := 0
        before := r.map, synced := p.map, maps := [p.map] } where
  registered _ := by
    refine ⟨p.handleSyncConnection_count hfd, ?_⟩
    rw [Session.writes, List.drop_length]
    rfl
  dumped := Nat.le_refl _
  dump m x := by
    rw [List.take_length]
    exact applyAll_dumpLines_of_fit p.db.store.unique hp.words hfit m x
  lines line hl := by
    obtain ⟨k, v, hparse⟩ := (parse_dumpLine_iff hp.words).mpr hfit line hl
    rw [isWriteLine, hparse]
    rfl
  length := by
    rw [Session.writes, List.drop_length]
    rfl
  maps j m hj := by
    rw [Session.writes, List.drop_length, List.take_nil]
    cases j with
    | zero => exact (Option.some.inj hj).symm
    | succ j => cases hj
  taken := Nat.zero_le _
  replica := rfl
  role := hrole

end

/-! ## Whole runs -/

structure OutageInv (s : Outages) : Prop where
  primaryStore : s.primary.WordStore 0
  replicaStore : s.replica.WordStore 0
  session : ∀ c, s.session = some c → SessionInv s.primary s.replica c

theorem outageInv_start (appendOnly : Bool) (clock : Nat → Now) (disk : Disk) (appendOnly' : Bool)
    (clock' : Nat → Now) (disk' : Disk) :
    OutageInv (.start appendOnly clock disk appendOnly' clock' disk') where
  primaryStore := wordStore_start _ 0 _ _
  replicaStore := wordStore_start _ 0 _ _
  session _ hc := by cases hc

section

variable {s s' : Outages}

theorem OutageInv.primaryLine (h : OutageInv s) {fd : Nat} (hfd : fd ∉ s.primary.replicaFds)
    (now : Now) (line : Bytes) : OutageInv (s.primaryLine fd now line) := by
  have hw := wrote_handleLine h.primaryStore hfd now line
  refine ⟨hw.store, h.replicaStore, fun c' hc' => ?_⟩
  obtain ⟨c, hc, rfl⟩ := Option.map_eq_some_iff.mp hc'
  refine (h.session c hc).write hw fun l hl => ?_
  obtain ⟨rfl, -, hwrite⟩ := accepted_eq_some hl
  exact hwrite

/-- A replica that has a link accepts no write. -/
theorem OutageInv.replicaLine (h : OutageInv s) {fd : Nat} (hfd : fd ∉ s.replica.replicaFds)
    (now : Now) (line : Bytes) : OutageInv (s.replicaLine fd now line) := by
  have hw := wrote_handleLine h.replicaStore hfd now line
  refine ⟨h.primaryStore, hw.store, fun c hc => ?_⟩
  simp only [Outages.replicaLine] at hc ⊢
  split at hc
  · cases hc
  · rename_i hlink
    have hsession := h.session c hc
    have hnone : s.replica.accepted now line = none := by
      rw [Server.accepted, hsession.role]
      rfl
    have hmap : (s.replica.handleLine fd now line).1.map = s.replica.map := by
      rw [hw.map, hnone]
      rfl
    have hrole : (s.replica.handleLine fd now line).1.role = .REPLICA := by
      cases hrole : (s.replica.handleLine fd now line).1.role with
      | REPLICA => rfl
      | PRIMARY => simp [hrole] at hlink
    exact { hsession with replica := hmap.trans hsession.replica, role := hrole }

theorem OutageInv.connect (h : OutageInv s) (hrole : s.replica.role = .REPLICA) {fd : Nat}
    (hfd : fd ∉ s.primary.replicaFds) (hfit : FitEntries s.primary.db.store.entries) :
    OutageInv (s.connect fd) := by
  refine ⟨(wrote_handleSyncConnection h.primaryStore hfd).store, h.replicaStore, fun c hc => ?_⟩
  cases hc
  exact sessionInv_connect h.primaryStore hfit hrole hfd

/-- A line of the primary, at the replica. -/
theorem SessionInv.apply {p r : Server} {c : Session} {line : Bytes} (h : SessionInv p r c)
    (hr : r.WordStore 0) (hline : c.lines[c.taken]? = some line) (now : Now) :
    (r.apply now (stripCr line)).role = .REPLICA ∧
      (r.apply now (stripCr line)).map = applyAll r.map (lineEffects line) := by
  have hwrite := h.lines line (List.mem_of_getElem? hline)
  refine ⟨(role_apply (isWriteLine_stripCr hwrite) now).trans h.role, ?_⟩
  obtain ⟨cmd, hparse, -⟩ := exists_of_isWriteLine hwrite
  rw [← lineEffects_stripCr ⟨cmd, hparse⟩]
  exact (Server.apply_store _ now _).2 hr.capacity

theorem OutageInv.deliver (h : OutageInv s) {c : Session} (hc : s.session = some c) {line : Bytes}
    (hline : c.lines[c.taken]? = some line) (now : Now) :
    OutageInv (s.deliver c now (stripCr line)) := by
  have hsession := h.session c hc
  obtain ⟨hrole, hmap⟩ := hsession.apply h.replicaStore hline now
  refine ⟨h.primaryStore, (wrote_apply h.replicaStore now _).store, fun c' hc' => ?_⟩
  cases hc'
  exact hsession.deliver hline hrole hmap

theorem OutageInv.remove (h : OutageInv s) (fd : Nat) : OutageInv (s.remove fd) := by
  refine ⟨⟨h.primaryStore.capacity, h.primaryStore.words⟩, h.replicaStore, fun c' hc' => ?_⟩
  obtain ⟨c, hc, rfl⟩ := Option.map_eq_some_iff.mp hc'
  have hsession := h.session c hc
  split
  · exact hsession.unregister
  · rename_i hne
    refine { hsession with registered := fun hregistered => ?_ }
    obtain ⟨hcount, hmap⟩ := hsession.registered hregistered
    refine ⟨?_, hmap⟩
    show (s.primary.replicaFds.filter (· ≠ fd)).count c.fd = 1
    rw [List.count_filter (by simpa using hne), hcount]

theorem outageInv_step {a : OutageAction} {o : Unit} (h : OutageInv s)
    (hs : outageMachine.step s a = some (s', o)) : OutageInv s' := by
  cases a with
  | primaryLine fd now line =>
    simp only [outageMachine] at hs
    split at hs
    · cases hs
    · rename_i hfd
      cases hs
      exact h.primaryLine hfd now line.1
  | replicaLine fd now line =>
    simp only [outageMachine] at hs
    split at hs
    · cases hs
    · rename_i hfd
      cases hs
      exact h.replicaLine hfd now line.1
  | connect fd =>
    simp only [outageMachine] at hs
    split at hs
    · rename_i hmay
      cases hs
      exact h.connect hmay.1 hmay.2.2.1 hmay.2.2.2
    · cases hs
  | deliver now =>
    obtain ⟨c, hc, hs⟩ := Option.bind_eq_some_iff.mp hs
    obtain ⟨line, hline, he⟩ := Option.map_eq_some_iff.mp hs
    cases he
    exact h.deliver hc hline now
  | cut =>
    cases hs
    exact ⟨h.primaryStore, h.replicaStore, fun c hc => by cases hc⟩
  | remove fd =>
    cases hs
    exact h.remove fd
  | restartPrimary clock =>
    cases hs
    refine ⟨wordStore_start _ 0 _ _, h.replicaStore, fun c' hc' => ?_⟩
    obtain ⟨c, hc, rfl⟩ := Option.map_eq_some_iff.mp hc'
    exact (h.session c hc).unregister
  | restartReplica clock =>
    cases hs
    exact ⟨h.primaryStore, wordStore_start _ 0 _ _, fun c hc => by cases hc⟩

end

/-! ## When the maps are equal -/

/-- The operations on a key since the dump. -/
def Session.opsAt (c : Session) (key : Bytes) : List KeyOp :=
  Keyed.opsAt key (c.writes.flatMap lineEffects)

/-- A value that the replica had of a key that the primary had not makes no difference any more: the
key was set or deleted since, or it was counted and the value counts as zero. -/
def Session.Healed (c : Session) (key value : Bytes) : Prop :=
  (∃ v, .assign v ∈ c.opsAt key) ∨ c.opsAt key ≠ [] ∧ counter (some value) = some 0

/-- A replica that has its dump and `j` lines more. -/
theorem SessionInv.replica_eq {p r : Server} {c : Session} (h : SessionInv p r c) {j : Nat}
    (hj : c.taken = c.dumped + j) (x : Bytes) :
    r.map x = Keyed.runCell KeyOp.app ((c.synced x).or (c.before x))
      (Keyed.opsAt x ((c.writes.take j).flatMap lineEffects)) := by
  rw [h.replica, hj, List.take_add, List.flatMap_append, applyAll, Keyed.run_append,
    Keyed.run_apply, ← h.dump c.before x]
  rfl

/-- Nothing is in flight: the two values of a key, after the same operations. -/
theorem SessionInv.drained {p r : Server} {c : Session} (h : SessionInv p r c)
    (hregistered : c.registered = true) (htaken : c.taken = c.lines.length) (x : Bytes) :
    r.map x = Keyed.runCell KeyOp.app ((c.synced x).or (c.before x)) (c.opsAt x) ∧
      p.map x = Keyed.runCell KeyOp.app (c.synced x) (c.opsAt x) := by
  have hdumped := h.dumped
  have hj : c.taken = c.dumped + c.writes.length := by
    rw [htaken, Session.writes, List.length_drop]
    omega
  refine ⟨?_, ?_⟩
  · rw [h.replica_eq hj x, List.take_length]
    rfl
  · rw [(h.registered hregistered).2, applyAll, Keyed.run_apply]
    rfl

/-- **A replica after outages.** The connection breaks and comes back any number of times, on either
side, and both nodes may restart. Of the connection that is open in the end:

* When the replica has applied the dump and `j` lines more, each key has the value that it had on
  the primary right after its `j`-th successful write since the `SYNC`, unless at the `SYNC` the
  replica had the key and the primary had not.
* When nothing is in flight, the maps are equal exactly if each of these keys is healed. -/
theorem replica_after_outages (appendOnly : Bool) (clock : Nat → Now) (disk : Disk)
    (appendOnly' : Bool) (clock' : Nat → Now) (disk' : Disk) (acts : List OutageAction)
    {s : Outages} {outs : List Unit}
    (hrun : outageMachine.run (.start appendOnly clock disk appendOnly' clock' disk') acts =
      some (s, outs))
    {c : Session} (hc : s.session = some c) :
    (∀ j, c.taken = c.dumped + j → ∃ m, c.maps[j]? = some m ∧
      ∀ x, (c.synced x = none → c.before x = none) → s.replica.map x = m x) ∧
    (c.registered = true → c.taken = c.lines.length →
      (s.replica.map = s.primary.map ↔
        ∀ x v, c.before x = some v → c.synced x = none → c.Healed x v)) := by
  have hinv : OutageInv s :=
    Machine.run_invariant (fun _ _ _ _ h _ hs => outageInv_step h hs) (Machine.along_true _ _) hrun
      (outageInv_start appendOnly clock disk appendOnly' clock' disk')
  have h := hinv.session c hc
  have hor : ∀ x, (c.synced x = none → c.before x = none) →
      (c.synced x).or (c.before x) = c.synced x := by
    intro x hx
    cases hs : c.synced x with
    | none => rw [hx hs, Option.or_none]
    | some v => rfl
  refine ⟨fun j hj => ?_, fun hregistered htaken => ?_⟩
  · have hlength := h.length
    have hle := h.taken
    have hlt : j < c.maps.length := by
      rw [hlength, Session.writes, List.length_drop]
      omega
    refine ⟨c.maps[j], List.getElem?_eq_getElem hlt, fun x hx => ?_⟩
    rw [h.replica_eq hj x, hor x hx, h.maps j _ (List.getElem?_eq_getElem hlt), applyAll,
      Keyed.run_apply]
  · constructor
    · intro heq x v hbefore hsynced
      obtain ⟨hr, hp⟩ := h.drained hregistered htaken x
      rw [heq, hp, hsynced, Option.none_or, hbefore, runCell_none_iff] at hr
      obtain hassign | hcount := hr
      · exact .inl hassign
      · split at hcount
        · cases hcount
        · rename_i hne
          exact .inr ⟨hne, hcount⟩
    · intro hhealed
      funext x
      obtain ⟨hr, hp⟩ := h.drained hregistered htaken x
      rw [hr, hp]
      cases hsynced : c.synced x with
      | some v => rfl
      | none =>
        rw [Option.none_or]
        cases hbefore : c.before x with
        | none => rfl
        | some v =>
          refine ((runCell_none_iff _ _).mpr ?_).symm
          obtain hassign | ⟨hne, hcount⟩ := hhealed x v hbefore hsynced
          · exact .inl hassign
          · exact .inr (by rw [if_neg hne]; exact hcount)

/-- The connection breaks while the primary drops `j` and counts `k`; both keys are counted once
more after the next `SYNC`. -/
def outageRun : List OutageAction :=
  [.replicaLine 3 .epoch (.ofText "REPLICAOF host 6380"), .primaryLine 3 .epoch (.ofText "INCR j"),
    .primaryLine 3 .epoch (.ofText "SET k 4"), .connect 7, .deliver .epoch, .deliver .epoch, .cut,
    .primaryLine 3 .epoch (.ofText "DEL j"), .remove 7, .primaryLine 3 .epoch (.ofText "INCR k"),
    .connect 7, .primaryLine 3 .epoch (.ofText "INCR j"), .primaryLine 3 .epoch (.ofText "INCR k"),
    .deliver .epoch, .deliver .epoch, .deliver .epoch]

theorem replica_after_outages_staleKey :
    ∃ s outs c,
      outageMachine.run (.start true (fun _ => .epoch) .empty true (fun _ => .epoch) .empty)
          outageRun = some (s, outs) ∧ s.session = some c ∧
      (s.replica.map = s.primary.map ↔
        ∀ x v, c.before x = some v → c.synced x = none → c.Healed x v) ∧
      s.primary.map (ascii "j") = some (ascii "1") ∧ s.replica.map (ascii "j") = some (ascii "2") ∧
      s.replica.map (ascii "k") = some (ascii "6") := by
  have hend : (outageMachine.run
      (.start true (fun _ => .epoch) .empty true (fun _ => .epoch) .empty) outageRun).any
      (fun x => x.1.session.any (fun c => c.registered && c.taken = c.lines.length) &&
        x.1.primary.map (ascii "j") = some (ascii "1") &&
        x.1.replica.map (ascii "j") = some (ascii "2") &&
        x.1.replica.map (ascii "k") = some (ascii "6")) = true := by
    decide +kernel
  obtain ⟨⟨s, outs⟩, hrun, hfacts⟩ := (Option.any_eq_true _ _).mp hend
  simp only [Bool.and_eq_true, decide_eq_true_eq] at hfacts
  obtain ⟨⟨⟨hsession, hj⟩, hj'⟩, hk⟩ := hfacts
  obtain ⟨c, hc, hdrained⟩ := (Option.any_eq_true _ _).mp hsession
  simp only [Bool.and_eq_true, decide_eq_true_eq] at hdrained
  obtain ⟨-, hequal⟩ := replica_after_outages _ _ _ _ _ _ outageRun hrun hc
  exact ⟨s, outs, c, hrun, hc, hequal hdrained.1 hdrained.2, hj, hj', hk⟩

/-! ## A key that is never deleted -/

/-- No deletion leaves a key without a value. -/
theorem runCell_ne_none {ops : List KeyOp} (hops : ∀ op ∈ ops, op ≠ .assign none)
    {x : Option Bytes} (hx : x ≠ none ∨ ops ≠ []) : Keyed.runCell KeyOp.app x ops ≠ none := by
  induction ops generalizing x with
  | nil => exact hx.resolve_right fun h => h rfl
  | cons op ops ih =>
    rw [Keyed.runCell_cons]
    refine ih (fun op' h => hops op' (List.mem_cons_of_mem _ h)) (.inl ?_)
    have hop := hops op List.mem_cons_self
    cases op with
    | assign v => exact fun h => hop (congrArg KeyOp.assign h)
    | bump d =>
      -- A missing key counts as zero.
      cases x with
      | none => exact fun h => by cases h
      | some v =>
        simp only [KeyOp.app]
        split
        · rintro ⟨⟩
        · rintro ⟨⟩

/-- Two servers with append-only files whose pairs fit in lines. The primary accepts no deletion of
the key, and the replica accepts no write to it from its own clients. -/
def Undeleted (x : Bytes) (s : Outages) (a : OutageAction) : Prop :=
  FitEntries s.primary.db.store.entries ∧ FitEntries s.replica.db.store.entries ∧
    match a with
    | .primaryLine _ now line =>
      ∀ l ∈ s.primary.accepted now line.1, (x, .assign none) ∉ lineEffects l
    | .replicaLine _ now line =>
      ∀ l ∈ s.replica.accepted now line.1, Keyed.opsAt x (lineEffects l) = []
    | _ => True

instance (x : Bytes) (s : Outages) : ∀ a, Decidable (Undeleted x s a)
  | .primaryLine _ now line => inferInstanceAs (Decidable (_ ∧ _ ∧
      ∀ l ∈ s.primary.accepted now line.1, (x, KeyOp.assign none) ∉ lineEffects l))
  | .replicaLine _ now line => inferInstanceAs (Decidable (_ ∧ _ ∧
      ∀ l ∈ s.replica.accepted now line.1, Keyed.opsAt x (lineEffects l) = []))
  | .connect _ | .deliver _ | .cut | .remove _ | .restartPrimary _ | .restartReplica _ =>
    inferInstanceAs (Decidable (_ ∧ _ ∧ True))

/-- What the lines of a connection say of a key that the primary keeps. -/
structure Session.Keeps (x : Bytes) (p : Server) (c : Session) : Prop where
  lines : Keyed.opsAt x (c.lines.flatMap lineEffects) ≠ [] → p.map x ≠ none
  synced : c.synced x = none → c.before x = none
  whole : ∀ l ∈ c.lines, newline ∉ l

/-- The replica has the key only if the primary has it. -/
structure UndeletedInv (x : Bytes) (s : Outages) : Prop where
  outage : OutageInv s
  primary : Recoverable s.primary
  replica : Recoverable s.replica
  key : s.replica.map x ≠ none → s.primary.map x ≠ none
  session : ∀ c, s.session = some c → c.Keeps x s.primary

/-- A write from the link keeps the files true to the data. -/
theorem recoverable_apply {s : Server} (h : Recoverable s) (hfit : FitEntries s.db.store.entries)
    (now : Now) (line : Line) (hwrite : isWriteLine line.1 = true) :
    Recoverable (s.apply now line.1) := by
  obtain ⟨cmd, hp, hcmd, hsync, -⟩ := exists_of_isWriteLine hwrite
  -- A primary does the same with the line of a client.
  have hline := recoverable_handleLine (s := { s with role := .PRIMARY })
    ⟨h.unbounded, h.appendOnly, h.words, h.complete, h.recovered⟩ hfit 0 now line
  rw [Server.handleLine_of_parse _ hp, if_neg hsync, if_neg (by simp)] at hline
  unfold Server.apply
  rw [hp]
  dsimp only at hline ⊢
  rw [Server.executeCommand_of_no_call _ (execute_call_of_write hcmd)] at hline ⊢
  unfold Server.recordAndPropagateIfWrite at hline ⊢
  split at hline
  · rename_i hlogged
    rw [if_pos (by exact hlogged)]
    exact ⟨hline.unbounded, hline.appendOnly, hline.words, hline.complete, hline.recovered⟩
  · rename_i hlogged
    rw [if_neg (by exact hlogged)]
    exact ⟨hline.unbounded, hline.appendOnly, hline.words, hline.complete, hline.recovered⟩

/-- A write that is accepted and no deletion. -/
theorem map_ne_none {p p' : Server} {line : Option Bytes} {x : Bytes} (hw : Wrote p p' line)
    (hline : ∀ l ∈ line, (x, KeyOp.assign none) ∉ lineEffects l)
    (hx : p.map x ≠ none ∨ Keyed.opsAt x (line.toList.flatMap lineEffects) ≠ []) :
    p'.map x ≠ none := by
  rw [hw.map, applyAll, Keyed.run_apply]
  refine runCell_ne_none (fun op hop => ?_) hx
  rintro rfl
  obtain ⟨l, hl, heffect⟩ := List.mem_flatMap.mp (Keyed.mem_opsAt.mp hop)
  exact hline l (Option.mem_toList.mp hl) heffect

section

variable {x : Bytes} {s s' : Outages}

theorem UndeletedInv.primaryLine (h : UndeletedInv x s) {fd : Nat}
    (hfd : fd ∉ s.primary.replicaFds) {now : Now} {line : Line}
    (hfit : FitEntries s.primary.db.store.entries)
    (hline : ∀ l ∈ s.primary.accepted now line.1, (x, .assign none) ∉ lineEffects l) :
    UndeletedInv x (s.primaryLine fd now line.1) := by
  have hw := wrote_handleLine h.outage.primaryStore hfd now line.1
  have hkeep : s.primary.map x ≠ none → (s.primaryLine fd now line.1).primary.map x ≠ none :=
    fun hx => map_ne_none hw hline (.inl hx)
  refine ⟨h.outage.primaryLine hfd now line.1, recoverable_handleLine h.primary hfit fd now line,
    h.replica, fun hr => hkeep (h.key hr), fun c' hc' => ?_⟩
  obtain ⟨c, hc, rfl⟩ := Option.map_eq_some_iff.mp hc'
  obtain ⟨hlines, hsynced, hwhole⟩ := h.session c hc
  cases hregistered : c.registered with
  | false =>
    have heq : c.wrote s.primary (s.primary.handleLine fd now line.1).1 = c := by
      unfold Session.wrote
      rw [hregistered]
      rfl
    rw [heq]
    exact ⟨fun hops => hkeep (hlines hops), hsynced, hwhole⟩
  | true =>
    rw [wrote_eq hregistered ((h.outage.session c hc).registered hregistered).1 hw]
    refine ⟨fun hops => ?_, hsynced, fun l hl => ?_⟩
    · dsimp only at hops
      rw [List.flatMap_append, Keyed.opsAt_append] at hops
      by_cases hold : Keyed.opsAt x (c.lines.flatMap lineEffects) = []
      · rw [hold, List.nil_append] at hops
        exact map_ne_none hw hline (.inr hops)
      · exact hkeep (hlines hold)
    · obtain hl | hl := List.mem_append.mp hl
      · exact hwhole l hl
      · obtain ⟨rfl, -, -⟩ := accepted_eq_some (Option.mem_toList.mp hl)
        exact line.2

theorem UndeletedInv.replicaLine (h : UndeletedInv x s) {fd : Nat}
    (hfd : fd ∉ s.replica.replicaFds) {now : Now} {line : Line}
    (hfit : FitEntries s.replica.db.store.entries)
    (hline : ∀ l ∈ s.replica.accepted now line.1, Keyed.opsAt x (lineEffects l) = []) :
    UndeletedInv x (s.replicaLine fd now line.1) := by
  have hw := wrote_handleLine h.outage.replicaStore hfd now line.1
  refine ⟨h.outage.replicaLine hfd now line.1, h.primary,
    recoverable_handleLine h.replica hfit fd now line, fun hr => h.key ?_, fun c hc => ?_⟩
  · replace hr : (s.replica.handleLine fd now line.1).1.map x ≠ none := hr
    rw [hw.map, applyAll, Keyed.run_apply] at hr
    cases hl : s.replica.accepted now line.1 with
    | none =>
      rw [hl] at hr
      exact hr
    | some l =>
      rw [hl, Option.toList_some, List.flatMap_singleton, hline l hl] at hr
      exact hr
  · simp only [Outages.replicaLine] at hc
    split at hc
    · cases hc
    · exact h.session c hc

theorem UndeletedInv.connect (h : UndeletedInv x s) (hrole : s.replica.role = .REPLICA) {fd : Nat}
    (hfd : fd ∉ s.primary.replicaFds) (hfit : FitEntries s.primary.db.store.entries) :
    UndeletedInv x (s.connect fd) := by
  have hwords := h.primary.words
  refine ⟨h.outage.connect hrole hfd hfit, ⟨h.primary.unbounded, h.primary.appendOnly, hwords,
    h.primary.complete, h.primary.recovered⟩, h.replica, h.key, fun c hc => ?_⟩
  cases hc
  refine ⟨fun hops => ?_, fun hx => ?_, newline_not_mem_dumpLines hwords⟩
  · -- The lines of the dump are about the keys of the primary.
    obtain ⟨op, hop⟩ := List.exists_mem_of_ne_nil _ hops
    obtain ⟨l, hl, heffect⟩ := List.mem_flatMap.mp (Keyed.mem_opsAt.mp hop)
    obtain ⟨⟨k, v⟩, he, rfl⟩ := List.mem_map.mp hl
    obtain ⟨hk, hv⟩ := hwords k v he
    rw [lineEffects_setLine hk hv, if_pos (hfit k v he), List.mem_singleton] at heffect
    cases heffect
    show find x s.primary.db.store.entries ≠ none
    rw [Ne, find_eq_none]
    exact fun hnot => hnot (List.mem_map_of_mem he)
  · by_contra hbefore
    exact h.key hbefore hx

theorem UndeletedInv.deliver (h : UndeletedInv x s) {c : Session} (hc : s.session = some c)
    {line : Bytes} (hline : c.lines[c.taken]? = some line)
    (hfit : FitEntries s.replica.db.store.entries) (now : Now) :
    UndeletedInv x (s.deliver c now (stripCr line)) := by
  have hsession := h.outage.session c hc
  obtain ⟨hlines, hsynced, hwhole⟩ := h.session c hc
  have hmem := List.mem_of_getElem? hline
  obtain ⟨-, hmap⟩ := hsession.apply h.outage.replicaStore hline now
  refine ⟨h.outage.deliver hc hline now, h.primary, ?_, fun hr => ?_, fun c' hc' => ?_⟩
  · have hnewline : newline ∉ stripCr line := fun hin => hwhole line hmem (mem_of_mem_stripCr hin)
    have hwrite := isWriteLine_stripCr (hsession.lines line hmem)
    exact recoverable_apply h.replica hfit now ⟨stripCr line, hnewline⟩ hwrite
  · replace hr : (s.replica.apply now (stripCr line)).map x ≠ none := hr
    rw [hmap, applyAll, Keyed.run_apply] at hr
    by_cases hops : Keyed.opsAt x (lineEffects line) = []
    · rw [hops] at hr
      exact h.key hr
    · obtain ⟨op, hop⟩ := List.exists_mem_of_ne_nil _ hops
      refine hlines (List.ne_nil_of_mem (a := op) (Keyed.mem_opsAt.mpr ?_))
      exact List.mem_flatMap.mpr ⟨line, hmem, Keyed.mem_opsAt.mp hop⟩
  · cases hc'
    exact ⟨hlines, hsynced, hwhole⟩

/-- A restart brings the map back. -/
theorem Recoverable.restart {p : Server} (h : Recoverable p) (clock : Nat → Now) :
    Recoverable (Server.start p.appendOnly 0 clock p.disk) ∧
      (Server.start p.appendOnly 0 clock p.disk).map = p.map := by
  have hstart := recoverable_start clock h.complete
  rw [h.appendOnly]
  exact ⟨hstart, hstart.recovered.symm.trans h.recovered⟩

theorem undeletedInv_step {a : OutageAction} {o : Unit} (h : UndeletedInv x s)
    (ha : Undeleted x s a) (hs : outageMachine.step s a = some (s', o)) : UndeletedInv x s' := by
  obtain ⟨hfit, hfit', ha⟩ := ha
  have hnext := outageInv_step h.outage hs
  cases a with
  | primaryLine fd now line =>
    simp only [outageMachine] at hs
    split at hs
    · cases hs
    · rename_i hfd
      cases hs
      exact h.primaryLine hfd hfit ha
  | replicaLine fd now line =>
    simp only [outageMachine] at hs
    split at hs
    · cases hs
    · rename_i hfd
      cases hs
      exact h.replicaLine hfd hfit' ha
  | connect fd =>
    simp only [outageMachine] at hs
    split at hs
    · rename_i hmay
      cases hs
      exact h.connect hmay.1 hmay.2.2.1 hmay.2.2.2
    · cases hs
  | deliver now =>
    obtain ⟨c, hc, hs⟩ := Option.bind_eq_some_iff.mp hs
    obtain ⟨line, hline, he⟩ := Option.map_eq_some_iff.mp hs
    cases he
    exact h.deliver hc hline hfit' now
  | cut =>
    cases hs
    exact ⟨hnext, h.primary, h.replica, h.key, fun c hc => by cases hc⟩
  | remove fd =>
    cases hs
    refine ⟨hnext, ⟨h.primary.unbounded, h.primary.appendOnly, h.primary.words, h.primary.complete,
      h.primary.recovered⟩, h.replica, h.key, fun c' hc' => ?_⟩
    obtain ⟨c, hc, rfl⟩ := Option.map_eq_some_iff.mp hc'
    obtain ⟨hlines, hsynced, hwhole⟩ := h.session c hc
    split
    · exact ⟨hlines, hsynced, hwhole⟩
    · exact ⟨hlines, hsynced, hwhole⟩
  | restartPrimary clock =>
    cases hs
    obtain ⟨hstart, hmap⟩ := h.primary.restart clock
    refine ⟨hnext, hstart, h.replica, fun hr => ?_, fun c' hc' => ?_⟩
    · exact hmap ▸ h.key hr
    · obtain ⟨c, hc, rfl⟩ := Option.map_eq_some_iff.mp hc'
      obtain ⟨hlines, hsynced, hwhole⟩ := h.session c hc
      exact ⟨fun hops => hmap ▸ hlines hops, hsynced, hwhole⟩
  | restartReplica clock =>
    cases hs
    obtain ⟨hstart, hmap⟩ := h.replica.restart clock
    exact ⟨hnext, h.primary, hstart, fun hr => h.key (hmap ▸ hr), fun c hc => by cases hc⟩

end

/-- **No deletion, no difference.** The primary starts on files of whole lines and the replica on
none, both append to their logs, and all pairs fit in lines. However often the connection breaks and
the nodes restart, a key whose deletion the primary has never accepted has the same value on both
nodes, or is missing on both, whenever nothing is in flight. -/
theorem undeleted_key_converges (clock clock' : Nat → Now) {disk : Disk} (hdisk : disk.Complete)
    {x : Bytes} {acts : List OutageAction}
    (hacts : outageMachine.Along (Undeleted x) (.start true clock disk true clock' .empty) acts)
    {s : Outages} {outs : List Unit}
    (hrun : outageMachine.run (.start true clock disk true clock' .empty) acts = some (s, outs))
    {c : Session} (hc : s.session = some c) (hregistered : c.registered = true)
    (htaken : c.taken = c.lines.length) : s.replica.map x = s.primary.map x := by
  have hempty : Disk.empty.Complete := ⟨[], fun _ h => (by cases h), rfl⟩
  have h : UndeletedInv x s := by
    refine Machine.run_invariant (fun _ _ _ _ h ha hs => undeletedInv_step h ha hs) hacts hrun ?_
    exact ⟨outageInv_start true clock disk true clock' .empty, recoverable_start clock hdisk,
      recoverable_start clock' hempty, fun hx => absurd rfl hx, fun c hc => by cases hc⟩
  obtain ⟨hr, hp⟩ := (h.outage.session c hc).drained hregistered htaken x
  rw [hr, hp]
  cases hsynced : c.synced x with
  | some v => rfl
  | none => rw [(h.session c hc).synced hsynced, Option.or_none]

theorem undeleted_key_converges_counter :
    ∃ s outs c,
      outageMachine.run (.start true (fun _ => .epoch) .empty true (fun _ => .epoch) .empty)
          outageRun = some (s, outs) ∧ s.session = some c ∧
      s.replica.map (ascii "k") = s.primary.map (ascii "k") := by
  have hend : (outageMachine.run
      (.start true (fun _ => .epoch) .empty true (fun _ => .epoch) .empty) outageRun).any
      (fun x => x.1.session.any (fun c => c.registered && c.taken = c.lines.length)) = true := by
    decide +kernel
  obtain ⟨⟨s, outs⟩, hrun, hsession⟩ := (Option.any_eq_true _ _).mp hend
  obtain ⟨c, hc, hdrained⟩ := (Option.any_eq_true _ _).mp hsession
  simp only [Bool.and_eq_true, decide_eq_true_eq] at hdrained
  exact ⟨s, outs, c, hrun, hc, undeleted_key_converges _ _ ⟨[], fun _ h => (by cases h), rfl⟩
    (by decide +kernel) hrun hc hdrained.1 hdrained.2⟩

end TinyKV

import TinyKV.Recovery
import TinyKV.Logging
import TinyKV.Reference

/-!
# Clients of a replica

A replica answers a write of a client with an error, before the command is executed
(`handleConnection` in `src/server_main.cpp`). What it has comes from its primary, by the apply
callback, and from its sweeper. So whatever its clients send, short of `REPLICAOF` and `SYNC`,
leaves no trace in the data, in the deadlines or in what its own replicas are sent.

* `replicaMachine`: a replica with clients, a link and a sweeper, a line at a time.
* `Alike`: two servers have the same map, the same TTL table and the same replica streams.
* `execute_congr`: a command gives the same reply and does the same on alike data.
* `client_lines_leave_no_trace`: a run and the run without its client lines end alike, and a write
  of a client gets the error.
-/

namespace TinyKV

open Cpp
open KVStore (counter)

/-! ## The machine -/

/-- The line is a write command. -/
def isWriteLine (line : Bytes) : Bool :=
  match parse line with
  | .error _ => false
  | .ok cmd => isWriteCommand cmd.type

theorem exists_of_isWriteLine {line : Bytes} (h : isWriteLine line = true) :
    ∃ cmd, parse line = .ok cmd ∧ isWriteCommand cmd.type = true ∧ cmd.type ≠ .SYNC ∧
      cmd.type ≠ .REPLICAOF := by
  unfold isWriteLine at h
  split at h
  · cases h
  · rename_i cmd hp
    refine ⟨cmd, hp, h, fun htype => ?_, fun htype => ?_⟩ <;> rw [htype] at h <;> cases h

/-- The line is `REPLICAOF` or `SYNC`. -/
def isReplicaOfOrSync (line : Bytes) : Bool :=
  match parse line with
  | .error _ => false
  | .ok cmd => cmd.type = .REPLICAOF || cmd.type = .SYNC

inductive ReplicaAction where
  /-- A line of the client on connection `fd`. -/
  | client (fd : Nat) (now : Now) (line : Line)
  /-- A line from the primary. -/
  | link (now : Now) (line : Line)
  /-- A pop of the sweeper. -/
  | sweep (now : Now) (e : HeapEntry)

namespace ReplicaAction

def isClient : ReplicaAction → Bool
  | .client _ _ _ => true
  | .link _ _ | .sweep _ _ => false

/-- A client sends a write command. -/
def isClientWrite : ReplicaAction → Bool
  | .client _ _ line => isWriteLine line.1
  | .link _ _ | .sweep _ _ => false

/-- The clients send neither `REPLICAOF` nor `SYNC`, and the primary sends write commands. -/
def Ordinary : ReplicaAction → Prop
  | .client _ _ line => isReplicaOfOrSync line.1 = false
  | .link _ line => isWriteLine line.1 = true
  | .sweep _ _ => True

instance : ∀ a, Decidable (Ordinary a)
  | .client _ _ line => inferInstanceAs (Decidable (isReplicaOfOrSync line.1 = false))
  | .link _ line => inferInstanceAs (Decidable (isWriteLine line.1 = true))
  | .sweep _ _ => inferInstanceAs (Decidable True)

end ReplicaAction

/-- A replica. The output is what a client is answered. -/
def replicaMachine : Machine Server ReplicaAction (Option Server.Response) where
  step s
    | .client fd now line =>
      some ((s.handleLine fd now line.1).1, some (s.handleLine fd now line.1).2)
    | .link now line => some (s.apply now line.1, none)
    | .sweep now e => (s.db.sweep now e).map fun db => ({ s with db := db }, none)

/-! ## Alike data -/

/-- Unbounded stores with the same map, and the same TTL table. -/
structure Db.Alike (db db' : Db) : Prop where
  unbounded : db.store.capacity = 0
  unbounded' : db'.store.capacity = 0
  lookup : db.store.lookup = db'.store.lookup
  expiry : db.expiry = db'.expiry

section

variable {w : Wiring} {db db' : Db} {now : Now} {cmd : Command}

/-- The reply and the TTL table after a command depend on the map and the TTL table only. -/
theorem execute_congr (hl : db.store.lookup = db'.store.lookup) (he : db.expiry = db'.expiry)
    (w : Wiring) (now : Now) (cmd : Command) :
    (execute w db now cmd).reply = (execute w db' now cmd).reply ∧
      (execute w db now cmd).db.expiry = (execute w db' now cmd).db.expiry := by
  have hinc : ∀ key delta,
      (incrementReply db key delta).reply = (incrementReply db' key delta).reply ∧
        (incrementReply db key delta).db.expiry = (incrementReply db' key delta).db.expiry := by
    intro key delta
    simp only [incrementReply, Store.incrementBy_eq, hl]
    cases counter (db'.store.lookup key) with
    | none => exact ⟨rfl, he⟩
    | some c => exact ⟨rfl, he⟩
  obtain ⟨type, name, args⟩ := cmd
  cases type with
  | SET | DEL | PING | TTL | EXPIRE | PERSIST | SAVE | REPLICAOF =>
    simp only [execute, Store.exists_eq, Store.del_fst, hl, he]
    repeat' split
    all_goals exact ⟨rfl, by first | rfl | exact he⟩
  | GET =>
    obtain _ | ⟨key, _ | ⟨_, _⟩⟩ := args
    · exact ⟨rfl, he⟩
    · rw [execute_get, execute_get, hl]
      exact ⟨rfl, he⟩
    · exact ⟨rfl, he⟩
  | INCR | DECR =>
    simp only [execute]
    split
    · exact hinc _ _
    · exact ⟨rfl, he⟩
  | SYNC | ROUTE | NODES | UNKNOWN => exact ⟨rfl, he⟩

theorem Db.Alike.refl (h : db.store.capacity = 0) : db.Alike db := ⟨h, h, rfl, rfl⟩

/-- A command on alike data. -/
theorem Db.Alike.execute (h : db.Alike db') (w : Wiring) (now : Now) (cmd : Command) :
    (execute w db now cmd).db.Alike (execute w db' now cmd).db where
  unbounded := by rw [execute_capacity, h.unbounded]
  unbounded' := by rw [execute_capacity, h.unbounded']
  lookup := by rw [execute_lookup h.unbounded, execute_lookup h.unbounded', h.lookup]
  expiry := (execute_congr h.lookup h.expiry w now cmd).2

/-- A command that is no write, on one of them. -/
theorem Db.Alike.execute_left (h : db.Alike db') (hread : isWriteCommand cmd.type = false) :
    (TinyKV.execute w db now cmd).db.Alike db' := by
  have hsame : (TinyKV.execute w db now cmd).db.store.lookup = db.store.lookup ∧
      (TinyKV.execute w db now cmd).db.expiry = db.expiry := by
    by_cases hget : cmd.type = .GET
    · obtain ⟨hlookup, hexpiry, -⟩ := same_of_get w db now hget
      exact ⟨hlookup, hexpiry⟩
    · have hlog : logged cmd (TinyKV.execute w db now cmd).reply = false := by
        rw [logged, hread, Bool.and_false]
      rw [execute_of_not_logged hlog hget]
      exact ⟨rfl, rfl⟩
  exact ⟨by rw [execute_capacity, h.unbounded], h.unbounded', hsame.1.trans h.lookup,
    hsame.2.trans h.expiry⟩

/-- A pop on alike data. -/
theorem Db.Alike.sweep (h : db.Alike db') {e : HeapEntry} {db₁ : Db}
    (hs : db.sweep now e = some db₁) : ∃ db₁', db'.sweep now e = some db₁' ∧ db₁.Alike db₁' := by
  obtain ⟨htop, hdue, hexpiry, hstore⟩ := sweep_spec hs
  have hs' : ∃ db₁', db'.sweep now e = some db₁' := by
    unfold Db.sweep
    rw [← h.expiry, if_pos ⟨htop, hdue⟩]
    split
    · exact ⟨_, rfl⟩
    · exact ⟨_, rfl⟩
  obtain ⟨db₁', hs'⟩ := hs'
  obtain ⟨-, -, hexpiry', hstore'⟩ := sweep_spec hs'
  rw [← h.expiry] at hstore' hexpiry'
  refine ⟨db₁', hs', ?_, ?_, ?_, by rw [hexpiry, hexpiry']⟩
  · rw [hstore]
    split
    · rw [Store.capacity_del, h.unbounded]
    · exact h.unbounded
  · rw [hstore']
    split
    · rw [Store.capacity_del, h.unbounded']
    · exact h.unbounded'
  · rw [hstore, hstore']
    split
    · rw [Store.lookup_del, Store.lookup_del, h.lookup]
    · exact h.lookup

end

/-! ## Alike replicas -/

/-- Two replicas with alike data and the same replica streams. -/
structure Server.Alike (s u : Server) : Prop where
  db : s.db.Alike u.db
  role : s.role = .REPLICA
  role' : u.role = .REPLICA
  replicaFds : s.replicaFds = u.replicaFds
  sent : s.sent = u.sent

section

variable {s u : Server} {fd : Nat} {now : Now} {line : Bytes} {cmd : Command}

/-- A command that is not `REPLICAOF` leaves the role and the streams. -/
theorem executeCommand_frame (s : Server) (now : Now) (h : cmd.type ≠ .REPLICAOF) :
    (s.executeCommand now cmd).1.role = s.role ∧
      (s.executeCommand now cmd).1.replicaFds = s.replicaFds ∧
      (s.executeCommand now cmd).1.sent = s.sent := by
  have hframe := Server.makeCall_replicas
    { s with db := (execute serverWiring s.db now cmd).db } (execute serverWiring s.db now cmd).call
  refine ⟨?_, hframe⟩
  by_cases hsave : cmd.type = .SAVE
  · obtain ⟨type, name, args⟩ := cmd
    obtain rfl : type = .SAVE := hsave
    cases args <;> rfl
  · rw [s.executeCommand_of_no_call (execute_call_eq_none hsave h)]

/-- A write of a client is answered with the error. -/
theorem handleLine_write (hrole : s.role = .REPLICA) (hwrite : isWriteLine line = true) :
    s.handleLine fd now line = (s, .reply Reply.readOnlyError) := by
  obtain ⟨cmd, hp, hw, hsync, -⟩ := exists_of_isWriteLine hwrite
  rw [s.handleLine_of_parse hp, if_neg hsync, if_pos (by simp [hw, hrole])]

/-- What an ordinary line of a client does: nothing, or a command that is no write. -/
theorem handleLine_ordinary (fd : Nat) (now : Now) (hrole : s.role = .REPLICA)
    (hline : isReplicaOfOrSync line = false) :
    (s.handleLine fd now line).1 = s ∨
      ∃ cmd, isWriteCommand cmd.type = false ∧ cmd.type ≠ .REPLICAOF ∧
        (s.handleLine fd now line).1 = (s.executeCommand now cmd).1 := by
  cases hp : parse line with
  | error e =>
    left
    rw [Server.handleLine, hp]
    split <;> rfl
  | ok cmd =>
    simp only [isReplicaOfOrSync, hp, Bool.or_eq_false_iff, decide_eq_false_iff_not] at hline
    rw [s.handleLine_of_parse hp, if_neg hline.2]
    split
    · exact .inl rfl
    · rename_i hro
      have hread : isWriteCommand cmd.type = false := by simpa [hrole] using hro
      refine .inr ⟨cmd, hread, hline.1, if_neg ?_⟩
      rw [logged, hread, Bool.and_false]
      exact Bool.false_ne_true

theorem Server.Alike.client (h : s.Alike u) (hline : isReplicaOfOrSync line = false) :
    (s.handleLine fd now line).1.Alike u := by
  obtain hs | ⟨cmd, hread, hrep, hs⟩ := handleLine_ordinary fd now h.role hline
  · rw [hs]
    exact h
  · obtain ⟨hrole, hfds, hsent⟩ := executeCommand_frame s now hrep
    rw [hs]
    refine ⟨?_, hrole.trans h.role, h.role', hfds.trans h.replicaFds, hsent.trans h.sent⟩
    rw [Server.executeCommand_db]
    exact h.db.execute_left hread

/-- A write that comes from the primary. -/
theorem apply_of_write (s : Server) (now : Now) (hp : parse line = .ok cmd)
    (hwrite : isWriteCommand cmd.type = true) :
    s.apply now line =
      ({ s with db := (execute serverWiring s.db now cmd).db } : Server).recordAndPropagateIfWrite
        cmd line (execute serverWiring s.db now cmd).reply := by
  rw [← s.executeCommand_of_no_call (execute_call_of_write hwrite), Server.apply, hp]
  rfl

/-- A line of the primary on alike replicas. -/
theorem Server.Alike.link (h : s.Alike u) (hline : isWriteLine line = true) :
    (s.apply now line).Alike (u.apply now line) := by
  obtain ⟨cmd, hp, hwrite, -, -⟩ := exists_of_isWriteLine hline
  have hreply := (execute_congr h.db.lookup h.db.expiry serverWiring now cmd).1
  have hdb := h.db.execute serverWiring now cmd
  rw [apply_of_write s now hp hwrite, apply_of_write u now hp hwrite, hreply]
  unfold Server.recordAndPropagateIfWrite
  split
  · refine ⟨hdb, h.role, h.role', h.replicaFds, ?_⟩
    show s.replicaFds.foldl _ s.sent = u.replicaFds.foldl _ u.sent
    rw [h.replicaFds, h.sent]
  · exact ⟨hdb, h.role, h.role', h.replicaFds, h.sent⟩

theorem Server.Alike.sweep (h : s.Alike u) {e : HeapEntry} {db : Db}
    (hs : s.db.sweep now e = some db) :
    ∃ db', u.db.sweep now e = some db' ∧
      ({ s with db := db } : Server).Alike { u with db := db' } := by
  obtain ⟨db', hs', hdb⟩ := h.db.sweep hs
  exact ⟨db', hs', hdb, h.role, h.role', h.replicaFds, h.sent⟩

end

/-! ## Runs -/

/-- A replica stays one. -/
theorem role_step {s s' : Server} {a : ReplicaAction} {o : Option Server.Response}
    (hrole : s.role = .REPLICA) (hord : a.Ordinary)
    (hs : replicaMachine.step s a = some (s', o)) : s'.role = .REPLICA := by
  cases a with
  | client fd now line =>
    cases hs
    obtain hs | ⟨cmd, -, hrep, hs⟩ := handleLine_ordinary fd now hrole hord
    · rw [hs, hrole]
    · rw [hs, (executeCommand_frame _ _ hrep).1, hrole]
  | link now line =>
    cases hs
    obtain ⟨cmd, hp, -, -, hrep⟩ := exists_of_isWriteLine hord
    rw [Server.apply, hp]
    exact (Server.recordAndPropagateIfWrite_role _ _ _ _).trans
      ((executeCommand_frame _ _ hrep).1.trans hrole)
  | sweep now e =>
    obtain ⟨db, -, heq⟩ := Option.map_eq_some_iff.mp hs
    cases heq
    exact hrole

/-- The answers to the writes of the clients. -/
theorem clientWrites_refused {s t : Server} (hrole : s.role = .REPLICA)
    {acts : List ReplicaAction} (hacts : ∀ a ∈ acts, a.Ordinary)
    {outs : List (Option Server.Response)} (hrun : replicaMachine.run s acts = some (t, outs)) :
    ∀ a o, (a, o) ∈ acts.zip outs → a.isClientWrite = true →
      o = some (.reply Reply.readOnlyError) := by
  induction acts generalizing s outs with
  | nil =>
    intro a o hm
    cases hm
  | cons a acts ih =>
    obtain ⟨s', o, outs, hs, hrest, rfl⟩ := Machine.run_cons.mp hrun
    intro a' o' hm hwrite
    obtain heq | hm := List.mem_cons.mp hm
    · cases heq
      cases a with
      | client fd now line =>
        cases hs
        rw [handleLine_write hrole hwrite]
      | link now line => cases hwrite
      | sweep now e => cases hwrite
    · exact ih (role_step hrole (hacts a List.mem_cons_self) hs)
        (fun a ha => hacts a (List.mem_cons_of_mem _ ha)) hrest a' o' hm hwrite

/-- A client line leaves no trace. -/
theorem alike_clientStep (s u : Server) (a : ReplicaAction) (s' : Server)
    (o : Option Server.Response) (h : s.Alike u) (hord : a.Ordinary) (hclient : a.isClient = true)
    (hs : replicaMachine.step s a = some (s', o)) : s'.Alike u := by
  cases a with
  | client fd now line =>
    cases hs
    exact h.client hord
  | link now line => cases hclient
  | sweep now e => cases hclient

/-- The link and the sweeper do the same on alike replicas. -/
theorem alike_otherStep (s u : Server) (a : ReplicaAction) (s' : Server)
    (o : Option Server.Response) (h : s.Alike u) (hord : a.Ordinary) (hclient : a.isClient = false)
    (hs : replicaMachine.step s a = some (s', o)) :
    ∃ u', replicaMachine.step u a = some (u', o) ∧ s'.Alike u' := by
  cases a with
  | client fd now line => cases hclient
  | link now line =>
    cases hs
    exact ⟨_, rfl, h.link hord⟩
  | sweep now e =>
    obtain ⟨db, hdb, heq⟩ := Option.map_eq_some_iff.mp hs
    cases heq
    obtain ⟨db', hdb', hu⟩ := h.sweep hdb
    exact ⟨_, by simp only [replicaMachine, hdb', Option.map_some], hu⟩

/-- **Clients of a replica.** A run of an unbounded replica, whose clients send neither `REPLICAOF`
nor `SYNC`, ends with the same map, live deadlines and propagated lines if its client lines are
taken out. Every write of a client is answered with the error. -/
theorem client_lines_leave_no_trace (s t : Server) (acts : List ReplicaAction)
    (outs : List (Option Server.Response)) (hrole : s.role = .REPLICA)
    (hc : s.db.store.capacity = 0) (hacts : ∀ a ∈ acts, a.Ordinary)
    (hrun : replicaMachine.run s acts = some (t, outs)) :
    (∃ t' outs', replicaMachine.run s (acts.filter fun a => !a.isClient) = some (t', outs') ∧
      t'.db.store.lookup = t.db.store.lookup ∧
      t'.db.expiry.currentExpiry = t.db.expiry.currentExpiry ∧ t'.sent = t.sent) ∧
    ∀ a o, (a, o) ∈ acts.zip outs → a.isClientWrite = true →
      o = some (.reply Reply.readOnlyError) := by
  refine ⟨?_, clientWrites_refused hrole hacts hrun⟩
  have herase := Machine.run_erase alike_clientStep alike_otherStep hacts hrun
    ⟨.refl hc, hrole, hrole, rfl, rfl⟩
  obtain ⟨t', outs', hrun', h⟩ := herase
  exact ⟨t', outs', hrun', h.db.lookup.symm, by rw [h.db.expiry], h.sent.symm⟩

/-- A replica with a key that its client reads, writes and saves, while the primary writes. -/
def clientsBesideLink : List ReplicaAction :=
  [.link .epoch (.ofText "SET k 1"), .client 5 .epoch (.ofText "SET k 2"),
    .client 5 .epoch (.ofText "GET k"), .client 6 .epoch (.ofText "SAVE"),
    .link .epoch (.ofText "INCR k")]

/-- A replica of a primary, that a replica of its own has attached to. -/
def replicaWithReplica : Server := { freshServer with role := .REPLICA, replicaFds := [9] }

theorem client_lines_leave_no_trace_clientsBesideLink :
    ∃ t outs, replicaMachine.run replicaWithReplica clientsBesideLink = some (t, outs) ∧
      t.db.store.lookup (ascii "k") = some (ascii "2") ∧
      t.sent 9 = [ascii "SET k 1", ascii "INCR k"] ∧
      (some (Server.Response.reply Reply.readOnlyError)) ∈ outs ∧
      ∃ t' outs', replicaMachine.run replicaWithReplica
          (clientsBesideLink.filter fun a => !a.isClient) = some (t', outs') ∧
        t'.db.store.lookup = t.db.store.lookup ∧ t'.sent = t.sent := by
  refine ⟨_, _, rfl, by decide +kernel, by decide +kernel, by decide +kernel, ?_⟩
  obtain ⟨⟨t', outs', hrun, hlookup, -, hsent⟩, -⟩ :=
    client_lines_leave_no_trace replicaWithReplica _ clientsBesideLink _ rfl (by decide +kernel)
      (by decide +kernel) rfl
  exact ⟨t', outs', hrun, hlookup, hsent⟩

end TinyKV

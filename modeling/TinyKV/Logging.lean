import TinyKV.Server

/-!
# A write is logged exactly when it took effect

`recordAndPropagateIfWrite` in `src/server_main.cpp` does not look at the data. It records a line
and sends it on if the reply of its command does not start with `-` and the command is a write
command. `CommandExecutor::execute` makes this the right test: it fails before it changes anything,
and the commands that are no writes change no data.

* `execute_of_not_logged`: a command that is not logged leaves the data as it was. `GET` is apart,
  for it moves its key to the front.
* `logged_when_changed`: a failed command and a command that is no write leave the map and the live
  deadlines as they were; a command that changed one of them is a write that did not fail, and its
  line is appended to the file and sent to every replica. The store may have any capacity.
-/

namespace TinyKV

/-- `GET` of a key that is there. -/
def Db.getHit (db : Db) (cmd : Command) : Bool :=
  match cmd.type, cmd.args with
  | .GET, [key] => db.store.exists key
  | _, _ => false

section

variable {w : Wiring} {db : Db} {now : Now} {cmd : Command}

/-- `INCR` and `DECR` fail before they change anything. -/
theorem incrementReply_of_failed {key : Bytes} {delta : Int}
    (h : succeeded (incrementReply db key delta).reply = false) :
    (incrementReply db key delta).db = db := by
  unfold incrementReply at h ⊢
  split at h
  · cases h
  · rfl

/-- A command that is not logged changes nothing, if it is not `GET`. -/
theorem execute_of_not_logged (h : logged cmd (execute w db now cmd).reply = false)
    (hget : cmd.type ≠ .GET) : (execute w db now cmd).db = db := by
  obtain ⟨type, name, args⟩ := cmd
  cases type with
  | GET => exact absurd rfl hget
  | SET | DEL | EXPIRE | PERSIST =>
    revert h
    simp only [execute]
    repeat' split
    all_goals intro h
    all_goals first
      | rfl
      | cases h -- The reply is `+OK` or an integer.
  | INCR | DECR =>
    rw [logged, show isWriteCommand _ = true from rfl, Bool.and_true] at h
    revert h
    simp only [execute]
    split
    · exact incrementReply_of_failed
    · exact fun _ => rfl
  | PING | TTL | SAVE | REPLICAOF =>
    simp only [execute]
    repeat' split
    all_goals rfl
  | SYNC | ROUTE | NODES | UNKNOWN => rfl

/-- What `GET` leaves as it was. -/
theorem same_of_get (w : Wiring) (db : Db) (now : Now) (hget : cmd.type = .GET) :
    (execute w db now cmd).db.store.lookup = db.store.lookup ∧
    (execute w db now cmd).db.expiry = db.expiry ∧
    (db.getHit cmd = false → (execute w db now cmd).db.store.entries = db.store.entries) := by
  obtain ⟨type, name, args⟩ := cmd
  obtain rfl : type = .GET := hget
  obtain _ | ⟨key, _ | ⟨_, _⟩⟩ := args
  · exact ⟨rfl, rfl, fun _ => rfl⟩
  · rw [execute_get]
    refine ⟨db.store.lookup_get key, rfl, fun hmiss => ?_⟩
    have hnone : db.store.lookup key = none := by
      simpa [Db.getHit] using hmiss
    show (db.store.get key).2.entries = db.store.entries
    rw [db.store.entries_get, hnone]
  · exact ⟨rfl, rfl, fun _ => rfl⟩

/-- A command that is not logged leaves the map and the deadlines as they were, and the order of
the pairs if it is no hit. -/
theorem same_of_not_logged (h : logged cmd (execute w db now cmd).reply = false) :
    (execute w db now cmd).db.store.lookup = db.store.lookup ∧
    (execute w db now cmd).db.expiry.currentExpiry = db.expiry.currentExpiry ∧
    (db.getHit cmd = false → (execute w db now cmd).db.store.entries = db.store.entries) := by
  by_cases hget : cmd.type = .GET
  · obtain ⟨hlookup, hexpiry, hentries⟩ := same_of_get w db now hget
    exact ⟨hlookup, by rw [hexpiry], hentries⟩
  · rw [execute_of_not_logged h hget]
    exact ⟨rfl, rfl, fun _ => rfl⟩

/-- What a line that is logged leaves in the append-only file and on the replica connections. -/
theorem recordWrite_propagate (s : Server) (line : Bytes) :
    ((s.recordWrite line).propagate line).disk.aof =
        (if s.appendOnly then s.disk.aof ++ line ++ [newline] else s.disk.aof) ∧
      ∀ fd, ((s.recordWrite line).propagate line).sent fd =
        s.sent fd ++ List.replicate (s.replicaFds.count fd) line := by
  refine ⟨?_, (s.recordWrite line).propagate_sent line⟩
  show (PersistenceManager.recordWrite s.appendOnly s.disk line).aof = _
  unfold PersistenceManager.recordWrite
  cases s.appendOnly <;> rfl

theorem logged_iff {response : Bytes} :
    logged cmd response = true ↔
      response ≠ [] ∧ response.head? ≠ some 45 ∧ isWriteCommand cmd.type = true := by
  simp [logged, succeeded, and_assoc]

end

/-- **A write is logged when it took effect.** A command whose reply starts with `-`, or that is no
write command, leaves the map and the live deadlines as they were, and the order of the pairs too
unless it is a `GET` that hits. A command that changed the map or a live deadline is a write
command whose reply does not start with `-`: its line is recorded and propagated, which appends it
to the append-only file if there is one, and puts it on each replica connection once for each time
that the connection is registered. -/
theorem logged_when_changed (w : Wiring) (db : Db) (now : Now) (cmd : Command) :
    ((execute w db now cmd).reply.head? = some 45 ∨ isWriteCommand cmd.type = false →
      (execute w db now cmd).db.store.lookup = db.store.lookup ∧
      (execute w db now cmd).db.expiry.currentExpiry = db.expiry.currentExpiry ∧
      (db.getHit cmd = false →
        (execute w db now cmd).db.store.entries = db.store.entries)) ∧
    ((execute w db now cmd).db.store.lookup ≠ db.store.lookup ∨
        (execute w db now cmd).db.expiry.currentExpiry ≠ db.expiry.currentExpiry →
      (execute w db now cmd).reply.head? ≠ some 45 ∧ isWriteCommand cmd.type = true ∧
      ∀ (s : Server) (line : Bytes),
        let s' := s.recordAndPropagateIfWrite cmd line (execute w db now cmd).reply
        s' = (s.recordWrite line).propagate line ∧
        s'.disk.aof = (if s.appendOnly then s.disk.aof ++ line ++ [newline] else s.disk.aof) ∧
        ∀ fd, s'.sent fd = s.sent fd ++ List.replicate (s.replicaFds.count fd) line) := by
  constructor
  · intro h
    refine same_of_not_logged (Bool.eq_false_iff.mpr fun hlog => ?_)
    obtain ⟨-, hok, hwrite⟩ := logged_iff.mp hlog
    obtain herr | hread := h
    · exact hok herr
    · rw [hread] at hwrite
      cases hwrite
  · intro hchanged
    have hlog : logged cmd (execute w db now cmd).reply = true := by
      by_contra hn
      obtain ⟨hlookup, hexpiry, -⟩ := same_of_not_logged (Bool.eq_false_iff.mpr hn)
      exact hchanged.elim (absurd hlookup) (absurd hexpiry)
    obtain ⟨-, hok, hwrite⟩ := logged_iff.mp hlog
    refine ⟨hok, hwrite, fun s line => ?_⟩
    have hs : s.recordAndPropagateIfWrite cmd line (execute w db now cmd).reply =
        (s.recordWrite line).propagate line := if_pos hlog
    intro s'
    rw [show s' = (s.recordWrite line).propagate line from hs]
    exact ⟨rfl, recordWrite_propagate s line⟩

end TinyKV

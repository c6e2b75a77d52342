import TinyKV.Lifetime
import TinyKV.Counter

/-!
# The deadline of an accepted TTL

`SET key value EX seconds` and `EXPIRE key seconds` check that the seconds are a positive
`long long`. The deadline is then formed in nanoseconds, in the 64-bit count of `steady_clock`, and
nothing checks that it fits.

* `Command.ttl`: the key and the seconds of a command that asks for a TTL with seconds that
  `parsePositiveSeconds` accepts.
* `Honoured`: the deadline is the given time, a `TTL` shows at most the seconds that were given, and
  the sweeper does not take the key before.
* `accepted_ttl_iff`: the command is rejected or honoured exactly if the deadline fits in the type,
  or `EXPIRE` finds no key.
-/

namespace TinyKV

open Cpp

/-- The key and the seconds of a command that asks for a TTL. -/
def Command.ttl (cmd : Command) : Option (Bytes × Int) :=
  match cmd.type, cmd.args with
  | .SET, [key, _, opt, secs] =>
    if equalsIgnoreCase opt (ascii "EX") then (parsePositiveSeconds secs).map fun s => (key, s)
    else none
  | .EXPIRE, [key, secs] => (parsePositiveSeconds secs).map fun s => (key, s)
  | _, _ => none

/-- The action is no write of `key`, and no pop at `t` or later. -/
def Action.before (key : Bytes) (t : Int) : Action → Prop
  | .exec _ cmd => ¬ (isWriteCommand cmd.type = true ∧ cmd.args.head? = some key)
  | .sweep now _ => now.ns < t

/-- The TTL of `s` seconds that `key` was given at `now`, where `db` is the data after the
command. -/
structure Honoured (w : Wiring) (db : Db) (now : Now) (key : Bytes) (s : Int) : Prop where
  deadline : db.expiry.expiryOf key = some (now.ns + s * 10 ^ 9)
  noWrap : IsInt64 (s * 10 ^ 9) ∧ IsInt64 (now.ns + s * 10 ^ 9)
  later : now.ns < now.ns + s * 10 ^ 9
  /-- A `TTL` that comes next. -/
  shown : ∀ (now' : Now) name, now.ns ≤ now'.ns →
    ∃ n, 0 ≤ n ∧ n ≤ s ∧ (execute w db now' ⟨.TTL, name, [key]⟩).reply = Reply.integer n
  /-- Before its time the deadline stays and no pop takes the key. -/
  kept : ∀ acts db' outs, (∀ a ∈ acts, a.before key (now.ns + s * 10 ^ 9)) →
    (dbMachine w).run db acts = some (db', outs) →
    db'.expiry.expiryOf key = some (now.ns + s * 10 ^ 9) ∧
      ∀ (now' : Now) e db'', now'.ns < now.ns + s * 10 ^ 9 → db'.sweep now' e = some db'' →
        db''.store.lookup key = db'.store.lookup key

section

variable {w : Wiring} {db : Db} {now : Now} {cmd : Command} {key : Bytes} {s : Int}

/-- What a command that asks for a TTL does. -/
theorem execute_ttl (w : Wiring) (db : Db) (now : Now) (h : cmd.ttl = some (key, s)) :
    0 < s ∧ (((execute w db now cmd).db = db ∧ cmd.type = .EXPIRE ∧ db.store.lookup key = none) ∨
      ((execute w db now cmd).db.expiry = db.expiry.schedule key (TinyKV.deadline now s) ∧
        ((execute w db now cmd).db.store.lookup key).isSome = true ∧
        ¬ (cmd.type = .EXPIRE ∧ db.store.lookup key = none))) := by
  obtain ⟨type, name, args⟩ := cmd
  unfold Command.ttl at h
  split at h
  · rename_i value opt secs ht ha
    simp only at ht ha
    subst ht ha
    split at h
    · rename_i hopt
      obtain ⟨s', hs, he⟩ := Option.map_eq_some_iff.mp h
      cases he
      refine ⟨pos_of_parsePositiveSeconds hs, .inr ?_⟩
      simp only [execute, hopt, hs, if_true]
      refine ⟨trivial, ?_, by simp⟩
      rw [lookup_set_self]
      rfl
    · cases h
  · rename_i secs ht ha
    simp only at ht ha
    subst ht ha
    obtain ⟨s', hs, he⟩ := Option.map_eq_some_iff.mp h
    cases he
    refine ⟨pos_of_parsePositiveSeconds hs, ?_⟩
    cases hv : db.store.lookup key with
    | none => exact .inl ⟨by simp [execute, hv], rfl, rfl⟩
    | some v => exact .inr (by simp [execute, hv, hs])
  · cases h

/-- A command that is no write leaves a cell as it is. -/
theorem exec_of_not_write (h : isWriteCommand cmd.type = false) (x : Cell) :
    (x.exec now cmd).1 = x := by
  obtain ⟨type, name, args⟩ := cmd
  cases type with
  | SET | DEL | INCR | DECR | EXPIRE | PERSIST => cases h
  | GET | TTL => rcases args with _ | ⟨_, _ | ⟨_, _⟩⟩ <;> rfl
  | PING | SAVE | REPLICAOF | SYNC | ROUTE | NODES | UNKNOWN => rcases args with _ | ⟨_, _⟩ <;> rfl

/-- Only a write of the key changes its deadline. -/
theorem expiryOf_execute (h : ¬ (isWriteCommand cmd.type = true ∧ cmd.args.head? = some key)) :
    (execute w db now cmd).db.expiry.expiryOf key = db.expiry.expiryOf key := by
  by_cases hcmd : IsKeyCommand cmd.type = true ∧ ∃ k, cmd.args.head? = some k
  · obtain ⟨hk, k, hhead⟩ := hcmd
    have hact : ActsOnLru k w db now cmd := execute_cell_lru hk hhead
    by_cases hkey : key = k
    · subst hkey
      have hread : isWriteCommand cmd.type = false := by simpa [hhead] using h
      exact congrArg Cell.deadline (hact.cell.trans (exec_of_not_write hread _))
    · have hcell := congrArg Cell.deadline (hact.others key hkey)
      refine hcell.trans ?_
      split <;> rfl
  · rw [execute_db_of_no_key hcmd]

/-- A run without writes of the key, and without pops at the deadline or later, keeps the
deadline. -/
theorem expiryOf_of_before {t : Int} {acts : List Action} {db' : Db} {outs : List (Option Bytes)}
    (hacts : ∀ a ∈ acts, a.before key t) (hrun : (dbMachine w).run db acts = some (db', outs))
    (h : db.expiry.expiryOf key = some t) : db'.expiry.expiryOf key = some t := by
  refine Machine.run_invariant (I := fun db => db.expiry.expiryOf key = some t)
    (C := fun _ a => a.before key t) (fun db a db' o h hb hs => ?_)
    (Machine.along_of_forall hacts db) hrun h
  cases a with
  | exec now cmd =>
    cases hs
    exact (expiryOf_execute hb).trans h
  | sweep now e =>
    obtain ⟨db₁, hdb, heq⟩ := Option.map_eq_some_iff.mp hs
    cases heq
    obtain ⟨-, hdue, hexpiry, -⟩ := sweep_spec hdb
    rw [hexpiry, (db.expiry.popTop_spec e).2, if_neg, h]
    -- The entry is due, the deadline of the key is not.
    rintro ⟨hlive, rfl⟩
    rw [h] at hlive
    cases hlive
    exact absurd hdue (Int.not_le.mpr hb)

/-- A pop before the deadline does not take the key. -/
theorem lookup_of_before {t : Int} (h : db.expiry.expiryOf key = some t) (hnow : now.ns < t)
    {e : HeapEntry} {db' : Db} (hs : db.sweep now e = some db') :
    db'.store.lookup key = db.store.lookup key := by
  obtain ⟨-, hdue, -, hstore⟩ := sweep_spec hs
  rw [hstore]
  split
  · rename_i hlive
    rw [Store.lookup_del, Function.update_of_ne]
    rintro rfl
    rw [h] at hlive
    cases hlive
    exact absurd hdue (Int.not_le.mpr hnow)
  · rfl

/-- What is shown of a deadline `s` seconds ahead. -/
theorem remaining_of_deadline (hs : 0 < s) (hr : now.ns + s * 10 ^ 9 < 2 ^ 63) {now' : Now}
    (hle : now.ns ≤ now'.ns) :
    0 ≤ remaining (now.ns + s * 10 ^ 9) now' ∧ remaining (now.ns + s * 10 ^ 9) now' ≤ s := by
  have hnow := now.isInt64
  rw [remaining_eq ⟨by omega, hr⟩]
  omega

/-- A deadline that fits is honoured. -/
theorem honoured_of_fits (hs : 0 < s) (hr : now.ns + s * 10 ^ 9 < 2 ^ 63)
    (hexpiry : db.expiry.expiryOf key = some (now.ns + s * 10 ^ 9))
    (hkey : (db.store.lookup key).isSome = true) : Honoured w db now key s where
  deadline := hexpiry
  noWrap := by
    have hnow := now.isInt64
    unfold IsInt64
    omega
  later := by omega
  shown now' name hle := by
    obtain ⟨h0, hle⟩ := remaining_of_deadline hs hr hle
    exact ⟨_, h0, hle, by simp [execute, hkey, hexpiry]⟩
  kept acts db' outs hacts hrun := by
    have hdeadline := expiryOf_of_before hacts hrun hexpiry
    exact ⟨hdeadline, fun now' e db'' hnow hsweep => lookup_of_before hdeadline hnow hsweep⟩

end

/-- **Accepted TTLs.** A command that asks for a TTL with seconds that are accepted is rejected,
with the data as they were, or honoured; exactly if the deadline fits in the 64-bit clock or
`EXPIRE` finds no key. -/
theorem accepted_ttl_iff (w : Wiring) (db : Db) (now : Now) (cmd : Command) (key : Bytes) (s : Int)
    (h : cmd.ttl = some (key, s)) :
    ((execute w db now cmd).db = db ∨ Honoured w (execute w db now cmd).db now key s) ↔
      now.ns + s * 10 ^ 9 < 2 ^ 63 ∨ (cmd.type = .EXPIRE ∧ db.store.lookup key = none) := by
  obtain ⟨hs, hcases⟩ := execute_ttl w db now h
  obtain ⟨hdb, habsent⟩ | ⟨hexpiry, hkey, hpresent⟩ := hcases
  · exact iff_of_true (.inl hdb) (.inr habsent)
  · have hset : (execute w db now cmd).db.expiry.expiryOf key = some (deadline now s) := by
      rw [hexpiry, ExpiryManager.expiryOf_schedule, if_pos rfl]
    rw [or_iff_left hpresent]
    constructor
    · rintro (hdb | hhonoured)
      · -- The heap has one more entry.
        have hheap := congrArg (fun d => d.expiry.heap.length) hdb
        simp [hexpiry, ExpiryManager.schedule] at hheap
      · -- The deadline that was set is what the register keeps.
        have heq := Option.some.inj (hset.symm.trans hhonoured.deadline)
        rw [← heq]
        exact (isInt64_wrap64 _).2
    · intro hr
      have hnow := now.isInt64
      rw [deadline_eq ⟨by omega, hr⟩] at hset
      exact .inr (honoured_of_fits hs hr hset hkey)

/-- `SET k v EX seconds`. -/
def setForSeconds (seconds : String) : Command :=
  ⟨.SET, ascii "SET", [ascii "k", ascii "v", ascii "EX", ascii seconds]⟩

theorem accepted_ttl_iff_tenSeconds :
    (execute ⟨true, true⟩ (Db.empty 0) .epoch (setForSeconds "10")).db = Db.empty 0 ∨
      Honoured ⟨true, true⟩ (execute ⟨true, true⟩ (Db.empty 0) .epoch (setForSeconds "10")).db
        .epoch (ascii "k") 10 :=
  (accepted_ttl_iff ⟨true, true⟩ (Db.empty 0) .epoch (setForSeconds "10") (ascii "k") 10
    (by decide)).mpr (.inl (by decide))

/-- With the greatest number of seconds the deadline is a second ago. -/
theorem not_accepted_ttl_greatestSeconds :
    ¬ ∀ (w : Wiring) (db : Db) (now : Now) (cmd : Command) (key : Bytes) (s : Int),
      cmd.ttl = some (key, s) →
      (execute w db now cmd).db = db ∨ Honoured w (execute w db now cmd).db now key s := by
  intro h
  have hset : (execute ⟨true, true⟩ (Db.empty 0) .tenSeconds
      (setForSeconds "9223372036854775807")).db.expiry.expiryOf (ascii "k") =
        some (9 * 10 ^ 9) := by decide +kernel
  obtain hdb | hhonoured := h ⟨true, true⟩ (Db.empty 0) .tenSeconds
    (setForSeconds "9223372036854775807") (ascii "k") (2 ^ 63 - 1) (by decide +kernel)
  · rw [hdb] at hset
    cases hset
  · have heq := Option.some.inj (hset.symm.trans hhonoured.deadline)
    revert heq
    decide

end TinyKV

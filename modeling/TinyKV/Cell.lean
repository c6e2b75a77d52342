import TinyKV.Effect

/-!
# One key at a time

A command on a key reads and changes what the store and the TTL table say of that key. `Cell` is
what they say of one key, and `Cell.exec` is a command on a cell.

* `execute_cell_lru`: on a store of any capacity `execute` is `Cell.exec` at the key of the command.
  A key that gives way (`Db.evictee`) loses its value and keeps its deadline; the other cells stay.
* `execute_cell`: on an unbounded store no key gives way.
* `Cell.Ok`: a key that is not there has no deadline. `Cell.exec` keeps this.
-/

namespace TinyKV

open Cpp Recency
open KVStore (counter)

/-- The value of a key and its deadline. -/
@[ext]
structure Cell where
  value : Option Bytes
  deadline : Option Int

def Db.cell (db : Db) (key : Bytes) : Cell := ⟨db.store.lookup key, db.expiry.expiryOf key⟩

/-- The commands whose first argument is the key that they work on. -/
def IsKeyCommand : CommandType → Bool
  | .SET | .GET | .DEL | .INCR | .DECR | .TTL | .EXPIRE | .PERSIST => true
  | _ => false

namespace Cell

/-- `INCR` and `DECR`: the deadline stays. -/
def bump (x : Cell) (delta : Int) : Cell × Bytes :=
  match counter x.value with
  | none => (x, Reply.error (ascii "value is not an integer or out of range"))
  | some c =>
    ({ x with value := some (to_string (wrap64 (c + delta))) }, Reply.integer (wrap64 (c + delta)))

/-- A command on the cell of its key, with the reply. -/
def exec (x : Cell) (now : Now) (cmd : Command) : Cell × Bytes :=
  match cmd.type, cmd.args with
  | .SET, [_, value] => (⟨some value, none⟩, Reply.ok)
  | .SET, [_, value, opt, secs] =>
    if equalsIgnoreCase opt (ascii "EX") then
      match parsePositiveSeconds secs with
      | none => (x, Reply.error (ascii "invalid expire time in 'SET' command"))
      | some s => (⟨some value, some (TinyKV.deadline now s)⟩, Reply.ok)
    else (x, arityError cmd)
  | .GET, [_] =>
    (x, match x.value with
      | none => Reply.nil
      | some value => Reply.bulk value)
  | .DEL, [_] => (⟨none, none⟩, Reply.integer (if x.value.isSome then 1 else 0))
  | .INCR, [_] => x.bump 1
  | .DECR, [_] => x.bump (-1)
  | .TTL, [_] =>
    (x, Reply.integer (match x.value, x.deadline with
      | none, _ => -2
      | some _, none => -1
      | some _, some d => remaining d now))
  | .EXPIRE, [_, secs] =>
    match x.value with
    | none => (x, Reply.integer 0)
    | some _ =>
      match parsePositiveSeconds secs with
      | none => (x, Reply.error (ascii "value is not an integer or out of range"))
      | some s => ({ x with deadline := some (TinyKV.deadline now s) }, Reply.integer 1)
  | .PERSIST, [_] =>
    match x.value with
    | none => (x, Reply.integer 0)
    | some _ => ({ x with deadline := none }, Reply.integer (if x.deadline.isSome then 1 else 0))
  | _, _ => (x, arityError cmd)

end Cell

/-- A key that is not there has no deadline. -/
def Cell.Ok (x : Cell) : Prop := x.value = none → x.deadline = none

theorem ok_exec {x : Cell} (h : x.Ok) (now : Now) (cmd : Command) : (x.exec now cmd).1.Ok := by
  have hbump : ∀ delta, (x.bump delta).1.Ok := fun delta => by
    unfold Cell.bump
    split
    · exact h
    · exact fun hv => by cases hv
  unfold Cell.exec
  repeat' split
  all_goals first
    | exact h
    | exact hbump _
    | exact fun _ => rfl
    | exact fun hv => (by cases hv)
    | exact fun hv => (by simp_all)

/-! ## Commands and cells -/

/-- The key that gives way to the key of the command. -/
def Db.evictee (db : Db) (cmd : Command) : Option Bytes :=
  match cmd.effect with
  | none | some (_, .assign none) => none
  | some (key, _) => evicted db.store.capacity key db.store.entries

/-- A command with an effect is a command on that key. -/
theorem key_of_effect {cmd : Command} {key : Bytes} {op : KeyOp}
    (h : cmd.effect = some (key, op)) :
    IsKeyCommand cmd.type = true ∧ cmd.args.head? = some key := by
  obtain ⟨type, name, args⟩ := cmd
  cases type with
  | SET =>
    match args with
    | [_, _] =>
      cases h
      exact ⟨rfl, rfl⟩
    | [_, _, opt, secs] =>
      simp only [Command.effect] at h
      split at h
      · cases h
        exact ⟨rfl, rfl⟩
      · cases h
    | [] | [_] | [_, _, _] | _ :: _ :: _ :: _ :: _ :: _ => cases h
  | DEL | INCR | DECR =>
    obtain _ | ⟨_, _ | ⟨_, _⟩⟩ := args
    · cases h
    · cases h
      exact ⟨rfl, rfl⟩
    · cases h
  | GET | PING | TTL | EXPIRE | PERSIST | SAVE | REPLICAOF | SYNC | ROUTE | NODES | UNKNOWN =>
    cases h

/-- Only a command on a key makes another key give way. -/
theorem evictee_spec {db : Db} {cmd : Command} {e : Bytes} (h : db.evictee cmd = some e) :
    IsKeyCommand cmd.type = true ∧ ∃ key, cmd.args.head? = some key ∧ e ≠ key := by
  unfold Db.evictee at h
  split at h
  · cases h
  · cases h
  · rename_i key op _ heff
    obtain ⟨hk, hkey⟩ := key_of_effect heff
    exact ⟨hk, key, hkey, (of_evicted h).2⟩

/-- The command gives the reply of the cell of `key` and changes that cell. The key that gives way
loses its value, and the other cells stay. -/
structure ActsOnLru (key : Bytes) (w : Wiring) (db : Db) (now : Now) (cmd : Command) : Prop where
  reply : (execute w db now cmd).reply = ((db.cell key).exec now cmd).2
  cell : (execute w db now cmd).db.cell key = ((db.cell key).exec now cmd).1
  others : ∀ x, x ≠ key → (execute w db now cmd).db.cell x =
    if db.evictee cmd = some x then ⟨none, db.expiry.expiryOf x⟩ else db.cell x

/-- The command gives the reply of the cell of `key`, and changes that cell only. -/
structure ActsOn (key : Bytes) (w : Wiring) (db : Db) (now : Now) (cmd : Command) : Prop where
  reply : (execute w db now cmd).reply = ((db.cell key).exec now cmd).2
  cell : (execute w db now cmd).db.cell =
    Function.update db.cell key ((db.cell key).exec now cmd).1

section Commands

variable {w : Wiring} {db : Db} {now : Now} {name key : Bytes}

theorem ActsOn.lru {cmd : Command} (h : ActsOn key w db now cmd) (he : db.evictee cmd = none) :
    ActsOnLru key w db now cmd where
  reply := h.reply
  cell := by rw [h.cell, Function.update_self]
  others x hx := by rw [h.cell, Function.update_of_ne hx, he, if_neg (by simp)]

theorem ActsOnLru.unbounded {cmd : Command} (h : ActsOnLru key w db now cmd)
    (he : db.evictee cmd = none) : ActsOn key w db now cmd where
  reply := h.reply
  cell := by
    funext x
    by_cases hx : x = key
    · rw [hx, h.cell, Function.update_self]
    · rw [h.others x hx, he, if_neg (by simp), Function.update_of_ne hx]

theorem evictee_eq_none (hc : db.store.capacity = 0) (cmd : Command) : db.evictee cmd = none := by
  unfold Db.evictee
  split
  · rfl
  · rfl
  · rw [evicted, if_neg fun h => h.1 hc]

theorem cell_update {store : Store} {em : ExpiryManager} {v : Option Bytes} {d : Option Int}
    (hs : store.lookup = Function.update db.store.lookup key v)
    (he : ∀ x, em.expiryOf x = if x = key then d else db.expiry.expiryOf x) :
    (⟨store, em⟩ : Db).cell = Function.update db.cell key ⟨v, d⟩ := by
  funext x
  rw [Db.cell, hs, he]
  by_cases hx : x = key
  · subst hx
    simp
  · simp [hx, Db.cell]

/-- The cells after a `set` of `key` that gives it the deadline `d`. -/
theorem cell_set {em : ExpiryManager} {d : Option Int}
    (he : ∀ x, em.expiryOf x = if x = key then d else db.expiry.expiryOf x) (v x : Bytes) :
    (⟨db.store.set key v, em⟩ : Db).cell x =
      if x = key then ⟨some v, d⟩
      else if evicted db.store.capacity key db.store.entries = some x then
        ⟨none, db.expiry.expiryOf x⟩
      else db.cell x := by
  rw [Db.cell, Store.lookup_set_apply, he]
  split
  · rfl
  · split <;> rfl

/-- A command that binds its key with a `set`. -/
theorem actsOnLru_of_set {cmd : Command} {em : ExpiryManager} {d : Option Int} {v reply : Bytes}
    (hdb : execute w db now cmd = { db := ⟨db.store.set key v, em⟩, reply := reply })
    (he : ∀ x, em.expiryOf x = if x = key then d else db.expiry.expiryOf x)
    (hexec : (db.cell key).exec now cmd = (⟨some v, d⟩, reply))
    (hout : db.evictee cmd = evicted db.store.capacity key db.store.entries) :
    ActsOnLru key w db now cmd where
  reply := by rw [hdb, hexec]
  cell := by rw [hdb, hexec, cell_set he, if_pos rfl]
  others x hx := by rw [hdb, cell_set he, if_neg hx, hout]

theorem expiryOf_self (db : Db) (key x : Bytes) :
    db.expiry.expiryOf x = if x = key then db.expiry.expiryOf key else db.expiry.expiryOf x := by
  split
  · rename_i h
    rw [h]
  · rfl

/-- A command that changes nothing. -/
theorem actsOn_of_same {cmd : Command}
    (h₁ : execute w db now cmd = { db := db, reply := ((db.cell key).exec now cmd).2 })
    (h₂ : ((db.cell key).exec now cmd).1 = db.cell key) : ActsOn key w db now cmd := by
  refine ⟨by rw [h₁], ?_⟩
  rw [h₁, h₂, Function.update_eq_self]

theorem actsOnLru_set (args : List Bytes) :
    ActsOnLru key w db now ⟨.SET, name, key :: args⟩ := by
  match args with
  | [value] => exact actsOnLru_of_set rfl (db.expiry.expiryOf_cancel key) rfl rfl
  | [value, opt, secs] =>
    by_cases hopt : equalsIgnoreCase opt (ascii "EX") = true
    · cases hsec : parsePositiveSeconds secs with
      | none =>
        refine ActsOn.lru ?_ (by simp [Db.evictee, Command.effect, hopt, hsec])
        exact actsOn_of_same (by simp [execute, Cell.exec, hopt, hsec])
          (by simp [Cell.exec, hopt, hsec])
      | some s =>
        have hdb : execute w db now ⟨.SET, name, [key, value, opt, secs]⟩ =
            { db := ⟨db.store.set key value, db.expiry.schedule key (deadline now s)⟩
              reply := Reply.ok } := by
          simp only [execute, hopt, hsec, if_true]
        exact actsOnLru_of_set hdb (db.expiry.expiryOf_schedule key · _)
          (by simp [Cell.exec, hopt, hsec]) (by simp [Db.evictee, Command.effect, hopt, hsec])
    · have hopt' : equalsIgnoreCase opt (ascii "EX") = false := by simpa using hopt
      refine ActsOn.lru ?_ (by simp [Db.evictee, Command.effect, hopt'])
      exact actsOn_of_same (by simp [execute, Cell.exec, hopt']) (by simp [Cell.exec, hopt'])
  | [] | [_, _] | _ :: _ :: _ :: _ :: _ => exact (actsOn_of_same rfl rfl).lru rfl

theorem actsOn_get (args : List Bytes) : ActsOn key w db now ⟨.GET, name, key :: args⟩ := by
  match args with
  | [] =>
    have hcell : (⟨(db.store.get key).2, db.expiry⟩ : Db).cell = db.cell := by
      funext x
      simp [Db.cell]
    have hout : execute w db now ⟨.GET, name, [key]⟩ =
        { db := ⟨(db.store.get key).2, db.expiry⟩
          reply := ((db.cell key).exec now ⟨.GET, name, [key]⟩).2 } := by
      rw [execute_get]
      simp only [Cell.exec, Db.cell]
      cases db.store.lookup key <;> rfl
    refine ⟨by rw [hout], ?_⟩
    rw [hout, hcell]
    exact (Function.update_eq_self _ _).symm
  | _ :: _ => exact actsOn_of_same rfl rfl

theorem actsOn_del (args : List Bytes) : ActsOn key w db now ⟨.DEL, name, key :: args⟩ := by
  match args with
  | [] =>
    refine ⟨?_, cell_update (db.store.lookup_del key) (db.expiry.expiryOf_cancel key)⟩
    show Reply.integer (if (db.store.del key).1 then 1 else 0) = _
    rw [Store.del_fst]
    rfl
  | _ :: _ => exact actsOn_of_same rfl rfl

/-- `INCR` and `DECR`. -/
theorem actsOnLru_bump {cmd : Command} {delta : Int}
    (hdb : execute w db now cmd = incrementReply db key delta)
    (hexec : (db.cell key).exec now cmd = (db.cell key).bump delta)
    (heff : cmd.effect = some (key, .bump delta)) : ActsOnLru key w db now cmd := by
  have hout : db.evictee cmd = evicted db.store.capacity key db.store.entries := by
    rw [Db.evictee, heff]
  cases hcount : counter (db.store.lookup key) with
  | none =>
    -- The key is there, so nothing gives way.
    have hbump : (db.cell key).bump delta =
        (db.cell key, Reply.error (ascii "value is not an integer or out of range")) := by
      simp only [Cell.bump, Db.cell, hcount]
    have hnone : db.evictee cmd = none := by
      have hmem : key ∈ db.store.entries.map Prod.fst := by
        by_contra hn
        rw [Store.lookup, find_eq_none.mpr hn] at hcount
        cases hcount
      rw [hout, evicted, if_neg fun h => h.2.2 hmem]
    refine ActsOn.lru (actsOn_of_same ?_ (by rw [hexec, hbump])) hnone
    rw [hdb, hexec, hbump, incrementReply, db.store.incrementBy_eq, hcount]
    rfl
  | some c =>
    have hset : execute w db now cmd =
        { db := ⟨db.store.set key (to_string (wrap64 (c + delta))), db.expiry⟩
          reply := Reply.integer (wrap64 (c + delta)) } := by
      rw [hdb, incrementReply, db.store.incrementBy_eq, hcount]
      rfl
    refine actsOnLru_of_set hset (expiryOf_self db key) ?_ hout
    rw [hexec, Cell.bump, show (db.cell key).value = db.store.lookup key from rfl, hcount]
    rfl

theorem actsOnLru_incr (args : List Bytes) :
    ActsOnLru key w db now ⟨.INCR, name, key :: args⟩ := by
  match args with
  | [] => exact actsOnLru_bump rfl rfl rfl
  | _ :: _ => exact (actsOn_of_same rfl rfl).lru rfl

theorem actsOnLru_decr (args : List Bytes) :
    ActsOnLru key w db now ⟨.DECR, name, key :: args⟩ := by
  match args with
  | [] => exact actsOnLru_bump rfl rfl rfl
  | _ :: _ => exact (actsOn_of_same rfl rfl).lru rfl

theorem actsOn_ttl (args : List Bytes) : ActsOn key w db now ⟨.TTL, name, key :: args⟩ := by
  match args with
  | [] =>
    refine actsOn_of_same ?_ rfl
    simp only [execute, Db.cell, Store.exists_eq]
    cases db.store.lookup key with
    | none => rfl
    | some v => cases db.expiry.expiryOf key <;> rfl
  | _ :: _ => exact actsOn_of_same rfl rfl

theorem actsOn_expire (args : List Bytes) :
    ActsOn key w db now ⟨.EXPIRE, name, key :: args⟩ := by
  match args with
  | [secs] =>
    cases hv : db.store.lookup key with
    | none =>
      exact actsOn_of_same (by simp [execute, Cell.exec, Db.cell, hv])
        (by simp [Cell.exec, Db.cell, hv])
    | some v =>
      cases hsec : parsePositiveSeconds secs with
      | none =>
        exact actsOn_of_same (by simp [execute, Cell.exec, Db.cell, hv, hsec])
          (by simp [Cell.exec, Db.cell, hv, hsec])
      | some s =>
        refine ⟨by simp [execute, Cell.exec, Db.cell, hv, hsec], ?_⟩
        have hcell : (⟨db.store, db.expiry.schedule key (deadline now s)⟩ : Db).cell =
            Function.update db.cell key ⟨some v, some (deadline now s)⟩ :=
          cell_update (by rw [← hv, Function.update_eq_self])
            (db.expiry.expiryOf_schedule key · _)
        simpa [execute, Cell.exec, Db.cell, hv, hsec] using hcell
  | [] | _ :: _ :: _ => exact actsOn_of_same rfl rfl

theorem actsOn_persist (args : List Bytes) :
    ActsOn key w db now ⟨.PERSIST, name, key :: args⟩ := by
  match args with
  | [] =>
    cases hv : db.store.lookup key with
    | none =>
      exact actsOn_of_same (by simp [execute, Cell.exec, Db.cell, hv])
        (by simp [Cell.exec, Db.cell, hv])
    | some v =>
      refine ⟨by simp [execute, Cell.exec, Db.cell, hv], ?_⟩
      have hcell : (⟨db.store, db.expiry.cancel key⟩ : Db).cell =
          Function.update db.cell key ⟨some v, none⟩ :=
        cell_update (by rw [← hv, Function.update_eq_self]) (db.expiry.expiryOf_cancel key)
      simpa [execute, Cell.exec, Db.cell, hv] using hcell
  | _ :: _ => exact actsOn_of_same rfl rfl

/-- On a store of any capacity a command on a key is a command on the cell of that key. -/
theorem execute_cell_lru {cmd : Command} (hk : IsKeyCommand cmd.type = true)
    (hargs : cmd.args.head? = some key) : ActsOnLru key w db now cmd := by
  obtain ⟨type, name, args⟩ := cmd
  obtain ⟨args, rfl⟩ : ∃ as, args = key :: as := List.head?_eq_some_iff.mp hargs
  cases type with
  | SET => exact actsOnLru_set args
  | GET => exact (actsOn_get args).lru rfl
  | DEL => exact (actsOn_del args).lru (by rcases args with _ | _ <;> rfl)
  | INCR => exact actsOnLru_incr args
  | DECR => exact actsOnLru_decr args
  | TTL => exact (actsOn_ttl args).lru rfl
  | EXPIRE => exact (actsOn_expire args).lru rfl
  | PERSIST => exact (actsOn_persist args).lru rfl
  | PING | SAVE | REPLICAOF | SYNC | ROUTE | NODES | UNKNOWN => cases hk

/-- **Per-key independence.** On an unbounded store a command on a key is a command on the cell of
that key. -/
theorem execute_cell (hc : db.store.capacity = 0) {cmd : Command}
    (hk : IsKeyCommand cmd.type = true) (hargs : cmd.args.head? = some key) : ActsOn key w db now cmd :=
  (execute_cell_lru hk hargs).unbounded (evictee_eq_none hc cmd)

/-- A command without a key leaves the data. -/
theorem execute_db_of_no_key {cmd : Command}
    (h : ¬ (IsKeyCommand cmd.type = true ∧ ∃ key, cmd.args.head? = some key)) :
    (execute w db now cmd).db = db := by
  obtain ⟨type, name, args⟩ := cmd
  cases type with
  | SET | GET | DEL | INCR | DECR | TTL | EXPIRE | PERSIST =>
    cases args with
    | nil => rfl
    | cons key args => exact absurd ⟨rfl, key, rfl⟩ h
  | PING | SAVE | REPLICAOF | SYNC | ROUTE | NODES | UNKNOWN =>
    simp only [execute]
    repeat' split
    all_goals rfl

end Commands

end TinyKV

import TinyKV.Cell
import TinyKV.Lib.Interleaving

/-!
# The locked calls of a command

`KVStore` and `ExpiryManager` have a lock each, and every call takes its lock for itself alone. So
`CommandExecutor::execute` is a sequence of up to three atomic calls on two objects, and the calls
of other clients and of the sweeper can come in between.

* `Locked`: the calls. `executeSteps`: the calls of each command, in the order of the source.
* `run_executeSteps`: a command whose calls come one after the other is `execute`.
  `within_executeSteps`: there are three of them at most.
* `WorksOn`: a call changes the cell of its key and nothing else, on an unbounded store.
* `keeps_executeSteps`: the calls of a command keep every cell but the one of the key that it
  writes.

`steady_clock::now()` is read once in a command, at `now`.
-/

namespace TinyKV

open Cpp
open KVStore (counter)

/-- The calls of a command, with its reply and its call on a manager. -/
abbrev CommandProg := Prog Db (Bytes × Option Call)

/-! ## The calls -/

namespace Locked

variable (key : Bytes)

def set (value : Bytes) (next : CommandProg) : CommandProg :=
  .step (fun db => { db with store := db.store.set key value }) fun _ => next

def get (next : Option Bytes → CommandProg) : CommandProg :=
  .step (fun db => { db with store := (db.store.get key).2 }) fun db => next (db.store.get key).1

def del (next : Bool → CommandProg) : CommandProg :=
  .step (fun db => { db with store := (db.store.del key).2 }) fun db => next (db.store.del key).1

def «exists» (next : Bool → CommandProg) : CommandProg :=
  .step id fun db => next (db.store.exists key)

def incrementBy (delta : Int) (next : Option Int → CommandProg) : CommandProg :=
  .step
    (fun db =>
      match db.store.incrementBy key delta with
      | some (_, store) => { db with store := store }
      | none => db)
    fun db => next ((db.store.incrementBy key delta).map Prod.fst)

def schedule (expiresAt : Int) (next : CommandProg) : CommandProg :=
  .step (fun db => { db with expiry := db.expiry.schedule key expiresAt }) fun _ => next

def cancel (next : CommandProg) : CommandProg :=
  .step (fun db => { db with expiry := db.expiry.cancel key }) fun _ => next

def expiryOf (next : Option Int → CommandProg) : CommandProg :=
  .step id fun db => next (db.expiry.expiryOf key)

end Locked

/-! ## The commands -/

/-- `return reply`. -/
def answer (reply : Bytes) : CommandProg := .done (reply, none)

/-- `INCR` and `DECR`. -/
def incrementSteps (key : Bytes) (delta : Int) : CommandProg :=
  Locked.incrementBy key delta fun
    | some n => answer (Reply.integer n)
    | none => answer (Reply.error (ascii "value is not an integer or out of range"))

def executeSteps (w : Wiring) (now : Now) (cmd : Command) : CommandProg :=
  match cmd.type with
  | .SET =>
    match cmd.args with
    | [key, value] => Locked.set key value (Locked.cancel key (answer Reply.ok))
    | [key, value, opt, secs] =>
      if equalsIgnoreCase opt (ascii "EX") then
        match parsePositiveSeconds secs with
        | none => answer (Reply.error (ascii "invalid expire time in 'SET' command"))
        | some seconds =>
          Locked.set key value (Locked.schedule key (deadline now seconds) (answer Reply.ok))
      else answer (arityError cmd)
    | _ => answer (arityError cmd)
  | .GET =>
    match cmd.args with
    | [key] =>
      Locked.get key fun
        | some value => answer (Reply.bulk value)
        | none => answer Reply.nil
    | _ => answer (arityError cmd)
  | .DEL =>
    match cmd.args with
    | [key] =>
      Locked.del key fun existed =>
        Locked.cancel key (answer (Reply.integer (if existed then 1 else 0)))
    | _ => answer (arityError cmd)
  | .PING =>
    match cmd.args with
    | [] => answer Reply.ok
    | _ => answer (arityError cmd)
  | .INCR =>
    match cmd.args with
    | [key] => incrementSteps key 1
    | _ => answer (arityError cmd)
  | .DECR =>
    match cmd.args with
    | [key] => incrementSteps key (-1)
    | _ => answer (arityError cmd)
  | .TTL =>
    match cmd.args with
    | [key] =>
      Locked.exists key fun
        | false => answer (Reply.integer (-2))
        | true => Locked.expiryOf key fun
          | none => answer (Reply.integer (-1))
          | some expiresAt => answer (Reply.integer (remaining expiresAt now))
    | _ => answer (arityError cmd)
  | .EXPIRE =>
    match cmd.args with
    | [key, secs] =>
      Locked.exists key fun
        | false => answer (Reply.integer 0)
        | true =>
          match parsePositiveSeconds secs with
          | none => answer (Reply.error (ascii "value is not an integer or out of range"))
          | some seconds =>
            Locked.schedule key (deadline now seconds) (answer (Reply.integer 1))
    | _ => answer (arityError cmd)
  | .PERSIST =>
    match cmd.args with
    | [key] =>
      Locked.exists key fun
        | false => answer (Reply.integer 0)
        | true => Locked.expiryOf key fun hadExpiry =>
          Locked.cancel key (answer (Reply.integer (if hadExpiry.isSome then 1 else 0)))
    | _ => answer (arityError cmd)
  | .SAVE =>
    match cmd.args with
    | [] =>
      if !w.persistence then answer (Reply.error (ascii "persistence is not enabled"))
      else .done (Reply.ok, some .save)
    | _ => answer (arityError cmd)
  | .REPLICAOF =>
    match cmd.args with
    | [host, port] =>
      if !w.replication then answer (Reply.error (ascii "replication is not enabled"))
      else if equalsIgnoreCase host (ascii "NO") && equalsIgnoreCase port (ascii "ONE") then
        .done (Reply.ok, some .replicaOfNoOne)
      else match stoi port with
        | none => answer (Reply.error (ascii "invalid port in 'REPLICAOF' command"))
        | some p => .done (Reply.ok, some (.replicaOf host p))
    | _ => answer (arityError cmd)
  | .SYNC =>
    answer (Reply.error (ascii "SYNC is only valid as the first line of a fresh connection"))
  | .ROUTE =>
    answer (Reply.error (ascii "ROUTE is only valid against tinykv-router, not tinykv-server"))
  | .NODES =>
    answer (Reply.error (ascii "NODES is only valid against tinykv-router, not tinykv-server"))
  | .UNKNOWN => answer (Reply.error (ascii "unknown command '" ++ cmd.name ++ ascii "'"))

theorem run_incrementSteps (db : Db) (key : Bytes) (delta : Int) :
    (incrementSteps key delta).run db =
      ((incrementReply db key delta).db, (incrementReply db key delta).reply,
        (incrementReply db key delta).call) := by
  simp only [incrementSteps, Locked.incrementBy, Prog.run, incrementReply]
  cases db.store.incrementBy key delta with
  | none => rfl
  | some x => rfl

/-- A command whose calls come one after the other is `execute`. -/
theorem run_executeSteps (w : Wiring) (db : Db) (now : Now) (cmd : Command) :
    (executeSteps w now cmd).run db =
      ((execute w db now cmd).db, (execute w db now cmd).reply, (execute w db now cmd).call) := by
  obtain ⟨type, name, args⟩ := cmd
  cases type with
  | SET =>
    match args with
    | [key, value, opt, secs] =>
      simp only [executeSteps, execute]
      split
      · cases parsePositiveSeconds secs <;> rfl
      · rfl
    | [_, _] | [] | [_] | [_, _, _] | _ :: _ :: _ :: _ :: _ :: _ => rfl
  | GET =>
    match args with
    | [key] =>
      simp only [executeSteps, Locked.get, Prog.run, execute]
      cases db.store.get key with
      | mk value store => cases value <;> rfl
    | [] | _ :: _ :: _ => rfl
  | INCR =>
    match args with
    | [key] => exact run_incrementSteps db key 1
    | [] | _ :: _ :: _ => rfl
  | DECR =>
    match args with
    | [key] => exact run_incrementSteps db key (-1)
    | [] | _ :: _ :: _ => rfl
  | TTL =>
    match args with
    | [key] =>
      simp only [executeSteps, Locked.exists, Locked.expiryOf, Prog.run, execute]
      cases db.store.exists key with
      | false => rfl
      | true =>
        simp only [Prog.run, id_eq, Bool.not_true, Bool.false_eq_true, if_false]
        cases db.expiry.expiryOf key <;> rfl
    | [] | _ :: _ :: _ => rfl
  | EXPIRE =>
    match args with
    | [key, secs] =>
      simp only [executeSteps, Locked.exists, Prog.run, execute]
      cases db.store.exists key with
      | false => rfl
      | true => cases parsePositiveSeconds secs <;> rfl
    | [] | [_] | _ :: _ :: _ :: _ => rfl
  | PERSIST =>
    match args with
    | [key] =>
      simp only [executeSteps, Locked.exists, Prog.run, execute]
      cases db.store.exists key <;> rfl
    | [] | _ :: _ :: _ => rfl
  | SAVE =>
    match args with
    | [] =>
      simp only [executeSteps, execute]
      split <;> rfl
    | _ :: _ => rfl
  | REPLICAOF =>
    match args with
    | [host, port] =>
      simp only [executeSteps, execute]
      split
      · rfl
      · split
        · rfl
        · cases stoi port <;> rfl
    | [] | [_] | _ :: _ :: _ :: _ => rfl
  | DEL | PING => rcases args with _ | ⟨_, _ | _⟩ <;> rfl
  | SYNC | ROUTE | NODES | UNKNOWN => rfl

/-- Every command makes at most three calls of the store and the deadlines. -/
theorem within_executeSteps (w : Wiring) (now : Now) (cmd : Command) :
    (executeSteps w now cmd).Within 3 := by
  have hstep : ∀ {n : Nat} {act : Db → Db} {next : Db → CommandProg},
      (∀ db, (next db).Within n) → (Prog.step act next).Within (n + 1) :=
    fun h => ⟨Nat.succ_pos _, h⟩
  have hdone : ∀ (n : Nat) (x : Bytes × Option Call), (Prog.done x : CommandProg).Within n :=
    fun _ _ => trivial
  obtain ⟨type, name, args⟩ := cmd
  cases type with
  | SET =>
    simp only [executeSteps]
    repeat' split
    all_goals first
      | exact hdone _ _
      | exact hstep fun _ => hstep fun _ => hdone _ _
  | GET | INCR | DECR =>
    simp only [executeSteps]
    split
    · refine hstep fun db => ?_
      dsimp only
      split <;> exact hdone _ _
    · exact hdone _ _
  | DEL =>
    simp only [executeSteps]
    split
    · exact hstep fun _ => hstep fun _ => hdone _ _
    · exact hdone _ _
  | TTL =>
    simp only [executeSteps]
    split
    · refine hstep fun db => ?_
      dsimp only
      split
      · exact hdone _ _
      · refine hstep fun db => ?_
        dsimp only
        split <;> exact hdone _ _
    · exact hdone _ _
  | EXPIRE =>
    simp only [executeSteps]
    split
    · refine hstep fun db => ?_
      dsimp only
      split
      · exact hdone _ _
      · split
        · exact hdone _ _
        · exact hstep fun _ => hdone _ _
    · exact hdone _ _
  | PERSIST =>
    simp only [executeSteps]
    split
    · refine hstep fun db => ?_
      dsimp only
      split
      · exact hdone _ _
      · exact hstep fun _ => hstep fun _ => hdone _ _
    · exact hdone _ _
  | PING | SAVE | REPLICAOF =>
    simp only [executeSteps]
    repeat' split
    all_goals exact hdone _ _
  | SYNC | ROUTE | NODES | UNKNOWN => exact hdone _ _

/-! ## One call and the cells -/

/-- No key ever gives way. -/
def Unbounded (db : Db) : Prop := db.store.capacity = 0

/-- The call does `g` to the cell of `key` and nothing else. -/
def WorksOn (key : Bytes) (act : Db → Db) (g : Cell → Cell) : Prop :=
  ∀ db, Unbounded db →
    Unbounded (act db) ∧ (act db).cell = Function.update db.cell key (g (db.cell key))

section

variable {key x : Bytes} {act : Db → Db} {next : Db → CommandProg}

theorem WorksOn.keeps {g : Cell → Cell} (h : WorksOn key act g) (hx : x ≠ key)
    (hnext : ∀ db, (next db).Keeps Unbounded (Db.cell · x)) :
    (Prog.step act next).Keeps Unbounded (Db.cell · x) := fun db hdb => by
  obtain ⟨hI, hcell⟩ := h db hdb
  exact ⟨hI, (congrFun hcell x).trans (Function.update_of_ne hx _ _), hnext db⟩

/-- A call that only reads. -/
theorem WorksOn.keeps_of_id (h : WorksOn key act id)
    (hnext : ∀ db, (next db).Keeps Unbounded (Db.cell · x)) :
    (Prog.step act next).Keeps Unbounded (Db.cell · x) := fun db hdb => by
  obtain ⟨hI, hcell⟩ := h db hdb
  rw [id_eq, Function.update_eq_self] at hcell
  exact ⟨hI, congrFun hcell x, hnext db⟩

theorem WorksOn.follows {g : Cell → Cell} {next' : Cell → Prog Cell (Bytes × Option Call)}
    (h : WorksOn key act g)
    (hnext : ∀ db, (next db).Follows Unbounded (Db.cell · key) (next' (db.cell key))) :
    (Prog.step act next).Follows Unbounded (Db.cell · key) (.step g next') := fun db hdb => by
  obtain ⟨hI, hcell⟩ := h db hdb
  exact ⟨hI, (congrFun hcell key).trans (Function.update_self _ _ _), hnext db⟩

theorem worksOn_id (key : Bytes) : WorksOn key id id :=
  fun _ hdb => ⟨hdb, (Function.update_eq_self _ _).symm⟩

theorem worksOn_set (key value : Bytes) :
    WorksOn key (fun db => { db with store := db.store.set key value })
      fun x => { x with value := some value } := fun db hdb =>
  ⟨(db.store.capacity_set key value).trans hdb,
    cell_update (Store.lookup_set hdb key value) (expiryOf_self db key)⟩

theorem worksOn_get (key : Bytes) :
    WorksOn key (fun db => { db with store := (db.store.get key).2 }) id := fun db hdb =>
  ⟨(db.store.capacity_get key).trans hdb,
    cell_update (by rw [Store.lookup_get, Function.update_eq_self]) (expiryOf_self db key)⟩

theorem worksOn_del (key : Bytes) :
    WorksOn key (fun db => { db with store := (db.store.del key).2 })
      fun x => { x with value := none } := fun db hdb =>
  ⟨(db.store.capacity_del key).trans hdb,
    cell_update (db.store.lookup_del key) (expiryOf_self db key)⟩

theorem worksOn_schedule (key : Bytes) (t : Int) :
    WorksOn key (fun db => { db with expiry := db.expiry.schedule key t })
      fun x => { x with deadline := some t } := fun db hdb =>
  ⟨hdb, cell_update (Function.update_eq_self _ _).symm (db.expiry.expiryOf_schedule key · t)⟩

theorem worksOn_cancel (key : Bytes) :
    WorksOn key (fun db => { db with expiry := db.expiry.cancel key })
      fun x => { x with deadline := none } := fun db hdb =>
  ⟨hdb, cell_update (Function.update_eq_self _ _).symm (db.expiry.expiryOf_cancel key)⟩

theorem worksOn_incrementBy (key : Bytes) (delta : Int) :
    WorksOn key
      (fun db =>
        match db.store.incrementBy key delta with
        | some (_, store) => { db with store := store }
        | none => db)
      fun x => (x.bump delta).1 := by
  intro db hdb
  simp only [db.store.incrementBy_eq, Cell.bump]
  rw [show (db.cell key).value = db.store.lookup key from rfl]
  cases counter (db.store.lookup key) with
  | none => exact ⟨hdb, (Function.update_eq_self _ _).symm⟩
  | some c =>
    exact ⟨(db.store.capacity_set key _).trans hdb,
      cell_update (Store.lookup_set hdb key _) (expiryOf_self db key)⟩

end

/-! ## All calls of a command -/

/-- A command keeps every cell but the one of the key that it writes. -/
theorem keeps_executeSteps (w : Wiring) (now : Now) {cmd : Command} {x : Bytes}
    (h : ¬ (isWriteCommand cmd.type = true ∧ cmd.args.head? = some x)) :
    (executeSteps w now cmd).Keeps Unbounded (Db.cell · x) := by
  obtain ⟨type, name, args⟩ := cmd
  have hne : ∀ {key as}, isWriteCommand type = true → args = key :: as → x ≠ key := by
    rintro key as hw rfl rfl
    exact h ⟨hw, rfl⟩
  cases type with
  | SET =>
    match args with
    | [key, value] =>
      have hx : x ≠ key := hne rfl rfl
      exact (worksOn_set key value).keeps hx fun _ => (worksOn_cancel key).keeps hx fun _ => trivial
    | [key, value, opt, secs] =>
      have hx : x ≠ key := hne rfl rfl
      simp only [executeSteps]
      split
      · cases parsePositiveSeconds secs with
        | none => trivial
        | some s =>
          exact (worksOn_set key value).keeps hx fun _ =>
            (worksOn_schedule key _).keeps hx fun _ => trivial
      · trivial
    | [] | [_] | [_, _, _] | _ :: _ :: _ :: _ :: _ :: _ => trivial
  | GET =>
    match args with
    | [key] =>
      refine (worksOn_get key).keeps_of_id fun db => ?_
      cases (db.store.get key).1 <;> trivial
    | [] | _ :: _ :: _ => trivial
  | DEL =>
    match args with
    | [key] =>
      have hx : x ≠ key := hne rfl rfl
      exact (worksOn_del key).keeps hx fun _ => (worksOn_cancel key).keeps hx fun _ => trivial
    | [] | _ :: _ :: _ => trivial
  | INCR | DECR =>
    match args with
    | [key] =>
      refine (worksOn_incrementBy key _).keeps (hne rfl rfl) fun db => ?_
      cases (db.store.incrementBy key _).map Prod.fst <;> trivial
    | [] | _ :: _ :: _ => trivial
  | TTL =>
    match args with
    | [key] =>
      refine (worksOn_id key).keeps_of_id fun db => ?_
      cases db.store.exists key with
      | false => trivial
      | true =>
        refine (worksOn_id key).keeps_of_id fun db => ?_
        cases db.expiry.expiryOf key <;> trivial
    | [] | _ :: _ :: _ => trivial
  | EXPIRE =>
    match args with
    | [key, secs] =>
      refine (worksOn_id key).keeps_of_id fun db => ?_
      cases db.store.exists key with
      | false => trivial
      | true =>
        cases parsePositiveSeconds secs with
        | none => trivial
        | some s => exact (worksOn_schedule key _).keeps (hne rfl rfl) fun _ => trivial
    | [] | [_] | _ :: _ :: _ :: _ => trivial
  | PERSIST =>
    match args with
    | [key] =>
      refine (worksOn_id key).keeps_of_id fun db => ?_
      cases db.store.exists key with
      | false => trivial
      | true =>
        refine (worksOn_id key).keeps_of_id fun _ => ?_
        exact (worksOn_cancel key).keeps (hne rfl rfl) fun _ => trivial
    | [] | _ :: _ :: _ => trivial
  | SAVE | REPLICAOF =>
    simp only [executeSteps]
    repeat' split
    all_goals trivial
  | PING => rcases args with _ | _ <;> trivial
  | SYNC | ROUTE | NODES | UNKNOWN => trivial

end TinyKV

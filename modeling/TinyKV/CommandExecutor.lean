import TinyKV.Protocol
import TinyKV.Storage.Store
import TinyKV.Storage.ExpiryManager

/-!
# `CommandExecutor`: one command against the store and the TTL table

`src/command_executor.cpp`. `execute` takes a parsed command and gives the reply line. It reads
the clock (`now`) and changes the store and the expiry manager (`Db`). `SAVE` and `REPLICAOF` also
call the persistence and the replication manager, if these are wired up (`Wiring`); `execute` then
names the call (`Call`) and the server makes it (`Server.lean`). The telemetry counters are left
out: nothing reads them.

Two 64-bit computations can leave the type: the counter of `INCR`/`DECR` and the deadline of
`EX`/`EXPIRE`. Both keep what a 64-bit register keeps (`Cpp.wrap64`).
-/

namespace TinyKV

open Cpp

/-- What a command reads and changes: the store and the TTL table. -/
structure Db where
  store : Store
  expiry : ExpiryManager

/-- A fresh store and an empty TTL table. -/
def Db.empty (capacity : Nat) : Db := ⟨.empty capacity, .empty⟩

/-- Which managers were set on the executor (the pointers that are not null). -/
structure Wiring where
  persistence : Bool
  replication : Bool

/-- A call that a command makes on a manager. -/
inductive Call where
  | save
  | replicaOf (host : Bytes) (port : Int)
  | replicaOfNoOne
  deriving DecidableEq, Repr

/-- What `execute` gives: the data after the command, the reply, the call it makes. -/
structure Outcome where
  db : Db
  reply : Bytes
  call : Option Call := none

def arityError (cmd : Command) : Bytes :=
  Reply.error (ascii "wrong number of arguments for '" ++ cmd.name ++ ascii "'")

def equalsIgnoreCase (a b : Bytes) : Bool := a.map tolower == b.map tolower

/-- A strictly positive number of seconds, digits only. -/
def parsePositiveSeconds (s : Bytes) : Option Int :=
  if s.isEmpty || !s.all isdigit then none
  else match stoll s with
    | none => none
    | some value => if value ≤ 0 then none else some value

/-- `steady_clock::now() + seconds(s)`, in 64-bit nanoseconds. -/
def deadline (now : Now) (seconds : Int) : Int := wrap64 (now.ns + wrap64 (seconds * 10 ^ 9))

/-- `duration_cast<seconds>(expiresAt - now)`, cut at zero. -/
def remaining (expiresAt : Int) (now : Now) : Int :=
  let r := (wrap64 (expiresAt - now.ns)).tdiv (10 ^ 9)
  if r > 0 then r else 0

/-- `INCR` and `DECR`. -/
def incrementReply (db : Db) (key : Bytes) (delta : Int) : Outcome :=
  match db.store.incrementBy key delta with
  | some (n, store) => { db := { db with store := store }, reply := Reply.integer n }
  | none => { db := db, reply := Reply.error (ascii "value is not an integer or out of range") }

def execute (w : Wiring) (db : Db) (now : Now) (cmd : Command) : Outcome :=
  match cmd.type with
  | .SET =>
    match cmd.args with
    | [key, value] =>
      -- A plain SET clears any previous TTL.
      { db := { store := db.store.set key value, expiry := db.expiry.cancel key }
        reply := Reply.ok }
    | [key, value, opt, secs] =>
      if equalsIgnoreCase opt (ascii "EX") then
        match parsePositiveSeconds secs with
        | none =>
          { db := db, reply := Reply.error (ascii "invalid expire time in 'SET' command") }
        | some seconds =>
          { db :=
              { store := db.store.set key value
                expiry := db.expiry.schedule key (deadline now seconds) }
            reply := Reply.ok }
      else { db := db, reply := arityError cmd }
    | _ => { db := db, reply := arityError cmd }
  | .GET =>
    match cmd.args with
    | [key] =>
      match db.store.get key with
      | (some value, store) => { db := { db with store := store }, reply := Reply.bulk value }
      | (none, store) => { db := { db with store := store }, reply := Reply.nil }
    | _ => { db := db, reply := arityError cmd }
  | .DEL =>
    match cmd.args with
    | [key] =>
      { db := { store := (db.store.del key).2, expiry := db.expiry.cancel key }
        reply := Reply.integer (if (db.store.del key).1 then 1 else 0) }
    | _ => { db := db, reply := arityError cmd }
  | .PING =>
    match cmd.args with
    | [] => { db := db, reply := Reply.ok }
    | _ => { db := db, reply := arityError cmd }
  | .INCR =>
    match cmd.args with
    | [key] => incrementReply db key 1
    | _ => { db := db, reply := arityError cmd }
  | .DECR =>
    match cmd.args with
    | [key] => incrementReply db key (-1)
    | _ => { db := db, reply := arityError cmd }
  | .TTL =>
    match cmd.args with
    | [key] =>
      if !db.store.exists key then { db := db, reply := Reply.integer (-2) }
      else match db.expiry.expiryOf key with
        | none => { db := db, reply := Reply.integer (-1) }
        | some expiresAt => { db := db, reply := Reply.integer (remaining expiresAt now) }
    | _ => { db := db, reply := arityError cmd }
  | .EXPIRE =>
    match cmd.args with
    | [key, secs] =>
      if !db.store.exists key then { db := db, reply := Reply.integer 0 }
      else match parsePositiveSeconds secs with
        | none =>
          { db := db, reply := Reply.error (ascii "value is not an integer or out of range") }
        | some seconds =>
          { db := { db with expiry := db.expiry.schedule key (deadline now seconds) }
            reply := Reply.integer 1 }
    | _ => { db := db, reply := arityError cmd }
  | .PERSIST =>
    match cmd.args with
    | [key] =>
      if !db.store.exists key then { db := db, reply := Reply.integer 0 }
      else
        { db := { db with expiry := db.expiry.cancel key }
          reply := Reply.integer (if (db.expiry.expiryOf key).isSome then 1 else 0) }
    | _ => { db := db, reply := arityError cmd }
  | .SAVE =>
    match cmd.args with
    | [] =>
      if !w.persistence then
        { db := db, reply := Reply.error (ascii "persistence is not enabled") }
      else { db := db, reply := Reply.ok, call := some .save }
    | _ => { db := db, reply := arityError cmd }
  | .REPLICAOF =>
    match cmd.args with
    | [host, port] =>
      if !w.replication then
        { db := db, reply := Reply.error (ascii "replication is not enabled") }
      else if equalsIgnoreCase host (ascii "NO") && equalsIgnoreCase port (ascii "ONE") then
        { db := db, reply := Reply.ok, call := some .replicaOfNoOne }
      else match stoi port with
        | none => { db := db, reply := Reply.error (ascii "invalid port in 'REPLICAOF' command") }
        | some p => { db := db, reply := Reply.ok, call := some (.replicaOf host p) }
    | _ => { db := db, reply := arityError cmd }
  | .SYNC =>
    { db := db
      reply := Reply.error (ascii "SYNC is only valid as the first line of a fresh connection") }
  | .ROUTE =>
    { db := db
      reply := Reply.error (ascii "ROUTE is only valid against tinykv-router, not tinykv-server") }
  | .NODES =>
    { db := db
      reply := Reply.error (ascii "NODES is only valid against tinykv-router, not tinykv-server") }
  | .UNKNOWN =>
    { db := db, reply := Reply.error (ascii "unknown command '" ++ cmd.name ++ ascii "'") }

end TinyKV

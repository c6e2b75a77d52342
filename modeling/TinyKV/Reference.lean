import TinyKV.CommandExecutor
import TinyKV.Lib.Machine

/-!
# The store and the TTL table against one map

What the server is for, said without its data structures: one finite map from a key to its value
and, if it has one, its deadline (`Ref`). Integers are exact here. The code keeps two structures, an
LRU list with an index and a TTL table with a heap that is cleaned late, and updates them by
separate calls.

* `Action`: a command at a clock reading, or one pop of the sweeper. The sweeper can pop any of the
  earliest heap entries once it is due; a live entry also deletes its key from the store.
* `dbMachine`: the code. `refMachine`: the map.
* `Sim`: the relation that every step keeps. The live deadline of a key is the deadline of its
  entry, and only keys of the store have one.
* `execute_refines_reference`: every reply of a run of the code is the reply of the map.
-/

namespace TinyKV

open Cpp
open KVStore (counter)

/-- One atomic step: a command, or a pop of the heap entry `e` by the sweeper. -/
inductive Action where
  | exec (now : Now) (cmd : Command)
  | sweep (now : Now) (e : HeapEntry)

/-- One pop of the sweeper at `now`, with the expiry callback `store.del`. -/
def Db.sweep (db : Db) (now : Now) (e : HeapEntry) : Option Db :=
  if db.expiry.IsTop e ∧ e.when ≤ now.ns then
    match db.expiry.popTop e with
    | (expiry, none) => some { db with expiry := expiry }
    | (expiry, some key) => some { store := (db.store.del key).2, expiry := expiry }
  else none

/-- The code. A command outputs its reply. -/
def dbMachine (w : Wiring) : Machine Db Action (Option Bytes) where
  step db
    | .exec now cmd => some ((execute w db now cmd).db, some (execute w db now cmd).reply)
    | .sweep now e => (db.sweep now e).map fun db' => (db', none)

/-! ## The reference machine -/

/-- The value and the deadline of each key. -/
abbrev Ref := Finmap fun _ : Bytes => Bytes × Option Int

/-- The nine commands that work on the data. -/
def IsDataCommand : CommandType → Bool
  | .SET | .GET | .DEL | .PING | .INCR | .DECR | .TTL | .EXPIRE | .PERSIST => true
  | _ => false

/-- `INCR` and `DECR`: the value changes, the deadline stays. -/
def Ref.bump (m : Ref) (key : Bytes) (delta : Int) : Ref × Bytes :=
  match counter ((m.lookup key).map Prod.fst) with
  | none => (m, Reply.error (ascii "value is not an integer or out of range"))
  | some c =>
    (m.insert key (to_string (c + delta), (m.lookup key).bind Prod.snd), Reply.integer (c + delta))

/-- One command on the map. -/
def Ref.exec (m : Ref) (now : Now) (cmd : Command) : Ref × Bytes :=
  match cmd.type, cmd.args with
  | .SET, [key, value] => (m.insert key (value, none), Reply.ok)
  | .SET, [key, value, opt, secs] =>
    if equalsIgnoreCase opt (ascii "EX") then
      match parsePositiveSeconds secs with
      | none => (m, Reply.error (ascii "invalid expire time in 'SET' command"))
      | some s => (m.insert key (value, some (now.ns + s * 10 ^ 9)), Reply.ok)
    else (m, arityError cmd)
  | .GET, [key] =>
    (m, match m.lookup key with
      | none => Reply.nil
      | some (value, _) => Reply.bulk value)
  | .DEL, [key] => (m.erase key, Reply.integer (if (m.lookup key).isSome then 1 else 0))
  | .PING, [] => (m, Reply.ok)
  | .INCR, [key] => m.bump key 1
  | .DECR, [key] => m.bump key (-1)
  | .TTL, [key] =>
    (m, Reply.integer (match m.lookup key with
      | none => -2
      | some (_, none) => -1
      | some (_, some d) => max 0 ((d - now.ns) / 10 ^ 9)))
  | .EXPIRE, [key, secs] =>
    match m.lookup key with
    | none => (m, Reply.integer 0)
    | some (value, _) =>
      match parsePositiveSeconds secs with
      | none => (m, Reply.error (ascii "value is not an integer or out of range"))
      | some s => (m.insert key (value, some (now.ns + s * 10 ^ 9)), Reply.integer 1)
  | .PERSIST, [key] =>
    match m.lookup key with
    | none => (m, Reply.integer 0)
    | some (_, none) => (m, Reply.integer 0)
    | some (value, some _) => (m.insert key (value, none), Reply.integer 1)
  | _, _ => (m, arityError cmd)

/-- A due sweep removes the whole entry. -/
def Ref.sweep (m : Ref) (now : Now) (e : HeapEntry) : Ref :=
  if (m.lookup e.key).bind Prod.snd = some e.when ∧ e.when ≤ now.ns then m.erase e.key else m

/-- The map as a machine. -/
def refMachine : Machine Ref Action (Option Bytes) where
  step m
    | .exec now cmd =>
      if IsDataCommand cmd.type then some ((m.exec now cmd).1, some (m.exec now cmd).2) else none
    | .sweep now e => some (m.sweep now e, none)

/-- The counter or the deadline that the action forms on the map is a 64-bit integer. -/
def Ref.InRange (m : Ref) : Action → Prop
  | .exec now cmd =>
    match cmd.type, cmd.args with
    | .SET, [_, _, opt, secs] => equalsIgnoreCase opt (ascii "EX") = true →
        ∀ s, parsePositiveSeconds secs = some s → IsInt64 (now.ns + s * 10 ^ 9)
    | .EXPIRE, [key, secs] => (m.lookup key).isSome →
        ∀ s, parsePositiveSeconds secs = some s → IsInt64 (now.ns + s * 10 ^ 9)
    | .INCR, [key] => ∀ c, counter ((m.lookup key).map Prod.fst) = some c → IsInt64 (c + 1)
    | .DECR, [key] => ∀ c, counter ((m.lookup key).map Prod.fst) = some c → IsInt64 (c - 1)
    | _, _ => True
  | .sweep _ _ => True

/-! ## The simulation -/

theorem pos_of_parsePositiveSeconds {s : Bytes} {n : Int} (h : parsePositiveSeconds s = some n) :
    0 < n := by
  unfold parsePositiveSeconds at h
  split at h
  · cases h
  · split at h
    · cases h
    · split at h
      · cases h
      · cases h
        omega

/-- A deadline inside the type is formed exactly. -/
theorem deadline_eq {now : Now} {s : Int} (h : IsInt64 (now.ns + s * 10 ^ 9)) :
    deadline now s = now.ns + s * 10 ^ 9 := by
  unfold deadline
  rw [wrap64_add_wrap64, wrap64_of_isInt64 h]

/-- The remaining seconds of a non-negative deadline. -/
theorem remaining_eq {d : Int} (hd : 0 ≤ d ∧ d < 2 ^ 63) (now : Now) :
    remaining d now = max 0 ((d - now.ns) / 10 ^ 9) := by
  have hn := now.isInt64
  have hw : wrap64 (d - now.ns) = d - now.ns := wrap64_of_isInt64 ⟨by omega, by omega⟩
  unfold remaining
  rw [hw]
  simp only
  by_cases h0 : 0 ≤ d - now.ns
  · rw [Int.tdiv_eq_ediv_of_nonneg h0]
    split <;> omega
  · have ht : 0 ≤ (-(d - now.ns)).tdiv (10 ^ 9) := Int.tdiv_nonneg (by omega) (by decide)
    rw [Int.neg_tdiv] at ht
    rw [if_neg (by omega)]
    omega

/-- The relation between the code and the map. -/
structure Sim (db : Db) (m : Ref) : Prop where
  unbounded : db.store.capacity = 0
  entry : ∀ k, m.lookup k = (db.store.lookup k).map fun v => (v, db.expiry.expiryOf k)
  keys : ∀ k, db.store.lookup k = none → db.expiry.expiryOf k = none
  range : ∀ k d, db.expiry.expiryOf k = some d → 0 ≤ d ∧ d < 2 ^ 63

namespace Sim

variable {db : Db} {m : Ref}

theorem empty : Sim (Db.empty 0) ∅ where
  unbounded := rfl
  entry _ := rfl
  keys _ _ := rfl
  range _ _ h := by cases h

theorem value (h : Sim db m) (k : Bytes) : (m.lookup k).map Prod.fst = db.store.lookup k := by
  rw [h.entry k]
  cases db.store.lookup k <;> rfl

theorem expiry (h : Sim db m) (k : Bytes) : (m.lookup k).bind Prod.snd = db.expiry.expiryOf k := by
  rw [h.entry k]
  cases hk : db.store.lookup k with
  | none => exact (h.keys k hk).symm
  | some v => rfl

/-- The key `k` is bound to `v` with the deadline `d`; the other keys stay. -/
theorem bind (h : Sim db m) {k v : Bytes} {d : Option Int} {store : Store} {em : ExpiryManager}
    (hc : store.capacity = 0) (hs : store.lookup = Function.update db.store.lookup k (some v))
    (he : ∀ x, em.expiryOf x = if x = k then d else db.expiry.expiryOf x)
    (hd : ∀ t, d = some t → 0 ≤ t ∧ t < 2 ^ 63) :
    Sim ⟨store, em⟩ (m.insert k (v, d)) := by
  refine ⟨hc, fun x => ?_, fun x hx => ?_, fun x t ht => ?_⟩
  · by_cases hxk : x = k
    · subst hxk
      simp [hs, he]
    · rw [Finmap.lookup_insert_of_ne _ hxk, h.entry x]
      simp [hs, he, hxk]
  · by_cases hxk : x = k
    · subst hxk; simp [hs] at hx
    · simp only [hs, Function.update_of_ne hxk] at hx
      simp [he, hxk, h.keys x hx]
  · simp only [he] at ht
    split at ht
    · exact hd t ht
    · exact h.range x t ht

/-- The key `k` is dropped; the other keys stay. -/
theorem unbind (h : Sim db m) {k : Bytes} {store : Store} {em : ExpiryManager}
    (hc : store.capacity = 0) (hs : store.lookup = Function.update db.store.lookup k none)
    (he : ∀ x, em.expiryOf x = if x = k then none else db.expiry.expiryOf x) :
    Sim ⟨store, em⟩ (m.erase k) := by
  refine ⟨hc, fun x => ?_, fun x hx => ?_, fun x t ht => ?_⟩
  · by_cases hxk : x = k
    · subst hxk
      simp [hs]
    · rw [Finmap.lookup_erase_ne hxk, h.entry x]
      simp [hs, he, hxk]
  · by_cases hxk : x = k
    · simp [he, hxk]
    · simp only [hs, Function.update_of_ne hxk] at hx
      simp [he, hxk, h.keys x hx]
  · simp only [he] at ht
    split at ht
    · cases ht
    · exact h.range x t ht

/-- A store with the same map. -/
theorem congr (h : Sim db m) {store : Store} (hc : store.capacity = 0)
    (hs : store.lookup = db.store.lookup) : Sim ⟨store, db.expiry⟩ m :=
  ⟨hc, by rw [hs]; exact h.entry, by rw [hs]; exact h.keys, h.range⟩

end Sim

/-- On the command, the code and the map give the same reply and stay related. -/
def Agrees (w : Wiring) (db : Db) (m : Ref) (now : Now) (cmd : Command) : Prop :=
  Sim (execute w db now cmd).db (m.exec now cmd).1 ∧
    (execute w db now cmd).reply = (m.exec now cmd).2

section Commands

variable {w : Wiring} {db : Db} {m : Ref} {now : Now} {name : Bytes}

/-- A wrong number of arguments changes nothing. -/
theorem agrees_arity (h : Sim db m) {cmd : Command}
    (h₁ : execute w db now cmd = { db := db, reply := arityError cmd })
    (h₂ : m.exec now cmd = (m, arityError cmd)) : Agrees w db m now cmd := by
  rw [Agrees, h₁, h₂]
  exact ⟨h, rfl⟩

theorem agrees_set (h : Sim db m) (args : List Bytes)
    (hr : m.InRange (.exec now ⟨.SET, name, args⟩)) : Agrees w db m now ⟨.SET, name, args⟩ := by
  match args with
  | [key, value] =>
    refine ⟨h.bind ?_ (Store.lookup_set h.unbounded key value)
      (db.expiry.expiryOf_cancel key) (by simp), rfl⟩
    simpa using h.unbounded
  | [key, value, opt, secs] =>
    by_cases hopt : equalsIgnoreCase opt (ascii "EX") = true
    · cases hsec : parsePositiveSeconds secs with
      | none =>
        simp only [Agrees, execute, Ref.exec, hopt, hsec, ↓reduceIte, and_true]
        exact h
      | some s =>
        have hd : IsInt64 (now.ns + s * 10 ^ 9) := hr hopt s hsec
        have hpos := pos_of_parsePositiveSeconds hsec
        have hnow := now.isInt64.1
        simp only [Agrees, execute, Ref.exec, hopt, hsec, ↓reduceIte, deadline_eq hd, and_true]
        refine h.bind ?_ (Store.lookup_set h.unbounded key value)
          (db.expiry.expiryOf_schedule key · _) ?_
        · simpa using h.unbounded
        · rintro t ⟨⟩
          exact ⟨by omega, hd.2⟩
    · have hopt' : equalsIgnoreCase opt (ascii "EX") = false := by simpa using hopt
      exact agrees_arity h (by simp [execute, hopt']) (by simp [Ref.exec, hopt'])
  | [] | [_] | [_, _, _] | _ :: _ :: _ :: _ :: _ :: _ => exact agrees_arity h rfl rfl

theorem agrees_get (h : Sim db m) (args : List Bytes) :
    Agrees w db m now ⟨.GET, name, args⟩ := by
  match args with
  | [key] =>
    have hcap : (db.store.get key).2.capacity = 0 := by simpa using h.unbounded
    have hsim : Sim ⟨(db.store.get key).2, db.expiry⟩ m := h.congr hcap (by simp)
    have hget : db.store.get key = (db.store.lookup key, (db.store.get key).2) :=
      Prod.ext (db.store.get_fst key) rfl
    simp only [Agrees, execute, Ref.exec, h.entry key]
    rw [hget]
    cases db.store.lookup key with
    | none => exact ⟨hsim, rfl⟩
    | some v => exact ⟨hsim, rfl⟩
  | [] | _ :: _ :: _ => exact agrees_arity h rfl rfl

theorem agrees_del (h : Sim db m) (args : List Bytes) :
    Agrees w db m now ⟨.DEL, name, args⟩ := by
  match args with
  | [key] =>
    refine ⟨h.unbind ?_ (db.store.lookup_del key) (db.expiry.expiryOf_cancel key), ?_⟩
    · simpa using h.unbounded
    · simp [execute, Ref.exec, h.entry key]
  | [] | _ :: _ :: _ => exact agrees_arity h rfl rfl

theorem agrees_ping (h : Sim db m) (args : List Bytes) :
    Agrees w db m now ⟨.PING, name, args⟩ := by
  match args with
  | [] => exact ⟨h, rfl⟩
  | _ :: _ => exact agrees_arity h rfl rfl

/-- `INCR` and `DECR` on a counter that stays a 64-bit integer. -/
theorem bump_agrees (h : Sim db m) (key : Bytes) {delta : Int}
    (hr : ∀ c, counter ((m.lookup key).map Prod.fst) = some c → IsInt64 (c + delta)) :
    Sim (incrementReply db key delta).db (m.bump key delta).1 ∧
      (incrementReply db key delta).reply = (m.bump key delta).2 := by
  unfold incrementReply Ref.bump
  rw [db.store.incrementBy_eq, h.value key]
  rw [h.value key] at hr
  cases hc : counter (db.store.lookup key) with
  | none => exact ⟨h, rfl⟩
  | some c =>
    simp only [Option.map_some, wrap64_of_isInt64 (hr c hc), h.expiry key, and_true]
    refine h.bind ?_ (Store.lookup_set h.unbounded key _) ?_ (fun t ht => h.range key t ht)
    · simpa using h.unbounded
    · intro x
      split
      · rename_i hx; rw [hx]
      · rfl

theorem agrees_incr (h : Sim db m) (args : List Bytes)
    (hr : m.InRange (.exec now ⟨.INCR, name, args⟩)) : Agrees w db m now ⟨.INCR, name, args⟩ := by
  match args with
  | [key] => exact bump_agrees h key hr
  | [] | _ :: _ :: _ => exact agrees_arity h rfl rfl

theorem agrees_decr (h : Sim db m) (args : List Bytes)
    (hr : m.InRange (.exec now ⟨.DECR, name, args⟩)) : Agrees w db m now ⟨.DECR, name, args⟩ := by
  match args with
  | [key] => exact bump_agrees h key hr
  | [] | _ :: _ :: _ => exact agrees_arity h rfl rfl

theorem agrees_ttl (h : Sim db m) (args : List Bytes) :
    Agrees w db m now ⟨.TTL, name, args⟩ := by
  match args with
  | [key] =>
    simp only [Agrees, execute, Ref.exec, h.entry key, Store.exists_eq]
    cases db.store.lookup key with
    | none => exact ⟨h, rfl⟩
    | some v =>
      cases hd : db.expiry.expiryOf key with
      | none => exact ⟨h, rfl⟩
      | some d =>
        simp only [Option.isSome_some, Bool.not_true, Bool.false_eq_true, ↓reduceIte,
          Option.map_some, remaining_eq (h.range key d hd), and_true]
        exact h
  | [] | _ :: _ :: _ => exact agrees_arity h rfl rfl

theorem agrees_expire (h : Sim db m) (args : List Bytes)
    (hr : m.InRange (.exec now ⟨.EXPIRE, name, args⟩)) :
    Agrees w db m now ⟨.EXPIRE, name, args⟩ := by
  match args with
  | [key, secs] =>
    simp only [Agrees, execute, Ref.exec, h.entry key, Store.exists_eq]
    cases hv : db.store.lookup key with
    | none => exact ⟨h, rfl⟩
    | some v =>
      cases hsec : parsePositiveSeconds secs with
      | none => exact ⟨h, rfl⟩
      | some s =>
        have hd : IsInt64 (now.ns + s * 10 ^ 9) := hr (by simp [h.entry key, hv]) s hsec
        have hpos := pos_of_parsePositiveSeconds hsec
        have hnow := now.isInt64.1
        simp only [Option.isSome_some, Bool.not_true, Bool.false_eq_true, ↓reduceIte,
          Option.map_some, deadline_eq hd, and_true]
        refine h.bind h.unbounded ?_ (db.expiry.expiryOf_schedule key · _) ?_
        · rw [← hv, Function.update_eq_self]
        · rintro t ⟨⟩
          exact ⟨by omega, hd.2⟩
  | [] | [_] | _ :: _ :: _ :: _ => exact agrees_arity h rfl rfl

theorem agrees_persist (h : Sim db m) (args : List Bytes) :
    Agrees w db m now ⟨.PERSIST, name, args⟩ := by
  match args with
  | [key] =>
    simp only [Agrees, execute, Ref.exec, h.entry key, Store.exists_eq]
    cases hv : db.store.lookup key with
    | none => exact ⟨h, rfl⟩
    | some v =>
      have hbind : Sim ⟨db.store, db.expiry.cancel key⟩ (m.insert key (v, none)) :=
        h.bind h.unbounded (by rw [← hv, Function.update_eq_self])
          (db.expiry.expiryOf_cancel key) (by simp)
      cases hd : db.expiry.expiryOf key with
      | some d => exact ⟨hbind, rfl⟩
      | none =>
        -- There was no deadline: the map already has this entry.
        have hins : m.insert key (v, none) = m := by
          refine Finmap.ext_lookup fun x => ?_
          by_cases hx : x = key
          · subst hx
            rw [Finmap.lookup_insert, h.entry x, hv, hd]
            rfl
          · rw [Finmap.lookup_insert_of_ne _ hx]
        rw [hins] at hbind
        exact ⟨hbind, rfl⟩
  | [] | _ :: _ :: _ => exact agrees_arity h rfl rfl

/-- Each data command gives the same reply on the code and on the map. -/
theorem agrees (h : Sim db m) {cmd : Command} (hdata : IsDataCommand cmd.type = true)
    (hr : m.InRange (.exec now cmd)) : Agrees w db m now cmd := by
  obtain ⟨type, name, args⟩ := cmd
  cases type with
  | SET => exact agrees_set h args hr
  | GET => exact agrees_get h args
  | DEL => exact agrees_del h args
  | PING => exact agrees_ping h args
  | INCR => exact agrees_incr h args hr
  | DECR => exact agrees_decr h args hr
  | TTL => exact agrees_ttl h args
  | EXPIRE => exact agrees_expire h args hr
  | PERSIST => exact agrees_persist h args
  | SAVE | REPLICAOF | SYNC | ROUTE | NODES | UNKNOWN => simp [IsDataCommand] at hdata

/-- What a pop does to the database: a live entry takes its key out of the store. -/
theorem sweep_spec {e : HeapEntry} {db' : Db} (hs : db.sweep now e = some db') :
    db.expiry.IsTop e ∧ e.when ≤ now.ns ∧ db'.expiry = (db.expiry.popTop e).1 ∧
      db'.store = if db.expiry.expiryOf e.key = some e.when then (db.store.del e.key).2
        else db.store := by
  unfold Db.sweep at hs
  split at hs
  · rename_i htop
    refine ⟨htop.1, htop.2, ?_⟩
    have hkey := (db.expiry.popTop_spec e).1
    split at hs
    · rename_i expiry hp
      rw [hp] at hkey ⊢
      cases hs
      by_cases hl : db.expiry.expiryOf e.key = some e.when
      · rw [if_pos hl] at hkey
        cases hkey
      · exact ⟨rfl, (if_neg hl).symm⟩
    · rename_i expiry key hp
      rw [hp] at hkey ⊢
      cases hs
      by_cases hl : db.expiry.expiryOf e.key = some e.when
      · rw [if_pos hl] at hkey ⊢
        cases hkey
        exact ⟨rfl, rfl⟩
      · rw [if_neg hl] at hkey
        cases hkey
  · cases hs

/-- A pop of the sweeper removes the entry of the map if the deadline is live, else nothing. -/
theorem sweep_sim (h : Sim db m) {e : HeapEntry} {db' : Db} (hs : db.sweep now e = some db') :
    Sim db' (m.sweep now e) := by
  obtain ⟨-, hdue, hexpiry, hstore⟩ := sweep_spec hs
  have hexp := (db.expiry.popTop_spec e).2
  rw [← hexpiry] at hexp
  unfold Ref.sweep
  rw [h.expiry e.key]
  by_cases hl : db.expiry.expiryOf e.key = some e.when
  · rw [if_pos hl] at hstore
    rw [if_pos ⟨hl, hdue⟩]
    refine h.unbind (by simpa [hstore] using h.unbounded) ?_ fun x => ?_
    · rw [hstore]
      exact db.store.lookup_del e.key
    · simpa [hl] using hexp x
  · rw [if_neg hl] at hstore
    rw [if_neg fun hc => hl hc.1]
    have hsame : ∀ x, db'.expiry.expiryOf x = db.expiry.expiryOf x := fun x => by
      simpa [hl] using hexp x
    refine ⟨by rw [hstore]; exact h.unbounded, fun k => ?_, fun k hk => ?_, fun k d hd => ?_⟩
    · rw [hsame, hstore]
      exact h.entry k
    · rw [hsame]
      exact h.keys k (by rw [← hstore]; exact hk)
    · exact h.range k d (hsame k ▸ hd)

end Commands

/-- The action is a sweeper step or one of the nine data commands. -/
def Action.IsData : Action → Prop
  | .exec _ cmd => IsDataCommand cmd.type = true
  | .sweep _ _ => True

/-- One step of the code is a step of the map with the same reply. -/
theorem step_sim {w : Wiring} (db : Db) (m : Ref) (a : Action) (db' : Db) (o : Option Bytes)
    (h : Sim db m) (hC : a.IsData ∧ m.InRange a) (hs : (dbMachine w).step db a = some (db', o)) :
    ∃ m', refMachine.step m a = some (m', o) ∧ Sim db' m' := by
  cases a with
  | exec now cmd =>
    cases hs
    obtain ⟨hsim, hrep⟩ := agrees (w := w) h hC.1 hC.2
    have hdata : IsDataCommand cmd.type = true := hC.1
    exact ⟨_, by simp [refMachine, hdata, hrep], hsim⟩
  | sweep now e =>
    obtain ⟨db₁, hdb, heq⟩ := Option.map_eq_some_iff.mp hs
    cases heq
    exact ⟨_, rfl, sweep_sim h hdb⟩

/-- **The code is the map.** For a run of data commands and sweeper pops from an empty unbounded
store, in which no counter or deadline of the map leaves the 64-bit range, every reply is the reply
of the map, the code holds what the map holds, and only keys of the store have a deadline. -/
theorem execute_refines_reference (w : Wiring) (acts : List Action) {db : Db}
    {replies : List (Option Bytes)}
    (hrange : refMachine.Along (fun m a => a.IsData ∧ m.InRange a) ∅ acts)
    (hrun : (dbMachine w).run (Db.empty 0) acts = some (db, replies)) :
    (∃ m, refMachine.run ∅ acts = some (m, replies) ∧
      ∀ k, m.lookup k = (db.store.lookup k).map fun v => (v, db.expiry.expiryOf k)) ∧
    ∀ k ∈ db.expiry.currentExpiry.keys, ∃ v, db.store.lookup k = some v := by
  obtain ⟨m, hm, hsim⟩ := Machine.run_simulates step_sim hrange hrun Sim.empty
  refine ⟨⟨m, hm, hsim.entry⟩, fun k hk => ?_⟩
  by_contra hno
  have hnone : db.store.lookup k = none := by
    simpa [Option.eq_none_iff_forall_ne_some] using hno
  have hexp := hsim.keys k hnone
  exact Finmap.lookup_eq_none.mp hexp (Finmap.mem_keys.mp hk)

/-- A key with a TTL, a counter without one: the counter grows, the other key is swept. -/
def sweepDemo : List Action :=
  [.exec .epoch ⟨.SET, ascii "SET", [ascii "t", ascii "1", ascii "ex", ascii "10"]⟩,
    .exec ⟨1, by decide⟩ ⟨.INCR, ascii "INCR", [ascii "n"]⟩,
    .exec ⟨2 * 10 ^ 9, by decide⟩ ⟨.TTL, ascii "TTL", [ascii "t"]⟩,
    .sweep ⟨10 ^ 10, by decide⟩ ⟨10 ^ 10, ascii "t"⟩,
    .exec ⟨10 ^ 10, by decide⟩ ⟨.GET, ascii "GET", [ascii "t"]⟩]

theorem execute_refines_reference_sweepDemo :
    ∃ m, refMachine.run ∅ sweepDemo = some (m, [some (ascii "+OK"), some (ascii ":1"),
      some (ascii ":8"), none, some (ascii "$-1")]) := by
  have hout : ((dbMachine ⟨true, true⟩).run (Db.empty 0) sweepDemo).map Prod.snd =
      some [some (ascii "+OK"), some (ascii ":1"), some (ascii ":8"), none, some (ascii "$-1")] := by
    decide +kernel
  obtain ⟨⟨db, _⟩, hrun, rfl⟩ := Option.map_eq_some_iff.mp hout
  have hrange : refMachine.Along (fun m a => a.IsData ∧ m.InRange a) ∅ sweepDemo := by
    refine ⟨⟨rfl, ?_⟩, fun _ _ h₁ => ⟨⟨rfl, ?_⟩, fun _ _ h₂ => ⟨⟨rfl, trivial⟩, fun _ _ h₃ =>
      ⟨⟨trivial, trivial⟩, fun _ _ h₄ => ⟨⟨rfl, trivial⟩, fun _ _ _ => trivial⟩⟩⟩⟩⟩
    · intro _ s hs
      have : s = 10 := by
        have e : parsePositiveSeconds (ascii "10") = some 10 := by decide
        rw [e] at hs; cases hs; rfl
      subst this
      decide
    · cases h₁
      intro c hc
      have : c = 0 := by
        cases hc
        rfl
      subst this
      decide
  obtain ⟨⟨m, hm, -⟩, -⟩ := execute_refines_reference ⟨true, true⟩ sweepDemo hrange hrun
  exact ⟨m, hm⟩

end TinyKV

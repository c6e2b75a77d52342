import TinyKV.CommandExecutor
import TinyKV.Lib.Keyed

/-!
# What a command does to the data

A command changes the key → value map at one key only, and what it does there depends on neither
the clock nor the TTL table. So on an unbounded store the map after any lines is a list of keyed
updates (`Lib/Keyed.lean`).

* `KeyOp`: what a command does to the value of its key: bind it, drop it, or add to a counter.
  `Command.effect`: the key and the operation of a command, if it has one.
* `execute_entries`: what `execute` does to the pairs of a store of any capacity, their order
  included. `execute_lookup`: the map of an unbounded store is updated by the command's effect.
* `apply_of_not_logged`: a command whose reply is an error, or that is no write command, has not
  changed the map. So the lines that the server logs are all the lines that matter.
* `onEntries_words`: keys and values stay whitespace-free tokens.
-/

namespace TinyKV

open Cpp Recency
open KVStore (counter)

/-! ## Effects -/

/-- What a command does to the value of its key. -/
inductive KeyOp where
  /-- Bind the key to a value, or drop it. -/
  | assign (value : Option Bytes)
  /-- Add to the counter of the key; a value that is no number stays. -/
  | bump (delta : Int)
  deriving DecidableEq

/-- The value of the key after the operation. -/
def KeyOp.app : KeyOp → Option Bytes → Option Bytes
  | .assign v, _ => v
  | .bump d, x =>
    match counter x with
    | none => x
    | some c => some (to_string (wrap64 (c + d)))

def KeyOp.isBump : KeyOp → Bool
  | .assign _ => false
  | .bump _ => true

/-- The key that a command changes, and how. -/
def Command.effect (cmd : Command) : Option (Bytes × KeyOp) :=
  match cmd.type, cmd.args with
  | .SET, [key, value] => some (key, .assign (some value))
  | .SET, [key, value, opt, secs] =>
    if equalsIgnoreCase opt (ascii "EX") && (parsePositiveSeconds secs).isSome then
      some (key, .assign (some value))
    else none
  | .DEL, [key] => some (key, .assign none)
  | .INCR, [key] => some (key, .bump 1)
  | .DECR, [key] => some (key, .bump (-1))
  | _, _ => none

/-- Run keyed updates on a key → value map. -/
abbrev applyAll (m : KvMap) (us : List (Bytes × KeyOp)) : KvMap := Keyed.run KeyOp.app m us

/-- The map after a command. -/
def Command.apply (cmd : Command) (m : KvMap) : KvMap := applyAll m cmd.effect.toList

/-! ## Operations on one key -/

theorem isInt64_counter {x : Option Bytes} {c : Int} (h : counter x = some c) : IsInt64 c := by
  cases x with
  | none => cases h; decide
  | some v => exact isInt64_of_stoll h

@[simp] theorem counter_to_string (n : Int) :
    counter (some (to_string (wrap64 n))) = some (wrap64 n) := stoll_to_string (isInt64_wrap64 n)

/-- What the counter operations of a list add up to. -/
def net : List KeyOp → Int
  | [] => 0
  | .assign _ :: ops => net ops
  | .bump d :: ops => d + net ops

/-- After an assignment the old value does not matter. -/
theorem runCell_of_assign {v : Option Bytes} {ops : List KeyOp} (h : .assign v ∈ ops)
    (x y : Option Bytes) : Keyed.runCell KeyOp.app x ops = Keyed.runCell KeyOp.app y ops := by
  induction ops generalizing x y with
  | nil => cases h
  | cons o ops ih =>
    rw [Keyed.runCell_cons, Keyed.runCell_cons]
    rcases List.mem_cons.mp h with rfl | h
    · rfl
    · exact ih h _ _

/-- Counter operations alone add their sum to a number and leave anything else. -/
theorem runCell_bumps {ops : List KeyOp} (h : ∀ v, .assign v ∉ ops) (hne : ops ≠ [])
    (x : Option Bytes) :
    Keyed.runCell KeyOp.app x ops =
      match counter x with
      | none => x
      | some c => some (to_string (wrap64 (c + net ops))) := by
  induction ops generalizing x with
  | nil => exact absurd rfl hne
  | cons o ops ih =>
    cases o with
    | assign v => exact absurd List.mem_cons_self (h v)
    | bump d =>
      rw [Keyed.runCell_cons]
      by_cases he : ops = []
      · subst he
        simp only [Keyed.runCell_nil, KeyOp.app, net, Int.add_zero]
      · rw [ih (fun v hv => h v (List.mem_cons_of_mem _ hv)) he, KeyOp.app]
        cases hx : counter x with
        | none => simp only [hx]
        | some c =>
          simp only [counter_to_string, wrap64_wrap64_add, net, Int.add_assoc]

/-- The operations give the same in both orders: two assignments of one value, two counter
operations, or an assignment of a value that is no number and a counter operation. -/
def KeyOp.commutes : KeyOp → KeyOp → Bool
  | .assign v, .assign v' => v = v'
  | .bump _, .bump _ => true
  | .assign v, .bump d => (KeyOp.bump d).app v = v
  | .bump d, .assign v => (KeyOp.bump d).app v = v

theorem KeyOp.app_comm {o o' : KeyOp} (h : o.commutes o' = true) (x : Option Bytes) :
    o.app (o'.app x) = o'.app (o.app x) := by
  cases o with
  | assign v =>
    cases o' with
    | assign v' => exact of_decide_eq_true h
    | bump d => exact (of_decide_eq_true h).symm
  | bump d =>
    cases o' with
    | assign v => exact of_decide_eq_true h
    | bump d' =>
      simp only [KeyOp.app]
      cases hx : counter x with
      | none => simp only [hx]
      | some c =>
        simp only [counter_to_string, wrap64_wrap64_add]
        rw [Int.add_assoc, Int.add_assoc, Int.add_comm d' d]

/-! ## The pairs of a store of any capacity -/

/-- The pairs after the operation on the key. -/
def KeyOp.onEntries (c : Nat) (key : Bytes) (es : List (Bytes × Bytes)) :
    KeyOp → List (Bytes × Bytes)
  | .assign (some v) => trim c (put key v es)
  | .assign none => remove key es
  | .bump d =>
    match counter (find key es) with
    | none => es
    | some n => trim c (put key (to_string (wrap64 (n + d))) es)

/-- The pairs after a command: a `GET` that hits moves its pair to the front. -/
def Command.onEntries (cmd : Command) (c : Nat) (es : List (Bytes × Bytes)) :
    List (Bytes × Bytes) :=
  match cmd.type, cmd.args with
  | .GET, [key] =>
    match find key es with
    | none => es
    | some v => put key v es
  | _, _ =>
    match cmd.effect with
    | none => es
    | some (key, op) => op.onEntries c key es

theorem onEntries_eq {cmd : Command} (h : cmd.type ≠ .GET) (c : Nat) (es : List (Bytes × Bytes)) :
    cmd.onEntries c es = match cmd.effect with
      | none => es
      | some (key, op) => op.onEntries c key es := by
  unfold Command.onEntries
  split
  · rename_i ht _; exact absurd ht h
  · rfl

theorem incrementReply_entries (db : Db) (key : Bytes) (delta : Int) :
    (incrementReply db key delta).db.store.entries =
      (KeyOp.bump delta).onEntries db.store.capacity key db.store.entries ∧
    (incrementReply db key delta).db.store.capacity = db.store.capacity := by
  unfold incrementReply KeyOp.onEntries
  rw [db.store.incrementBy_eq, Store.lookup]
  cases counter (find key db.store.entries) with
  | none => exact ⟨rfl, rfl⟩
  | some n => exact ⟨db.store.entries_set _ _, db.store.capacity_set _ _⟩

/-- What `GET` of a key does and answers. -/
theorem execute_get (w : Wiring) (db : Db) (now : Now) (name key : Bytes) :
    execute w db now ⟨.GET, name, [key]⟩ =
      { db := { db with store := (db.store.get key).2 }
        reply := (db.store.lookup key).elim Reply.nil Reply.bulk } := by
  have hget : db.store.get key = (db.store.lookup key, (db.store.get key).2) :=
    Prod.ext (db.store.get_fst key) rfl
  simp only [execute]
  rw [hget]
  cases db.store.lookup key <;> rfl

/-- What `execute` does to the store. -/
theorem execute_store (w : Wiring) (db : Db) (now : Now) (cmd : Command) :
    (execute w db now cmd).db.store.entries = cmd.onEntries db.store.capacity db.store.entries ∧
    (execute w db now cmd).db.store.capacity = db.store.capacity := by
  obtain ⟨type, name, args⟩ := cmd
  cases type with
  | SET =>
    match args with
    | [key, value] => exact ⟨db.store.entries_set _ _, db.store.capacity_set _ _⟩
    | [key, value, opt, secs] =>
      simp only [execute, Command.onEntries, Command.effect]
      cases equalsIgnoreCase opt (ascii "EX") with
      | false => exact ⟨rfl, rfl⟩
      | true =>
        cases parsePositiveSeconds secs with
        | none => exact ⟨rfl, rfl⟩
        | some s => exact ⟨db.store.entries_set _ _, db.store.capacity_set _ _⟩
    | [] | [_] | [_, _, _] | _ :: _ :: _ :: _ :: _ :: _ => exact ⟨rfl, rfl⟩
  | GET =>
    match args with
    | [key] =>
      rw [execute_get]
      exact ⟨db.store.entries_get key, db.store.capacity_get key⟩
    | [] | _ :: _ :: _ => exact ⟨rfl, rfl⟩
  | DEL =>
    match args with
    | [key] => exact ⟨db.store.entries_del key, db.store.capacity_del key⟩
    | [] | _ :: _ :: _ => exact ⟨rfl, rfl⟩
  | INCR =>
    match args with
    | [key] => exact incrementReply_entries db key 1
    | [] | _ :: _ :: _ => exact ⟨rfl, rfl⟩
  | DECR =>
    match args with
    | [key] => exact incrementReply_entries db key (-1)
    | [] | _ :: _ :: _ => exact ⟨rfl, rfl⟩
  | PING | TTL | EXPIRE | PERSIST | SAVE | REPLICAOF =>
    -- These never touch the store.
    simp only [execute]
    repeat' split
    all_goals exact ⟨rfl, rfl⟩
  | SYNC | ROUTE | NODES | UNKNOWN => exact ⟨rfl, rfl⟩

theorem execute_entries (w : Wiring) (db : Db) (now : Now) (cmd : Command) :
    (execute w db now cmd).db.store.entries = cmd.onEntries db.store.capacity db.store.entries :=
  (execute_store w db now cmd).1

@[simp] theorem execute_capacity (w : Wiring) (db : Db) (now : Now) (cmd : Command) :
    (execute w db now cmd).db.store.capacity = db.store.capacity :=
  (execute_store w db now cmd).2

/-! ## The map of an unbounded store -/

theorem KeyOp.find_onEntries (key x : Bytes) (es : List (Bytes × Bytes)) (op : KeyOp) :
    find x (op.onEntries 0 key es) =
      if x = key then op.app (find key es) else find x es := by
  cases op with
  | assign v =>
    cases v with
    | none => exact find_remove key x es
    | some v => exact find_put key x v es
  | bump d =>
    simp only [KeyOp.onEntries, KeyOp.app]
    cases counter (find key es) with
    | none => split <;> simp_all
    | some n => exact find_put key x _ es

theorem find_onEntries (cmd : Command) (es : List (Bytes × Bytes)) (x : Bytes) :
    find x (cmd.onEntries 0 es) = cmd.apply (fun k => find k es) x := by
  obtain ⟨type, name, args⟩ := cmd
  unfold Command.onEntries
  split
  · -- A hit rebinds the key to its own value.
    rename_i key ht ha
    simp only at ht ha
    subst ht ha
    show _ = find x es
    cases hf : find key es with
    | none => rfl
    | some v =>
      rw [find_put]
      split
      · rename_i hx; rw [hx]; exact hf.symm
      · rfl
  · unfold Command.apply
    cases he : (Command.mk type name args).effect with
    | none => rfl
    | some u =>
      simp only [Option.toList_some, Keyed.run_cons, Keyed.run_nil, Keyed.step]
      rw [KeyOp.find_onEntries, Function.update_apply]

/-- On an unbounded store the map is updated by the command's effect. -/
theorem execute_lookup {db : Db} (hc : db.store.capacity = 0) (w : Wiring) (now : Now)
    (cmd : Command) : (execute w db now cmd).db.store.lookup = cmd.apply db.store.lookup := by
  funext x
  rw [Store.lookup, execute_entries, hc]
  exact find_onEntries cmd db.store.entries x

/-! ## Logged commands -/

/-- `!response.empty() && response[0] != '-'`: how the server tells success. -/
def succeeded (response : Bytes) : Bool := !response.isEmpty && response.head? != some 45

/-- The command is recorded and propagated: it is a write command and it succeeded. -/
def logged (cmd : Command) (response : Bytes) : Bool :=
  succeeded response && isWriteCommand cmd.type

@[simp] theorem succeeded_ok : succeeded Reply.ok = true := by decide

/-- A command that binds or drops its key is logged. -/
theorem logged_of_assign {w : Wiring} {db : Db} {now : Now} {cmd : Command} {key : Bytes}
    {v : Option Bytes} (h : cmd.effect = some (key, .assign v)) :
    logged cmd (execute w db now cmd).reply = true := by
  obtain ⟨type, name, args⟩ := cmd
  unfold Command.effect at h
  split at h
  · rename_i ht ha
    simp only at ht ha
    subst ht ha
    rfl
  · rename_i opt secs ht ha
    simp only at ht ha
    subst ht ha
    split at h
    · rename_i hex
      obtain ⟨hopt, hsec⟩ := Bool.and_eq_true_iff.mp hex
      obtain ⟨s, hs⟩ := Option.isSome_iff_exists.mp hsec
      simp [execute, hopt, hs, logged, isWriteCommand]
    · cases h
  · rename_i ht ha
    simp only at ht ha
    subst ht ha
    rfl
  all_goals cases h

/-- `INCR` or `DECR` is logged if the value of the key is a number. -/
theorem logged_of_bump {w : Wiring} {db : Db} {now : Now} {cmd : Command} {key : Bytes}
    {d : Int} (h : cmd.effect = some (key, .bump d)) :
    logged cmd (execute w db now cmd).reply = (counter (db.store.lookup key)).isSome := by
  obtain ⟨type, name, args⟩ := cmd
  have hrep : ∀ delta, succeeded (incrementReply db key delta).reply =
      (counter (db.store.lookup key)).isSome := fun delta => by
    unfold incrementReply
    rw [db.store.incrementBy_eq]
    cases counter (db.store.lookup key) <;> rfl
  unfold Command.effect at h
  split at h
  · cases h
  · split at h <;> cases h
  · cases h
  · rename_i ht ha
    simp only at ht ha
    subst ht ha
    cases h
    simp [execute, logged, isWriteCommand, hrep]
  · rename_i ht ha
    simp only at ht ha
    subst ht ha
    cases h
    simp [execute, logged, isWriteCommand, hrep]
  · cases h

/-- A command that is not logged has not changed the map. -/
theorem apply_of_not_logged {w : Wiring} {db : Db} {now : Now} {cmd : Command}
    (h : logged cmd (execute w db now cmd).reply = false) :
    cmd.apply db.store.lookup = db.store.lookup := by
  unfold Command.apply
  cases he : cmd.effect with
  | none => rfl
  | some u =>
    obtain ⟨key, op⟩ := u
    cases op with
    | assign v => rw [logged_of_assign he] at h; cases h
    | bump d =>
      rw [logged_of_bump he] at h
      have hc : counter (db.store.lookup key) = none :=
        Option.not_isSome_iff_eq_none.mp (by rw [h]; simp)
      simp [Keyed.step, KeyOp.app, hc]

/-! ## Keys and values are words -/

/-- The key of an effect, and the value that it binds, are arguments. -/
theorem effect_args {cmd : Command} {key : Bytes} {op : KeyOp} (h : cmd.effect = some (key, op)) :
    key ∈ cmd.args ∧ ∀ v, op = .assign (some v) → v ∈ cmd.args := by
  obtain ⟨type, name, args⟩ := cmd
  unfold Command.effect at h
  split at h
  · rename_i ha
    simp only at ha
    subst ha
    cases h
    exact ⟨by simp, by rintro v ⟨⟩; simp⟩
  · rename_i ha
    simp only at ha
    subst ha
    split at h
    · cases h
      exact ⟨by simp, by rintro v ⟨⟩; simp⟩
    · cases h
  · rename_i ha
    simp only at ha
    subst ha
    cases h
    exact ⟨by simp, by rintro v ⟨⟩⟩
  · rename_i ha
    simp only at ha
    subst ha
    cases h
    exact ⟨by simp, by rintro v ⟨⟩⟩
  · rename_i ha
    simp only at ha
    subst ha
    cases h
    exact ⟨by simp, by rintro v ⟨⟩⟩
  · cases h

/-- What holds of all pairs, and of the pair that a command binds, holds after the command. -/
theorem onEntries_forall {P : Bytes → Bytes → Prop} {cmd : Command}
    (hset : ∀ k v, cmd.effect = some (k, .assign (some v)) → P k v)
    (hbump : ∀ k d n, cmd.effect = some (k, .bump d) → P k (to_string (wrap64 n)))
    (c : Nat) {es : List (Bytes × Bytes)} (h : ∀ k v, (k, v) ∈ es → P k v) :
    ∀ k v, (k, v) ∈ cmd.onEntries c es → P k v := by
  have hput : ∀ {k v : Bytes}, P k v → ∀ k' v', (k', v') ∈ trim c (put k v es) → P k' v' := by
    intro k v hkv k' v' hm
    rcases mem_put.mp (mem_of_mem_trim hm) with he | ⟨hm', -⟩
    · cases he
      exact hkv
    · exact h k' v' hm'
  by_cases hget : cmd.type = .GET
  · unfold Command.onEntries
    split
    · split
      · exact h
      · rename_i key _ _ w hf
        intro k v hm
        rcases mem_put.mp hm with he | ⟨hm', -⟩
        · cases he
          exact h _ _ (mem_of_find hf)
        · exact h k v hm'
    · obtain ⟨type, name, args⟩ := cmd
      simp only at hget
      subst hget
      exact h
  · rw [onEntries_eq hget]
    cases he : cmd.effect with
    | none => exact h
    | some u =>
      obtain ⟨key, op⟩ := u
      cases op with
      | assign w =>
        cases w with
        | none => exact fun k v hm => h k v (mem_remove.mp hm).1
        | some w => exact hput (hset key w he)
      | bump d =>
        simp only [KeyOp.onEntries]
        split
        · exact h
        · exact hput (hbump key d _ he)

/-- Every key and every value is one word. -/
def WordEntries (es : List (Bytes × Bytes)) : Prop :=
  ∀ k v, (k, v) ∈ es → Text.IsWord isspace k ∧ Text.IsWord isspace v

/-- A command whose arguments are words keeps the keys and values words. -/
theorem onEntries_words {cmd : Command} (ha : ∀ a ∈ cmd.args, Text.IsWord isspace a) (c : Nat)
    {es : List (Bytes × Bytes)} (h : WordEntries es) : WordEntries (cmd.onEntries c es) := by
  refine onEntries_forall (fun k v he => ?_) (fun k d n he => ?_) c h
  · obtain ⟨hk, hv⟩ := effect_args he
    exact ⟨ha k hk, ha v (hv v rfl)⟩
  · exact ⟨ha k (effect_args he).1, isWord_to_string _⟩

end TinyKV

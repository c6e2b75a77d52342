import TinyKV.Steps
import TinyKV.Reference

/-!
# Two write commands at once

A write command works on the value of its key in one call and on the deadline in another one. Two
clients that write the same key can see each other between these calls, and then the value is from
one command and the deadline from the other one, or a reply fits neither order.

* `CellAct`: what a write command does to the cell of its key, call by call (`CellAct.prog`).
  `Command.act`: which of these a command is. `follows_executeSteps`: its calls are those.
* `CellAct.Compatible x a b`: the two commands end like one of the two serial orders from the cell
  `x`, whatever the interleaving (`serializable_iff`).
* `Atomic`: the same for two commands on a store. `atomic_iff`: on an unbounded store this is so
  exactly if the keys differ or the commands are compatible at their key.
-/

namespace TinyKV

open Cpp Prog
open KVStore (counter)

/-! ## Write commands on a cell -/

/-- What a write command does to the cell of its key. -/
inductive CellAct where
  /-- `SET`, with the deadline of `EX`. -/
  | set (value : Bytes) (deadline : Option Int)
  | del
  /-- `INCR` and `DECR`. -/
  | bump (delta : Int)
  | expire (deadline : Int)
  | persist
  /-- An error that is found before any call. -/
  | reject (reply : Bytes)
  /-- `EXPIRE` with seconds that are no number: the key is looked up first. -/
  | rejectExpire

namespace CellAct

/-- The calls, as steps on the cell. -/
def prog : CellAct → Prog Cell (Bytes × Option Call)
  | .set value deadline =>
    .step (fun x => { x with value := some value }) fun _ =>
    .step (fun x => { x with deadline := deadline }) fun _ => .done (Reply.ok, none)
  | .del =>
    .step (fun x => { x with value := none }) fun x =>
    .step (fun y => { y with deadline := none }) fun _ =>
      .done (Reply.integer (if x.value.isSome then 1 else 0), none)
  | .bump delta => .step (fun x => (x.bump delta).1) fun x => .done ((x.bump delta).2, none)
  | .expire deadline =>
    .step id fun x =>
      if x.value.isSome then
        .step (fun y => { y with deadline := some deadline }) fun _ =>
          .done (Reply.integer 1, none)
      else .done (Reply.integer 0, none)
  | .persist =>
    .step id fun x =>
      if x.value.isSome then
        .step id fun y =>
        .step (fun z => { z with deadline := none }) fun _ =>
          .done (Reply.integer (if y.deadline.isSome then 1 else 0), none)
      else .done (Reply.integer 0, none)
  | .reject reply => .done (reply, none)
  | .rejectExpire =>
    .step id fun x =>
      if x.value.isSome then
        .done (Reply.error (ascii "value is not an integer or out of range"), none)
      else .done (Reply.integer 0, none)

/-- What has to hold of the cell so that no interleaving shows. -/
def Compatible (x : Cell) : CellAct → CellAct → Prop
  | .set v d, .set v' d' => v = v' ∨ d = d'
  | .set _ d, .del | .del, .set _ d => d = none
  | .set _ d, .expire t | .expire t, .set _ d => x.value.isSome = true ∨ d = some t
  | .del, .expire _ | .expire _, .del => x.value = none
  | .set _ none, .persist | .persist, .set _ none => x.value.isSome = true ∨ x.deadline = none
  | .set _ (some _), .persist | .persist, .set _ (some _) =>
    x.value.isSome = true ∧ x.deadline.isSome = true
  | .expire _, .persist | .persist, .expire _ => x.value = none ∨ x.deadline.isSome = true
  | .persist, .persist => x.value = none ∨ x.deadline = none
  | _, _ => True

end CellAct

/-- Which of these a write command is. -/
def Command.act (cmd : Command) (now : Now) : CellAct :=
  match cmd.type, cmd.args with
  | .SET, [_, value] => .set value none
  | .SET, [_, value, opt, secs] =>
    if equalsIgnoreCase opt (ascii "EX") then
      match parsePositiveSeconds secs with
      | none => .reject (Reply.error (ascii "invalid expire time in 'SET' command"))
      | some seconds => .set value (some (deadline now seconds))
    else .reject (arityError cmd)
  | .DEL, [_] => .del
  | .INCR, [_] => .bump 1
  | .DECR, [_] => .bump (-1)
  | .EXPIRE, [_, secs] =>
    match parsePositiveSeconds secs with
    | none => .rejectExpire
    | some seconds => .expire (deadline now seconds)
  | .PERSIST, [_] => .persist
  | _, _ => .reject (arityError cmd)

/-! ## The calls of a write command -/

section

variable {w : Wiring} {now : Now} {name key : Bytes}

theorem follows_bump (key : Bytes) (delta : Int) :
    (incrementSteps key delta).Follows Unbounded (Db.cell · key) (CellAct.bump delta).prog := by
  refine (worksOn_incrementBy key delta).follows fun db => ?_
  rw [db.store.incrementBy_eq, Cell.bump, show (db.cell key).value = db.store.lookup key from rfl]
  cases counter (db.store.lookup key) <;> rfl

theorem follows_exists {next : Bool → CommandProg} {yes no : Prog Cell (Bytes × Option Call)}
    (hyes : (next true).Follows Unbounded (Db.cell · key) yes)
    (hno : (next false).Follows Unbounded (Db.cell · key) no) :
    (Locked.exists key next).Follows Unbounded (Db.cell · key)
      (.step id fun x => if x.value.isSome then yes else no) := by
  refine (worksOn_id key).follows fun db => ?_
  rw [Store.exists_eq, show db.store.lookup key = (db.cell key).value from rfl]
  cases (db.cell key).value with
  | none => exact hno
  | some v => exact hyes

/-- On the cell of its key a write command is its `CellAct`. -/
theorem follows_executeSteps (w : Wiring) (now : Now) {cmd : Command}
    (hw : isWriteCommand cmd.type = true) (hkey : cmd.args.head? = some key) :
    (executeSteps w now cmd).Follows Unbounded (Db.cell · key) (cmd.act now).prog := by
  obtain ⟨type, name, args⟩ := cmd
  obtain ⟨args, rfl⟩ : ∃ as, args = key :: as := List.head?_eq_some_iff.mp hkey
  cases type with
  | SET =>
    match args with
    | [value] =>
      exact (worksOn_set key value).follows fun _ => (worksOn_cancel key).follows fun _ => rfl
    | [value, opt, secs] =>
      simp only [executeSteps, Command.act]
      split
      · cases parsePositiveSeconds secs with
        | none => exact rfl
        | some s =>
          exact (worksOn_set key value).follows fun _ =>
            (worksOn_schedule key _).follows fun _ => rfl
      · exact rfl
    | [] | [_, _] | _ :: _ :: _ :: _ :: _ => exact rfl
  | DEL =>
    match args with
    | [] =>
      refine (worksOn_del key).follows fun db => (worksOn_cancel key).follows fun _ => ?_
      rw [Store.del_fst]
      exact rfl
    | _ :: _ => exact rfl
  | INCR | DECR =>
    match args with
    | [] => exact follows_bump key _
    | _ :: _ => exact rfl
  | EXPIRE =>
    match args with
    | [secs] =>
      simp only [executeSteps, Command.act]
      cases parsePositiveSeconds secs with
      | none => exact follows_exists rfl rfl
      | some s => exact follows_exists ((worksOn_schedule key _).follows fun _ => rfl) rfl
    | [] | _ :: _ :: _ => exact rfl
  | PERSIST =>
    match args with
    | [] =>
      simp only [executeSteps, Command.act]
      exact follows_exists
        ((worksOn_id key).follows fun _ => (worksOn_cancel key).follows fun _ => rfl) rfl
    | _ :: _ => exact rfl
  | GET | PING | TTL | SAVE | REPLICAOF | SYNC | ROUTE | NODES | UNKNOWN => cases hw

end

/-! ## Two commands on one cell -/

/-- The replies of `DEL`, `EXPIRE` and `PERSIST` differ. -/
theorem integer_one_ne_zero : Reply.integer 1 ≠ Reply.integer 0 := by decide

/-- `INCR` and `DECR` leave a value behind, look at the value alone and keep the deadline. -/
theorem bump_eq (delta : Int) (v : Option Bytes) :
    ∃ v' reply, ∀ d, (⟨v, d⟩ : Cell).bump delta = (⟨some v', d⟩, reply) := by
  cases hc : counter v with
  | none =>
    cases v with
    | none => cases hc
    | some v =>
      refine ⟨v, Reply.error (ascii "value is not an integer or out of range"), fun d => ?_⟩
      simp only [Cell.bump, hc]
  | some c =>
    refine ⟨to_string (wrap64 (c + delta)), Reply.integer (wrap64 (c + delta)), fun d => ?_⟩
    simp only [Cell.bump, hc]

namespace CellAct

variable (x : Cell)

theorem serializable_set_set (v v' : Bytes) (d d' : Option Int) :
    Serializable (set v d).prog (set v' d').prog x ↔ v = v' ∨ d = d' := by
  -- The two interleavings that matter: one command has the last value, the other one the deadline.
  have hcross : Serializable (set v d).prog (set v' d').prog x ↔
      (d = d' ∨ v' = v) ∧ (v = v' ∨ d' = d) := by
    simp [Serializable, prog, serial, run]
  rw [hcross]
  grind

theorem serializable_set_del (v : Bytes) (d : Option Int) :
    Serializable (set v d).prog del.prog x ↔ d = none := by
  simp [Serializable, prog, serial, run, @eq_comm _ none d]

theorem serializable_set_expire (v : Bytes) (d : Option Int) (t : Int) :
    Serializable (set v d).prog (expire t).prog x ↔ x.value.isSome = true ∨ d = some t := by
  obtain ⟨_ | _, _⟩ := x <;> simp [Serializable, prog, serial, run, integer_one_ne_zero]

theorem serializable_set_persist (v : Bytes) (d : Option Int) :
    Serializable (set v d).prog persist.prog x ↔ Compatible x (set v d) persist := by
  obtain ⟨_ | _, _ | _⟩ := x <;> cases d <;>
    simp [Serializable, prog, serial, run, Compatible, integer_one_ne_zero,
      integer_one_ne_zero.symm]

theorem serializable_del_expire (t : Int) :
    Serializable del.prog (expire t).prog x ↔ x.value = none := by
  obtain ⟨_ | _, _⟩ := x <;> simp [Serializable, prog, serial, run]

theorem serializable_del_persist : Serializable del.prog persist.prog x := by
  obtain ⟨_ | _, _ | _⟩ := x <;> simp [Serializable, prog, serial, run]

theorem serializable_expire_persist (t : Int) :
    Serializable (expire t).prog persist.prog x ↔
      x.value = none ∨ x.deadline.isSome = true := by
  obtain ⟨_ | _, _ | _⟩ := x <;>
    simp [Serializable, prog, serial, run, integer_one_ne_zero.symm]

theorem serializable_persist_persist :
    Serializable persist.prog persist.prog x ↔ x.value = none ∨ x.deadline = none := by
  obtain ⟨_ | _, _ | _⟩ := x <;> simp [Serializable, prog, serial, run, integer_one_ne_zero]

theorem serializable_del_del : Serializable del.prog del.prog x := by
  simp [Serializable, prog, serial, run]

theorem serializable_expire_expire (t t' : Int) :
    Serializable (expire t).prog (expire t').prog x := by
  obtain ⟨_ | _, _⟩ := x <;> simp [Serializable, prog, serial, run]

/-- A counter has one call and leaves the deadline alone. -/
theorem serializable_bump (delta : Int) (a : CellAct) :
    Serializable (bump delta).prog a.prog x := by
  obtain ⟨v, d⟩ := x
  obtain ⟨n, reply, hbump⟩ := bump_eq delta v
  cases a with
  | set v' d' =>
    obtain ⟨n', reply', hbump'⟩ := bump_eq delta (some v')
    simp [Serializable, prog, serial, run, hbump, hbump']
  | del =>
    obtain ⟨n', reply', hbump'⟩ := bump_eq delta none
    simp [Serializable, prog, serial, run, hbump, hbump']
  | expire t => cases v <;> simp [Serializable, prog, serial, run, hbump]
  | persist => cases v <;> cases d <;> simp [Serializable, prog, serial, run, hbump]
  | bump delta' => simp [Serializable, prog, serial, run]
  | rejectExpire => cases v <;> simp [Serializable, prog, serial, run, hbump]
  | reject r => exact (serializable_done _ _ _).swap

/-- A look at the key that changes nothing. -/
theorem serializable_rejectExpire (a : CellAct) : Serializable rejectExpire.prog a.prog x := by
  obtain ⟨v, d⟩ := x
  cases a with
  | bump delta => exact (serializable_bump _ delta _).swap
  | reject r => exact (serializable_done _ _ _).swap
  | set v' d' => cases v <;> simp [Serializable, prog, serial, run]
  | del => cases v <;> simp [Serializable, prog, serial, run]
  | expire t => cases v <;> simp [Serializable, prog, serial, run]
  | persist => cases v <;> cases d <;> simp [Serializable, prog, serial, run]
  | rejectExpire => cases v <;> simp [Serializable, prog, serial, run]

/-- Every interleaving of two commands on a cell ends like one of the two serial orders exactly if
the commands are compatible there. -/
theorem serializable_iff (a b : CellAct) :
    Serializable a.prog b.prog x ↔ Compatible x a b := by
  cases a with
  | reject r => exact iff_of_true (serializable_done _ _ _) trivial
  | bump delta => exact iff_of_true (serializable_bump x delta b) trivial
  | rejectExpire => exact iff_of_true (serializable_rejectExpire x b) trivial
  | set v d =>
    cases b with
    | set v' d' => exact serializable_set_set x v v' d d'
    | del => exact serializable_set_del x v d
    | expire t => exact serializable_set_expire x v d t
    | persist => exact serializable_set_persist x v d
    | bump delta => exact iff_of_true (serializable_bump x delta _).swap trivial
    | reject r => exact iff_of_true (serializable_done _ _ _).swap trivial
    | rejectExpire => exact iff_of_true (serializable_rejectExpire x _).swap trivial
  | del =>
    cases b with
    | set v d => exact serializable_swap.trans (serializable_set_del x v d)
    | del => exact iff_of_true (serializable_del_del x) trivial
    | expire t => exact serializable_del_expire x t
    | persist => exact iff_of_true (serializable_del_persist x) trivial
    | bump delta => exact iff_of_true (serializable_bump x delta _).swap trivial
    | reject r => exact iff_of_true (serializable_done _ _ _).swap trivial
    | rejectExpire => exact iff_of_true (serializable_rejectExpire x _).swap trivial
  | expire t =>
    cases b with
    | set v d => exact serializable_swap.trans (serializable_set_expire x v d t)
    | del => exact serializable_swap.trans (serializable_del_expire x t)
    | expire t' => exact iff_of_true (serializable_expire_expire x t t') trivial
    | persist => exact serializable_expire_persist x t
    | bump delta => exact iff_of_true (serializable_bump x delta _).swap trivial
    | reject r => exact iff_of_true (serializable_done _ _ _).swap trivial
    | rejectExpire => exact iff_of_true (serializable_rejectExpire x _).swap trivial
  | persist =>
    cases b with
    | set v d =>
      refine serializable_swap.trans ((serializable_set_persist x v d).trans ?_)
      cases d <;> exact Iff.rfl
    | del => exact iff_of_true (serializable_del_persist x).swap trivial
    | expire t => exact serializable_swap.trans (serializable_expire_persist x t)
    | persist => exact serializable_persist_persist x
    | bump delta => exact iff_of_true (serializable_bump x delta _).swap trivial
    | reject r => exact iff_of_true (serializable_done _ _ _).swap trivial
    | rejectExpire => exact iff_of_true (serializable_rejectExpire x _).swap trivial

end CellAct

/-! ## Two commands on a store -/

/-- The values and deadlines of all keys, and the replies, after `cmd₁` and then `cmd₂`. -/
def inOrder (w : Wiring) (db : Db) (now₁ : Now) (cmd₁ : Command) (now₂ : Now) (cmd₂ : Command) :
    (Bytes → Cell) × (Bytes × Option Call) × (Bytes × Option Call) :=
  let o₁ := execute w db now₁ cmd₁
  let o₂ := execute w o₁.db now₂ cmd₂
  (o₂.db.cell, (o₁.reply, o₁.call), (o₂.reply, o₂.call))

/-- Every interleaving of the calls of two commands ends with the values, the deadlines and the
replies of one of the two orders. -/
def Atomic (w : Wiring) (db : Db) (now₁ : Now) (cmd₁ : Command) (now₂ : Now) (cmd₂ : Command) :
    Prop :=
  Always (executeSteps w now₁ cmd₁) (executeSteps w now₂ cmd₂) db fun (db', r₁, r₂) =>
    (db'.cell, r₁, r₂) = inOrder w db now₁ cmd₁ now₂ cmd₂ ∨
      (db'.cell, r₂, r₁) = inOrder w db now₂ cmd₂ now₁ cmd₁

section

variable {w : Wiring} {db : Db} {now₁ now₂ : Now} {cmd₁ cmd₂ : Command} {key : Bytes}

/-- The calls of two commands, one command after the other. -/
theorem inOrder_eq (w : Wiring) (db : Db) (now₁ now₂ : Now) (cmd₁ cmd₂ : Command) :
    inOrder w db now₁ cmd₁ now₂ cmd₂ =
      (((executeSteps w now₁ cmd₁).serial (executeSteps w now₂ cmd₂) db).1.cell,
        ((executeSteps w now₁ cmd₁).serial (executeSteps w now₂ cmd₂) db).2) := by
  simp only [serial, run_executeSteps, inOrder]

theorem atomic_of_serializable
    (h : Serializable (executeSteps w now₁ cmd₁) (executeSteps w now₂ cmd₂) db) :
    Atomic w db now₁ cmd₁ now₂ cmd₂ := by
  rintro ⟨db', r₁, r₂⟩ hx
  rw [inOrder_eq, inOrder_eq]
  rcases h _ hx with heq | heq
  · exact .inl (by rw [← heq])
  · exact .inr (by rw [← heq])

/-- A write command without a key is rejected before any call. -/
theorem executeSteps_of_no_key (w : Wiring) (now : Now) {cmd : Command}
    (hw : isWriteCommand cmd.type = true) (hkey : cmd.args = []) :
    executeSteps w now cmd = answer (arityError cmd) := by
  obtain ⟨type, name, args⟩ := cmd
  obtain rfl : args = [] := hkey
  cases type with
  | SET | DEL | INCR | DECR | EXPIRE | PERSIST => rfl
  | GET | PING | TTL | SAVE | REPLICAOF | SYNC | ROUTE | NODES | UNKNOWN => cases hw

theorem keeps_other (w : Wiring) (now : Now) {cmd : Command} {x : Bytes}
    (hkey : cmd.args.head? = some key) (hx : x ≠ key) :
    (executeSteps w now cmd).Keeps Unbounded (Db.cell · x) :=
  keeps_executeSteps w now fun h => hx (Option.some.inj (h.2.symm.trans hkey))

/-- Commands on different keys do not notice each other. -/
theorem atomic_of_ne (hdb : Unbounded db) (hw₁ : isWriteCommand cmd₁.type = true)
    (hw₂ : isWriteCommand cmd₂.type = true) {key₁ key₂ : Bytes}
    (hkey₁ : cmd₁.args.head? = some key₁) (hkey₂ : cmd₂.args.head? = some key₂)
    (hne : key₁ ≠ key₂) : Atomic w db now₁ cmd₁ now₂ cmd₂ := by
  -- All interleavings end alike, and the serial order is one of them.
  have hend : ∀ x, Interleaved (executeSteps w now₁ cmd₁) (executeSteps w now₂ cmd₂) db x →
      (x.1.cell key₁, x.2.1) = (cmd₁.act now₁).prog.run (db.cell key₁) ∧
      (x.1.cell key₂, x.2.2) = (cmd₂.act now₂).prog.run (db.cell key₂) := fun x hx =>
    hx.independent (follows_executeSteps w now₁ hw₁ hkey₁) (keeps_other w now₁ hkey₁ hne.symm)
      (follows_executeSteps w now₂ hw₂ hkey₂) (keeps_other w now₂ hkey₂ hne) hdb
  rintro ⟨db', r₁, r₂⟩ hx
  have hserial := interleaved_serial (executeSteps w now₁ cmd₁) (executeSteps w now₂ cmd₂) db
  rw [inOrder_eq]
  refine .inl ?_
  obtain ⟨h₁, h₂⟩ := hend _ hx
  obtain ⟨h₁', h₂'⟩ := hend _ hserial
  obtain ⟨hcell₁, hr₁⟩ := Prod.mk.inj (h₁.trans h₁'.symm)
  obtain ⟨hcell₂, hr₂⟩ := Prod.mk.inj (h₂.trans h₂'.symm)
  refine Prod.ext ?_ (Prod.ext hr₁ hr₂)
  funext x
  by_cases hx₁ : x = key₁
  · rw [hx₁]
    exact hcell₁
  by_cases hx₂ : x = key₂
  · rw [hx₂]
    exact hcell₂
  · have keeps₁ := keeps_other w now₁ hkey₁ hx₁
    have keeps₂ := keeps_other w now₂ hkey₂ hx₂
    exact (hx.keeps keeps₁ keeps₂ hdb).trans (hserial.keeps keeps₁ keeps₂ hdb).symm

/-- Commands on one key are commands on its cell. -/
theorem atomic_iff_serializable (hdb : Unbounded db) (hw₁ : isWriteCommand cmd₁.type = true)
    (hw₂ : isWriteCommand cmd₂.type = true) (hkey₁ : cmd₁.args.head? = some key)
    (hkey₂ : cmd₂.args.head? = some key) :
    Atomic w db now₁ cmd₁ now₂ cmd₂ ↔
      Serializable (cmd₁.act now₁).prog (cmd₂.act now₂).prog (db.cell key) := by
  have hf₁ := follows_executeSteps w now₁ hw₁ hkey₁
  have hf₂ := follows_executeSteps w now₂ hw₂ hkey₂
  have hserial₁ := hf₁.serial hf₂ hdb
  have hserial₂ := hf₂.serial hf₁ hdb
  constructor
  · intro h y hy
    obtain ⟨⟨db', r₁, r₂⟩, hx, rfl⟩ := exists_interleaved hy hf₁ hf₂ hdb rfl
    have hx' := h _ hx
    simp only [inOrder_eq] at hx'
    rw [← hserial₁, ← hserial₂]
    refine hx'.imp (fun heq => ?_) fun heq => ?_
    · obtain ⟨hcell, hr⟩ := Prod.mk.inj heq
      exact Prod.ext (congrFun hcell key) hr
    · obtain ⟨hcell, hr⟩ := Prod.mk.inj heq
      exact Prod.ext (congrFun hcell key) hr
  · rintro h ⟨db', r₁, r₂⟩ hx
    have hy := h _ (hx.follows hf₁ hf₂ hdb)
    rw [← hserial₁, ← hserial₂] at hy
    -- The other cells stay as they are, here and in the serial orders.
    have hothers : ∀ t r,
        Interleaved (executeSteps w now₁ cmd₁) (executeSteps w now₂ cmd₂) db (t, r) →
        t.cell key = db'.cell key → db'.cell = t.cell := by
      intro t r hy hkey
      funext x
      by_cases hxk : x = key
      · rw [hxk]
        exact hkey.symm
      · have keeps₁ := keeps_other w now₁ hkey₁ hxk
        have keeps₂ := keeps_other w now₂ hkey₂ hxk
        exact (hx.keeps keeps₁ keeps₂ hdb).trans (hy.keeps keeps₁ keeps₂ hdb).symm
    rw [inOrder_eq, inOrder_eq]
    refine hy.imp (fun heq => ?_) fun heq => ?_
    · obtain ⟨hcell, hr⟩ := Prod.mk.inj heq
      exact Prod.ext (hothers _ _ (interleaved_serial _ _ db) hcell.symm) hr
    · obtain ⟨hcell, hr⟩ := Prod.mk.inj heq
      exact Prod.ext (hothers _ _ (interleaved_serial _ _ db).swap hcell.symm) hr

end

/-- **Atomicity.** On an unbounded store, every interleaving of the calls of two write commands ends
with the values, the deadlines and the replies of one of the two orders, exactly if the commands
have different keys or are compatible at their key. -/
theorem atomic_iff (w : Wiring) {db : Db} (hdb : db.store.capacity = 0) (now₁ now₂ : Now)
    {cmd₁ cmd₂ : Command} (hw₁ : isWriteCommand cmd₁.type = true)
    (hw₂ : isWriteCommand cmd₂.type = true) :
    Atomic w db now₁ cmd₁ now₂ cmd₂ ↔
      ∀ key, cmd₁.args.head? = some key → cmd₂.args.head? = some key →
        CellAct.Compatible (db.cell key) (cmd₁.act now₁) (cmd₂.act now₂) := by
  cases hkey₁ : cmd₁.args.head? with
  | none =>
    refine iff_of_true (atomic_of_serializable ?_) fun key h => by cases h
    rw [executeSteps_of_no_key w now₁ hw₁ (List.head?_eq_none_iff.mp hkey₁)]
    exact serializable_done _ _ _
  | some key₁ =>
    cases hkey₂ : cmd₂.args.head? with
    | none =>
      refine iff_of_true (atomic_of_serializable ?_) fun key _ h => by cases h
      rw [executeSteps_of_no_key w now₂ hw₂ (List.head?_eq_none_iff.mp hkey₂)]
      exact (serializable_done _ _ _).swap
    | some key₂ =>
      by_cases hne : key₁ = key₂
      · subst hne
        rw [atomic_iff_serializable hdb hw₁ hw₂ hkey₁ hkey₂, CellAct.serializable_iff]
        constructor
        · rintro h key ⟨⟩ -
          exact h
        · exact fun h => h key₁ rfl rfl
      · refine iff_of_true (atomic_of_ne hdb hw₁ hw₂ hkey₁ hkey₂ hne) ?_
        rintro key ⟨⟩ ⟨⟩
        exact absurd rfl hne

/-- A store that holds the key `k`. -/
def oneKey : Db :=
  (execute ⟨true, true⟩ (Db.empty 0) .epoch ⟨.SET, ascii "SET", [ascii "k", ascii "1"]⟩).db

/-- `SET` and `EXPIRE` of a key that is there. -/
theorem atomic_iff_setAndExpire :
    Atomic ⟨true, true⟩ oneKey .epoch ⟨.SET, ascii "SET", [ascii "k", ascii "2"]⟩ .epoch
      ⟨.EXPIRE, ascii "EXPIRE", [ascii "k", ascii "10"]⟩ := by
  refine (atomic_iff _ (by decide +kernel) _ _ rfl rfl).mpr ?_
  rintro key ⟨⟩ -
  exact .inl (by decide +kernel)

def delKey : Command := ⟨.DEL, ascii "DEL", [ascii "k"]⟩

def setKeyEx : Command := ⟨.SET, ascii "SET", [ascii "k", ascii "2", ascii "EX", ascii "10"]⟩

/-- `DEL k` makes its first call, `SET k 2 EX 10` makes both of its calls, and then `DEL k` cancels
the new deadline. The key is there and has no deadline, which neither order gives. -/
theorem not_atomic_delAroundSetEx :
    (∃ db', Interleaved (executeSteps ⟨true, true⟩ .epoch delKey)
        (executeSteps ⟨true, true⟩ .epoch setKeyEx) oneKey
        (db', (ascii ":1", none), (ascii "+OK", none)) ∧
      db'.cell (ascii "k") = ⟨some (ascii "2"), none⟩) ∧
    ¬ ∀ (w : Wiring) (acts : List Action) (db : Db) (outs : List (Option Bytes)),
      (dbMachine w).run (Db.empty 0) acts = some (db, outs) →
      ∀ (now₁ now₂ : Now) (cmd₁ cmd₂ : Command), isWriteCommand cmd₁.type = true →
        isWriteCommand cmd₂.type = true → Atomic w db now₁ cmd₁ now₂ cmd₂ := by
  have hex : ∃ db', Interleaved (executeSteps ⟨true, true⟩ .epoch delKey)
        (executeSteps ⟨true, true⟩ .epoch setKeyEx) oneKey
        (db', (ascii ":1", none), (ascii "+OK", none)) ∧
      db'.cell (ascii "k") = ⟨some (ascii "2"), none⟩ := by
    refine ⟨_, .left (.right (.right (.left (.done _ _ _)))), ?_⟩
    exact Cell.ext (by decide +kernel) (by decide +kernel)
  refine ⟨hex, fun h => ?_⟩
  obtain ⟨db', hx, hcell⟩ := hex
  have hatomic := h ⟨true, true⟩ [.exec .epoch ⟨.SET, ascii "SET", [ascii "k", ascii "1"]⟩] oneKey _
    rfl .epoch .epoch delKey setKeyEx rfl rfl _ hx
  have hdel : ((inOrder ⟨true, true⟩ oneKey .epoch delKey .epoch setKeyEx).1 (ascii "k")).deadline =
      some (10 ^ 10) := by
    decide +kernel
  have hset : ((inOrder ⟨true, true⟩ oneKey .epoch setKeyEx .epoch delKey).1 (ascii "k")).value =
      none := by
    decide +kernel
  rcases hatomic with heq | heq
  · rw [← heq, show (db'.cell, _).1 = db'.cell from rfl, hcell] at hdel
    cases hdel
  · rw [← heq, show (db'.cell, _).1 = db'.cell from rfl, hcell] at hset
    cases hset

end TinyKV

import TinyKV.Steps
import TinyKV.Reference

/-!
# The sweeper beside the clients

`ExpiryManager::sweepLoop` ends a live deadline under the lock of the TTL table, lets the lock go
and then has the key deleted from the store. Between the two a client may write the key, and a plain
`SET` is two calls itself: `store.set`, then `expiry.cancel`.

* `raceMachine`: any number of clients, whose commands make their calls one at a time
  (`executeSteps`), and the sweeper with its two steps. `race_covers_db`: the runs of `dbMachine`, in
  which nothing comes in between, are among its runs.
* `SetUndisturbed`: the sweeper is not between its two steps at the `store.set` of the `SET`, and
  does not end the deadline of the key between the two calls of the `SET`.
* `SetStage`: where the client of the `SET` is. `step_stage`: all that a step can do to the key.
* `KeptSet`, `LostSet`: the value of the `SET` is there to stay, or it will be deleted.
* `set_kept_iff`: after its reply the value is there to stay exactly if the run was
  `SetUndisturbed`.
-/

namespace TinyKV

open Cpp

/-- The command writes the key. -/
def Command.writes (cmd : Command) (key : Bytes) : Bool :=
  isWriteCommand cmd.type && cmd.args.head? == some key

/-! ## The machine -/

/-- A command that a client has issued and that has not been answered. -/
structure Running where
  cmd : Command
  /-- How many calls it has made. -/
  calls : Nat
  rest : CommandProg

structure Race where
  db : Db
  clients : Nat → Option Running
  /-- The key whose deadline the sweeper has ended and that it will delete. -/
  expiring : Option Bytes

/-- An unbounded store, no commands. -/
def Race.start : Race := ⟨Db.empty 0, fun _ => none, none⟩

inductive RaceAction where
  /-- The client issues a command. -/
  | issue (client : Nat) (now : Now) (cmd : Command)
  /-- The command of the client makes its next call. -/
  | call (client : Nat)
  /-- The client gets its reply. -/
  | reply (client : Nat)
  /-- The sweeper pops the entry `e` and ends its deadline if it is live. -/
  | pop (now : Now) (e : HeapEntry)
  /-- `onExpire`: the sweeper deletes the key. -/
  | expire

/-- The clients and the sweeper. A reply is output with its client. -/
def raceMachine (w : Wiring) : Machine Race RaceAction (Option (Nat × Bytes)) where
  step s
    | .issue c now cmd =>
      match s.clients c with
      | none =>
        let r : Running := ⟨cmd, 0, executeSteps w now cmd⟩
        some ({ s with clients := Function.update s.clients c (some r) }, none)
      | some _ => none
    | .call c =>
      match s.clients c with
      | some ⟨cmd, n, .step act next⟩ =>
        let r : Running := ⟨cmd, n + 1, next s.db⟩
        some ({ s with db := act s.db, clients := Function.update s.clients c (some r) }, none)
      | _ => none
    | .reply c =>
      match s.clients c with
      | some ⟨_, _, .done (r, _)⟩ =>
        some ({ s with clients := Function.update s.clients c none }, some (c, r))
      | _ => none
    | .pop now e =>
      if s.expiring = none ∧ s.db.expiry.IsTop e ∧ e.when ≤ now.ns then
        some ({ s with
          db := { s.db with expiry := (s.db.expiry.popTop e).1 }
          expiring := (s.db.expiry.popTop e).2 }, none)
      else none
    | .expire =>
      match s.expiring with
      | some key =>
        some ({ s with
          db := { s.db with store := (s.db.store.del key).2 }
          expiring := none }, none)
      | none => none

/-- The action issues a write of the key. -/
def RaceAction.writes (key : Bytes) : RaceAction → Bool
  | .issue _ _ cmd => cmd.writes key
  | _ => false

/-- The client has a write of the key under way that has made `n` calls. -/
def Race.atCall (s : Race) (c : Nat) (key : Bytes) (n : Nat) : Bool :=
  (s.clients c).any fun r => r.cmd.writes key && r.calls == n

/-- The sweeper does not cross the write of `key` by the client `c`: it is not about to delete the
key at the first call, and it does not end the deadline of the key before the second one. -/
def SetUndisturbed (c : Nat) (key : Bytes) (s : Race) : RaceAction → Prop
  | .call c' => c' = c → s.atCall c key 0 = true → s.expiring ≠ some key
  | .pop _ e => e.key = key → s.db.expiry.expiryOf key = some e.when → s.atCall c key 1 = false
  | _ => True

instance (c : Nat) (key : Bytes) (s : Race) : ∀ a, Decidable (SetUndisturbed c key s a)
  | .call c' => inferInstanceAs (Decidable (c' = c → _))
  | .pop _ e => inferInstanceAs (Decidable (e.key = key → _))
  | .issue _ _ _ | .reply _ | .expire => inferInstanceAs (Decidable True)

/-! ## What every state keeps -/

/-- A command keeps the cells that it does not write. -/
structure Framed (s : Race) : Prop where
  unbounded : Unbounded s.db
  keeps : ∀ c r x, s.clients c = some r → r.cmd.writes x = false →
    r.rest.Keeps Unbounded (Db.cell · x)

theorem Command.exists_not_writes (cmd : Command) : ∃ x, cmd.writes x = false := by
  cases h : cmd.args.head? with
  | none => exact ⟨[], by simp [Command.writes, h]⟩
  | some key =>
    -- One of two different keys is not the key of the command.
    by_cases hk : key = []
    · exact ⟨[0], by simp [Command.writes, h, hk]⟩
    · exact ⟨[], by simp [Command.writes, h, hk]⟩

theorem keeps_of_not_writes (w : Wiring) (now : Now) {cmd : Command} {x : Bytes}
    (h : cmd.writes x = false) : (executeSteps w now cmd).Keeps Unbounded (Db.cell · x) := by
  refine keeps_executeSteps w now fun hw => ?_
  rw [Command.writes, hw.1, hw.2] at h
  simp at h

section

variable {w : Wiring} {s s' : Race} {a : RaceAction} {o : Option (Nat × Bytes)}

/-- What an action does. -/
theorem race_step (hs : (raceMachine w).step s a = some (s', o)) :
    match a with
    | .issue c now cmd =>
      s.clients c = none ∧ o = none ∧
        s' = { s with
          clients := Function.update s.clients c (some ⟨cmd, 0, executeSteps w now cmd⟩) }
    | .call c => ∃ cmd n act next, s.clients c = some ⟨cmd, n, .step act next⟩ ∧ o = none ∧
        s' = { s with
          db := act s.db
          clients := Function.update s.clients c (some ⟨cmd, n + 1, next s.db⟩) }
    | .reply c => ∃ cmd n r call, s.clients c = some ⟨cmd, n, .done (r, call)⟩ ∧ o = some (c, r) ∧
        s' = { s with clients := Function.update s.clients c none }
    | .pop now e => s.expiring = none ∧ s.db.expiry.IsTop e ∧ e.when ≤ now.ns ∧ o = none ∧
        s' = { s with
          db := { s.db with expiry := (s.db.expiry.popTop e).1 }
          expiring := (s.db.expiry.popTop e).2 }
    | .expire => ∃ key, s.expiring = some key ∧ o = none ∧
        s' = { s with
          db := { s.db with store := (s.db.store.del key).2 }
          expiring := none } := by
  cases a with
  | issue c now cmd =>
    simp only [raceMachine] at hs
    split at hs
    · rename_i hc
      cases hs
      exact ⟨hc, rfl, rfl⟩
    · cases hs
  | call c =>
    simp only [raceMachine] at hs
    split at hs
    · rename_i hc
      cases hs
      exact ⟨_, _, _, _, hc, rfl, rfl⟩
    · cases hs
  | reply c =>
    simp only [raceMachine] at hs
    split at hs
    · rename_i hc
      cases hs
      exact ⟨_, _, _, _, hc, rfl, rfl⟩
    · cases hs
  | pop now e =>
    simp only [raceMachine] at hs
    split at hs
    · rename_i hp
      cases hs
      exact ⟨hp.1, hp.2.1, hp.2.2, rfl, rfl⟩
    · cases hs
  | expire =>
    simp only [raceMachine] at hs
    split at hs
    · rename_i hk
      cases hs
      exact ⟨_, hk, rfl, rfl⟩
    · cases hs

theorem framed_start : Framed .start where
  unbounded := rfl
  keeps c r x hr := by cases hr

/-- A client has a command with the calls that are left; the other clients stay. -/
theorem Framed.update (h : Framed s) {db : Db} (hdb : Unbounded db) {c : Nat} {r : Option Running}
    {expiring : Option Bytes}
    (hr : ∀ r', r = some r' → ∀ x, r'.cmd.writes x = false →
      r'.rest.Keeps Unbounded (Db.cell · x)) :
    Framed ⟨db, Function.update s.clients c r, expiring⟩ where
  unbounded := hdb
  keeps c' r' x hc' hx := by
    simp only [Function.update_apply] at hc'
    split at hc'
    · exact hr r' hc' x hx
    · exact h.keeps c' r' x hc' hx

theorem framed_step (h : Framed s) (hs : (raceMachine w).step s a = some (s', o)) : Framed s' := by
  have hstep := race_step hs
  cases a with
  | issue c now cmd =>
    obtain ⟨-, -, rfl⟩ := hstep
    refine h.update h.unbounded ?_
    rintro _ ⟨⟩ x hx
    exact keeps_of_not_writes w now hx
  | call c =>
    obtain ⟨cmd, n, act, next, hc, -, rfl⟩ := hstep
    -- Every command leaves some key alone, so its calls keep the store unbounded.
    have hkeeps : ∀ x, cmd.writes x = false → (Prog.step act next).Keeps Unbounded (Db.cell · x) :=
      fun x hx => h.keeps c _ x hc hx
    refine h.update ?_ ?_
    · obtain ⟨x, hx⟩ := cmd.exists_not_writes
      exact (hkeeps x hx s.db h.unbounded).1
    · rintro _ ⟨⟩ x hx
      exact (hkeeps x hx s.db h.unbounded).2.2
  | reply c =>
    obtain ⟨cmd, n, r, call, -, -, rfl⟩ := hstep
    exact h.update h.unbounded (by rintro _ ⟨⟩)
  | pop now e =>
    obtain ⟨-, -, -, -, rfl⟩ := hstep
    exact ⟨h.unbounded, h.keeps⟩
  | expire =>
    obtain ⟨key, -, -, rfl⟩ := hstep
    exact ⟨(s.db.store.capacity_del key).trans h.unbounded, h.keeps⟩

end

/-! ## Nothing in between -/

section

variable {w : Wiring} {s : Race} {c : Nat}

/-- The calls that are left of a command, one after the other, and its reply. -/
theorem run_calls (p : CommandProg) {cmd : Command} {n : Nat}
    (hc : s.clients c = some ⟨cmd, n, p⟩) :
    ∃ m, (raceMachine w).run s (List.replicate m (.call c) ++ [.reply c]) =
      some ({ s with db := (p.run s.db).1, clients := Function.update s.clients c none },
        List.replicate m none ++ [some (c, (p.run s.db).2.1)]) := by
  induction p generalizing s n with
  | done r =>
    refine ⟨0, Machine.run_cons.mpr ⟨_, _, [], ?_, rfl, rfl⟩⟩
    simp only [raceMachine, hc]
    rfl
  | step act next ih =>
    obtain ⟨m, hm⟩ := ih s.db (s := { s with
      db := act s.db
      clients := Function.update s.clients c (some ⟨cmd, n + 1, next s.db⟩) })
      (Function.update_self _ _ _)
    refine ⟨m + 1, ?_⟩
    rw [List.replicate_succ, List.cons_append]
    refine Machine.run_cons.mpr ⟨_, none, _, ?_, hm.trans ?_, rfl⟩
    · simp only [raceMachine, hc]
    · rw [Function.update_idem]
      rfl

/-- The replies of a run. -/
def replies (outs : List (Option (Nat × Bytes))) : List Bytes :=
  outs.filterMap (Option.map Prod.snd)

theorem replies_append (outs outs' : List (Option (Nat × Bytes))) :
    replies (outs ++ outs') = replies outs ++ replies outs' := List.filterMap_append

/-- A command without anything in between is `execute`. -/
theorem race_execute (hc : s.clients c = none) (now : Now) (cmd : Command) :
    ∃ acts outs, (raceMachine w).run s acts =
        some ({ s with db := (execute w s.db now cmd).db }, outs) ∧
      replies outs = [(execute w s.db now cmd).reply] := by
  have hissue : (raceMachine w).step s (.issue c now cmd) = some ({ s with
      clients := Function.update s.clients c (some ⟨cmd, 0, executeSteps w now cmd⟩) }, none) := by
    simp only [raceMachine, hc]
  obtain ⟨m, hm⟩ := run_calls (w := w) (executeSteps w now cmd) (s := { s with
    clients := Function.update s.clients c (some ⟨cmd, 0, executeSteps w now cmd⟩) })
    (Function.update_self _ _ _)
  rw [Function.update_idem, ← hc, Function.update_eq_self, run_executeSteps] at hm
  refine ⟨_, _, Machine.run_cons.mpr ⟨_, none, _, hissue, hm, rfl⟩, ?_⟩
  rw [← List.cons_append, replies_append]
  simp [replies]

/-- The two steps of the sweeper without anything in between are `Db.sweep`. -/
theorem race_sweep (hs : s.expiring = none) {now : Now} {e : HeapEntry} {db : Db}
    (hsweep : s.db.sweep now e = some db) :
    ∃ acts outs, (raceMachine w).run s acts = some ({ s with db := db }, outs) ∧
      replies outs = [] := by
  obtain ⟨htop, hdue, hexpiry, hstore⟩ := sweep_spec hsweep
  obtain ⟨store, expiry⟩ := db
  obtain rfl : expiry = _ := hexpiry
  obtain rfl : store = _ := hstore
  have hpop : (raceMachine w).step s (.pop now e) = some ({ s with
      db := { s.db with expiry := (s.db.expiry.popTop e).1 }
      expiring := (s.db.expiry.popTop e).2 }, none) := by
    simp only [raceMachine]
    exact if_pos ⟨hs, htop, hdue⟩
  have hkey := (s.db.expiry.popTop_spec e).1
  by_cases hlive : s.db.expiry.expiryOf e.key = some e.when
  · rw [if_pos hlive] at hkey ⊢
    rw [hkey] at hpop
    exact ⟨[.pop now e, .expire], [none, none], Machine.run_cons.mpr ⟨_, none, [none], hpop,
      Machine.run_cons.mpr ⟨_, none, [], rfl, by rw [hs]; rfl, rfl⟩, rfl⟩, rfl⟩
  · rw [if_neg hlive] at hkey ⊢
    rw [hkey, ← hs] at hpop
    exact ⟨[.pop now e], [none], Machine.run_cons.mpr ⟨_, none, [], hpop, rfl, rfl⟩, rfl⟩

/-- Every run of commands and sweeper pops, one at a time, is a run of the clients and the sweeper,
with the same replies. -/
theorem race_covers_db (hc : s.clients c = none) (hs : s.expiring = none) (acts : List Action)
    {db : Db} {outs : List (Option Bytes)} (hrun : (dbMachine w).run s.db acts = some (db, outs)) :
    ∃ acts' outs', (raceMachine w).run s acts' = some ({ s with db := db }, outs') ∧
      replies outs' = outs.filterMap id := by
  induction acts generalizing s outs with
  | nil =>
    cases hrun
    exact ⟨[], [], rfl, rfl⟩
  | cons a acts ih =>
    obtain ⟨db₁, o, outs₁, hstep, hrest, rfl⟩ := Machine.run_cons.mp hrun
    have hone : ∃ acts' outs', (raceMachine w).run s acts' = some ({ s with db := db₁ }, outs') ∧
        replies outs' = o.toList := by
      cases a with
      | exec now cmd =>
        cases hstep
        exact race_execute hc now cmd
      | sweep now e =>
        obtain ⟨db₂, hsweep, heq⟩ := Option.map_eq_some_iff.mp hstep
        cases heq
        exact race_sweep hs hsweep
    obtain ⟨acts₁, outs₁', hrun₁, hreplies₁⟩ := hone
    obtain ⟨acts₂, outs₂', hrun₂, hreplies₂⟩ := ih (s := { s with db := db₁ }) hc hs hrest
    refine ⟨acts₁ ++ acts₂, outs₁' ++ outs₂', Machine.run_append.mpr
      ⟨_, outs₁', outs₂', hrun₁, hrun₂, rfl⟩, ?_⟩
    rw [replies_append, hreplies₁, hreplies₂]
    cases o <;> rfl

end

/-! ## The key during and after the `SET` -/

/-- Where the client is in its `SET`. -/
inductive SetStage where
  /-- Before `store.set`. -/
  | before
  /-- Before `expiry.cancel`. -/
  | between
  | after
  deriving DecidableEq

/-- How many calls it has made. -/
def SetStage.calls : SetStage → Nat
  | .before => 0
  | .between => 1
  | .after => 2

/-- The client `c` is at that stage of a `SET k v`. -/
def AtStage (c : Nat) (k v : Bytes) (s : Race) : SetStage → Prop
  | .before => ∃ cmd, cmd.writes k = true ∧
      s.clients c = some ⟨cmd, 0, Locked.set k v (Locked.cancel k (answer Reply.ok))⟩
  | .between => ∃ cmd, cmd.writes k = true ∧
      s.clients c = some ⟨cmd, 1, Locked.cancel k (answer Reply.ok)⟩
  | .after => ∀ r, s.clients c = some r → r.cmd.writes k = true →
      r.calls = 2 ∧ r.rest = answer Reply.ok

/-- The client `c` is at that stage, and no other client writes `k`. -/
structure Staged (c : Nat) (k v : Bytes) (stage : SetStage) (s : Race) : Prop where
  framed : Framed s
  others : ∀ c' r, c' ≠ c → s.clients c' = some r → r.cmd.writes k = false
  client : AtStage c k v s stage

/-- All that a step can do to the key. -/
inductive KeyStep (c : Nat) (k v : Bytes) (s s' : Race) : SetStage → RaceAction → SetStage → Prop
  /-- The first call of the `SET`. -/
  | set (hcell : s'.db.cell k = ⟨some v, (s.db.cell k).deadline⟩)
      (hexp : s'.expiring = s.expiring) : KeyStep c k v s s' .before (.call c) .between
  /-- Its second call. -/
  | cancel (hcell : s'.db.cell k = ⟨(s.db.cell k).value, none⟩)
      (hexp : s'.expiring = s.expiring) : KeyStep c k v s s' .between (.call c) .after
  /-- The sweeper ends the deadline of the key. -/
  | pop {stage : SetStage} {now : Now} {e : HeapEntry} (hkey : e.key = k)
      (hlive : s.db.expiry.expiryOf k = some e.when)
      (hcell : s'.db.cell k = ⟨(s.db.cell k).value, none⟩) (hexp : s'.expiring = some k) :
      KeyStep c k v s s' stage (.pop now e) stage
  /-- The sweeper deletes the key. -/
  | expire {stage : SetStage} (hexp : s.expiring = some k)
      (hcell : s'.db.cell k = ⟨none, (s.db.cell k).deadline⟩) :
      KeyStep c k v s s' stage .expire stage
  /-- A step that has nothing to do with the key. -/
  | other {stage : SetStage} {a : RaceAction} (hsafe : SetUndisturbed c k s a)
      (hcell : s'.db.cell k = s.db.cell k) (hexp : s'.expiring = some k ↔ s.expiring = some k) :
      KeyStep c k v s s' stage a stage

section

variable {w : Wiring} {c : Nat} {k v : Bytes} {s s' : Race} {a : RaceAction}
  {o : Option (Nat × Bytes)} {stage : SetStage}

/-- A stage is about the command of the client alone. -/
theorem AtStage.congr (h : AtStage c k v s stage) (hc : s'.clients c = s.clients c) :
    AtStage c k v s' stage := by
  cases stage with
  | before => obtain ⟨cmd, hw, hr⟩ := h; exact ⟨cmd, hw, hc.trans hr⟩
  | between => obtain ⟨cmd, hw, hr⟩ := h; exact ⟨cmd, hw, hc.trans hr⟩
  | after => exact fun r hr => h r (hc.symm.trans hr)

/-- The client that makes a call does not write the key. -/
theorem Staged.call_keeps (h : Staged c k v stage s) {c' n : Nat} {cmd : Command} {act : Db → Db}
    {next : Db → CommandProg} (hc : s.clients c' = some ⟨cmd, n, .step act next⟩)
    (hw : cmd.writes k = false) : (act s.db).cell k = s.db.cell k :=
  (h.framed.keeps c' _ k hc hw s.db h.framed.unbounded).2.1

theorem calls_of_atCall (h : AtStage c k v s stage) {n : Nat} (hat : s.atCall c k n = true) :
    n = stage.calls := by
  unfold Race.atCall at hat
  cases hr : s.clients c with
  | none =>
    rw [hr] at hat
    cases hat
  | some r =>
    rw [hr, Option.any_some, Bool.and_eq_true, beq_iff_eq] at hat
    obtain ⟨hw, rfl⟩ := hat
    cases stage with
    | before | between =>
      obtain ⟨cmd, -, hr'⟩ := h
      rw [hr] at hr'
      cases hr'
      rfl
    | after => exact (h r hr hw).1

theorem atCall_of_stage (h : AtStage c k v s stage) (hne : stage ≠ .after) :
    s.atCall c k stage.calls = true := by
  cases stage with
  | after => exact absurd rfl hne
  | before | between =>
    obtain ⟨cmd, hw, hr⟩ := h
    simp [Race.atCall, hr, hw, SetStage.calls]

section

variable {db : Db} {expiring : Option Bytes} {r : Option Running}

/-- Another client has changed. -/
theorem Staged.update_other (h : Staged c k v stage s) {c' : Nat} (hne : c' ≠ c)
    (hframed : Framed ⟨db, Function.update s.clients c' r, expiring⟩)
    (hr : ∀ r', r = some r' → r'.cmd.writes k = false) :
    Staged c k v stage ⟨db, Function.update s.clients c' r, expiring⟩ where
  framed := hframed
  others c'' r' hc'' hr' := by
    simp only [Function.update_apply] at hr'
    split at hr'
    · exact hr r' hr'
    · exact h.others c'' r' hc'' hr'
  client := h.client.congr (Function.update_of_ne hne.symm _ _)

/-- The client itself has changed. -/
theorem Staged.update_self (h : Staged c k v stage s) {stage' : SetStage}
    (hframed : Framed ⟨db, Function.update s.clients c r, expiring⟩)
    (hclient : AtStage c k v ⟨db, Function.update s.clients c r, expiring⟩ stage') :
    Staged c k v stage' ⟨db, Function.update s.clients c r, expiring⟩ where
  framed := hframed
  others c' r' hc' hr' := h.others c' r' hc' (by simpa [Function.update_of_ne hc'] using hr')
  client := hclient

/-- A client that is done with its `SET`, or does something else. -/
theorem atStage_after (hr : ∀ r', r = some r' → r'.cmd.writes k = true →
    r'.calls = 2 ∧ r'.rest = answer Reply.ok) :
    AtStage c k v ⟨db, Function.update s.clients c r, expiring⟩ .after := by
  intro r' hr'
  simp only [Function.update_self] at hr'
  exact hr r' hr'

end

/-- A call of a command. -/
theorem step_stage_call (h : Staged c k v stage s) {c' : Nat}
    (hs : (raceMachine w).step s (.call c') = some (s', o)) :
    ∃ stage', Staged c k v stage' s' ∧ KeyStep c k v s s' stage (.call c') stage' := by
  have hframed := framed_step h.framed hs
  obtain ⟨cmd, n, act, next, hc, -, rfl⟩ := race_step hs
  by_cases hcc : c' = c
  · subst hcc
    cases stage with
    | before =>
      obtain ⟨cmd', hw, hr⟩ := h.client
      rw [hc] at hr
      cases hr
      refine ⟨.between, h.update_self hframed ⟨cmd, hw, Function.update_self _ _ _⟩, .set ?_ rfl⟩
      exact (congrFun ((worksOn_set k v) s.db h.framed.unbounded).2 k).trans
        (Function.update_self _ _ _)
    | between =>
      obtain ⟨cmd', hw, hr⟩ := h.client
      rw [hc] at hr
      cases hr
      refine ⟨.after, h.update_self hframed (atStage_after ?_), .cancel ?_ rfl⟩
      · rintro _ ⟨⟩ -
        exact ⟨rfl, rfl⟩
      · exact (congrFun ((worksOn_cancel k) s.db h.framed.unbounded).2 k).trans
          (Function.update_self _ _ _)
    | after =>
      -- The `SET` has no calls left.
      have hw : cmd.writes k = false := by
        by_contra hw
        cases (h.client _ hc (by simpa using hw)).2
      refine ⟨.after, h.update_self hframed (atStage_after ?_),
        .other ?_ (h.call_keeps hc hw) Iff.rfl⟩
      · rintro _ ⟨⟩ hw'
        rw [show cmd.writes k = true from hw'] at hw
        cases hw
      · intro _ hat
        cases calls_of_atCall h.client hat
  · have hw : cmd.writes k = false := h.others c' _ hcc hc
    refine ⟨stage, h.update_other hcc hframed ?_, .other ?_ (h.call_keeps hc hw) Iff.rfl⟩
    · rintro _ ⟨⟩
      exact hw
    · exact fun hc' => absurd hc' hcc

/-- The sweeper pops an entry. -/
theorem step_stage_pop (h : Staged c k v stage s) {now : Now} {e : HeapEntry}
    (hs : (raceMachine w).step s (.pop now e) = some (s', o)) :
    Staged c k v stage s' ∧ KeyStep c k v s s' stage (.pop now e) stage := by
  have hframed := framed_step h.framed hs
  obtain ⟨hnone, -, -, -, rfl⟩ := race_step hs
  obtain ⟨hkey, hexp⟩ := s.db.expiry.popTop_spec e
  refine ⟨⟨hframed, h.others, h.client.congr rfl⟩, ?_⟩
  by_cases hk : e.key = k ∧ s.db.expiry.expiryOf k = some e.when
  · obtain ⟨rfl, hlive⟩ := hk
    refine .pop rfl hlive (Cell.ext rfl ?_) (hkey.trans (if_pos hlive))
    exact (hexp e.key).trans (if_pos ⟨hlive, rfl⟩)
  · refine .other (fun he hlive => absurd ⟨he, hlive⟩ hk) (Cell.ext rfl ?_) ?_
    · refine (hexp k).trans (if_neg ?_)
      rintro ⟨hlive, rfl⟩
      exact hk ⟨rfl, hlive⟩
    · rw [hnone]
      refine iff_of_false ?_ (by simp)
      intro hpop
      rw [show (s.db.expiry.popTop e).2 = some k from hpop] at hkey
      split at hkey
      · rename_i hlive
        cases hkey
        exact hk ⟨rfl, hlive⟩
      · cases hkey

/-- The sweeper deletes a key. -/
theorem step_stage_expire (h : Staged c k v stage s)
    (hs : (raceMachine w).step s .expire = some (s', o)) :
    Staged c k v stage s' ∧ KeyStep c k v s s' stage .expire stage := by
  have hframed := framed_step h.framed hs
  obtain ⟨key, hkey, -, rfl⟩ := race_step hs
  refine ⟨⟨hframed, h.others, h.client.congr rfl⟩, ?_⟩
  have hcell := (worksOn_del key s.db h.framed.unbounded).2
  by_cases hk : key = k
  · subst hk
    exact .expire hkey ((congrFun hcell key).trans (Function.update_self _ _ _))
  · refine .other trivial ((congrFun hcell k).trans (Function.update_of_ne (Ne.symm hk) _ _)) ?_
    rw [hkey]
    simp [hk]

/-- All that a step does to the key and to the stage. The client has no reply before the last
stage. -/
theorem step_stage (h : Staged c k v stage s) (ha : a.writes k = false)
    (hs : (raceMachine w).step s a = some (s', o)) :
    ∃ stage', Staged c k v stage' s' ∧ KeyStep c k v s s' stage a stage' ∧
      ∀ r, o = some (c, r) → stage' = .after := by
  have hframed := framed_step h.framed hs
  have hstep := race_step hs
  cases a with
  | issue c' now cmd =>
    obtain ⟨hidle, rfl, rfl⟩ := hstep
    refine ⟨stage, ?_, .other trivial rfl Iff.rfl, by simp⟩
    by_cases hcc : c' = c
    · subst hcc
      have hstage : stage = .after := by
        cases stage with
        | after => rfl
        | before | between =>
          obtain ⟨cmd', -, hr⟩ := h.client
          rw [hidle] at hr
          cases hr
      subst hstage
      refine h.update_self hframed (atStage_after ?_)
      rintro _ ⟨⟩ hw
      rw [show cmd.writes k = false from ha] at hw
      cases hw
    · refine h.update_other hcc hframed ?_
      rintro _ ⟨⟩
      exact ha
  | call c' =>
    obtain ⟨-, -, -, -, -, rfl, -⟩ := hstep
    obtain ⟨stage', hstaged, hkey⟩ := step_stage_call h hs
    exact ⟨stage', hstaged, hkey, by simp⟩
  | reply c' =>
    obtain ⟨cmd, n, r, call, hc, rfl, rfl⟩ := hstep
    by_cases hcc : c' = c
    · subst hcc
      have hstage : stage = .after := by
        cases stage with
        | after => rfl
        | before | between =>
          obtain ⟨cmd', -, hr⟩ := h.client
          rw [hc] at hr
          cases hr
      subst hstage
      exact ⟨.after, h.update_self hframed (atStage_after (by rintro _ ⟨⟩)),
        .other trivial rfl Iff.rfl, fun _ _ => rfl⟩
    · refine ⟨stage, h.update_other hcc hframed (by rintro _ ⟨⟩), .other trivial rfl Iff.rfl, ?_⟩
      rintro r ⟨⟩
      exact absurd rfl hcc
  | pop now e =>
    obtain ⟨-, -, -, rfl, -⟩ := hstep
    obtain ⟨hstaged, hkey⟩ := step_stage_pop h hs
    exact ⟨stage, hstaged, hkey, by simp⟩
  | expire =>
    obtain ⟨-, -, rfl, -⟩ := hstep
    obtain ⟨hstaged, hkey⟩ := step_stage_expire h hs
    exact ⟨stage, hstaged, hkey, by simp⟩

end

/-! ## Whole runs -/

/-- The value of the `SET` is there and nothing will take it away. -/
def KeptSet (k v : Bytes) (s : Race) : SetStage → Prop
  | .before => True
  | .between => (s.db.cell k).value = some v ∧ s.expiring ≠ some k
  | .after => s.db.cell k = ⟨some v, none⟩ ∧ s.expiring ≠ some k

/-- The value of the `SET` is gone, or the sweeper is on its way to delete it. -/
def LostSet (k : Bytes) (s : Race) (stage : SetStage) : Prop :=
  stage ≠ .before ∧ ((s.db.cell k).value = none ∨ s.expiring = some k)

section

variable {w : Wiring} {c : Nat} {k v : Bytes} {s s' t : Race} {a : RaceAction}
  {stage stage' : SetStage} {acts : List RaceAction} {outs : List (Option (Nat × Bytes))}

theorem kept_step (h : KeptSet k v s stage) (hstage : AtStage c k v s stage)
    (hstep : KeyStep c k v s s' stage a stage') (hsafe : SetUndisturbed c k s a) :
    KeptSet k v s' stage' := by
  cases hstep with
  | set hcell hexp => exact ⟨by rw [hcell], hexp ▸ hsafe rfl (atCall_of_stage hstage (by simp))⟩
  | cancel hcell hexp => exact ⟨by rw [hcell, h.1], hexp ▸ h.2⟩
  | pop hkey hlive hcell hexp =>
    cases stage with
    | before => trivial
    | between =>
      have hat : s.atCall c k 1 = true := atCall_of_stage hstage (by simp)
      rw [hsafe hkey hlive] at hat
      cases hat
    | after =>
      rw [show s.db.expiry.expiryOf k = none from congrArg Cell.deadline h.1] at hlive
      cases hlive
  | expire hexp hcell =>
    cases stage with
    | before => trivial
    | between | after => exact absurd hexp h.2
  | other _ hcell hexp =>
    cases stage with
    | before => trivial
    | between => exact ⟨by rw [hcell]; exact h.1, fun he => h.2 (hexp.mp he)⟩
    | after => exact ⟨hcell.trans h.1, fun he => h.2 (hexp.mp he)⟩

/-- A step at which the sweeper crosses the `SET`. -/
theorem lost_of_disturbed (hstage : AtStage c k v s stage)
    (hstep : KeyStep c k v s s' stage a stage') (hsafe : ¬ SetUndisturbed c k s a) :
    LostSet k s' stage' := by
  cases hstep with
  | set hcell hexp =>
    refine ⟨by simp, .inr ?_⟩
    rw [hexp]
    by_contra hne
    exact hsafe fun _ _ => hne
  | cancel hcell hexp =>
    refine absurd (fun _ hat => ?_) hsafe
    cases calls_of_atCall hstage hat
  | pop hkey hlive hcell hexp =>
    refine ⟨?_, .inr hexp⟩
    rintro rfl
    refine hsafe fun _ _ => ?_
    by_contra hat
    cases calls_of_atCall hstage (Bool.not_eq_false _ ▸ hat)
  | expire hexp hcell => exact absurd trivial hsafe
  | other h => exact absurd h hsafe

theorem lost_step (h : LostSet k s stage) (hstep : KeyStep c k v s s' stage a stage') :
    LostSet k s' stage' := by
  obtain ⟨hstage, hlost⟩ := h
  cases hstep with
  | set => exact absurd rfl hstage
  | cancel hcell hexp => exact ⟨by simp, by rw [hcell, hexp]; exact hlost⟩
  | pop hkey hlive hcell hexp => exact ⟨hstage, .inr hexp⟩
  | expire hexp hcell => exact ⟨hstage, .inl (by rw [hcell])⟩
  | other _ hcell hexp => exact ⟨hstage, by rw [hcell, hexp]; exact hlost⟩

/-- After the last call nothing of the `SET` is left to cross. -/
theorem undisturbed_after (h : AtStage c k v s .after) (a : RaceAction) :
    SetUndisturbed c k s a := by
  cases a with
  | call c' =>
    intro _ hat
    cases calls_of_atCall h hat
  | pop now e =>
    intro _ _
    by_contra hat
    cases calls_of_atCall h (Bool.not_eq_false _ ▸ hat)
  | issue | reply | expire => trivial

/-- The last stage is reached, at the latest when the client gets a reply. -/
def Reaches (c : Nat) (stage : SetStage) (outs : List (Option (Nat × Bytes))) : Prop :=
  stage = .after ∨ ∃ r, some (c, r) ∈ outs

theorem Reaches.of_nil (h : Reaches c stage []) : stage = .after := by
  rcases h with rfl | ⟨r, hr⟩
  · rfl
  · cases hr

theorem reaches_of_cons {o : Option (Nat × Bytes)} (hstep : KeyStep c k v s s' stage a stage')
    (ho : ∀ r, o = some (c, r) → stage' = .after) (h : Reaches c stage (o :: outs)) :
    Reaches c stage' outs := by
  rcases h with rfl | ⟨r, hr⟩
  · cases hstep <;> exact .inl rfl
  · rcases List.mem_cons.mp hr with hr | hr
    · exact .inl (ho r hr.symm)
    · exact .inr ⟨r, hr⟩

/-- What every step keeps of the key and of the stage holds after a run without writes of the
key. -/
theorem run_stage {P : Race → SetStage → Prop}
    (hP : ∀ s s' a stage stage', P s stage → AtStage c k v s stage →
      KeyStep c k v s s' stage a stage' → P s' stage')
    (h : Staged c k v stage s) (hs : P s stage) (hacts : ∀ a ∈ acts, a.writes k = false)
    (hrun : (raceMachine w).run s acts = some (t, outs)) :
    ∃ stage', Staged c k v stage' t ∧ P t stage' ∧ (Reaches c stage outs → stage' = .after) := by
  induction acts generalizing s stage outs with
  | nil =>
    cases hrun
    exact ⟨stage, h, hs, Reaches.of_nil⟩
  | cons a acts ih =>
    obtain ⟨s₁, o, outs', hstep, hrest, rfl⟩ := Machine.run_cons.mp hrun
    obtain ⟨ha, hacts⟩ := List.forall_mem_cons.mp hacts
    obtain ⟨stage₁, h₁, hkey, ho⟩ := step_stage h ha hstep
    obtain ⟨stage', h', hs', hreach⟩ := ih h₁ (hP _ _ _ _ _ hs h.client hkey) hacts hrest
    exact ⟨stage', h', hs', fun hr => hreach (reaches_of_cons hkey ho hr)⟩

/-- A run keeps the value of the `SET` if the sweeper does not cross it, and loses it otherwise. -/
theorem kept_or_lost (h : Staged c k v stage s) (hs : KeptSet k v s stage)
    (hacts : ∀ a ∈ acts, a.writes k = false)
    (hrun : (raceMachine w).run s acts = some (t, outs)) :
    ∃ stage', Staged c k v stage' t ∧ (Reaches c stage outs → stage' = .after) ∧
      ((raceMachine w).Along (SetUndisturbed c k) s acts ∧ KeptSet k v t stage' ∨
        ¬ (raceMachine w).Along (SetUndisturbed c k) s acts ∧ LostSet k t stage') := by
  induction acts generalizing s stage outs with
  | nil =>
    cases hrun
    exact ⟨stage, h, Reaches.of_nil, .inl ⟨trivial, hs⟩⟩
  | cons a acts ih =>
    obtain ⟨s₁, o, outs', hstep, hrest, rfl⟩ := Machine.run_cons.mp hrun
    obtain ⟨ha, hacts⟩ := List.forall_mem_cons.mp hacts
    obtain ⟨stage₁, h₁, hkey, ho⟩ := step_stage h ha hstep
    by_cases hsafe : SetUndisturbed c k s a
    · obtain ⟨stage', h', hreach, hend⟩ := ih h₁ (kept_step hs h.client hkey hsafe) hacts hrest
      refine ⟨stage', h', fun hr => hreach (reaches_of_cons hkey ho hr), ?_⟩
      rw [Machine.along_cons hstep, and_iff_right hsafe]
      exact hend
    · have hlost := lost_of_disturbed h.client hkey hsafe
      obtain ⟨stage', h', hs', hreach⟩ :=
        run_stage (fun _ _ _ _ _ hl _ hk => lost_step hl hk) h₁ hlost hacts hrest
      exact ⟨stage', h', fun hr => hreach (reaches_of_cons hkey ho hr),
        .inr ⟨fun hC => hsafe hC.1, hs'⟩⟩

/-- A `SET` that has just been issued. -/
theorem staged_issue (hframed : Framed s) {now : Now} {name : Bytes}
    (hothers : ∀ c' r, s.clients c' = some r → r.cmd.writes k = false)
    {o : Option (Nat × Bytes)}
    (hs : (raceMachine w).step s (.issue c now ⟨.SET, name, [k, v]⟩) = some (s', o)) :
    o = none ∧ Staged c k v .before s' := by
  have hframed' := framed_step hframed hs
  obtain ⟨-, rfl, rfl⟩ := race_step hs
  refine ⟨rfl, hframed', fun c' r hc' hr => ?_, _, ?_, Function.update_self _ _ _⟩
  · simp only [Function.update_of_ne hc'] at hr
    exact hothers c' r hr
  · simp [Command.writes, isWriteCommand]

/-- `GET` gives the value of the key. -/
theorem reply_get {db : Db} (hv : db.store.lookup k = some v) (now : Now) (name : Bytes) :
    (execute w db now ⟨.GET, name, [k]⟩).reply = Reply.bulk v := by
  have hact : ActsOnLru k w db now ⟨.GET, name, [k]⟩ := execute_cell_lru rfl rfl
  rw [hact.reply]
  simp [Cell.exec, Db.cell, hv]

/-- From a state after the `SET` the value is there for ever, or one step of the sweeper away from
its end. -/
theorem forever_of_kept (h : Staged c k v .after s) (hs : KeptSet k v s .after)
    (hacts : ∀ a ∈ acts, a.writes k = false)
    (hrun : (raceMachine w).run s acts = some (t, outs)) : t.db.store.lookup k = some v := by
  have hstep : ∀ s s' a stage stage', stage = .after ∧ KeptSet k v s stage →
      AtStage c k v s stage → KeyStep c k v s s' stage a stage' →
      stage' = .after ∧ KeptSet k v s' stage' := by
    rintro s s' a _ stage' ⟨rfl, hkept⟩ hstage hkey
    refine ⟨?_, kept_step hkept hstage hkey (undisturbed_after hstage a)⟩
    cases hkey <;> rfl
  obtain ⟨_, -, ⟨rfl, hkept⟩, -⟩ := run_stage hstep h ⟨rfl, hs⟩ hacts hrun
  exact congrArg Cell.value hkept.1

theorem not_forever_of_lost (hs : LostSet k s stage) :
    ∃ later t outs, (∀ a ∈ later, a.writes k = false) ∧
      (raceMachine w).run s later = some (t, outs) ∧ t.db.store.lookup k = none := by
  rcases hs.2 with hnone | hexp
  · exact ⟨[], s, [], by simp, rfl, hnone⟩
  · have hstep : (raceMachine w).step s .expire = some ({ s with
        db := { s.db with store := (s.db.store.del k).2 }
        expiring := none }, none) := by
      simp only [raceMachine, hexp]
    refine ⟨[.expire], _, _, by simp [RaceAction.writes],
      Machine.run_cons.mpr ⟨_, _, [], hstep, rfl, rfl⟩, ?_⟩
    simp

end

/-- **An old TTL and a new value.** A client issues `SET k v` in a reachable state in which no write
of `k` is under way, none is issued later, and the client has its reply. Then every `GET k` gives
`v` from then on, whatever the clients and the sweeper do, exactly if the sweeper has not crossed
the `SET`. -/
theorem set_kept_iff (w : Wiring) {before : List RaceAction} {s : Race}
    {outs₀ : List (Option (Nat × Bytes))}
    (hbefore : (raceMachine w).run .start before = some (s, outs₀)) {c : Nat} {now : Now}
    {name k v : Bytes} (hothers : ∀ c' r, s.clients c' = some r → r.cmd.writes k = false)
    {acts : List RaceAction} (hacts : ∀ a ∈ acts, a.writes k = false) {t : Race}
    {outs : List (Option (Nat × Bytes))}
    (hrun : (raceMachine w).run s (.issue c now ⟨.SET, name, [k, v]⟩ :: acts) = some (t, outs))
    (hreply : some (c, Reply.ok) ∈ outs) :
    (∀ later t' outs', (∀ a ∈ later, a.writes k = false) →
      (raceMachine w).run t later = some (t', outs') →
      t'.db.store.lookup k = some v ∧
        ∀ now' name', (execute w t'.db now' ⟨.GET, name', [k]⟩).reply = Reply.bulk v) ↔
    (raceMachine w).Along (SetUndisturbed c k) s (.issue c now ⟨.SET, name, [k, v]⟩ :: acts) := by
  have hframed : Framed s :=
    Machine.run_invariant (fun _ _ _ _ h _ hs => framed_step h hs) (Machine.along_true _ _) hbefore
      framed_start
  obtain ⟨s₁, o, outs', hissue, hrest, rfl⟩ := Machine.run_cons.mp hrun
  obtain ⟨rfl, hstaged⟩ := staged_issue hframed hothers hissue
  have hreach : Reaches c .before outs' :=
    .inr ⟨_, (List.mem_cons.mp hreply).resolve_left (by simp)⟩
  obtain ⟨stage, h, hafter, hend⟩ := kept_or_lost hstaged trivial hacts hrest
  obtain rfl := hafter hreach
  rw [Machine.along_cons hissue,
    and_iff_right (show SetUndisturbed c k s (.issue c now ⟨.SET, name, [k, v]⟩) from trivial)]
  rcases hend with ⟨hC, hkept⟩ | ⟨hC, hlost⟩
  · refine iff_of_true (fun later t' outs'' hlater hrun' => ?_) hC
    have hv := forever_of_kept h hkept hlater hrun'
    exact ⟨hv, reply_get hv⟩
  · refine iff_of_false (fun hall => ?_) hC
    obtain ⟨later, t', outs'', hlater, hrun', hnone⟩ := not_forever_of_lost (w := w) hlost
    rw [(hall later t' outs'' hlater hrun').1] at hnone
    cases hnone

/-- A client gives `k` a TTL of ten seconds, and the sweeper ends the deadline after them. -/
def endedTtl : List RaceAction :=
  [.issue 1 .epoch ⟨.SET, ascii "SET", [ascii "k", ascii "1", ascii "EX", ascii "10"]⟩,
    .call 1, .call 1, .reply 1, .pop .tenSeconds ⟨10 ^ 10, ascii "k"⟩]

/-- No command is under way then. -/
theorem idle_endedTtl {s : Race} {outs : List (Option (Nat × Bytes))}
    (h : (raceMachine ⟨true, true⟩).run .start endedTtl = some (s, outs)) (c : Nat) :
    s.clients c = none := by
  cases h
  by_cases hc : c = 1
  · subst hc
    rfl
  · simp [Function.update_of_ne hc, Race.start]

/-- Another client sets `k` again. -/
def setAgain : RaceAction := .issue 0 .tenSeconds ⟨.SET, ascii "SET", [ascii "k", ascii "2"]⟩

/-- The sweeper deletes `k` before the `store.set`: the new value stays. -/
theorem set_kept_iff_expireFirst :
    ∃ s outs₀ t outs, (raceMachine ⟨true, true⟩).run .start endedTtl = some (s, outs₀) ∧
      (raceMachine ⟨true, true⟩).run s [setAgain, .expire, .call 0, .call 0, .reply 0] =
        some (t, outs) ∧
      ∀ later t' outs', (∀ a ∈ later, a.writes (ascii "k") = false) →
        (raceMachine ⟨true, true⟩).run t later = some (t', outs') →
        t'.db.store.lookup (ascii "k") = some (ascii "2") := by
  have hout : (((raceMachine ⟨true, true⟩).run .start endedTtl).bind fun x =>
      ((raceMachine ⟨true, true⟩).run x.1 [setAgain, .expire, .call 0, .call 0, .reply 0]).map
        Prod.snd) = some [none, none, none, none, some (0, ascii "+OK")] := by
    decide +kernel
  obtain ⟨⟨s, outs₀⟩, hbefore, hrest⟩ := Option.bind_eq_some_iff.mp hout
  obtain ⟨⟨t, outs⟩, hrun, rfl⟩ := Option.map_eq_some_iff.mp hrest
  have halong : (raceMachine ⟨true, true⟩).Along (SetUndisturbed 0 (ascii "k")) .start
      (endedTtl ++ [setAgain, .expire, .call 0, .call 0, .reply 0]) := by
    decide +kernel
  refine ⟨s, outs₀, t, _, hbefore, hrun, fun later t' outs' hlater hrun' => ?_⟩
  refine ((set_kept_iff ⟨true, true⟩ hbefore ?_ (by decide) hrun (by decide)).mpr ?_
    later t' outs' hlater hrun').1
  · intro c' r hr
    rw [idle_endedTtl hbefore] at hr
    cases hr
  · exact (Machine.along_append.mp halong).2 s outs₀ hbefore

/-- The sweeper deletes `k` when the client has its reply: the new value is gone. -/
theorem not_set_kept_expireLast :
    ¬ ∀ (w : Wiring) (before : List RaceAction) (s : Race) (outs₀ : List (Option (Nat × Bytes))),
      (raceMachine w).run .start before = some (s, outs₀) →
      ∀ (c : Nat) (now : Now) (name k v : Bytes),
      (∀ c' r, s.clients c' = some r → r.cmd.writes k = false) →
      ∀ acts : List RaceAction, (∀ a ∈ acts, a.writes k = false) →
      ∀ (t : Race) (outs : List (Option (Nat × Bytes))),
      (raceMachine w).run s (.issue c now ⟨.SET, name, [k, v]⟩ :: acts) = some (t, outs) →
      some (c, Reply.ok) ∈ outs → t.db.store.lookup k = some v := by
  intro h
  have hout : (((raceMachine ⟨true, true⟩).run .start endedTtl).bind fun x =>
      ((raceMachine ⟨true, true⟩).run x.1 [setAgain, .call 0, .call 0, .reply 0, .expire]).map
        fun y => (y.2, y.1.db.store.lookup (ascii "k"))) =
      some ([none, none, none, some (0, ascii "+OK"), none], none) := by
    decide +kernel
  obtain ⟨⟨s, outs₀⟩, hbefore, hrest⟩ := Option.bind_eq_some_iff.mp hout
  obtain ⟨⟨t, outs⟩, hrun, hend⟩ := Option.map_eq_some_iff.mp hrest
  simp only [Prod.mk.injEq] at hend
  obtain ⟨rfl, hgone⟩ := hend
  have hkept := h ⟨true, true⟩ endedTtl s outs₀ hbefore 0 .tenSeconds (ascii "SET") (ascii "k")
    (ascii "2") ?_ [.call 0, .call 0, .reply 0, .expire] (by decide) t _ hrun (by decide)
  · rw [hgone] at hkept
    cases hkept
  · intro c' r hr
    rw [idle_endedTtl hbefore] at hr
    cases hr

end TinyKV

import TinyKV.Cell
import TinyKV.Reference

/-!
# Deadlines and the lives of their keys

A key leaves the store when it is deleted, swept, or gives way to another key in a store with a
capacity. `DEL`, a plain `SET` and the sweeper end the deadline of their key. The eviction is inside
the store, which does not know the TTL table: the deadline of the key stays behind and is there
when the key comes back.

* `Orphanless`: a command whose key takes the place of another one does so to a key without a
  deadline.
* `Command.schedules`: the deadline that a command sets. `SetInThisLife`: a deadline was set by a
  command of the run, and the key has been in the store ever since.
* `TtlsFollowKeys`: what is expected of every point of a run. Only keys of the store have a
  deadline, so a counter that is new has none, and a key is swept by a deadline of its own life.
* `ttls_follow_keys_iff`: a run is so at each of its points exactly if all its steps are
  `Orphanless`.
-/

namespace TinyKV

open Cpp Recency

/-- The key that gives way to the key of the command has no deadline. -/
def Orphanless (db : Db) : Action → Prop
  | .exec _ cmd => ∀ e ∈ db.evictee cmd, db.expiry.expiryOf e = none
  | .sweep _ _ => True

/-- The key that a command gives a deadline, and the deadline. `EXPIRE` does so if the key is
there. -/
def Command.schedules (cmd : Command) (now : Now) : Option (Bytes × Int) :=
  match cmd.type, cmd.args with
  | .SET, [key, _, opt, secs] =>
    if equalsIgnoreCase opt (ascii "EX") then
      (parsePositiveSeconds secs).map fun s => (key, deadline now s)
    else none
  | .EXPIRE, [key, secs] => (parsePositiveSeconds secs).map fun s => (key, deadline now s)
  | _, _ => none

/-- The deadline `t` was set on `k` by one of the actions, and `k` has been in the store in every
state since. -/
def SetInThisLife (w : Wiring) (c : Nat) (acts : List Action) (k : Bytes) (t : Int) : Prop :=
  ∃ before now cmd after, acts = before ++ .exec now cmd :: after ∧
    cmd.schedules now = some (k, t) ∧
    ∀ mid db outs, mid <+: after →
      (dbMachine w).run (Db.empty c) (before ++ .exec now cmd :: mid) = some (db, outs) →
      (db.store.lookup k).isSome = true

/-- What is expected after the actions `acts` from an empty store of capacity `c`. -/
structure TtlsFollowKeys (w : Wiring) (c : Nat) (acts : List Action) (db : Db) : Prop where
  /-- Only keys of the store have a deadline. -/
  present : ∀ k ∈ db.expiry.currentExpiry.keys, (db.store.lookup k).isSome = true
  /-- A key that `INCR` or `DECR` makes has no deadline. -/
  created : ∀ type name name' now now' k, type = .INCR ∨ type = .DECR →
    db.store.lookup k = none →
    let db' := (execute w db now ⟨type, name, [k]⟩).db
    db'.expiry.expiryOf k = none ∧
      (execute w db' now' ⟨.TTL, name', [k]⟩).reply = Reply.integer (-1)
  /-- A key that the sweeper deletes had this deadline set since it was last absent. -/
  swept : ∀ now e db' k, db.sweep now e = some db' → (db.store.lookup k).isSome = true →
    db'.store.lookup k = none → SetInThisLife w c acts k e.when

/-! ## Cells -/

/-- A deadline that a cell has after a command was there before, or the command has set it. -/
theorem deadline_exec {x : Cell} {now : Now} {cmd : Command} {key : Bytes} {t : Int}
    (hkey : cmd.args.head? = some key) (h : (x.exec now cmd).1.deadline = some t) :
    x.deadline = some t ∨ cmd.schedules now = some (key, t) := by
  obtain ⟨type, name, args⟩ := cmd
  obtain ⟨args, rfl⟩ : ∃ as, args = key :: as := List.head?_eq_some_iff.mp hkey
  have hbump : ∀ delta, (x.bump delta).1.deadline = some t → x.deadline = some t := by
    intro delta hb
    unfold Cell.bump at hb
    split at hb <;> exact hb
  cases type with
  | SET =>
    obtain _ | ⟨value, _ | ⟨opt, _ | ⟨secs, _ | ⟨_, _⟩⟩⟩⟩ := args
    · exact .inl h
    · cases h
    · exact .inl h
    · simp only [Cell.exec] at h
      split at h
      · rename_i hopt
        split at h
        · exact .inl h
        · rename_i s hs
          cases h
          exact .inr (by simp [Command.schedules, hopt, hs])
      · exact .inl h
    · exact .inl h
  | DEL =>
    cases args with
    | nil => cases h
    | cons _ _ => exact .inl h
  | INCR | DECR =>
    cases args with
    | nil => exact .inl (hbump _ h)
    | cons _ _ => exact .inl h
  | EXPIRE =>
    obtain _ | ⟨secs, _ | ⟨_, _⟩⟩ := args
    · exact .inl h
    · simp only [Cell.exec] at h
      split at h
      · exact .inl h
      · split at h
        · exact .inl h
        · rename_i s hs
          cases h
          exact .inr (by simp [Command.schedules, hs])
    · exact .inl h
  | PERSIST =>
    cases args with
    | nil =>
      simp only [Cell.exec] at h
      split at h
      · exact .inl h
      · cases h
    | cons _ _ => exact .inl h
  | GET | TTL | PING | SAVE | REPLICAOF | SYNC | ROUTE | NODES | UNKNOWN =>
    rcases args with _ | ⟨_, _⟩ <;> exact .inl h

/-! ## One step -/

/-- Only keys of the store have a deadline. -/
def Db.Tidy (db : Db) : Prop := ∀ x, (db.cell x).Ok

theorem tidy_iff {db : Db} :
    db.Tidy ↔ ∀ k ∈ db.expiry.currentExpiry.keys, (db.store.lookup k).isSome = true := by
  have hmem : ∀ k, k ∈ db.expiry.currentExpiry.keys ↔ db.expiry.expiryOf k ≠ none := by
    intro k
    rw [Finmap.mem_keys, ExpiryManager.expiryOf, Ne, Finmap.lookup_eq_none, not_not]
  constructor
  · intro h k hk
    by_contra hno
    exact (hmem k).mp hk (h k (Option.not_isSome_iff_eq_none.mp hno))
  · intro h k hk
    by_contra hno
    have hsome := h k ((hmem k).mpr hno)
    rw [show db.store.lookup k = none from hk] at hsome
    cases hsome

section

variable {w : Wiring} {db : Db} {now : Now} {cmd : Command}

theorem tidy_execute (h : db.Tidy) (hsafe : Orphanless db (.exec now cmd)) :
    (execute w db now cmd).db.Tidy := by
  by_cases hcmd : IsKeyCommand cmd.type = true ∧ ∃ key, cmd.args.head? = some key
  · obtain ⟨hk, key, hkey⟩ := hcmd
    have hact : ActsOnLru key w db now cmd := execute_cell_lru hk hkey
    intro x
    by_cases hx : x = key
    · rw [hx, hact.cell]
      exact ok_exec (h key) now cmd
    · rw [hact.others x hx]
      split
      · rename_i he
        exact fun _ => hsafe x he
      · exact h x
  · rw [execute_db_of_no_key hcmd]
    exact h

/-- A key that gives way and has a deadline leaves the deadline behind. -/
theorem not_tidy_execute (hsafe : ¬ Orphanless db (.exec now cmd)) :
    ¬ (execute w db now cmd).db.Tidy := by
  intro htidy
  refine hsafe fun e he => ?_
  have he : db.evictee cmd = some e := he
  obtain ⟨hk, key, hkey, hne⟩ := evictee_spec he
  have hact : ActsOnLru key w db now cmd := execute_cell_lru hk hkey
  have hcell := hact.others e hne
  rw [if_pos he] at hcell
  have hok := htidy e
  rw [hcell] at hok
  exact hok rfl

theorem tidy_sweep (h : db.Tidy) {e : HeapEntry} {db' : Db} (hs : db.sweep now e = some db') :
    db'.Tidy := by
  obtain ⟨-, -, hexpiry, hstore⟩ := sweep_spec hs
  intro x hx
  have hx : db'.store.lookup x = none := hx
  show db'.expiry.expiryOf x = none
  rw [hexpiry, (db.expiry.popTop_spec e).2]
  split
  · rfl
  · rename_i hne
    refine h x ?_
    rw [hstore] at hx
    split at hx
    · rename_i hlive
      rwa [Store.lookup_del, Function.update_of_ne fun he => hne ⟨hlive, he⟩] at hx
    · exact hx

theorem tidy_step {a : Action} {db' : Db} {o : Option Bytes} (h : db.Tidy)
    (hsafe : Orphanless db a) (hs : (dbMachine w).step db a = some (db', o)) : db'.Tidy := by
  cases a with
  | exec now cmd =>
    cases hs
    exact tidy_execute h hsafe
  | sweep now e =>
    obtain ⟨db₁, hdb, heq⟩ := Option.map_eq_some_iff.mp hs
    cases heq
    exact tidy_sweep h hdb

/-- A deadline after a step was there before, or the step has set it. -/
theorem deadline_step {a : Action} {db' : Db} {o : Option Bytes}
    (hs : (dbMachine w).step db a = some (db', o)) {k : Bytes} {t : Int}
    (ht : db'.expiry.expiryOf k = some t) :
    db.expiry.expiryOf k = some t ∨
      ∃ now cmd, a = .exec now cmd ∧ cmd.schedules now = some (k, t) := by
  cases a with
  | exec now cmd =>
    cases hs
    by_cases hcmd : IsKeyCommand cmd.type = true ∧ ∃ key, cmd.args.head? = some key
    · obtain ⟨hk, key, hkey⟩ := hcmd
      have hact : ActsOnLru key w db now cmd := execute_cell_lru hk hkey
      have ht : ((execute w db now cmd).db.cell k).deadline = some t := ht
      by_cases hx : k = key
      · rw [hx, hact.cell] at ht
        rw [hx]
        exact (deadline_exec hkey ht).imp_right fun h => ⟨now, cmd, rfl, h⟩
      · rw [hact.others k hx] at ht
        split at ht <;> exact .inl ht
    · rw [execute_db_of_no_key hcmd] at ht
      exact .inl ht
  | sweep now e =>
    obtain ⟨db₁, hdb, heq⟩ := Option.map_eq_some_iff.mp hs
    cases heq
    obtain ⟨-, -, hexpiry, -⟩ := sweep_spec hdb
    rw [hexpiry, (db.expiry.popTop_spec e).2] at ht
    split at ht
    · cases ht
    · exact .inl ht

/-- A counter that was not there has no deadline afterwards. -/
theorem created_of_tidy (h : db.Tidy) {type : CommandType} (htype : type = .INCR ∨ type = .DECR)
    {k : Bytes} (hk : db.store.lookup k = none) (name name' : Bytes) (now now' : Now) :
    let db' := (execute w db now ⟨type, name, [k]⟩).db
    db'.expiry.expiryOf k = none ∧
      (execute w db' now' ⟨.TTL, name', [k]⟩).reply = Reply.integer (-1) := by
  intro db'
  have hcell : db.cell k = ⟨none, none⟩ := Cell.ext hk (h k hk)
  have hafter : ∃ v, db'.cell k = ⟨some v, none⟩ := by
    have hkey : IsKeyCommand type = true := by rcases htype with rfl | rfl <;> rfl
    have hact : ActsOnLru k w db now ⟨type, name, [k]⟩ := execute_cell_lru hkey rfl
    rw [show db'.cell k = _ from hact.cell, hcell]
    rcases htype with rfl | rfl <;> exact ⟨_, rfl⟩
  obtain ⟨v, hv⟩ := hafter
  refine ⟨congrArg Cell.deadline hv, ?_⟩
  have hact : ActsOnLru k w db' now' ⟨.TTL, name', [k]⟩ := execute_cell_lru rfl rfl
  rw [hact.reply, hv]
  rfl

end

/-! ## Whole runs -/

section

variable {w : Wiring} {c : Nat} {acts : List Action} {k : Bytes} {t : Int}

/-- The key is still there after one more step. -/
theorem SetInThisLife.snoc (h : SetInThisLife w c acts k t) (a : Action)
    (hpresent : ∀ db outs, (dbMachine w).run (Db.empty c) (acts ++ [a]) = some (db, outs) →
      (db.store.lookup k).isSome = true) : SetInThisLife w c (acts ++ [a]) k t := by
  obtain ⟨before, now, cmd, after, rfl, hset, hall⟩ := h
  refine ⟨before, now, cmd, after ++ [a], by simp, hset, fun mid db outs hmid hrun => ?_⟩
  rcases List.prefix_concat_iff.mp hmid with rfl | hmid
  · exact hpresent db outs (by simpa using hrun)
  · exact hall mid db outs hmid hrun

/-- A command that sets the deadline starts the time in which the key is there. -/
theorem SetInThisLife.set {now : Now} {cmd : Command} (hset : cmd.schedules now = some (k, t))
    (hpresent : ∀ db outs,
      (dbMachine w).run (Db.empty c) (acts ++ [.exec now cmd]) = some (db, outs) →
      (db.store.lookup k).isSome = true) :
    SetInThisLife w c (acts ++ [.exec now cmd]) k t := by
  refine ⟨acts, now, cmd, [], rfl, hset, fun mid db outs hmid hrun => ?_⟩
  obtain rfl := List.prefix_nil.mp hmid
  exact hpresent db outs hrun

/-- Along `Orphanless` steps only keys of the store have a deadline, and they have had it since
they were last absent. -/
theorem deadlines_of_along {db : Db} {outs : List (Option Bytes)}
    (hC : (dbMachine w).Along Orphanless (Db.empty c) acts)
    (hrun : (dbMachine w).run (Db.empty c) acts = some (db, outs)) :
    db.Tidy ∧ ∀ k t, db.expiry.expiryOf k = some t → SetInThisLife w c acts k t := by
  refine Machine.run_history
    (I := fun db acts _ => db.Tidy ∧ ∀ k t, db.expiry.expiryOf k = some t →
      SetInThisLife w c acts k t) ?_ hC hrun ⟨fun _ _ => rfl, fun k t h => by cases h⟩
  rintro db acts outs a db' o hbefore ⟨htidy, hlife⟩ hsafe hs
  have htidy' : db'.Tidy := tidy_step htidy hsafe hs
  refine ⟨htidy', fun k t ht => ?_⟩
  have hpresent : ∀ d os, (dbMachine w).run (Db.empty c) (acts ++ [a]) = some (d, os) →
      (d.store.lookup k).isSome = true := by
    intro d os hd
    have hlast : (dbMachine w).run (Db.empty c) (acts ++ [a]) = some (db', outs ++ [o]) :=
      Machine.run_append.mpr ⟨db, outs, [o], hbefore, Machine.run_cons.mpr
        ⟨db', o, [], hs, rfl, rfl⟩, rfl⟩
    rw [hlast] at hd
    cases hd
    by_contra hno
    have hnone := htidy' k (Option.not_isSome_iff_eq_none.mp hno)
    rw [show db'.expiry.expiryOf k = none from hnone] at ht
    cases ht
  rcases deadline_step hs ht with hold | ⟨now, cmd, rfl, hset⟩
  · exact (hlife k t hold).snoc a hpresent
  · exact .set hset hpresent

/-- A key that a pop takes out of the store is the key of the popped entry, which is live. -/
theorem deadline_of_swept {db db' : Db} {now : Now} {e : HeapEntry} (hs : db.sweep now e = some db')
    (hbefore : (db.store.lookup k).isSome = true) (hafter : db'.store.lookup k = none) :
    db.expiry.expiryOf k = some e.when := by
  obtain ⟨-, -, -, hstore⟩ := sweep_spec hs
  rw [hstore] at hafter
  split at hafter
  · rename_i hlive
    by_cases hk : k = e.key
    · rw [hk]
      exact hlive
    · rw [Store.lookup_del, Function.update_of_ne hk] at hafter
      rw [hafter] at hbefore
      cases hbefore
  · rw [hafter] at hbefore
    cases hbefore

theorem tidy_iff_along (w : Wiring) (c : Nat) (acts : List Action) :
    (∀ pre db outs, pre <+: acts → (dbMachine w).run (Db.empty c) pre = some (db, outs) → db.Tidy) ↔
      (dbMachine w).Along Orphanless (Db.empty c) acts := by
  refine Machine.forall_prefix_iff_along (I := Db.Tidy) (fun _ h => h) ?_ ?_ ?_ (fun _ _ => rfl)
    acts
  · exact fun db a db' o h hsafe hs => tidy_step h hsafe hs
  · intro db a db' o _ hsafe hs
    cases a with
    | exec now cmd =>
      cases hs
      exact not_tidy_execute hsafe
    | sweep now e => exact absurd trivial hsafe
  · intro db a hs
    cases a with
    | exec now cmd => cases hs
    | sweep now e => trivial

end

/-- **TTLs die with their keys** at every point of a run, from an empty store of any capacity,
exactly if no command of the run makes a key give way that has a deadline. -/
theorem ttls_follow_keys_iff (w : Wiring) (c : Nat) (acts : List Action) :
    (∀ pre db outs, pre <+: acts → (dbMachine w).run (Db.empty c) pre = some (db, outs) →
      TtlsFollowKeys w c pre db) ↔
    (dbMachine w).Along Orphanless (Db.empty c) acts := by
  constructor
  · intro hall
    refine (tidy_iff_along w c acts).mp fun pre db outs hpre hrun => ?_
    exact tidy_iff.mpr (hall pre db outs hpre hrun).present
  · rintro hC pre db outs ⟨rest, rfl⟩ hrun
    obtain ⟨htidy, hlife⟩ := deadlines_of_along (Machine.along_append.mp hC).1 hrun
    refine ⟨tidy_iff.mp htidy, fun type name name' now now' k htype hk => ?_,
      fun now e db' k hs hbefore hafter => ?_⟩
    · exact created_of_tidy htidy htype hk name name' now now'
    · exact hlife k e.when (deadline_of_swept hs hbefore hafter)

/-- A key with a deadline gives way, comes back as a counter, and is swept. -/
def evictThenIncr : List Action :=
  [.exec .epoch ⟨.SET, ascii "SET", [ascii "a", ascii "1", ascii "EX", ascii "10"]⟩,
    .exec .epoch ⟨.SET, ascii "SET", [ascii "b", ascii "1"]⟩,
    .exec .epoch ⟨.INCR, ascii "INCR", [ascii "a"]⟩,
    .exec .epoch ⟨.TTL, ascii "TTL", [ascii "a"]⟩,
    .sweep .tenSeconds ⟨10 ^ 10, ascii "a"⟩,
    .exec .tenSeconds ⟨.GET, ascii "GET", [ascii "a"]⟩]

/-- In a store for one key the deadline of `a` outlives `a`: the counter has a TTL of ten seconds
and is gone after them. -/
theorem not_ttls_follow_keys_evictThenIncr :
    ((dbMachine ⟨true, true⟩).run (Db.empty 1) evictThenIncr).map Prod.snd =
      some [some (ascii "+OK"), some (ascii "+OK"), some (ascii ":1"), some (ascii ":10"), none,
        some (ascii "$-1")] ∧
    ¬ ∀ (w : Wiring) (c : Nat) (acts : List Action) (db : Db) (outs : List (Option Bytes)),
      (dbMachine w).run (Db.empty c) acts = some (db, outs) → TtlsFollowKeys w c acts db := by
  refine ⟨by decide +kernel, fun h => ?_⟩
  have hrun : ((dbMachine ⟨true, true⟩).run (Db.empty 1) (evictThenIncr.take 2)).map (fun x =>
      (x.1.expiry.expiryOf (ascii "a"), x.1.store.lookup (ascii "a"))) =
      some (some (10 ^ 10), none) := by
    decide +kernel
  obtain ⟨⟨db, outs⟩, hr, hfacts⟩ := Option.map_eq_some_iff.mp hrun
  simp only [Prod.mk.injEq] at hfacts
  have hok := tidy_iff.mpr (h _ 1 _ db outs hr).present (ascii "a") hfacts.2
  rw [show (db.cell (ascii "a")).deadline = _ from hfacts.1] at hok
  cases hok

end TinyKV

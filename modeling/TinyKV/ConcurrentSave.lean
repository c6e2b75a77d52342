import TinyKV.Recovery

/-!
# `save()` beside a writing client

`PersistenceManager::save` dumps the store and then truncates the append-only file. It shares no
lock with a connection, which executes a write and then records it. So each of the two halves of a
write can come before the dump, between the dump and the truncation, or after both.

* `SaveRun`: a server with one client and the `save()` that is under way; `saveMachine` takes the
  four kinds of steps in any order.
* A write that executes after the dump and is recorded before the truncation is in neither file.
  An `INCR` or `DECR` that executes before the dump and is recorded after the truncation is in
  both. `SaveStepSafe` excludes these two, and pairs that do not fit in a line.
* `SaveInv`: the invariant; `saveInv_step`.
* `save_beside_client`: recovery after any run of safe steps.
-/

namespace TinyKV

open Cpp Recency Text SnapshotManager

/-! ## The machine -/

/-- A line that is executed and not yet recorded. -/
structure Pending where
  line : Line
  /-- History: while a `save()` is under way, whether the line executed after its dump. -/
  sinceDump : Bool

/-- A server, its client and its `save()`. -/
structure SaveRun where
  server : Server
  pending : Option Pending
  /-- `save()` has dumped the store and not yet truncated the append-only file. -/
  dumped : Bool

inductive SaveAction where
  /-- The client's next line is executed. -/
  | exec (now : Now) (line : Line)
  /-- `recordAndPropagateIfWrite` for that line. -/
  | record
  /-- `SnapshotManager::saveToFile` -/
  | dump
  /-- `AofWriter::reset` -/
  | truncate

/-- Execute a line; the result only if it is a successful write. -/
def Server.execWrite (s : Server) (now : Now) (line : Bytes) : Option Server :=
  match parse line with
  | .error _ => none
  | .ok cmd =>
    let out := execute serverWiring s.db now cmd
    if logged cmd out.reply then some { s with db := out.db } else none

/-- The machine of one client and `save()`. A client does not send its next line before it has the
reply to the last one, and `saveMutex_` keeps the calls of `save()` apart. -/
def saveMachine : Machine SaveRun SaveAction Unit where
  step r
    | .exec now line =>
      if r.pending.isSome then none
      else (r.server.execWrite now line.1).map fun s =>
        ({ r with server := s, pending := some ⟨line, r.dumped⟩ }, ())
    | .record =>
      r.pending.map fun p =>
        ({ r with server := (r.server.recordWrite p.line.1).propagate p.line.1, pending := none }, ())
    | .dump =>
      if r.dumped then none
      else some ({ server := { r.server with
                                disk := saveToFile r.server.disk r.server.db.store }
                   pending := r.pending.map fun p => { p with sinceDump := false }
                   dumped := true }, ())
    | .truncate =>
      if r.dumped then
        some ({ r with server := { r.server with disk := AofWriter.reset r.server.disk }
                       dumped := false }, ())
      else none

/-- The line is an `INCR` or a `DECR`. -/
def IsCounterLine (line : Bytes) : Prop := ∃ u ∈ lineEffects line, u.2.isBump = true

/-- The steps that keep the files true to the data. -/
def SaveStepSafe (r : SaveRun) : SaveAction → Prop
  | .exec _ _ => True
  -- A write that executed after the dump is not recorded before the truncation.
  | .record => r.dumped = true → ∀ p ∈ r.pending, p.sinceDump = false
  | .dump => FitEntries r.server.db.store.entries
  -- No counter that executed before the dump is still to be recorded.
  | .truncate => ∀ p ∈ r.pending, p.sinceDump = false → ¬ IsCounterLine p.line.1

instance (line : Bytes) : Decidable (IsCounterLine line) :=
  inferInstanceAs (Decidable (∃ u ∈ lineEffects line, _))

instance (r : SaveRun) : ∀ a, Decidable (SaveStepSafe r a)
  | .exec _ _ => isTrue trivial
  | .record => inferInstanceAs (Decidable (r.dumped = true → ∀ p ∈ r.pending, _))
  | .dump => inferInstanceAs (Decidable (FitEntries _))
  | .truncate => inferInstanceAs (Decidable (∀ p ∈ r.pending, _))

/-! ## The invariant -/

/-- The effects of the pending line that the dump, or the files, do not have yet. -/
def SaveRun.owed (r : SaveRun) : List (Bytes × KeyOp) :=
  match r.pending with
  | none => []
  | some p => if r.dumped && !p.sinceDump then [] else lineEffects p.line.1

/-- What the files will give when the `save()` under way is done. -/
def SaveRun.base (r : SaveRun) : KvMap :=
  if r.dumped then r.server.disk.snapshotMap else r.server.disk.recovered true

structure SaveInv (r : SaveRun) : Prop where
  unbounded : r.server.db.store.capacity = 0
  appendOnly : r.server.appendOnly = true
  words : WordEntries r.server.db.store.entries
  complete : r.server.disk.Complete
  /-- The data is what the files give, with what is owed to them. -/
  covered : applyAll r.base r.owed = r.server.db.store.lookup
  /-- The pending line was the last one to change the data. -/
  last : ∀ p, r.pending = some p →
    ∃ m : KvMap, r.server.db.store.lookup = applyAll m (lineEffects p.line.1)

theorem Server.execWrite_eq_some {s t : Server} {now : Now} {line : Bytes}
    (h : s.execWrite now line = some t) :
    ∃ cmd, parse line = .ok cmd ∧ t = { s with db := (execute serverWiring s.db now cmd).db } := by
  unfold Server.execWrite at h
  split at h
  · cases h
  · rename_i cmd hp
    dsimp only at h
    split at h
    · cases h; exact ⟨cmd, hp, rfl⟩
    · cases h

/-- What a successful write does to the data. -/
theorem execWrite_spec {s t : Server} {now : Now} {line : Bytes}
    (h : s.execWrite now line = some t) (hc : s.db.store.capacity = 0)
    (hw : WordEntries s.db.store.entries) :
    t.disk = s.disk ∧ t.appendOnly = s.appendOnly ∧ t.db.store.capacity = 0 ∧
      WordEntries t.db.store.entries ∧
      t.db.store.lookup = applyAll s.db.store.lookup (lineEffects line) := by
  obtain ⟨cmd, hp, rfl⟩ := Server.execWrite_eq_some h
  refine ⟨rfl, rfl, ?_, ?_, ?_⟩
  · rw [execute_capacity, hc]
  · rw [execute_entries]
    exact onEntries_words (fun a ha => args_isWord hp ha) _ hw
  · rw [execute_lookup hc, lineEffects, hp]
    rfl

/-- A line that is no counter line does nothing the second time. -/
theorem applyAll_again {line : Bytes} (h : ¬ IsCounterLine line) (m : KvMap) :
    applyAll (applyAll m (lineEffects line)) (lineEffects line) =
      applyAll m (lineEffects line) := by
  rcases lineEffects_cases line with he | ⟨k, op, he⟩
  · rw [he]; rfl
  · cases op with
    | assign v => simp [he, Keyed.step, KeyOp.app]
    | bump d => exact absurd ⟨(k, .bump d), by simp [he], rfl⟩ h

/-! ## The steps -/

theorem saveInv_exec {r : SaveRun} {s : Server} {now : Now} {line : Line} (h : SaveInv r)
    (hnone : r.pending = none) (he : r.server.execWrite now line.1 = some s) :
    SaveInv { r with server := s, pending := some ⟨line, r.dumped⟩ } := by
  obtain ⟨hdisk, happ, hc, hw, hl⟩ := execWrite_spec he h.unbounded h.words
  refine ⟨hc, happ.trans h.appendOnly, hw, ?_, ?_, ?_⟩
  · show s.disk.Complete
    rw [hdisk]
    exact h.complete
  · -- Nothing was owed before, so the files give the data before the line.
    have hcov := h.covered
    simp only [SaveRun.owed, hnone, SaveRun.base] at hcov
    simp only [SaveRun.owed, SaveRun.base, Bool.and_not_self, Bool.false_eq_true, if_false, hdisk,
      hl]
    rw [← hcov]
    rfl
  · rintro p ⟨⟩
    exact ⟨_, hl⟩

theorem saveInv_record {r : SaveRun} {p : Pending} (h : SaveInv r) (hp : r.pending = some p)
    (hsafe : SaveStepSafe r .record) :
    SaveInv { r with server := (r.server.recordWrite p.line.1).propagate p.line.1
                     pending := none } := by
  have hrec : ((r.server.recordWrite p.line.1).propagate p.line.1).disk =
      AofWriter.append r.server.disk p.line.1 := by
    show PersistenceManager.recordWrite r.server.appendOnly r.server.disk p.line.1 = _
    rw [h.appendOnly]
    rfl
  have hcov := h.covered
  simp only [SaveRun.owed, hp, SaveRun.base] at hcov
  refine ⟨h.unbounded, h.appendOnly, h.words, ?_, ?_, fun _ hq => by cases hq⟩
  · rw [hrec]
    exact complete_append h.complete p.line
  · simp only [SaveRun.owed, SaveRun.base, hrec]
    cases hd : r.dumped with
    | false =>
      -- No `save()` is under way: the line joins the replay.
      simp only [hd, Bool.false_and, Bool.false_eq_true, if_false] at hcov
      show (AofWriter.append r.server.disk p.line.1).recovered true = _
      rw [recovered_recordWrite h.complete]
      exact hcov
    | true =>
      -- The line executed before the dump, which has it.
      have hbefore : p.sinceDump = false := hsafe hd p hp
      simp only [hd, hbefore, Bool.not_false, Bool.and_self, if_true] at hcov
      exact hcov

/-- The map of a fresh snapshot of pairs that fit is the map of the store. -/
theorem snapshotMap_saveToFile {store : Store} (hw : WordEntries store.entries)
    (hfit : FitEntries store.entries) (disk : Disk) :
    (saveToFile disk store).snapshotMap = store.lookup := by
  funext x
  refine (snapshotMap_dump store.unique hw disk.aof x).trans ?_
  rw [Store.lookup]
  cases hx : find x store.entries with
  | none => rfl
  | some v => exact if_pos (hfit x v (mem_of_find hx))

theorem saveInv_dump {r : SaveRun} (h : SaveInv r) (hfit : FitEntries r.server.db.store.entries) :
    SaveInv { server := { r.server with disk := saveToFile r.server.disk r.server.db.store }
              pending := r.pending.map fun p => { p with sinceDump := false }
              dumped := true } := by
  refine ⟨h.unbounded, h.appendOnly, h.words, h.complete, ?_, ?_⟩
  · have howed : SaveRun.owed
        { server := { r.server with disk := saveToFile r.server.disk r.server.db.store }
          pending := r.pending.map fun p => { p with sinceDump := false }
          dumped := true } = [] := by
      unfold SaveRun.owed
      cases r.pending <;> rfl
    rw [howed]
    exact snapshotMap_saveToFile h.words hfit _
  · intro p hp
    obtain ⟨q, hq, rfl⟩ := Option.map_eq_some_iff.mp hp
    exact h.last q hq

theorem saveInv_truncate {r : SaveRun} (h : SaveInv r) (hd : r.dumped = true)
    (hsafe : SaveStepSafe r .truncate) :
    SaveInv { r with server := { r.server with disk := AofWriter.reset r.server.disk }
                     dumped := false } := by
  refine ⟨h.unbounded, h.appendOnly, h.words, complete_reset _, ?_, h.last⟩
  have hbase : (AofWriter.reset r.server.disk).recovered true = r.server.disk.snapshotMap := by
    rw [recovered_eq]
    rfl
  have hcov := h.covered
  simp only [SaveRun.owed, SaveRun.base, hd, if_true, Bool.true_and] at hcov
  simp only [SaveRun.owed, SaveRun.base, Bool.false_and, Bool.false_eq_true, if_false, hbase]
  cases hp : r.pending with
  | none => rw [hp] at hcov; exact hcov
  | some p =>
    rw [hp] at hcov
    cases hb : p.sinceDump with
    | true => simpa [hb] using hcov
    | false =>
      -- The dump has the line already; it is no counter, so the replay may repeat it.
      simp only [hb, Bool.not_false, if_true] at hcov
      obtain ⟨m, hm⟩ := h.last p hp
      have hno : ¬ IsCounterLine p.line.1 := hsafe p hp hb
      show applyAll _ (lineEffects p.line.1) = _
      rw [show r.server.disk.snapshotMap = r.server.db.store.lookup from hcov, hm,
        applyAll_again hno]

/-- A safe step keeps the invariant. -/
theorem saveInv_step {r t : SaveRun} {a : SaveAction} {o : Unit} (h : SaveInv r)
    (hsafe : SaveStepSafe r a) (hs : saveMachine.step r a = some (t, o)) : SaveInv t := by
  cases a with
  | exec now line =>
    simp only [saveMachine] at hs
    split at hs
    · cases hs
    · rename_i hp
      obtain ⟨s, he, hst⟩ := Option.map_eq_some_iff.mp hs
      cases hst
      exact saveInv_exec h (by simpa using hp) he
  | record =>
    obtain ⟨p, hp, hst⟩ := Option.map_eq_some_iff.mp hs
    cases hst
    exact saveInv_record h hp hsafe
  | dump =>
    simp only [saveMachine] at hs
    split at hs
    · cases hs
    · cases hs
      exact saveInv_dump h hsafe
  | truncate =>
    simp only [saveMachine] at hs
    split at hs
    · rename_i hd
      cases hs
      exact saveInv_truncate h hd hsafe
    · cases hs

/-! ## Whole runs -/

/-- **Durability beside a snapshot.** In every run of safe steps, whenever the client has no line
under way and no `save()` runs, recovery on a fresh store gives the live map. -/
theorem save_beside_client {s : Server} (hs : Recoverable s) (clock : Nat → Now)
    (acts : List SaveAction) (r : SaveRun) (outs : List Unit)
    (hsafe : saveMachine.Along SaveStepSafe ⟨s, none, false⟩ acts)
    (hrun : saveMachine.run ⟨s, none, false⟩ acts = some (r, outs))
    (hpending : r.pending = none) (hdone : r.dumped = false) :
    (PersistenceManager.recover true serverWiring clock r.server.disk (Db.empty 0)).store.lookup =
      r.server.db.store.lookup := by
  have hstart : SaveInv ⟨s, none, false⟩ :=
    ⟨hs.unbounded, hs.appendOnly, hs.words, hs.complete, hs.recovered, fun _ hp => by cases hp⟩
  have hr : SaveInv r :=
    Machine.run_invariant (fun _ _ _ _ h hc hst => saveInv_step h hc hst) hsafe hrun hstart
  have hcov := hr.covered
  simp only [SaveRun.owed, hpending, SaveRun.base, hdone, Bool.false_eq_true, if_false] at hcov
  rw [recover_lookup]
  exact hcov

/-- A fresh server, beside which a write executes between the dump and the truncation. -/
def writeDuringSave (rest : List SaveAction) : List SaveAction :=
  .dump :: .exec .epoch (.ofText "SET k v") :: rest

theorem recoverable_freshServer : Recoverable freshServer :=
  recoverable_start _ ⟨[], fun _ h => (by cases h), rfl⟩

/-- The write is recorded after the truncation. -/
theorem save_beside_client_recordLast :
    ∃ r outs, saveMachine.run ⟨freshServer, none, false⟩ (writeDuringSave [.truncate, .record]) =
        some (r, outs) ∧ r.server.db.store.lookup (ascii "k") = some (ascii "v") ∧
      (PersistenceManager.recover true serverWiring (fun _ => .epoch) r.server.disk
        (Db.empty 0)).store.lookup = r.server.db.store.lookup := by
  refine ⟨_, _, rfl, by decide +kernel, ?_⟩
  exact save_beside_client recoverable_freshServer _ (writeDuringSave [.truncate, .record]) _ _
    (by decide +kernel) rfl rfl rfl

/-- The write is recorded before the truncation, and lost. -/
theorem save_loses_write :
    ¬ ∀ (clock : Nat → Now) (acts : List SaveAction) (r : SaveRun) (outs : List Unit),
      saveMachine.run ⟨freshServer, none, false⟩ acts = some (r, outs) →
      r.pending = none → r.dumped = false →
      (PersistenceManager.recover true serverWiring clock r.server.disk (Db.empty 0)).store.lookup =
        r.server.db.store.lookup := by
  intro h
  have hrun : (saveMachine.run ⟨freshServer, none, false⟩
      (writeDuringSave [.record, .truncate])).map (fun x => (x.1.pending.isNone, x.1.dumped,
        x.1.server.disk.recovered true (ascii "k"), x.1.server.db.store.lookup (ascii "k"))) =
      some (true, false, none, some (ascii "v")) := by decide +kernel
  obtain ⟨⟨r, outs⟩, hr, hfacts⟩ := Option.map_eq_some_iff.mp hrun
  simp only [Prod.mk.injEq, Option.isNone_iff_eq_none] at hfacts
  obtain ⟨hpending, hdone, hdisk, hlive⟩ := hfacts
  have hlost := congrFun (h (fun _ => .epoch) _ r outs hr hpending hdone) (ascii "k")
  rw [recover_lookup, hdisk, hlive] at hlost
  cases hlost

end TinyKV

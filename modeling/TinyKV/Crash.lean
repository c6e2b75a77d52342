import TinyKV.Snapshot

/-!
# A crash inside `save()`

`PersistenceManager::save` opens the snapshot with truncation, writes it line by line and then
truncates the append-only file. A process that stops in between leaves a disk that mixes the new
snapshot, or a part of it, with an append-only file that belongs to the old one.

* `saveEffects`: what `save` does to the disk, one effect after the other; `save_eq_after`.
* `recovered_crash_iff`: recovery from a disk on which `save` was stopped before its last effect.
* `runCell_none_iff`, `runCell_live_iff`: when the log of one key gives the live value from
  nothing, and from the live value itself.
* `save_crash_iff`: exactly when recovery after the crash gives the live map.
-/

namespace TinyKV

open Cpp Recency Text SnapshotManager
open KVStore (counter)

/-! ## The effects of `save()` -/

/-- One effect of `save` on the disk. -/
inductive DiskEffect where
  /-- `std::ofstream file(path, std::ios::trunc)` -/
  | openSnapshot
  | writeLine (line : Bytes)
  | truncateAof

def DiskEffect.apply : DiskEffect → Disk → Disk
  | .openSnapshot, disk => { disk with snapshot := some [] }
  | .writeLine line, disk =>
    { disk with snapshot := disk.snapshot.map fun file => file ++ line ++ [newline] }
  | .truncateAof, disk => AofWriter.reset disk

/-- The effects of `save`, in their order. -/
def saveEffects (store : Store) : List DiskEffect :=
  .openSnapshot :: ((dumpLines store.forEach).map .writeLine ++ [.truncateAof])

/-- The disk after some effects. -/
def Disk.after (disk : Disk) (effects : List DiskEffect) : Disk :=
  effects.foldl (fun d e => e.apply d) disk

theorem after_writeLines (file aof : Bytes) (ls : List Bytes) :
    Disk.after ⟨some file, aof⟩ (ls.map .writeLine) = ⟨some (file ++ unlines newline ls), aof⟩ := by
  induction ls generalizing file with
  | nil => simp [Disk.after]
  | cons l ls ih =>
    rw [List.map_cons, unlines_cons]
    refine (ih (file ++ l ++ [newline])).trans ?_
    simp

/-- All the effects together are `save`. -/
theorem save_eq_after (disk : Disk) (store : Store) :
    PersistenceManager.save disk store = disk.after (saveEffects store) := by
  unfold saveEffects Disk.after
  rw [List.foldl_cons, List.foldl_append]
  have h := after_writeLines [] disk.aof (dumpLines store.forEach)
  unfold Disk.after at h
  rw [show DiskEffect.openSnapshot.apply disk = ⟨some [], disk.aof⟩ from rfl, h]
  rfl

/-- A stop after the opening and `j` lines. -/
theorem after_take_succ (disk : Disk) (store : Store) {j : Nat} (hj : j ≤ store.entries.length) :
    disk.after ((saveEffects store).take (j + 1)) =
      ⟨some (unlines newline (dumpLines (store.entries.take j))), disk.aof⟩ := by
  have hlen : ((dumpLines store.forEach).map DiskEffect.writeLine).length =
      store.entries.length := by simp [dumpLines]
  have htake : (saveEffects store).take (j + 1) =
      .openSnapshot :: (dumpLines (store.entries.take j)).map .writeLine := by
    rw [saveEffects, List.take_succ_cons, List.take_append_of_le_length (by rw [hlen]; exact hj)]
    simp [dumpLines, List.map_take]
  rw [htake]
  exact after_writeLines [] disk.aof _

/-- A stop after the last effect is no stop. -/
theorem after_take_all (disk : Disk) (store : Store) {p : Nat} (hp : store.entries.length + 2 ≤ p) :
    disk.after ((saveEffects store).take p) = PersistenceManager.save disk store := by
  rw [save_eq_after, List.take_of_length_le]
  simp only [saveEffects, dumpLines, Store.forEach_eq, List.length_cons, List.length_append,
    List.length_map, List.length_nil]
  omega

/-! ## What the disk holds -/

/-- The map of the snapshot file. -/
def Disk.snapshotMap (disk : Disk) : KvMap :=
  applyAll (fun _ => none) ((getlines newline (disk.snapshot.getD [])).flatMap lineEffects)

/-- The operations of the append-only file, if the server replays it. -/
def Disk.log (appendOnly : Bool) (disk : Disk) : List (Bytes × KeyOp) :=
  (if appendOnly then getlines newline disk.aof else []).flatMap lineEffects

theorem recovered_eq (appendOnly : Bool) (disk : Disk) :
    disk.recovered appendOnly = applyAll disk.snapshotMap (disk.log appendOnly) := by
  unfold Disk.recovered Disk.lines
  rw [List.flatMap_append]
  exact Keyed.run_append _ _ _ _

theorem WordEntries.take {es : List (Bytes × Bytes)} (h : WordEntries es) (j : Nat) :
    WordEntries (es.take j) := fun k v hm => h k v (List.mem_of_mem_take hm)

/-- The map of a snapshot file that holds the lines of some pairs. -/
theorem snapshotMap_dump {es : List (Bytes × Bytes)} (hu : UniqueKeys es) (hw : WordEntries es)
    (aof : Bytes) (x : Bytes) :
    Disk.snapshotMap ⟨some (unlines newline (dumpLines es)), aof⟩ x =
      match find x es with
      | none => none
      | some v => if Fits x v then some v else none := by
  unfold Disk.snapshotMap
  rw [Option.getD_some, getlines_unlines (newline_not_mem_dumpLines hw)]
  exact applyAll_dumpLines hu hw _ x

/-! ## One key -/

/-- From nothing, the log of a key gives the value that it gave from `old`. -/
theorem runCell_none_iff (old : Option Bytes) (ops : List KeyOp) :
    Keyed.runCell KeyOp.app none ops = Keyed.runCell KeyOp.app old ops ↔
      (∃ v, .assign v ∈ ops) ∨ if ops = [] then old = none else counter old = some 0 := by
  by_cases ha : ∃ v, KeyOp.assign v ∈ ops
  · obtain ⟨v, hv⟩ := ha
    exact ⟨fun _ => .inl ⟨v, hv⟩, fun _ => runCell_of_assign hv _ _⟩
  · rw [or_iff_right ha]
    by_cases he : ops = []
    · subst he
      simp only [Keyed.runCell_nil, if_pos]
      exact eq_comm
    · have hb : ∀ v, KeyOp.assign v ∉ ops := fun v hv => ha ⟨v, hv⟩
      rw [if_neg he, runCell_bumps hb he, runCell_bumps hb he]
      show some (to_string (wrap64 (0 + net ops))) = _ ↔ _
      cases hc : counter old with
      | none =>
        -- A value that is no number is not what a counter writes.
        refine ⟨fun h => ?_, fun h => (by cases h)⟩
        dsimp only at h
        rw [← h, counter_to_string] at hc
        cases hc
      | some c =>
        simp only [Option.some.injEq, Int.zero_add]
        constructor
        · intro h
          have hw := to_string_injective h
          have hz := (wrap64_add_eq_self (n := wrap64 (net ops)) (d := c) (isInt64_wrap64 _)).mp
            (by rw [wrap64_wrap64_add, hw, Int.add_comm])
          rwa [wrap64_of_isInt64 (isInt64_counter hc)] at hz
        · rintro rfl
          rw [Int.zero_add]

/-- From the live value, the log that gave it gives it again. -/
theorem runCell_live_iff (old : Option Bytes) (ops : List KeyOp) :
    Keyed.runCell KeyOp.app (Keyed.runCell KeyOp.app old ops) ops =
        Keyed.runCell KeyOp.app old ops ↔
      (∃ v, .assign v ∈ ops) ∨ counter (Keyed.runCell KeyOp.app old ops) = none ∨
        wrap64 (net ops) = 0 := by
  by_cases ha : ∃ v, KeyOp.assign v ∈ ops
  · obtain ⟨v, hv⟩ := ha
    exact ⟨fun _ => .inl ⟨v, hv⟩, fun _ => runCell_of_assign hv _ _⟩
  · rw [or_iff_right ha]
    by_cases he : ops = []
    · subst he
      exact ⟨fun _ => .inr (by decide), fun _ => rfl⟩
    · have hb : ∀ v, KeyOp.assign v ∉ ops := fun v hv => ha ⟨v, hv⟩
      cases hc : counter old with
      | none =>
        have hlive : Keyed.runCell KeyOp.app old ops = old := by rw [runCell_bumps hb he, hc]
        rw [hlive, hlive]
        exact ⟨fun _ => .inl hc, fun _ => rfl⟩
      | some c =>
        have hlive : Keyed.runCell KeyOp.app old ops =
            some (to_string (wrap64 (c + net ops))) := by rw [runCell_bumps hb he, hc]
        rw [hlive, runCell_bumps hb he, counter_to_string]
        simp only [Option.some.injEq, reduceCtorEq, false_or]
        rw [← wrap64_add_eq_self (isInt64_wrap64 (c + net ops))]
        exact to_string_injective.eq_iff

/-! ## The crash -/

/-- The line of the key is in the snapshot, and will be read, when `j` lines are written. -/
def Written (store : Store) (j : Nat) (key : Bytes) : Prop :=
  ∃ v, find key (store.entries.take j) = some v ∧ Fits key v

/-- The condition on one key for a stop before the append-only file is truncated. The log sets or
drops the key; or its line is written and the log only counts it, by nothing in all or not at all
since it is no number; or its line is not written and the old snapshot added nothing to it. -/
def KeySafe (appendOnly : Bool) (disk : Disk) (store : Store) (j : Nat) (key : Bytes) : Prop :=
  (∃ v, .assign v ∈ Keyed.opsAt key (disk.log appendOnly)) ∨
  (Written store j key ∧ (counter (store.lookup key) = none ∨
    wrap64 (net (Keyed.opsAt key (disk.log appendOnly))) = 0)) ∨
  (¬ Written store j key ∧ if Keyed.opsAt key (disk.log appendOnly) = []
    then disk.snapshotMap key = none else counter (disk.snapshotMap key) = some 0)

/-- The condition for a stop after `p` effects. -/
def CrashSafe (appendOnly : Bool) (disk : Disk) (store : Store) (p : Nat) : Prop :=
  (1 ≤ p → p ≤ store.entries.length + 1 → ∀ key, KeySafe appendOnly disk store (p - 1) key) ∧
  (store.entries.length + 2 ≤ p → FitEntries store.entries)

theorem find_take {es : List (Bytes × Bytes)} (hu : UniqueKeys es) {j : Nat} {k v : Bytes}
    (h : find k (es.take j) = some v) : find k es = some v :=
  hu.mem_iff.mp (List.mem_of_mem_take (mem_of_find h))

/-- A stop before the truncation, seen from one key. -/
theorem recovered_crash_iff {appendOnly : Bool} {disk : Disk} {store : Store}
    (hw : WordEntries store.entries) (hrec : disk.recovered appendOnly = store.lookup) (j : Nat)
    (key : Bytes) :
    Disk.recovered appendOnly ⟨some (unlines newline (dumpLines (store.entries.take j))),
        disk.aof⟩ key = store.lookup key ↔ KeySafe appendOnly disk store j key := by
  have hlive := congrFun hrec key
  rw [recovered_eq, applyAll, Keyed.run_apply] at hlive
  have hmap := snapshotMap_dump (UniqueKeys.take store.unique j) (hw.take j) disk.aof key
  rw [recovered_eq, applyAll, Keyed.run_apply, ← hlive]
  show Keyed.runCell KeyOp.app _ (Keyed.opsAt key (disk.log appendOnly)) = _ ↔ _
  unfold KeySafe
  by_cases hwr : Written store j key
  · obtain ⟨v, hv, hfit⟩ := hwr
    rw [hv] at hmap
    simp only [hfit, if_true] at hmap
    have hval : store.lookup key = some v := find_take store.unique hv
    rw [hmap, ← hval, ← hlive, runCell_live_iff]
    simp [Written, hv, hfit]
  · have hnone : Disk.snapshotMap
        ⟨some (unlines newline (dumpLines (store.entries.take j))), disk.aof⟩ key = none := by
      rw [hmap]
      cases hf : find key (store.entries.take j) with
      | none => rfl
      | some v => exact if_neg fun hfit => hwr ⟨v, hf, hfit⟩
    rw [hnone, runCell_none_iff]
    simp [hwr]

/-- Recovery from a finished `save`. -/
theorem recovered_save {store : Store} (hw : WordEntries store.entries) (appendOnly : Bool)
    (disk : Disk) (x : Bytes) :
    (PersistenceManager.save disk store).recovered appendOnly x =
      match store.lookup x with
      | none => none
      | some v => if Fits x v then some v else none := by
  have hlog : Disk.log appendOnly (PersistenceManager.save disk store) = [] := by
    cases appendOnly <;> rfl
  rw [recovered_eq, hlog]
  exact snapshotMap_dump store.unique hw [] x

theorem recovered_save_iff {store : Store} (hw : WordEntries store.entries) (appendOnly : Bool)
    (disk : Disk) :
    (PersistenceManager.save disk store).recovered appendOnly = store.lookup ↔
      FitEntries store.entries := by
  constructor
  · intro h k v hm
    have hk := congrFun h k
    rw [recovered_save hw, Store.lookup, store.unique.mem_iff.mp hm] at hk
    by_contra hfit
    simp [hfit] at hk
  · intro hfit
    funext x
    rw [recovered_save hw]
    cases hx : store.lookup x with
    | none => rfl
    | some v => exact if_pos (hfit x v (mem_of_find hx))

/-- **Crash inside `save()`.** The process stops after `p` effects of `save`. Recovery then gives
the live map exactly if the stop is safe. -/
theorem save_crash_iff (appendOnly : Bool) (w : Wiring) (clock clock' : Nat → Now) (disk : Disk)
    (store : Store) (hw : WordEntries store.entries)
    (hrec : (PersistenceManager.recover appendOnly w clock disk (Db.empty 0)).store.lookup =
      store.lookup) (p : Nat) :
    (PersistenceManager.recover appendOnly w clock'
        (disk.after ((saveEffects store).take p)) (Db.empty 0)).store.lookup = store.lookup ↔
      CrashSafe appendOnly disk store p := by
  rw [recover_lookup] at hrec ⊢
  unfold CrashSafe
  rcases Nat.eq_zero_or_pos p with rfl | hpos
  · exact ⟨fun _ => ⟨fun h => by omega, fun h => by omega⟩, fun _ => hrec⟩
  by_cases hp : p ≤ store.entries.length + 1
  · obtain ⟨j, rfl⟩ : ∃ j, p = j + 1 := ⟨p - 1, by omega⟩
    rw [after_take_succ disk store (by omega)]
    constructor
    · intro h
      refine ⟨fun _ _ key => ?_, fun hall => by omega⟩
      exact (recovered_crash_iff hw hrec j key).mp (congrFun h key)
    · rintro ⟨h, -⟩
      funext key
      exact (recovered_crash_iff hw hrec j key).mpr (h hpos hp key)
  · rw [after_take_all disk store (by omega), recovered_save_iff hw]
    exact ⟨fun h => ⟨fun _ hle => absurd hle hp, fun _ => h⟩, fun h => h.2 (by omega)⟩

/-- The store after `SET k v`. -/
def oneKeyStore : Store := (Db.empty 0).store.set (ascii "k") (ascii "v")

theorem wordEntries_oneKeyStore : WordEntries oneKeyStore.entries := by
  intro k v hm
  obtain ⟨rfl, rfl⟩ : k = ascii "k" ∧ v = ascii "v" := by
    simpa using (show (k, v) ∈ [(ascii "k", ascii "v")] from hm)
  exact ⟨by decide, by decide⟩

theorem lookup_oneKeyStore :
    oneKeyStore.lookup = applyAll (fun _ => none) (lineEffects (ascii "SET k v")) := by
  have hc : (Db.empty 0).store.capacity = 0 := rfl
  rw [oneKeyStore, Store.lookup_set hc]
  rfl

/-- With the write still in the append-only file, a stop right after the snapshot is truncated
loses nothing. -/
theorem save_crash_iff_oneKey :
    (PersistenceManager.recover true ⟨true, true⟩ (fun _ => .epoch)
        (Disk.after ⟨none, ascii "SET k v" ++ [newline]⟩ ((saveEffects oneKeyStore).take 1))
        (Db.empty 0)).store.lookup = oneKeyStore.lookup := by
  refine (save_crash_iff true ⟨true, true⟩ (fun _ => .epoch) (fun _ => .epoch)
    ⟨none, ascii "SET k v" ++ [newline]⟩ oneKeyStore wordEntries_oneKeyStore ?_ 1).mpr ?_
  · rw [recover_lookup, lookup_oneKeyStore]
    rfl
  · refine ⟨fun _ _ key => ?_, fun h => absurd h (by decide)⟩
    have hlog : Disk.log true ⟨none, ascii "SET k v" ++ [newline]⟩ =
        [(ascii "k", .assign (some (ascii "v")))] := by decide
    unfold KeySafe
    rw [hlog, Keyed.opsAt_cons]
    by_cases hk : ascii "k" = key
    · rw [if_pos hk]
      exact .inl ⟨_, List.mem_cons_self⟩
    · rw [if_neg hk]
      refine .inr (.inr ⟨?_, by simp [Keyed.opsAt, Disk.snapshotMap]⟩)
      rintro ⟨v, hv, -⟩
      cases hv

/-- A stop right after the snapshot is truncated, when the append-only file is empty, loses
everything. -/
theorem save_crash_loses_snapshot :
    ¬ ∀ (w : Wiring) (clock clock' : Nat → Now) (disk : Disk) (store : Store),
      WordEntries store.entries →
      (PersistenceManager.recover true w clock disk (Db.empty 0)).store.lookup = store.lookup →
      ∀ p, (PersistenceManager.recover true w clock'
        (disk.after ((saveEffects store).take p)) (Db.empty 0)).store.lookup = store.lookup := by
  intro h
  let clock : Nat → Now := fun _ => .epoch
  have hlost := congrFun (h ⟨true, true⟩ clock clock ⟨some (ascii "SET k v" ++ [newline]), []⟩
    oneKeyStore wordEntries_oneKeyStore ?_ 1) (ascii "k")
  · rw [recover_lookup] at hlost
    revert hlost
    decide
  · rw [recover_lookup, lookup_oneKeyStore]
    rfl

end TinyKV

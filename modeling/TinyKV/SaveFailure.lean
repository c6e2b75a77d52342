import TinyKV.Server

/-!
# A snapshot that cannot be written

`PersistenceManager::save` in `src/persistence/persistence_manager.cpp`, where a file may fail to
open. `SnapshotManager::saveToFile` returns false then and leaves the old snapshot. `save` does not
look at the result: it empties the append-only file all the same, and returns nothing, so `SAVE`
answers `+OK`.

* `Opens`: which files open. `saveWith`: `save` with them; `saveWith_eq_save`: if both open it is
  `save`.
* `SaveCaller`: the `SAVE` command or the timer.
* `NothingLost`: after a failed snapshot the files still bring back the live map, and the client is
  not told that all went well.
* `failed_save_iff`: the command always breaks this. After a call of the timer nothing is lost if
  the append-only file does not open either, or if the old snapshot has the live map.
-/

namespace TinyKV

open Cpp Recency Text

/-! ## The files -/

/-- Which files of `save` open with truncation. -/
structure Opens where
  snapshot : Bool
  aof : Bool
  deriving DecidableEq

/-- `saveToFile` with its result: a file that does not open keeps its bytes. -/
def SnapshotManager.saveToFileWith (opens : Bool) (disk : Disk) (store : Store) : Disk × Bool :=
  if !opens then (disk, false) else (SnapshotManager.saveToFile disk store, true)

/-- `reset`; a file that does not open keeps its bytes. -/
def AofWriter.resetWith (opens : Bool) (disk : Disk) : Disk :=
  if !opens then disk else AofWriter.reset disk

/-- `save`. The result of `saveToFile` is not used. -/
def PersistenceManager.saveWith (opens : Opens) (disk : Disk) (store : Store) : Disk :=
  AofWriter.resetWith opens.aof (SnapshotManager.saveToFileWith opens.snapshot disk store).1

theorem saveWith_eq_save (disk : Disk) (store : Store) :
    PersistenceManager.saveWith ⟨true, true⟩ disk store = PersistenceManager.save disk store := rfl

/-- A failed snapshot leaves the old one, and the append-only file is empty if it opens. -/
theorem saveWith_of_failed {opens : Opens} (h : opens.snapshot = false) (disk : Disk)
    (store : Store) :
    PersistenceManager.saveWith opens disk store =
      if opens.aof then { disk with aof := [] } else disk := by
  obtain ⟨snapshot, aof⟩ := opens
  obtain rfl : snapshot = false := h
  cases aof <;> rfl

/-- What asks for a snapshot. -/
inductive SaveCaller where
  | command | timer
  deriving DecidableEq

/-- The reply that a client gets. -/
def SaveCaller.reply (db : Db) (now : Now) : SaveCaller → Option Bytes
  | .command => some (execute serverWiring db now ⟨.SAVE, ascii "SAVE", []⟩).reply
  | .timer => none

theorem reply_ne_ok_iff (db : Db) (now : Now) (caller : SaveCaller) :
    caller.reply db now ≠ some Reply.ok ↔ caller = .timer := by
  cases caller with
  | command => exact iff_of_false (fun h => h rfl) (by simp)
  | timer => exact iff_of_true (by simp [SaveCaller.reply]) rfl

/-! ## Recovery at another time -/

theorem recover_lookup_clock (appendOnly : Bool) (clock clock' : Nat → Now) (disk : Disk)
    (db : Db) :
    (PersistenceManager.recover appendOnly serverWiring clock disk db).store.lookup =
      (PersistenceManager.recover appendOnly serverWiring clock' disk db).store.lookup := by
  funext x
  rw [recover_eq, recover_eq, Store.lookup, Store.lookup, replayLines_entries, replayLines_entries]

/-- Without lines in the append-only file the snapshot is all there is. -/
theorem recover_of_empty_aof (appendOnly : Bool) (w : Wiring) (clock : Nat → Now) (disk : Disk)
    (db : Db) :
    PersistenceManager.recover appendOnly w clock { disk with aof := [] } db =
      SnapshotManager.loadFromFile w clock disk db := by
  cases appendOnly <;> rfl

/-! ## What is lost -/

/-- Recovery from `disk` on a fresh store of capacity `c` gives the map `live`, at any time. -/
def BringsBack (appendOnly : Bool) (c : Nat) (disk : Disk) (live : KvMap) : Prop :=
  ∀ clock : Nat → Now,
    (PersistenceManager.recover appendOnly serverWiring clock disk (Db.empty c)).store.lookup =
      live

theorem bringsBack_iff (clock : Nat → Now) {appendOnly : Bool} {c : Nat} {disk : Disk}
    {live : KvMap} :
    BringsBack appendOnly c disk live ↔
      (PersistenceManager.recover appendOnly serverWiring clock disk (Db.empty c)).store.lookup =
        live :=
  ⟨fun h => h clock, fun h clock' =>
    (recover_lookup_clock appendOnly clock' clock disk (Db.empty c)).trans h⟩

/-- After a `save` whose snapshot failed the files bring back the live map, and the client is not
answered `+OK`. -/
structure NothingLost (appendOnly : Bool) (opens : Opens) (caller : SaveCaller) (now : Now)
    (disk : Disk) (db : Db) : Prop where
  recovered : BringsBack appendOnly db.store.capacity
    (PersistenceManager.saveWith opens disk db.store) db.store.lookup
  refused : caller.reply db now ≠ some Reply.ok

/-- **A failed snapshot.** The files bring back the live map and then a snapshot fails. Nothing is
lost exactly if it was the timer that asked for it, and the append-only file did not open either or
the old snapshot has the whole map. -/
theorem failed_save_iff (appendOnly : Bool) (opens : Opens) (caller : SaveCaller) (now : Now)
    (clock : Nat → Now) (disk : Disk) (db : Db) (hfail : opens.snapshot = false)
    (hlive : BringsBack appendOnly db.store.capacity disk db.store.lookup) :
    NothingLost appendOnly opens caller now disk db ↔
      caller = .timer ∧ (opens.aof = false ∨
        (SnapshotManager.loadFromFile serverWiring clock disk
          (Db.empty db.store.capacity)).store.lookup = db.store.lookup) := by
  have hbrings : BringsBack appendOnly db.store.capacity
        (PersistenceManager.saveWith opens disk db.store) db.store.lookup ↔
      (opens.aof = false ∨ (SnapshotManager.loadFromFile serverWiring clock disk
        (Db.empty db.store.capacity)).store.lookup = db.store.lookup) := by
    rw [saveWith_of_failed hfail]
    cases opens.aof with
    | false => exact iff_of_true hlive (.inl rfl)
    | true =>
      rw [if_pos rfl, bringsBack_iff clock, recover_of_empty_aof]
      simp
  constructor
  · intro h
    exact ⟨(reply_ne_ok_iff db now caller).mp h.refused, hbrings.mp h.recovered⟩
  · rintro ⟨hcaller, hfiles⟩
    exact ⟨hbrings.mpr hfiles, (reply_ne_ok_iff db now caller).mpr hcaller⟩

/-- A server that has one key in its append-only file. -/
def loggedKey : Disk := ⟨none, ascii "SET k v" ++ [newline]⟩

/-- What it has recovered. -/
def loggedDb : Db :=
  PersistenceManager.recover true serverWiring (fun _ => .epoch) loggedKey (Db.empty 0)

theorem bringsBack_loggedKey :
    BringsBack true loggedDb.store.capacity loggedKey loggedDb.store.lookup := by
  have hc : loggedDb.store.capacity = 0 := by decide +kernel
  rw [hc]
  exact (bringsBack_iff fun _ => .epoch).mpr rfl

theorem failed_save_iff_bothFail :
    NothingLost true ⟨false, false⟩ .timer .epoch loggedKey loggedDb :=
  (failed_save_iff true ⟨false, false⟩ .timer .epoch (fun _ => .epoch) loggedKey loggedDb rfl
    bringsBack_loggedKey).mpr ⟨rfl, .inl rfl⟩

/-- The automatic snapshot fails and the only record of the key is thrown away. -/
theorem not_failed_save_timer :
    ¬ ∀ (appendOnly : Bool) (opens : Opens) (caller : SaveCaller) (now : Now) (disk : Disk)
      (db : Db), opens.snapshot = false →
      BringsBack appendOnly db.store.capacity disk db.store.lookup →
      NothingLost appendOnly opens caller now disk db := by
  intro h
  have hlost := (h true ⟨false, true⟩ .timer .epoch loggedKey loggedDb rfl
    bringsBack_loggedKey).recovered fun _ => .epoch
  have hkey : loggedDb.store.lookup (ascii "k") = some (ascii "v") := by decide +kernel
  rw [← hlost] at hkey
  revert hkey
  decide +kernel

end TinyKV

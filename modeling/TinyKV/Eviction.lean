import TinyKV.Recovery
import TinyKV.Logging

/-!
# Recovery with an LRU capacity

A store with a capacity evicts the key that was used longest ago, and a `GET` uses its key. The
append-only file has the writes only, so a replay evicts the key that was written longest ago. The
two agree as long as every eviction takes a key that is both.

* `Disk.logEntries`: the pairs that a replay of the append-only file gives, in the replay's order.
* `LruRun`: a server with the history of its writes; `lruMachine` handles lines one at a time.
* `LruStepSafe`: a write that evicts a key evicts the one whose last write is the oldest.
* `onEntries_agree`, `keys_onEntries`: an operation on two stores that hold the same pairs.
* `lruInv_step`, `lru_step_differs`: a safe step keeps replay and store alike, any other step
  makes them differ.
* `lru_replay_iff`: replay and store are alike all along a run exactly if its steps are safe.
-/

namespace TinyKV

open Cpp Recency Text SnapshotManager
open KVStore (counter)

/-! ## One operation on two stores with the same pairs -/

section

variable {c : Nat} {es fs : List (Bytes × Bytes)}

/-- An operation keeps two stores alike that hold the same pairs and evict the same key. -/
theorem onEntries_agree (hu : UniqueKeys es) (hu' : UniqueKeys fs) (hle : c ≠ 0 → es.length ≤ c)
    (hle' : c ≠ 0 → fs.length ≤ c) (hf : ∀ x, find x es = find x fs) {key : Bytes} {op : KeyOp}
    (hev : op ≠ .assign none → evicted c key es = evicted c key fs) (x : Bytes) :
    find x (op.onEntries c key es) = find x (op.onEntries c key fs) := by
  cases op with
  | assign v =>
    cases v with
    | none => simp only [KeyOp.onEntries, find_remove, hf]
    | some v =>
      simp only [KeyOp.onEntries, hu.find_trim_put hle, hu'.find_trim_put hle', hf,
        hev (by simp)]
  | bump d =>
    simp only [KeyOp.onEntries, hf]
    cases counter (find key fs) with
    | none => exact hf x
    | some n =>
      simp only [hu.find_trim_put hle, hu'.find_trim_put hle', hf, hev (by simp)]

/-- The keys in the order of their last write, after a write of `key` that left the pairs `es`. -/
def rewritten (key : Bytes) (es : List (Bytes × Bytes)) (written : List Bytes) : List Bytes :=
  (key :: written.filter fun x => x ≠ key).filter fun x => (find x es).isSome

theorem keys_onEntries (hu : UniqueKeys es) {key : Bytes} {op : KeyOp}
    (hop : ∀ d, op = .bump d → (counter (find key es)).isSome = true) :
    (op.onEntries c key es).map Prod.fst =
      rewritten key (op.onEntries c key es) (es.map Prod.fst) := by
  have hput : ∀ v, (trim c (put key v es)).map Prod.fst =
      rewritten key (trim c (put key v es)) (es.map Prod.fst) := by
    intro v
    rw [(hu.put key v).keys_trim c, rewritten, ← keys_remove]
    rfl
  cases op with
  | assign v =>
    cases v with
    | none =>
      simp only [KeyOp.onEntries, rewritten]
      rw [List.filter_cons_of_neg (by simp [find_remove]), keys_remove, eq_comm,
        List.filter_eq_self]
      intro x hx
      obtain ⟨hm, hne⟩ := List.mem_filter.mp hx
      rw [find_remove, if_neg (by simpa using hne), Option.isSome_iff_ne_none, Ne, find_eq_none,
        not_not]
      exact hm
    | some v => exact hput v
  | bump d =>
    obtain ⟨n, hn⟩ := Option.isSome_iff_exists.mp (hop d rfl)
    simp only [KeyOp.onEntries, hn]
    exact hput _

theorem rewritten_congr (h : ∀ x, find x es = find x fs) (key : Bytes) (written : List Bytes) :
    rewritten key es written = rewritten key fs written := by
  simp only [rewritten, h]

/-- The other keys after an operation that binds its key. -/
theorem find_onEntries_of_ne (hu : UniqueKeys es) (hle : c ≠ 0 → es.length ≤ c) {key x : Bytes}
    {op : KeyOp} (hop : ∀ d, op = .bump d → (counter (find key es)).isSome = true)
    (hput : op ≠ .assign none) (hx : x ≠ key) :
    find x (op.onEntries c key es) = if evicted c key es = some x then none else find x es := by
  cases op with
  | assign v =>
    cases v with
    | none => exact absurd rfl hput
    | some v => rw [KeyOp.onEntries, hu.find_trim_put hle, if_neg hx]
  | bump d =>
    obtain ⟨n, hn⟩ := Option.isSome_iff_exists.mp (hop d rfl)
    simp only [KeyOp.onEntries, hn]
    rw [hu.find_trim_put hle, if_neg hx]

/-- What the second store evicts when the first one does. -/
theorem evicted_of_agree (hu : UniqueKeys es) (hu' : UniqueKeys fs)
    (hf : ∀ x, find x es = find x fs) (key : Bytes) :
    evicted c key fs =
      if (evicted c key es).isSome then (fs.map Prod.fst).getLast? else none := by
  have hkey : key ∈ es.map Prod.fst ↔ key ∈ fs.map Prod.fst := by
    rw [← not_iff_not, ← find_eq_none, ← find_eq_none, hf]
  have hcond : (c ≠ 0 ∧ c ≤ es.length ∧ key ∉ es.map Prod.fst) ↔
      (c ≠ 0 ∧ c ≤ fs.length ∧ key ∉ fs.map Prod.fst) := by
    rw [hkey, hu.length_eq hu' hf]
  unfold evicted
  by_cases hev : c ≠ 0 ∧ c ≤ es.length ∧ key ∉ es.map Prod.fst
  · have hne : es ≠ [] := by
      rintro rfl
      exact hev.1 (Nat.le_zero.mp hev.2.1)
    rw [if_pos hev, if_pos (hcond.mp hev), Option.isSome_map, List.getLast?_isSome.mpr hne,
      if_pos rfl, List.getLast?_map]
  · rw [if_neg hev, if_neg fun h => hev (hcond.mpr h)]
    rfl

end

/-! ## Replay with a capacity -/

/-- The pairs after a replay of the append-only file into an empty store. -/
def Disk.logEntries (c : Nat) (disk : Disk) : List (Bytes × Bytes) :=
  (getlines newline disk.aof).foldl (lineOnEntries c) []

theorem replay_entries (c : Nat) (w : Wiring) (clock : Nat → Now) (disk : Disk) :
    (AofLoader.replay w clock disk (Db.empty c)).store.entries = disk.logEntries c :=
  replayLines_entries w clock (Db.empty c) _

theorem replay_capacity (c : Nat) (w : Wiring) (clock : Nat → Now) (disk : Disk) :
    (AofLoader.replay w clock disk (Db.empty c)).store.capacity = c :=
  replayLines_capacity w clock (Db.empty c) _

/-- The replayed pairs are those of a store. -/
theorem logEntries_spec (c : Nat) (disk : Disk) :
    UniqueKeys (disk.logEntries c) ∧ (c ≠ 0 → (disk.logEntries c).length ≤ c) := by
  let clock : Nat → Now := fun _ => .epoch
  have hcap := replay_capacity c serverWiring clock disk
  rw [← replay_entries c serverWiring clock disk]
  refine ⟨Store.unique _, fun hc => ?_⟩
  have hle := Store.length_entries_le
    (s := (AofLoader.replay serverWiring clock disk (Db.empty c)).store) (by rw [hcap]; exact hc)
  rwa [hcap] at hle

theorem logEntries_append {disk : Disk} (h : disk.Complete) (c : Nat) (line : Line) :
    (AofWriter.append disk line.1).logEntries c =
      lineOnEntries c (disk.logEntries c) line.1 := by
  unfold Disk.logEntries
  rw [getlines_append h, List.foldl_append]
  rfl

/-! ## The machine -/

/-- A server and the history of its writes. -/
structure LruRun where
  server : Server
  /-- The keys of the store, the last written first. -/
  written : List Bytes

structure LineAction where
  fd : Nat
  now : Now
  line : Line

/-- The server with its history: it takes every line but `SAVE` and `REPLICAOF`. -/
def lruMachine : Machine LruRun LineAction Server.Response where
  step r a :=
    if isSaveOrReplicaOf a.line.1 then none
    else
      let s := (r.server.handleLine a.fd a.now a.line.1).1
      let written :=
        if r.server.records a.now a.line.1 then
          (lineEffects a.line.1).foldl (fun ks u => rewritten u.1 s.db.store.entries ks) r.written
        else r.written
      some (⟨s, written⟩, (r.server.handleLine a.fd a.now a.line.1).2)

/-- A write that evicts a key evicts the one whose last write is the oldest. -/
def LruStepSafe (r : LruRun) (a : LineAction) : Prop :=
  ∀ u ∈ lineEffects a.line.1, u.2 ≠ .assign none →
    ∀ e ∈ evicted r.server.db.store.capacity u.1 r.server.db.store.entries,
      r.written.getLast? = some e

instance (r : LruRun) (a : LineAction) : Decidable (LruStepSafe r a) :=
  inferInstanceAs (Decidable (∀ u ∈ lineEffects a.line.1, _))

/-- The replay of the append-only file gives the pairs of the store. -/
def LruRun.Agrees (c : Nat) (r : LruRun) : Prop :=
  ∀ x, find x (r.server.disk.logEntries c) = find x r.server.db.store.entries

structure LruInv (c : Nat) (r : LruRun) : Prop where
  capacity : r.server.db.store.capacity = c
  appendOnly : r.server.appendOnly = true
  primary : r.server.role = .PRIMARY
  complete : r.server.disk.Complete
  /-- The replay has the keys in the order of their last write. -/
  order : (r.server.disk.logEntries c).map Prod.fst = r.written
  agrees : r.Agrees c

/-! ## One line -/

/-- A line on a primary: a command and its record, or nothing. -/
theorem handleLine_primary {s : Server} (hrole : s.role = .PRIMARY) (fd : Nat) (now : Now)
    {line : Bytes} (hno : isSaveOrReplicaOf line = false) :
    (s.handleLine fd now line).1.role = .PRIMARY ∧
    (s.handleLine fd now line).1.appendOnly = s.appendOnly ∧
    ((lineEffects line = [] ∧ (s.handleLine fd now line).1.db = s.db ∧
      (s.handleLine fd now line).1.disk = s.disk) ∨
     ∃ cmd, parse line = .ok cmd ∧
      (s.handleLine fd now line).1.db = (execute serverWiring s.db now cmd).db ∧
      (s.handleLine fd now line).1.disk =
        if logged cmd (execute serverWiring s.db now cmd).reply
        then PersistenceManager.recordWrite s.appendOnly s.disk line else s.disk) := by
  rcases s.handleLine_inv fd now line with ⟨hskip, hs⟩ | ⟨cmd, hp, -, hs⟩
  · have hnone : lineEffects line = [] := by
      unfold lineEffects
      cases hp : parse line with
      | error e => rfl
      | ok cmd =>
        rcases hskip cmd hp with hsync | ⟨-, hro⟩
        · obtain ⟨type, name, args⟩ := cmd
          obtain rfl : type = .SYNC := hsync
          rfl
        · rw [hrole] at hro
          cases hro
    rcases hs with hs | hs <;> rw [hs] <;> exact ⟨hrole, rfl, .inl ⟨hnone, rfl, rfl⟩⟩
  · simp only [isSaveOrReplicaOf, hp, Bool.or_eq_false_iff, decide_eq_false_iff_not] at hno
    rw [hs, s.executeCommand_of_no_call (execute_call_eq_none hno.1 hno.2)]
    simp only [Server.recordAndPropagateIfWrite_db, Server.recordAndPropagateIfWrite_role,
      Server.recordAndPropagateIfWrite_appendOnly, Server.recordAndPropagateIfWrite_disk]
    exact ⟨hrole, trivial, .inr ⟨cmd, hp, rfl, rfl⟩⟩

/-- A command that is not logged leaves the map of a store of any capacity. -/
theorem find_of_not_logged {w : Wiring} {db : Db} {now : Now} {cmd : Command}
    (h : logged cmd (execute w db now cmd).reply = false) (x : Bytes) :
    find x (execute w db now cmd).db.store.entries = find x db.store.entries :=
  congrFun (same_of_not_logged h).1 x

/-- The only effect that is not logged is a counter on a value that is no number, and this key is
stored. -/
theorem lruStepSafe_of_not_logged {r : LruRun} {a : LineAction} {w : Wiring} {cmd : Command}
    (hp : parse a.line.1 = .ok cmd)
    (hlog : logged cmd (execute w r.server.db a.now cmd).reply = false) : LruStepSafe r a := by
  intro u hu hne e he
  rw [lineEffects_of_parse hp, Option.mem_toList] at hu
  obtain ⟨key, op⟩ := u
  cases op with
  | assign v =>
    rw [logged_of_assign hu] at hlog
    cases hlog
  | bump d =>
    rw [logged_of_bump hu] at hlog
    have hmem : key ∈ r.server.db.store.entries.map Prod.fst := by
      by_contra hn
      rw [Store.lookup, find_eq_none.mpr hn] at hlog
      cases hlog
    simp [evicted, hmem] at he

/-- What a step of the machine does: it leaves the pairs and the log, or it runs one operation on
both. -/
theorem lruMachine_step {c : Nat} {r t : LruRun} {a : LineAction} {o : Server.Response}
    (h : LruInv c r) (hs : lruMachine.step r a = some (t, o)) :
    (t.server.db.store.capacity = c ∧ t.server.appendOnly = true ∧ t.server.role = .PRIMARY ∧
      t.server.disk.Complete) ∧
    ((LruStepSafe r a ∧ t.written = r.written ∧
      t.server.disk.logEntries c = r.server.disk.logEntries c ∧
      ∀ x, find x t.server.db.store.entries = find x r.server.db.store.entries) ∨
     ∃ key op, lineEffects a.line.1 = [(key, op)] ∧
      (∀ d, op = .bump d → (counter (find key r.server.db.store.entries)).isSome = true) ∧
      t.written = rewritten key t.server.db.store.entries r.written ∧
      t.server.disk.logEntries c = op.onEntries c key (r.server.disk.logEntries c) ∧
      t.server.db.store.entries = op.onEntries c key r.server.db.store.entries) := by
  simp only [lruMachine] at hs
  split at hs
  · cases hs
  rename_i hno
  simp only [Option.some.injEq, Prod.mk.injEq] at hs
  obtain ⟨rfl, -⟩ := hs
  obtain ⟨hrole, happ, hcases⟩ :=
    handleLine_primary h.primary a.fd a.now (Bool.not_eq_true _ ▸ hno)
  generalize (r.server.handleLine a.fd a.now a.line.1).1 = s at hrole happ hcases ⊢
  obtain ⟨heff, hdb, hdisk⟩ | ⟨cmd, hp, hdb, hdisk⟩ := hcases
  · refine ⟨⟨by rw [hdb, h.capacity], happ.trans h.appendOnly, hrole, by rw [hdisk]; exact h.complete⟩,
      .inl ⟨?_, ?_, by rw [hdisk], fun x => by rw [hdb]⟩⟩
    · intro u hu
      rw [heff] at hu
      cases hu
    · simp [heff]
  have heffs := lineEffects_of_parse hp
  have hcap : s.db.store.capacity = c := by rw [hdb, execute_capacity, h.capacity]
  have hrecords : r.server.records a.now a.line.1 =
      logged cmd (execute serverWiring r.server.db a.now cmd).reply := by
    rw [Server.records, hp]
  simp only [hrecords]
  cases hlog : logged cmd (execute serverWiring r.server.db a.now cmd).reply with
  | false =>
    rw [hlog] at hdisk
    have hdisk : s.disk = r.server.disk := hdisk
    exact ⟨⟨hcap, happ.trans h.appendOnly, hrole, by rw [hdisk]; exact h.complete⟩,
      .inl ⟨lruStepSafe_of_not_logged hp hlog, rfl, by rw [hdisk],
        fun x => by rw [hdb]; exact find_of_not_logged hlog x⟩⟩
  | true =>
    rw [hlog, if_pos rfl, h.appendOnly] at hdisk
    have hdisk : s.disk = AofWriter.append r.server.disk a.line.1 := hdisk
    have hcomplete : s.disk.Complete := by rw [hdisk]; exact complete_append h.complete a.line
    have hget : cmd.type ≠ .GET := by
      intro hg
      rw [logged, hg] at hlog
      simp [isWriteCommand] at hlog
    have hon : ∀ es, lineOnEntries c es a.line.1 = cmd.onEntries c es := fun es => by
      rw [lineOnEntries, hp]
    have hlogE : s.disk.logEntries c = lineOnEntries c (r.server.disk.logEntries c) a.line.1 := by
      rw [hdisk, logEntries_append h.complete]
    have hE : s.db.store.entries = lineOnEntries c r.server.db.store.entries a.line.1 := by
      rw [hdb, execute_entries, h.capacity, lineOnEntries, hp]
    refine ⟨⟨hcap, happ.trans h.appendOnly, hrole, hcomplete⟩, ?_⟩
    cases heff : cmd.effect with
    | none =>
      have hnil : lineEffects a.line.1 = [] := by rw [heffs, heff]; rfl
      rw [hon, onEntries_eq hget, heff] at hlogE hE
      refine .inl ⟨fun u hu => ?_, by simp [hnil], hlogE, fun x => by rw [hE]⟩
      rw [hnil] at hu
      cases hu
    | some u =>
      obtain ⟨key, op⟩ := u
      have hone : lineEffects a.line.1 = [(key, op)] := by rw [heffs, heff]; rfl
      rw [hon, onEntries_eq hget, heff] at hlogE hE
      refine .inr ⟨key, op, hone, ?_, by simp [hone], hlogE, hE⟩
      rintro d rfl
      rw [logged_of_bump heff] at hlog
      exact hlog

/-- A safe step keeps the replay and the store alike. -/
theorem lruInv_step {c : Nat} {r t : LruRun} {a : LineAction} {o : Server.Response}
    (h : LruInv c r) (hsafe : LruStepSafe r a) (hs : lruMachine.step r a = some (t, o)) :
    LruInv c t := by
  obtain ⟨⟨hcap, happ, hrole, hcomplete⟩, hcases⟩ := lruMachine_step h hs
  obtain ⟨-, hw, hlog, hfind⟩ | ⟨key, op, heff, hop, hw, hlog, hE⟩ := hcases
  · refine ⟨hcap, happ, hrole, hcomplete, by rw [hlog, hw, h.order], fun x => ?_⟩
    rw [hlog, hfind, h.agrees x]
  · obtain ⟨huW, hleW⟩ := logEntries_spec c r.server.disk
    have huE := r.server.db.store.unique
    have hleE : c ≠ 0 → r.server.db.store.entries.length ≤ c := by
      rw [← h.capacity]
      exact fun hc => Store.length_entries_le hc
    have hev : op ≠ .assign none → evicted c key (r.server.disk.logEntries c) =
        evicted c key r.server.db.store.entries := by
      intro hne
      rw [evicted_of_agree huE huW (fun x => (h.agrees x).symm), h.order]
      cases he : evicted c key r.server.db.store.entries with
      | none => rfl
      | some e =>
        exact hsafe (key, op) (by simp [heff]) hne e (by rw [h.capacity]; exact he)
    have hagree : t.Agrees c := fun x => by
      rw [hlog, hE]
      exact onEntries_agree huW huE hleW hleE h.agrees hev x
    refine ⟨hcap, happ, hrole, hcomplete, ?_, hagree⟩
    have hopW : ∀ d, op = .bump d →
        (counter (find key (r.server.disk.logEntries c))).isSome = true := by
      rw [h.agrees key]
      exact hop
    rw [hw, hlog, keys_onEntries huW hopW, ← hlog, h.order]
    exact rewritten_congr hagree key _

/-- A step that is not safe makes them differ. -/
theorem lru_step_differs {c : Nat} {r t : LruRun} {a : LineAction} {o : Server.Response}
    (h : LruInv c r) (hsafe : ¬ LruStepSafe r a) (hs : lruMachine.step r a = some (t, o)) :
    ¬ t.Agrees c := by
  obtain ⟨-, ⟨hs', -⟩ | ⟨key, op, heff, hop, -, hlog, hE⟩⟩ := lruMachine_step h hs
  · exact absurd hs' hsafe
  intro hagree
  refine hsafe fun u hu hput e he => ?_
  rw [heff] at hu
  cases List.mem_singleton.mp hu
  have he : evicted c key r.server.db.store.entries = some e := by rw [← h.capacity]; exact he
  obtain ⟨huW, hleW⟩ := logEntries_spec c r.server.disk
  have huE := r.server.db.store.unique
  have hleE : c ≠ 0 → r.server.db.store.entries.length ≤ c := by
    rw [← h.capacity]
    exact fun hc => Store.length_entries_le hc
  obtain ⟨hmem, hne⟩ := of_evicted he
  -- The store has lost `e`, so the replay has lost it too: it is the last one in its order.
  have hgone : find e t.server.db.store.entries = none := by
    rw [hE, find_onEntries_of_ne huE hleE hop hput hne, if_pos he]
  have hreplay := (hagree e).trans hgone
  rw [hlog, find_onEntries_of_ne huW hleW (by rw [h.agrees key]; exact hop) hput hne,
    evicted_of_agree huE huW (fun x => (h.agrees x).symm), he] at hreplay
  by_contra hlast
  rw [Option.isSome_some, if_pos rfl, h.order, if_neg hlast, h.agrees e, find_eq_none] at hreplay
  exact hreplay hmem

/-! ## Whole runs -/

theorem lruStepSafe_of_disabled {r : LruRun} {a : LineAction} (h : lruMachine.step r a = none) :
    LruStepSafe r a := by
  have hno : isSaveOrReplicaOf a.line.1 = true := by
    simp only [lruMachine] at h
    split at h
    · assumption
    · cases h
  intro u hu
  unfold isSaveOrReplicaOf at hno
  unfold lineEffects at hu
  split at hno
  · cases hno
  · rename_i cmd hp
    rw [hp] at hu
    obtain ⟨type, name, args⟩ := cmd
    simp only [Bool.or_eq_true, decide_eq_true_eq] at hno
    rcases hno with rfl | rfl <;> cases hu

/-- From any state in which replay and store are alike, they stay so exactly along safe steps. -/
theorem agrees_iff_along {c : Nat} {r : LruRun} (h : LruInv c r) (acts : List LineAction) :
    (∀ pre t outs, pre <+: acts → lruMachine.run r pre = some (t, outs) → t.Agrees c) ↔
      lruMachine.Along LruStepSafe r acts := by
  refine Machine.forall_prefix_iff_along (I := LruInv c) (fun _ h => h.agrees) ?_ ?_ ?_ h acts
  · exact fun r a t o h hsafe hs => lruInv_step h hsafe hs
  · exact fun r a t o h hsafe hs => lru_step_differs h hsafe hs
  · exact fun r a hs => lruStepSafe_of_disabled hs

/-- A fresh server with a capacity. -/
def LruRun.start (c : Nat) (clock : Nat → Now) : LruRun := ⟨Server.start true c clock .empty, []⟩

theorem lruInv_start (c : Nat) (clock : Nat → Now) : LruInv c (LruRun.start c clock) :=
  ⟨rfl, rfl, rfl, ⟨[], fun _ h => (by cases h), rfl⟩, rfl, fun _ => rfl⟩

theorem agrees_iff_replay {c : Nat} {r : LruRun} :
    r.Agrees c ↔ ∀ clock, (AofLoader.replay serverWiring clock r.server.disk
      (Db.empty c)).store.lookup = r.server.db.store.lookup := by
  constructor
  · intro h clock
    funext x
    rw [Store.lookup, replay_entries]
    exact h x
  · intro h x
    rw [← replay_entries c serverWiring fun _ => .epoch]
    exact congrFun (h _) x

/-- **Recovery with a capacity.** At every point of a run the replay of the append-only file into an
empty store of the same capacity gives the live map, exactly if every write of the run that evicts
a key evicts the one whose last write is the oldest. -/
theorem lru_replay_iff (c : Nat) (clock₀ : Nat → Now) (acts : List LineAction) :
    (∀ pre r outs, pre <+: acts → lruMachine.run (.start c clock₀) pre = some (r, outs) →
      ∀ clock, (AofLoader.replay serverWiring clock r.server.disk (Db.empty c)).store.lookup =
        r.server.db.store.lookup) ↔
    lruMachine.Along LruStepSafe (.start c clock₀) acts := by
  rw [← agrees_iff_along (lruInv_start c clock₀)]
  simp only [agrees_iff_replay]

/-- Two keys fill the store, the older one is read, a third one comes. -/
def readOldest : List LineAction :=
  [⟨0, .epoch, .ofText "SET a 1"⟩,
    ⟨0, .epoch, .ofText "SET b 2"⟩,
    ⟨0, .epoch, .ofText "GET a"⟩,
    ⟨0, .epoch, .ofText "SET c 3"⟩]

/-- The store keeps `a`, which was read; the replay keeps `b`. -/
theorem lru_replay_readOldest :
    ¬ ∀ (c : Nat), 1 ≤ c → ∀ (clock₀ clock : Nat → Now) (acts : List LineAction) (r : LruRun)
      (outs : List Server.Response), lruMachine.run (.start c clock₀) acts = some (r, outs) →
      (AofLoader.replay serverWiring clock r.server.disk (Db.empty c)).store.lookup =
        r.server.db.store.lookup := by
  intro h
  have hrun : (lruMachine.run (.start 2 fun _ => .epoch) readOldest).map (fun x =>
      (find (ascii "a") (x.1.server.disk.logEntries 2),
        x.1.server.db.store.lookup (ascii "a"))) = some (none, some (ascii "1")) := by
    decide +kernel
  obtain ⟨⟨r, outs⟩, hr, hfacts⟩ := Option.map_eq_some_iff.mp hrun
  simp only [Prod.mk.injEq] at hfacts
  have hlost := congrFun (h 2 (by decide) _ (fun _ => .epoch) readOldest r outs hr)
    (ascii "a")
  rw [Store.lookup, replay_entries, hfacts.1, hfacts.2] at hlost
  cases hlost

end TinyKV

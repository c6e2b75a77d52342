import TinyKV.Chain
import TinyKV.Cell
import TinyKV.Reference

/-!
# Expirations on a primary and its replica

Each node has its own sweeper, and an expiration is not propagated. A replica sets its deadlines
when it applies a line, so a key may be gone on one node and still be there on the other. The dump
has values and no deadlines.

* `Cell.Twin`: what the two nodes may say of a key. They agree and no deadline runs, or each of them
  has a deadline for the key or does not have it. So they agree once all deadlines are over.
* `twin_exec`: a command on both cells, at different times. `INCR`, `DECR` and `PERSIST` need the
  key on both nodes or on none.
* `pairMachine`: a primary and a replica with their sweepers, the handshake and the lines between
  them. `Feeds`: the lines that are on their way, with the cells that the primary had.
* `expiry_converges`: the maps are equal when all is delivered and swept, in every run in which no
  key of the dump has a deadline and those three commands find the key on both nodes or on none.
-/

namespace TinyKV

open Cpp Recency Text SnapshotManager
open KVStore (counter)

/-! ## The two cells of a key -/

/-- What a primary and its replica may say of a key. -/
inductive Cell.Twin : Cell → Cell → Prop where
  | same (v : Option Bytes) : Twin ⟨v, none⟩ ⟨v, none⟩
  /-- The key is there with a deadline on both nodes. -/
  | both (v : Bytes) (d d' : Int) : Twin ⟨some v, some d⟩ ⟨some v, some d'⟩
  /-- The key is over on the replica and has a deadline on the primary. -/
  | left (v : Bytes) (d : Int) : Twin ⟨some v, some d⟩ ⟨none, none⟩
  /-- The key is over on the primary and has a deadline on the replica. -/
  | right (v : Bytes) (d : Int) : Twin ⟨none, none⟩ ⟨some v, some d⟩

/-- A cell is as it was, or its deadline is over. -/
def Cell.Expires (x y : Cell) : Prop := y = x ∨ x.deadline.isSome = true ∧ y = ⟨none, none⟩

theorem Cell.Expires.refl (x : Cell) : x.Expires x := .inl rfl

theorem Cell.Expires.trans {x y z : Cell} (h : x.Expires y) (h' : y.Expires z) : x.Expires z := by
  obtain rfl | ⟨hd, rfl⟩ := h
  · exact h'
  · obtain rfl | ⟨hd', -⟩ := h'
    · exact .inr ⟨hd, rfl⟩
    · cases hd'

theorem Cell.Twin.expires_left {p p' r : Cell} (h : p.Twin r) (hp : p.Expires p') : p'.Twin r := by
  obtain rfl | ⟨hd, rfl⟩ := hp
  · exact h
  · cases h with
    | same v => cases hd
    | both v d d' => exact .right v d'
    | left v d => exact .same none
    | right v d => cases hd

theorem Cell.Twin.expires_right {p r r' : Cell} (h : p.Twin r) (hr : r.Expires r') : p.Twin r' := by
  obtain rfl | ⟨hd, rfl⟩ := hr
  · exact h
  · cases h with
    | same v => cases hd
    | both v d d' => exact .left v d
    | left v d => cases hd
    | right v d => exact .same none

/-- Without deadlines the two nodes have the same value. -/
theorem Cell.Twin.value_eq {p r : Cell} (h : p.Twin r) (hp : p.deadline = none)
    (hr : r.deadline = none) : r.value = p.value := by
  cases h with
  | same v => rfl
  | both v d d' => cases hp
  | left v d => cases hp
  | right v d => cases hr

/-- The commands whose result differs between a key that is there and one that is over. -/
def Command.needsKey (cmd : Command) : Bool :=
  cmd.type = .INCR || cmd.type = .DECR || cmd.type = .PERSIST

theorem twin_bump {p r : Cell} (h : p.Twin r) (hsame : p.value.isSome = r.value.isSome)
    (delta : Int) : (p.bump delta).1.Twin (r.bump delta).1 := by
  cases h with
  | same v =>
    unfold Cell.bump
    dsimp only
    cases counter v with
    | none => exact .same v
    | some c => exact .same _
  | both v d d' =>
    unfold Cell.bump
    dsimp only
    cases counter (some v) with
    | none => exact .both v d d'
    | some c => exact .both _ d d'
  | left v d => cases hsame
  | right v d => cases hsame

/-- A command on both cells, at the clock readings of the two nodes. -/
theorem twin_exec {p r : Cell} (h : p.Twin r) {cmd : Command}
    (hsame : cmd.needsKey = true → p.value.isSome = r.value.isSome) (now now' : Now) :
    (p.exec now cmd).1.Twin (r.exec now' cmd).1 := by
  obtain ⟨type, name, args⟩ := cmd
  cases type with
  | SET =>
    rcases args with _ | ⟨_, _ | ⟨value, _ | ⟨opt, _ | ⟨secs, _ | _⟩⟩⟩⟩
    · exact h
    · exact h
    · exact .same (some value)
    · exact h
    · simp only [Cell.exec]
      split
      · split
        · exact h
        · exact .both value _ _
      · exact h
    · exact h
  | DEL =>
    rcases args with _ | ⟨_, _ | _⟩
    · exact h
    · exact .same none
    · exact h
  | INCR =>
    rcases args with _ | ⟨_, _ | _⟩
    · exact h
    · exact twin_bump h (hsame rfl) 1
    · exact h
  | DECR =>
    rcases args with _ | ⟨_, _ | _⟩
    · exact h
    · exact twin_bump h (hsame rfl) (-1)
    · exact h
  | EXPIRE =>
    rcases args with _ | ⟨_, _ | ⟨secs, _ | _⟩⟩
    · exact h
    · exact h
    · simp only [Cell.exec]
      cases parsePositiveSeconds secs with
      | none => cases h with
        | same v => cases v <;> exact .same _
        | both v d d' => exact .both v d d'
        | left v d => exact .left v d
        | right v d => exact .right v d
      | some s => cases h with
        | same v =>
          cases v with
          | none => exact .same none
          | some v => exact .both v _ _
        | both v d d' => exact .both v _ _
        | left v d => exact .left v _
        | right v d => exact .right v _
    · exact h
  | PERSIST =>
    rcases args with _ | ⟨_, _ | _⟩
    · exact h
    · simp only [Cell.exec]
      have hsame := hsame rfl
      cases h with
      | same v => cases v <;> exact .same _
      | both v d d' => exact .same (some v)
      | left v d => cases hsame
      | right v d => cases hsame
    · exact h
  | GET | TTL => rcases args with _ | ⟨_, _ | _⟩ <;> exact h
  | PING | SAVE | REPLICAOF | SYNC | ROUTE | NODES | UNKNOWN => exact h

/-! ## Deadlines and the heap -/

/-- What the store, the TTL table and its heap keep. -/
structure Db.Timed (db : Db) : Prop where
  unbounded : db.store.capacity = 0
  cells : ∀ x, (db.cell x).Ok
  queued : db.expiry.Queued

theorem queued_execute {w : Wiring} {db : Db} {now : Now} (h : db.expiry.Queued) (cmd : Command) :
    (execute w db now cmd).db.expiry.Queued := by
  obtain ⟨type, name, args⟩ := cmd
  cases type with
  | INCR | DECR =>
    simp only [execute, incrementReply]
    repeat' split
    all_goals exact h
  | SET | GET | DEL | PING | TTL | EXPIRE | PERSIST | SAVE | REPLICAOF | SYNC | ROUTE | NODES
  | UNKNOWN =>
    simp only [execute]
    repeat' split
    all_goals first
      | exact h
      | exact h.cancel _
      | exact h.schedule _ _

/-! ## Commands on the cells of a database -/

/-- A command that is recorded has a key. -/
theorem key_of_logged {w : Wiring} {db : Db} {now : Now} {cmd : Command}
    (h : logged cmd (execute w db now cmd).reply = true) :
    IsKeyCommand cmd.type = true ∧ ∃ key, cmd.args.head? = some key := by
  obtain ⟨type, name, args⟩ := cmd
  obtain ⟨hok, hwrite⟩ := Bool.and_eq_true_iff.mp h
  refine ⟨?_, ?_⟩
  · cases type <;> first | rfl | cases hwrite
  · cases args with
    | cons key args => exact ⟨key, rfl⟩
    | nil => cases type <;> first | (cases hwrite; done) | cases hok

theorem bump_of_not_succeeded {x : Cell} {delta : Int}
    (h : succeeded (x.bump delta).2 = false) : (x.bump delta).1 = x := by
  unfold Cell.bump at h ⊢
  split at h
  · rfl
  · exact nomatch h

/-- A command that is not recorded leaves the cell. -/
theorem exec_of_not_logged {x : Cell} {now : Now} {cmd : Command}
    (h : logged cmd (x.exec now cmd).2 = false) : (x.exec now cmd).1 = x := by
  obtain ⟨type, name, args⟩ := cmd
  cases type with
  | SET =>
    rcases args with _ | ⟨_, _ | ⟨value, _ | ⟨opt, _ | ⟨secs, _ | _⟩⟩⟩⟩
    · rfl
    · rfl
    · cases h
    · rfl
    · simp only [Cell.exec] at h ⊢
      repeat' split at h
      all_goals first
        | (cases h; done)
        | simp_all
    · rfl
  | DEL =>
    rcases args with _ | ⟨_, _ | _⟩
    · rfl
    · cases h
    · rfl
  | INCR | DECR =>
    rcases args with _ | ⟨_, _ | _⟩
    · rfl
    · exact bump_of_not_succeeded (by simpa [logged, isWriteCommand, Cell.exec] using h)
    · rfl
  | EXPIRE =>
    rcases args with _ | ⟨_, _ | ⟨secs, _ | _⟩⟩
    · rfl
    · rfl
    · simp only [Cell.exec] at h ⊢
      repeat' split at h
      all_goals first
        | (cases h; done)
        | simp_all
    · rfl
  | PERSIST =>
    rcases args with _ | ⟨_, _ | _⟩
    · rfl
    · simp only [Cell.exec] at h ⊢
      split at h
      all_goals cases h
    · rfl
  | GET | TTL => rcases args with _ | ⟨_, _ | _⟩ <;> rfl
  | PING | SAVE | REPLICAOF | SYNC | ROUTE | NODES | UNKNOWN => rfl

/-- A command that is not recorded leaves all cells. -/
theorem cell_of_not_logged {w : Wiring} {db : Db} (hc : db.store.capacity = 0) {now : Now}
    {cmd : Command} (h : logged cmd (execute w db now cmd).reply = false) :
    (execute w db now cmd).db.cell = db.cell := by
  by_cases hcmd : IsKeyCommand cmd.type = true ∧ ∃ key, cmd.args.head? = some key
  · obtain ⟨hk, key, hkey⟩ := hcmd
    have hact : ActsOn key w db now cmd := execute_cell hc hk hkey
    obtain ⟨hreply, hcell⟩ := hact
    rw [hreply] at h
    rw [hcell, exec_of_not_logged h, Function.update_eq_self]
  · rw [execute_db_of_no_key hcmd]

theorem Db.Timed.execute {db : Db} (h : db.Timed) (w : Wiring) (now : Now) (cmd : Command) :
    (TinyKV.execute w db now cmd).db.Timed := by
  refine ⟨by rw [execute_capacity, h.unbounded], fun x => ?_, queued_execute h.queued cmd⟩
  cases hlog : logged cmd (TinyKV.execute w db now cmd).reply with
  | false =>
    rw [cell_of_not_logged h.unbounded hlog]
    exact h.cells x
  | true =>
    obtain ⟨hk, key, hkey⟩ := key_of_logged hlog
    rw [(execute_cell h.unbounded hk hkey).cell]
    by_cases hx : x = key
    · subst hx
      rw [Function.update_self]
      exact ok_exec (h.cells x) now cmd
    · rw [Function.update_of_ne hx]
      exact h.cells x

theorem timed_replayLines {db : Db} (h : db.Timed) (w : Wiring) (clock : Nat → Now)
    (lines : List Bytes) : (replayLines w clock db lines).Timed := by
  induction lines generalizing clock db with
  | nil => exact h
  | cons line lines ih =>
    refine ih ?_ _
    unfold replayLine
    repeat' split
    all_goals first
      | exact h
      | exact h.execute w _ _

theorem timed_start (appendOnly : Bool) (clock : Nat → Now) (disk : Disk) :
    (Server.start appendOnly 0 clock disk).db.Timed := by
  have hdb : (Server.start appendOnly 0 clock disk).db = _ :=
    recover_eq appendOnly serverWiring clock disk (Db.empty 0)
  rw [hdb]
  exact timed_replayLines ⟨rfl, fun x _ => rfl, fun x d hd => by cases hd⟩ _ _ _

/-- A pop of the sweeper: cells are as they were, or their deadline is over. -/
theorem sweep_expires {db db' : Db} {now : Now} {e : HeapEntry} (hs : db.sweep now e = some db')
    (x : Bytes) : (db.cell x).Expires (db'.cell x) := by
  obtain ⟨-, -, hexpiry, hstore⟩ := sweep_spec hs
  have hexp := (db.expiry.popTop_spec e).2 x
  rw [← hexpiry] at hexp
  by_cases hl : db.expiry.expiryOf e.key = some e.when
  · rw [if_pos hl] at hstore
    by_cases hx : x = e.key
    · refine .inr ⟨?_, ?_⟩
      · rw [hx]
        show (db.expiry.expiryOf e.key).isSome = true
        rw [hl]
        rfl
      · rw [if_pos ⟨hl, hx⟩] at hexp
        rw [Db.cell, hexp, hstore, Store.lookup_del, hx, Function.update_self]
    · refine .inl ?_
      rw [if_neg fun hc => hx hc.2] at hexp
      rw [Db.cell, hexp, hstore, Store.lookup_del, Function.update_of_ne hx]
      rfl
  · refine .inl ?_
    rw [if_neg hl] at hstore
    rw [if_neg fun hc => hl hc.1] at hexp
    rw [Db.cell, hexp, hstore]
    rfl

theorem Db.Timed.sweep {db db' : Db} (h : db.Timed) {now : Now} {e : HeapEntry}
    (hs : db.sweep now e = some db') : db'.Timed := by
  obtain ⟨-, -, hexpiry, hstore⟩ := sweep_spec hs
  refine ⟨?_, fun x => ?_, ?_⟩
  · rw [hstore]
    split
    · rw [Store.capacity_del, h.unbounded]
    · exact h.unbounded
  · obtain he | ⟨-, he⟩ := sweep_expires hs x
    · rw [he]
      exact h.cells x
    · rw [he]
      exact fun _ => rfl
  · rw [hexpiry]
    exact h.queued.popTop e

/-! ## The machine -/

/-- The connection of the replica. -/
structure PairLink where
  fd : Nat
  /-- How many lines the replica has applied. -/
  taken : Nat
  /-- For each line on the connection: the primary had the key when it executed the line. The lines
  of the dump are not executed. -/
  had : List Bool

structure ReplicaPair where
  primary : Server
  replica : Server
  link : Option PairLink := none

/-- Two unbounded servers that have recovered from any files. -/
def ReplicaPair.start (appendOnly : Bool → Bool) (clock : Bool → Nat → Now) (disk : Bool → Disk) :
    ReplicaPair where
  primary := Server.start (appendOnly true) 0 (clock true) (disk true)
  replica := Server.start (appendOnly false) 0 (clock false) (disk false)

inductive PairAction where
  /-- The primary handles a line of a client. -/
  | line (fd : Nat) (now : Now) (line : Line)
  /-- `SYNC` of the replica, which is empty, between two lines. -/
  | sync (fd : Nat)
  /-- The replica applies the next line. -/
  | deliver (now : Now)
  | sweepPrimary (now : Now) (e : HeapEntry)
  | sweepReplica (now : Now) (e : HeapEntry)

/-- The key of the line is there. -/
def Db.hasKey (db : Db) (line : Bytes) : Bool :=
  match parse line with
  | .error _ => false
  | .ok cmd => cmd.args.head?.any fun key => (db.store.lookup key).isSome

namespace ReplicaPair

def sync (s : ReplicaPair) (fd : Nat) : ReplicaPair where
  primary := s.primary.handleSyncConnection fd
  replica := { s.replica with role := .REPLICA }
  link := some ⟨fd, 0, List.replicate (dumpLines s.primary.db.store.forEach).length false⟩

/-- The state after a line on the primary; `success` if it was a successful write. -/
def handled (s : ReplicaPair) (p : Server) (success had : Bool) : ReplicaPair :=
  { s with
    primary := p
    link := if success then s.link.map fun l => { l with had := l.had ++ [had] } else s.link }

def deliver (s : ReplicaPair) (l : PairLink) (now : Now) (line : Bytes) : ReplicaPair :=
  { s with
    replica := s.replica.apply now line
    link := some { l with taken := l.taken + 1 } }

end ReplicaPair

/-- A primary and its replica with their sweepers. -/
def pairMachine : Machine ReplicaPair PairAction Unit where
  step s
    | .line fd now line =>
      if fd ∈ s.primary.replicaFds then none
      else some (s.handled (s.primary.handleLine fd now line.1).1
        (s.primary.accepted now line.1).isSome (s.primary.db.hasKey line.1), ())
    | .sync fd =>
      if s.link.isNone ∧ s.replica.db.store.entries = [] ∧ fd ∉ s.primary.replicaFds ∧
          s.primary.sent fd = [] then some (s.sync fd, ())
      else none
    | .deliver now => s.link.bind fun l =>
      ((s.primary.sent l.fd)[l.taken]?).map fun line => (s.deliver l now (stripCr line), ())
    | .sweepPrimary now e =>
      (s.primary.db.sweep now e).map fun db => ({ s with primary := { s.primary with db := db } }, ())
    | .sweepReplica now e =>
      (s.replica.db.sweep now e).map fun db => ({ s with replica := { s.replica with db := db } }, ())

/-- The line is `INCR`, `DECR` or `PERSIST`. -/
def needsKey (line : Bytes) : Bool :=
  match parse line with
  | .error _ => false
  | .ok cmd => cmd.needsKey

/-- At the handshake no key has a deadline and every pair fits in a line; later the lines that need
their key find it on the replica if and only if it was there on the primary. -/
def SameKeys (s : ReplicaPair) : PairAction → Prop
  | .sync _ => FitEntries s.primary.db.store.entries ∧
      ∀ e ∈ s.primary.db.store.entries, s.primary.db.expiry.expiryOf e.1 = none
  | .deliver _ => ∀ l ∈ s.link, ∀ line ∈ (s.primary.sent l.fd)[l.taken]?, needsKey line = true →
      l.had[l.taken]? = some (s.replica.db.hasKey line)
  | .line _ _ _ | .sweepPrimary _ _ | .sweepReplica _ _ => True

instance (s : ReplicaPair) : ∀ a, Decidable (SameKeys s a)
  | .sync _ => inferInstanceAs (Decidable (_ ∧ _))
  | .deliver _ => inferInstanceAs (Decidable (∀ l ∈ s.link, _))
  | .line _ _ _ | .sweepPrimary _ _ | .sweepReplica _ _ => isTrue trivial

/-! ## Lines on their way -/

/-- A line that was executed where the cells were `before`. -/
structure Entry where
  line : Bytes
  cmd : Command
  key : Bytes
  now : Now
  before : Bytes → Cell
  parsed : parse line = .ok cmd
  isKey : IsKeyCommand cmd.type = true
  head : cmd.args.head? = some key

namespace Entry

/-- The cells after the line. -/
def after (e : Entry) : Bytes → Cell :=
  Function.update e.before e.key ((e.before e.key).exec e.now e.cmd).1

def had (e : Entry) : Bool := (e.before e.key).value.isSome

end Entry

/-- Deadlines are over, and nothing else has happened. -/
def Later (p q : Bytes → Cell) : Prop := ∀ x, (p x).Expires (q x)

/-- The cells go from `p` to `q` by the lines, and by deadlines before, between and after them. -/
def Feeds (p : Bytes → Cell) : List Entry → (Bytes → Cell) → Prop
  | [], q => Later p q
  | e :: es, q => Later p e.before ∧ Feeds e.after es q

theorem Later.refl (p : Bytes → Cell) : Later p p := fun x => .refl (p x)

theorem Later.trans {p q r : Bytes → Cell} (h : Later p q) (h' : Later q r) : Later p r :=
  fun x => (h x).trans (h' x)

theorem Feeds.later {p q q' : Bytes → Cell} {es : List Entry} (h : Feeds p es q)
    (hq : Later q q') : Feeds p es q' := by
  induction es generalizing p with
  | nil => exact Later.trans h hq
  | cons e es ih => exact ⟨h.1, ih h.2⟩

/-- One more line. -/
theorem Feeds.snoc {p q : Bytes → Cell} {es : List Entry} (h : Feeds p es q) {e : Entry}
    (he : e.before = q) : Feeds p (es ++ [e]) e.after := by
  induction es generalizing p with
  | nil => exact ⟨he ▸ h, Later.refl _⟩
  | cons e' es ih => exact ⟨h.1, ih h.2⟩

/-- The lines of a dump, as if they had been executed on cells that lack the keys. -/
theorem feeds_dump {es : List (Bytes × Bytes)} (hu : UniqueKeys es) (hw : WordEntries es)
    (hfit : FitEntries es) {p : Bytes → Cell} (hp : ∀ k v, (k, v) ∈ es → p k = ⟨none, none⟩) :
    ∃ entries, entries.map Entry.line = dumpLines es ∧
      entries.map Entry.had = List.replicate es.length false ∧
      Feeds p entries fun x => (find x es).elim (p x) fun v => ⟨some v, none⟩ := by
  induction es generalizing p with
  | nil => exact ⟨[], rfl, rfl, Later.refl p⟩
  | cons pair es ih =>
    obtain ⟨k, v⟩ := pair
    obtain ⟨hnot, hu'⟩ := List.nodup_cons.mp hu
    obtain ⟨hk, hv⟩ := hw k v List.mem_cons_self
    have hpk := hp k v List.mem_cons_self
    let e : Entry :=
      { line := setLine k v
        cmd := ⟨.SET, ascii "SET", [k, v]⟩
        key := k
        now := .epoch
        before := p
        parsed := parse_setLine hk hv (hfit k v List.mem_cons_self)
        isKey := rfl
        head := rfl }
    have hafter : e.after = Function.update p k ⟨some v, none⟩ := rfl
    obtain ⟨entries, hlines, hhad, hfeeds⟩ := ih hu'
      (fun k' v' hm => hw k' v' (List.mem_cons_of_mem _ hm))
      (fun k' v' hm => hfit k' v' (List.mem_cons_of_mem _ hm))
      (p := Function.update p k ⟨some v, none⟩) (fun k' v' hm => by
        have hne : k' ≠ k := by
          rintro rfl
          exact hnot (List.mem_map.mpr ⟨(k', v'), hm, rfl⟩)
        rw [Function.update_of_ne hne]
        exact hp k' v' (List.mem_cons_of_mem _ hm))
    refine ⟨e :: entries, ?_, ?_, Later.refl p, ?_⟩
    · rw [List.map_cons, hlines]
      rfl
    · have hfalse : e.had = false := by
        show (p k).value.isSome = false
        rw [hpk]
        rfl
      rw [List.map_cons, hhad, hfalse]
      rfl
    · have hend : (fun x => (find x ((k, v) :: es)).elim (p x) fun v => (⟨some v, none⟩ : Cell)) =
          fun x => (find x es).elim (Function.update p k ⟨some v, none⟩ x)
            fun v => ⟨some v, none⟩ := by
        funext x
        rw [find_cons]
        by_cases hx : x = k
        · subst hx
          rw [find_eq_none.mpr hnot, if_pos rfl, Option.elim_none, Function.update_self]
          rfl
        · rw [if_neg hx, Function.update_of_ne hx]
      rw [hafter, hend]
      exact hfeeds

/-! ## The invariant -/

/-- The lines that are on their way to the replica lead from cells that are twins of the replica's
to those of the primary. -/
structure LinkFed (p r : Server) (l : PairLink) (es : List Entry) (cells : Bytes → Cell) :
    Prop where
  registered : p.replicaFds.count l.fd = 1
  taken : l.taken ≤ (p.sent l.fd).length
  had_length : l.had.length = (p.sent l.fd).length
  lines : (p.sent l.fd).drop l.taken = es.map Entry.line
  had : l.had.drop l.taken = es.map Entry.had
  twins : ∀ x, (cells x).Twin (r.db.cell x)
  feeds : Feeds cells es p.db.cell

structure PairInv (s : ReplicaPair) : Prop where
  store : s.primary.WordStore 0
  primary : s.primary.db.Timed
  replica : s.replica.db.Timed
  link : ∀ l, s.link = some l → ∃ es cells, LinkFed s.primary s.replica l es cells

theorem apply_db (s : Server) (now : Now) {line : Bytes} {cmd : Command}
    (hp : parse line = .ok cmd) :
    (s.apply now line).db = (execute serverWiring s.db now cmd).db := by
  unfold Server.apply
  rw [hp]
  simp

theorem timed_apply {s : Server} (h : s.db.Timed) (now : Now) (line : Bytes) :
    (s.apply now line).db.Timed := by
  cases hp : parse line with
  | error e =>
    unfold Server.apply
    rw [hp]
    exact h
  | ok cmd =>
    rw [apply_db s now hp]
    exact h.execute serverWiring now cmd

/-- A line that is not a successful write leaves the cells. -/
theorem cell_apply_of_not_records {s : Server} (h : s.db.Timed) {now : Now} {line : Bytes}
    (hno : s.records now line = false) : (s.apply now line).db.cell = s.db.cell := by
  cases hp : parse line with
  | error e =>
    unfold Server.apply
    rw [hp]
  | ok cmd =>
    rw [Server.records, hp] at hno
    rw [apply_db s now hp]
    exact cell_of_not_logged h.unbounded hno

/-- A successful write as an entry. -/
theorem exists_entry {s : Server} (h : s.db.Timed) {now : Now} {line : Bytes}
    (hok : s.records now line = true) :
    ∃ e : Entry, e.line = line ∧ e.before = s.db.cell ∧ e.after = (s.apply now line).db.cell ∧
      e.had = s.db.hasKey line := by
  cases hp : parse line with
  | error e =>
    rw [Server.records, hp] at hok
    cases hok
  | ok cmd =>
    rw [Server.records, hp] at hok
    obtain ⟨hk, key, hkey⟩ := key_of_logged hok
    refine ⟨⟨line, cmd, key, now, s.db.cell, hp, hk, hkey⟩, rfl, rfl, ?_, ?_⟩
    · rw [apply_db s now hp, (execute_cell h.unbounded hk hkey).cell]
      rfl
    · rw [Db.hasKey, hp]
      dsimp only
      rw [hkey]
      rfl

/-- What a line of a client does to the data: it leaves the cells, or it is an entry. -/
theorem handleLine_cells {s : Server} (h : s.db.Timed) (fd : Nat) (now : Now) (line : Bytes) :
    (s.handleLine fd now line).1.db.Timed ∧
    ((s.accepted now line = none ∧ (s.handleLine fd now line).1.db.cell = s.db.cell) ∨
      ∃ e : Entry, s.accepted now line = some e.line ∧ e.before = s.db.cell ∧
        e.after = (s.handleLine fd now line).1.db.cell ∧ e.had = s.db.hasKey line) := by
  obtain ⟨hno, hs | hs⟩ | ⟨hacc, hs⟩ := s.handleLine_accepted fd now line
  · rw [hs]
    exact ⟨h, .inl ⟨hno, rfl⟩⟩
  · rw [hs]
    exact ⟨h, .inl ⟨hno, rfl⟩⟩
  · rw [hs, hacc]
    refine ⟨timed_apply h now line, ?_⟩
    cases hok : s.records now line with
    | false =>
      rw [Server.recorded, hok]
      exact .inl ⟨rfl, cell_apply_of_not_records h hok⟩
    | true =>
      obtain ⟨e, rfl, hbefore, hafter, hhad⟩ := exists_entry h hok
      rw [Server.recorded, hok]
      exact .inr ⟨e, rfl, hbefore, hafter, hhad⟩

/-! ## The steps -/

theorem pairInv_line {s : ReplicaPair} (h : PairInv s) {fd : Nat}
    (hfd : fd ∉ s.primary.replicaFds) (now : Now) (line : Bytes) :
    PairInv (s.handled (s.primary.handleLine fd now line).1 (s.primary.accepted now line).isSome
      (s.primary.db.hasKey line)) := by
  have hw := wrote_handleLine h.store hfd now line
  obtain ⟨htimed, hcells⟩ := handleLine_cells h.primary fd now line
  generalize (s.primary.handleLine fd now line).1 = p at hw htimed hcells
  obtain ⟨hno, hcell⟩ | ⟨e, hyes, hbefore, hafter, hhad⟩ := hcells
  · rw [hno] at hw ⊢
    refine ⟨hw.store, htimed, h.replica, fun l hl => ?_⟩
    obtain ⟨es, cells, hfed⟩ := h.link l hl
    have hsent : p.sent l.fd = s.primary.sent l.fd :=
      (hw.sent l.fd hfed.registered).trans (List.append_nil _)
    exact ⟨es, cells, hw.registered l.fd hfed.registered, hsent ▸ hfed.taken,
      hsent ▸ hfed.had_length, hsent ▸ hfed.lines, hfed.had, hfed.twins, hcell ▸ hfed.feeds⟩
  · rw [hyes] at hw ⊢
    refine ⟨hw.store, htimed, h.replica, fun l' hl' => ?_⟩
    obtain ⟨l, hl, rfl⟩ := Option.map_eq_some_iff.mp hl'
    obtain ⟨es, cells, hfed⟩ := h.link l hl
    have hsent : p.sent l.fd = s.primary.sent l.fd ++ [e.line] := hw.sent l.fd hfed.registered
    refine ⟨es ++ [e], cells, hw.registered l.fd hfed.registered, ?_, ?_, ?_, ?_, hfed.twins, ?_⟩
    · show l.taken ≤ (p.sent l.fd).length
      rw [hsent, List.length_append]
      exact Nat.le_add_right_of_le hfed.taken
    · show (l.had ++ [_]).length = (p.sent l.fd).length
      rw [hsent, List.length_append, List.length_append, hfed.had_length]
      rfl
    · show (p.sent l.fd).drop l.taken = _
      rw [hsent, List.drop_append_of_le_length hfed.taken, hfed.lines, List.map_append,
        List.map_singleton]
    · show (l.had ++ [s.primary.db.hasKey line]).drop l.taken = _
      rw [List.drop_append_of_le_length (hfed.had_length ▸ hfed.taken), hfed.had, List.map_append,
        List.map_singleton, hhad]
    · show Feeds cells (es ++ [e]) p.db.cell
      rw [← hafter]
      exact hfed.feeds.snoc hbefore

/-- The cells of a database that is empty. -/
theorem cell_of_empty {db : Db} (h : db.Timed) (hempty : db.store.entries = []) (x : Bytes) :
    db.cell x = ⟨none, none⟩ := by
  have hvalue : (db.cell x).value = none := by
    show find x db.store.entries = none
    rw [hempty]
    rfl
  exact Cell.ext hvalue (h.cells x hvalue)

/-- The cells of a database in which no stored key has a deadline. -/
theorem cell_of_no_deadline {db : Db} (h : db.Timed)
    (hdead : ∀ e ∈ db.store.entries, db.expiry.expiryOf e.1 = none) (x : Bytes) :
    db.cell x = (find x db.store.entries).elim ⟨none, none⟩ fun v => ⟨some v, none⟩ := by
  have hvalue : (db.cell x).value = find x db.store.entries := rfl
  cases hfind : find x db.store.entries with
  | none =>
    rw [hfind] at hvalue
    exact Cell.ext hvalue (h.cells x hvalue)
  | some v =>
    rw [hfind] at hvalue
    exact Cell.ext hvalue (hdead (x, v) (mem_of_find hfind))

theorem pairInv_sync {s : ReplicaPair} (h : PairInv s) {fd : Nat}
    (hempty : s.replica.db.store.entries = []) (hfd : fd ∉ s.primary.replicaFds)
    (hsent : s.primary.sent fd = []) (hfit : FitEntries s.primary.db.store.entries)
    (hdead : ∀ e ∈ s.primary.db.store.entries, s.primary.db.expiry.expiryOf e.1 = none) :
    PairInv (s.sync fd) := by
  have hlines : (s.primary.handleSyncConnection fd).sent fd =
      dumpLines s.primary.db.store.entries := by
    rw [Server.handleSyncConnection_sent, hsent, List.nil_append]
  have hcells : s.primary.db.cell = fun x => (find x s.primary.db.store.entries).elim ⟨none, none⟩
      fun v => ⟨some v, none⟩ := funext (cell_of_no_deadline h.primary hdead)
  obtain ⟨es, hes, hhad, hfeeds⟩ := feeds_dump s.primary.db.store.unique h.store.words hfit
    (p := fun _ => ⟨none, none⟩) (fun _ _ _ => rfl)
  have hlength : (dumpLines s.primary.db.store.forEach).length =
      s.primary.db.store.entries.length := List.length_map _
  refine ⟨⟨h.store.capacity, h.store.words⟩, h.primary, h.replica, fun l hl => ?_⟩
  cases hl
  refine ⟨es, fun _ => ⟨none, none⟩, s.primary.handleSyncConnection_count hfd, Nat.zero_le _, ?_,
    ?_, ?_, fun x => ?_, ?_⟩
  · show (List.replicate _ false).length = ((s.primary.handleSyncConnection fd).sent fd).length
    rw [hlines, List.length_replicate]
    rfl
  · show ((s.primary.handleSyncConnection fd).sent fd).drop 0 = _
    rw [hlines, hes]
    rfl
  · show List.replicate (dumpLines s.primary.db.store.forEach).length false = _
    rw [hhad, hlength]
  · show Cell.Twin _ (s.replica.db.cell x)
    rw [cell_of_empty h.replica hempty x]
    exact .same none
  · show Feeds _ es s.primary.db.cell
    rw [hcells]
    exact hfeeds

/-- A line that was an entry, on the replica. -/
theorem twins_apply {r : Server} (h : r.db.Timed) {e : Entry}
    (htwins : ∀ x, (e.before x).Twin (r.db.cell x))
    (hsame : needsKey e.line = true → e.had = r.db.hasKey e.line) (now : Now) (x : Bytes) :
    (e.after x).Twin ((r.apply now e.line).db.cell x) := by
  rw [apply_db r now e.parsed, (execute_cell h.unbounded e.isKey e.head).cell, Entry.after]
  by_cases hx : x = e.key
  · subst hx
    rw [Function.update_self, Function.update_self]
    refine twin_exec (htwins e.key) (fun hneeds => ?_) e.now now
    rw [needsKey, Db.hasKey, e.parsed] at hsame
    dsimp only at hsame
    rw [e.head] at hsame
    exact hsame hneeds
  · rw [Function.update_of_ne hx, Function.update_of_ne hx]
    exact htwins x

theorem pairInv_deliver {s : ReplicaPair} (h : PairInv s) {l : PairLink} (hl : s.link = some l)
    {line : Bytes} (hline : (s.primary.sent l.fd)[l.taken]? = some line)
    (hsame : needsKey line = true → l.had[l.taken]? = some (s.replica.db.hasKey line)) (now : Now) :
    PairInv (s.deliver l now (stripCr line)) := by
  obtain ⟨es, cells, hfed⟩ := h.link l hl
  obtain ⟨hlt, hget⟩ := List.getElem?_eq_some_iff.mp hline
  -- The line is that of the first entry.
  have hdrop : line :: (s.primary.sent l.fd).drop (l.taken + 1) = es.map Entry.line := by
    rw [← hfed.lines, List.drop_eq_getElem_cons hlt, hget]
  have hhad : l.had.drop l.taken = es.map Entry.had := hfed.had
  cases es with
  | nil => cases hdrop
  | cons e es =>
    obtain ⟨rfl, hlines⟩ := List.cons_eq_cons.mp hdrop
    have hlt' : l.taken < l.had.length := by rw [hfed.had_length]; exact hlt
    rw [List.drop_eq_getElem_cons hlt'] at hhad
    obtain ⟨hhead, hhad⟩ := List.cons_eq_cons.mp hhad
    have hkeys : needsKey e.line = true → e.had = s.replica.db.hasKey e.line := fun hneeds => by
      have hsome := hsame hneeds
      rw [List.getElem?_eq_getElem hlt', hhead] at hsome
      exact Option.some.inj hsome
    have htwins : ∀ x, (e.before x).Twin (s.replica.db.cell x) := fun x =>
      (hfed.twins x).expires_left (hfed.feeds.1 x)
    have hstrip : (s.replica.apply now (stripCr e.line)).db = (s.replica.apply now e.line).db :=
      (apply_db _ now (parse_stripCr e.parsed)).trans (apply_db _ now e.parsed).symm
    refine ⟨h.store, h.primary, timed_apply h.replica now _, fun l' hl' => ?_⟩
    cases hl'
    refine ⟨es, e.after, hfed.registered, hlt, hfed.had_length, hlines, hhad, fun x => ?_,
      hfed.feeds.2⟩
    show (e.after x).Twin ((s.replica.apply now (stripCr e.line)).db.cell x)
    rw [hstrip]
    exact twins_apply h.replica htwins hkeys now x

theorem pairInv_sweepPrimary {s : ReplicaPair} (h : PairInv s) {now : Now} {e : HeapEntry} {db : Db}
    (hs : s.primary.db.sweep now e = some db) :
    PairInv { s with primary := { s.primary with db := db } } := by
  have htimed := h.primary.sweep hs
  obtain ⟨-, -, -, hstore⟩ := sweep_spec hs
  have hwords : WordEntries db.store.entries := by
    rw [hstore]
    split
    · rw [Store.entries_del]
      exact fun k v hm => h.store.words k v (List.mem_of_mem_filter hm)
    · exact h.store.words
  refine ⟨⟨htimed.unbounded, hwords⟩, htimed, h.replica, fun l hl => ?_⟩
  obtain ⟨es, cells, hfed⟩ := h.link l hl
  exact ⟨es, cells, hfed.registered, hfed.taken, hfed.had_length, hfed.lines, hfed.had, hfed.twins,
    hfed.feeds.later (sweep_expires hs)⟩

theorem pairInv_sweepReplica {s : ReplicaPair} (h : PairInv s) {now : Now} {e : HeapEntry} {db : Db}
    (hs : s.replica.db.sweep now e = some db) :
    PairInv { s with replica := { s.replica with db := db } } := by
  refine ⟨h.store, h.primary, h.replica.sweep hs, fun l hl => ?_⟩
  obtain ⟨es, cells, hfed⟩ := h.link l hl
  exact ⟨es, cells, hfed.registered, hfed.taken, hfed.had_length, hfed.lines, hfed.had,
    fun x => (hfed.twins x).expires_right (sweep_expires hs x), hfed.feeds⟩

theorem pairInv_start (appendOnly : Bool → Bool) (clock : Bool → Nat → Now) (disk : Bool → Disk) :
    PairInv (ReplicaPair.start appendOnly clock disk) :=
  ⟨wordStore_start _ _ _ _, timed_start _ _ _, timed_start _ _ _, fun l hl => by cases hl⟩

theorem pairInv_step {s t : ReplicaPair} {a : PairAction} {o : Unit} (h : PairInv s)
    (hkeys : SameKeys s a) (hs : pairMachine.step s a = some (t, o)) : PairInv t := by
  cases a with
  | line fd now line =>
    simp only [pairMachine] at hs
    split at hs
    · cases hs
    · rename_i hfd
      cases hs
      exact pairInv_line h hfd now line.1
  | sync fd =>
    simp only [pairMachine] at hs
    split at hs
    · rename_i hmay
      cases hs
      exact pairInv_sync h hmay.2.1 hmay.2.2.1 hmay.2.2.2 hkeys.1 hkeys.2
    · cases hs
  | deliver now =>
    obtain ⟨l, hl, hs⟩ := Option.bind_eq_some_iff.mp hs
    obtain ⟨line, hline, he⟩ := Option.map_eq_some_iff.mp hs
    cases he
    exact pairInv_deliver h hl hline (hkeys l hl line hline) now
  | sweepPrimary now e =>
    obtain ⟨db, hdb, he⟩ := Option.map_eq_some_iff.mp hs
    cases he
    exact pairInv_sweepPrimary h hdb
  | sweepReplica now e =>
    obtain ⟨db, hdb, he⟩ := Option.map_eq_some_iff.mp hs
    cases he
    exact pairInv_sweepReplica h hdb

/-! ## Whole runs -/

/-- The replica has applied every line of its connection, and every deadline that was scheduled on
either node is swept. -/
def ReplicaPair.Settled (s : ReplicaPair) : Prop :=
  (∃ l ∈ s.link, l.taken = (s.primary.sent l.fd).length) ∧
    s.primary.db.expiry.heap = [] ∧ s.replica.db.expiry.heap = []

instance (s : ReplicaPair) : Decidable s.Settled := inferInstanceAs (Decidable (_ ∧ _))

/-- With an empty heap no deadline runs. -/
theorem deadline_of_heap_nil {db : Db} (h : db.Timed) (hheap : db.expiry.heap = []) (x : Bytes) :
    (db.cell x).deadline = none := by
  cases hd : (db.cell x).deadline with
  | none => rfl
  | some d =>
    have hmem := h.queued x d hd
    rw [hheap] at hmem
    cases hmem

/-- **Expirations on a replica.** A replica attaches to a primary, which handles lines while both
sweepers run. If no key of the dump has a deadline, and the later lines that need their key find it
on the replica if and only if it was there on the primary, the maps are equal when all lines are
applied and all deadlines are swept. -/
theorem expiry_converges (appendOnly : Bool → Bool) (clock : Bool → Nat → Now) (disk : Bool → Disk)
    (acts : List PairAction) {s : ReplicaPair} {outs : List Unit}
    (hkeys : pairMachine.Along SameKeys (.start appendOnly clock disk) acts)
    (hrun : pairMachine.run (.start appendOnly clock disk) acts = some (s, outs))
    (hdone : s.Settled) : s.replica.map = s.primary.map := by
  have h : PairInv s := Machine.run_invariant (fun s a t o h hc hs => pairInv_step h hc hs) hkeys
    hrun (pairInv_start appendOnly clock disk)
  obtain ⟨⟨l, hl, hall⟩, hprimary, hreplica⟩ := hdone
  obtain ⟨es, cells, hfed⟩ := h.link l hl
  have hnil : es = [] := by
    have hlines := hfed.lines
    rw [hall, List.drop_length] at hlines
    exact List.map_eq_nil_iff.mp hlines.symm
  subst hnil
  funext x
  have htwin : (s.primary.db.cell x).Twin (s.replica.db.cell x) :=
    (hfed.twins x).expires_left (hfed.feeds x)
  exact htwin.value_eq (deadline_of_heap_nil h.primary hprimary x)
    (deadline_of_heap_nil h.replica hreplica x)

/-- Two empty servers. -/
def freshPair : ReplicaPair := .start (fun _ => false) (fun _ _ => .epoch) fun _ => .empty

/-- A handshake, then a key with a deadline that is counted up and expires on both nodes. -/
def expireBoth : List PairAction :=
  [.line 0 .epoch (.ofText "SET j 1"), .sync 7, .deliver .epoch,
    .line 0 .epoch (.ofText "SET k 5 EX 1"), .deliver .epoch, .line 0 .epoch (.ofText "INCR k"),
    .deliver .epoch, .sweepPrimary .tenSeconds ⟨10 ^ 9, ascii "k"⟩,
    .sweepReplica .tenSeconds ⟨10 ^ 9, ascii "k"⟩]

theorem expiry_converges_expireBoth :
    ∃ s outs, pairMachine.run freshPair expireBoth = some (s, outs) ∧ s.Settled ∧
      s.replica.map = s.primary.map := by
  have hend : ((pairMachine.run freshPair expireBoth).any fun r => decide r.1.Settled) = true := by
    decide +kernel
  obtain ⟨⟨s, outs⟩, hrun, hdone⟩ := (Option.any_eq_true _ _).mp hend
  have hdone : s.Settled := of_decide_eq_true hdone
  exact ⟨s, outs, hrun, hdone, expiry_converges _ _ _ expireBoth (by decide +kernel) hrun hdone⟩

/-- The dump has the key without its deadline, so the replica keeps it. -/
theorem not_expiry_converges_dumpedDeadline :
    ¬ ∀ (acts : List PairAction) (s : ReplicaPair) (outs : List Unit),
      pairMachine.run freshPair acts = some (s, outs) → s.Settled →
      s.replica.map = s.primary.map := by
  intro h
  have hend : ((pairMachine.run freshPair
      [.line 0 .epoch (.ofText "SET k 5 EX 1"), .sync 7, .deliver .epoch,
        .sweepPrimary .tenSeconds ⟨10 ^ 9, ascii "k"⟩]).any fun r =>
      decide (r.1.Settled ∧ r.1.replica.map (ascii "k") ≠ r.1.primary.map (ascii "k"))) = true := by
    decide +kernel
  obtain ⟨⟨s, outs⟩, hrun, hbad⟩ := (Option.any_eq_true _ _).mp hend
  obtain ⟨hdone, hne⟩ := of_decide_eq_true hbad
  exact hne (congrFun (h _ s outs hrun hdone) _)

/-- A counter that is over on the replica starts again there, and then has no deadline. -/
example : ((pairMachine.run freshPair
    [.sync 7, .line 0 .epoch (.ofText "SET k 5 EX 1"), .deliver .epoch,
      .line 0 .epoch (.ofText "INCR k"), .sweepReplica .tenSeconds ⟨10 ^ 9, ascii "k"⟩,
      .deliver .epoch, .sweepPrimary .tenSeconds ⟨10 ^ 9, ascii "k"⟩]).any fun r =>
    decide (r.1.Settled ∧ r.1.replica.map (ascii "k") = some (ascii "1") ∧
      r.1.primary.map (ascii "k") = none)) = true := by decide +kernel

end TinyKV

import Mathlib.Data.Finset.Card
import Mathlib.Data.List.ReduceOption
import TinyKV.Descriptors

/-!
# The replica registry

What holds of the descriptors of a server (`Descriptors.lean`) in every run.

* `RegistryInv`: the registry has the descriptors of the connections that are between `add` and
  `remove`, and these are open; `registryInv_step`.
* `window k`: what is propagated while connection `k` is registered. `Table.Delivered`: what was
  written to a connection is its window and what its own thread writes; `delivered_step`.
* `replicas_get_their_window`: nothing is written to a file that it is not meant for, and a replica
  gets its window, whatever numbers the kernel gives out.
* `drained_when_returned`: `run` returns when every thread is past its last statement, unless the
  deadline ends the wait. The threads themselves may still be there.
-/

namespace TinyKV

open Cpp

/-! ## The invariant -/

namespace Table

/-- The connections that are counted. -/
def live (t : Table) : Finset Nat := {k ∈ Finset.range t.accepted | (t.threads k).isSome}

end Table

/-- What holds of the descriptors in every state. -/
structure RegistryInv (t : Table) : Prop where
  /-- The descriptor of a thread is open until the thread closes it. -/
  owned : ∀ k fd status, t.threads k = some (fd, status) → status ≠ .closed →
    t.files fd = some (.connection k)
  registered : ∀ fd, fd ∈ t.replicaFds ↔ ∃ k, t.threads k = some (fd, .replica)
  nodup : t.replicaFds.Nodup
  rest : ∀ line rest, t.loop = some (line, rest) → rest <:+ t.replicaFds
  fresh : ∀ k, t.accepted ≤ k → t.threads k = none
  count : t.active = t.live.card
  strays : t.strays = []

section

variable {t t' : Table} {event : Option RegistryEvent}

theorem RegistryInv.owner (h : RegistryInv t) {k fd : Nat} {status : Status}
    (hk : t.threads k = some (fd, status)) (hopen : status ≠ .closed) : t.owner fd = some k := by
  rw [Table.owner, h.owned k fd status hk hopen]

/-- A registered descriptor is that of one connection. -/
theorem RegistryInv.owner_of_mem (h : RegistryInv t) {fd : Nat} (hfd : fd ∈ t.replicaFds) :
    ∃ k, t.threads k = some (fd, .replica) ∧ t.owner fd = some k := by
  obtain ⟨k, hk⟩ := (h.registered fd).mp hfd
  exact ⟨k, hk, h.owner hk (by rintro ⟨⟩)⟩

theorem Table.write_of_owner {fd k : Nat} (h : t.owner fd = some k) (payload : Payload) :
    t.write fd payload =
      { t with written := Function.update t.written k (t.written k ++ [payload]) } := by
  rw [Table.write, h]

theorem RegistryInv.mem_live (h : RegistryInv t) {k : Nat} : k ∈ t.live ↔ (t.threads k).isSome := by
  rw [Table.live, Finset.mem_filter, Finset.mem_range, and_iff_right_iff_imp]
  intro hk
  by_contra hn
  rw [h.fresh k (Nat.le_of_not_lt hn)] at hk
  cases hk

/-- A thread uses its descriptor for something else. -/
theorem live_status {k fd : Nat} {status status' : Status} (hk : t.threads k = some (fd, status)) :
    ({ t with threads := Function.update t.threads k (some (fd, status')) } : Table).live =
      t.live := by
  refine Finset.filter_congr fun j _ => ?_
  by_cases hj : j = k
  · subst hj
    simp [hk]
  · simp [Function.update_of_ne hj]

/-- A thread that is not a replica, before or after its step. -/
theorem replica_update {k : Nat} {v : Option (Nat × Status)} {fd : Nat}
    (hk : t.threads k ≠ some (fd, .replica)) (hv : v ≠ some (fd, .replica)) :
    (∃ j, Function.update t.threads k v j = some (fd, .replica)) ↔
      ∃ j, t.threads j = some (fd, .replica) := by
  refine exists_congr fun j => ?_
  by_cases hj : j = k
  · subst hj
    rw [Function.update_self]
    exact iff_of_false hv hk
  · rw [Function.update_of_ne hj]

theorem RegistryInv.fresh_update (h : RegistryInv t) {k : Nat} {thread : Nat × Status}
    (hk : t.threads k = some thread) (v : Option (Nat × Status)) :
    ∀ j, t.accepted ≤ j → Function.update t.threads k v j = none := by
  intro j hj
  have hne : j ≠ k := by
    rintro rfl
    rw [h.fresh j hj] at hk
    cases hk
  rw [Function.update_of_ne hne]
  exact h.fresh j hj

/-- Two threads with descriptors that are not closed have different ones. -/
theorem RegistryInv.thread_unique (h : RegistryInv t) {j k fd : Nat} {status status' : Status}
    (hj : t.threads j = some (fd, status)) (hk : t.threads k = some (fd, status'))
    (hjo : status ≠ .closed) (hko : status' ≠ .closed) : j = k := by
  have := (h.owner hj hjo).symm.trans (h.owner hk hko)
  exact Option.some.inj this

theorem registryInv_start (appendOnly : Bool) (capacity : Nat) (clock : Nat → Now) (disk : Disk)
    (files : Nat → Option File) :
    RegistryInv (Process.start appendOnly capacity clock disk files).table where
  owned := by rintro k fd status ⟨⟩
  registered fd := by
    constructor
    · rintro ⟨⟩
    · rintro ⟨k, ⟨⟩⟩
  nodup := List.nodup_nil
  rest := by rintro line rest ⟨⟩
  fresh _ _ := rfl
  count := rfl
  strays := rfl

/-- **What is written reaches the connection it is meant for**, so a write adds to what was written
to that connection and to nothing else. -/
theorem RegistryInv.write (h : RegistryInv t) {fd k : Nat} (howner : t.owner fd = some k)
    (payload : Payload) : RegistryInv (t.write fd payload) := by
  rw [Table.write_of_owner howner]
  exact ⟨h.owned, h.registered, h.nodup, h.rest, h.fresh, h.count, h.strays⟩

/-- Another file is opened or closed. -/
theorem RegistryInv.files (h : RegistryInv t) {fd : Nat} {file : Option File}
    (hother : ∀ k, t.files fd ≠ some (.connection k)) :
    RegistryInv { t with files := Function.update t.files fd file } := by
  refine ⟨fun k fd' status hk hopen => ?_, h.registered, h.nodup, h.rest, h.fresh, h.count,
    h.strays⟩
  have hfile := h.owned k fd' status hk hopen
  have hne : fd' ≠ fd := by
    rintro rfl
    exact hother k hfile
  exact (Function.update_of_ne hne _ _).trans hfile

theorem RegistryInv.accept (h : RegistryInv t) {fd : Nat} (hfree : t.files fd = none) :
    RegistryInv { t with
      files := Function.update t.files fd (some (.connection t.accepted))
      accepted := t.accepted + 1
      threads := Function.update t.threads t.accepted (some (fd, .client))
      active := t.active + 1 } where
  owned k fd' status hk hopen := by
    dsimp only at hk ⊢
    by_cases hk' : k = t.accepted
    · subst hk'
      rw [Function.update_self] at hk
      cases hk
      exact Function.update_self _ _ _
    · rw [Function.update_of_ne hk'] at hk
      have hfile := h.owned k fd' status hk hopen
      have hne : fd' ≠ fd := by
        rintro rfl
        rw [hfree] at hfile
        cases hfile
      rw [Function.update_of_ne hne, hfile]
  registered fd' := by
    rw [h.registered]
    exact (replica_update (by rw [h.fresh _ le_rfl]; rintro ⟨⟩) (by rintro ⟨⟩)).symm
  nodup := h.nodup
  rest := h.rest
  fresh k hk := by
    dsimp only at hk ⊢
    rw [Function.update_of_ne (by omega)]
    exact h.fresh k (by omega)
  count := by
    have hlive : Table.live { t with
        files := Function.update t.files fd (some (.connection t.accepted))
        accepted := t.accepted + 1
        threads := Function.update t.threads t.accepted (some (fd, .client))
        active := t.active + 1 } = insert t.accepted t.live := by
      ext k
      by_cases hk : k = t.accepted
      · subst hk
        simp [Table.live]
      · have hlt : k < t.accepted + 1 ↔ k < t.accepted := by omega
        simp [Table.live, hk, hlt]
    have hnew : t.accepted ∉ t.live := by simp [Table.live]
    rw [hlive, Finset.card_insert_of_notMem hnew, ← h.count]
  strays := h.strays

/-- A thread uses its descriptor for something else, and the registry has it or not. -/
theorem RegistryInv.reuse (h : RegistryInv t) {k fd : Nat} {status status' : Status}
    {fds : List Nat}
    (hfree : t.loop = none) (hk : t.threads k = some (fd, status)) (hopen : status ≠ .closed)
    (hfds : ∀ fd', fd' ∈ fds ↔ if fd' = fd then status' = .replica else fd' ∈ t.replicaFds)
    (hnodup : fds.Nodup) :
    RegistryInv { t with
      replicaFds := fds
      threads := Function.update t.threads k (some (fd, status')) } where
  owned j fd' status hj hjo := by
    dsimp only at hj ⊢
    by_cases hjk : j = k
    · subst hjk
      rw [Function.update_self] at hj
      cases hj
      exact h.owned j fd _ hk hopen
    · rw [Function.update_of_ne hjk] at hj
      exact h.owned j fd' status hj hjo
  registered fd' := by
    dsimp only
    rw [hfds]
    split
    · rename_i hfd
      subst hfd
      constructor
      · rintro rfl
        exact ⟨k, Function.update_self _ _ _⟩
      · rintro ⟨j, hj⟩
        by_cases hjk : j = k
        · subst hjk
          rw [Function.update_self] at hj
          cases hj
          rfl
        · rw [Function.update_of_ne hjk] at hj
          exact absurd (h.thread_unique hj hk (by rintro ⟨⟩) hopen) hjk
    · rename_i hfd
      rw [h.registered]
      refine exists_congr fun j => ?_
      by_cases hjk : j = k
      · subst hjk
        rw [Function.update_self, hk]
        constructor <;>
        · rintro ⟨⟩
          exact absurd rfl hfd
      · rw [Function.update_of_ne hjk]
  nodup := hnodup
  rest line rest hloop := by
    have hl : t.loop = some (line, rest) := hloop
    rw [hfree] at hl
    cases hl
  fresh := h.fresh_update hk _
  count := h.count.trans (congrArg Finset.card (live_status hk).symm)
  strays := h.strays

/-- The thread of a client closes its descriptor. -/
theorem RegistryInv.close (h : RegistryInv t) {k fd : Nat} (hk : t.threads k = some (fd, .client)) :
    RegistryInv { t with
      files := Function.update t.files fd none
      threads := Function.update t.threads k (some (fd, .closed)) } where
  owned j fd' status hj hopen := by
    dsimp only at hj ⊢
    by_cases hjk : j = k
    · subst hjk
      rw [Function.update_self] at hj
      cases hj
      exact absurd rfl hopen
    · rw [Function.update_of_ne hjk] at hj
      have hne : fd' ≠ fd := by
        rintro rfl
        exact hjk (h.thread_unique hj hk hopen (by rintro ⟨⟩))
      rw [Function.update_of_ne hne]
      exact h.owned j fd' status hj hopen
  registered fd' := by
    rw [h.registered]
    exact (replica_update (by rw [hk]; rintro ⟨⟩) (by rintro ⟨⟩)).symm
  nodup := h.nodup
  rest := h.rest
  fresh := h.fresh_update hk _
  count := h.count.trans (congrArg Finset.card (live_status hk).symm)
  strays := h.strays

/-- A thread ends and is counted off. -/
theorem RegistryInv.leave (h : RegistryInv t) {k fd : Nat} (hk : t.threads k = some (fd, .closed)) :
    RegistryInv { t with
      active := t.active - 1
      threads := Function.update t.threads k none } where
  owned j fd' status hj hopen := by
    dsimp only at hj ⊢
    by_cases hjk : j = k
    · subst hjk
      rw [Function.update_self] at hj
      cases hj
    · rw [Function.update_of_ne hjk] at hj
      exact h.owned j fd' status hj hopen
  registered fd' := by
    rw [h.registered]
    exact (replica_update (by rw [hk]; rintro ⟨⟩) (by rintro ⟨⟩)).symm
  nodup := h.nodup
  rest := h.rest
  fresh := h.fresh_update hk _
  count := by
    have hlive : Table.live { t with
        active := t.active - 1
        threads := Function.update t.threads k none } = t.live.erase k := by
      ext j
      by_cases hjk : j = k
      · subst hjk
        simp [Table.live]
      · simp [Table.live, hjk]
    have hmem : k ∈ t.live := h.mem_live.mpr (by rw [hk]; rfl)
    rw [hlive, Finset.card_erase_of_mem hmem, ← h.count]
  strays := h.strays

/-- **Invariant step.** -/
theorem registryInv_step (h : RegistryInv t) (hs : t.Step event t') : RegistryInv t' := by
  cases hs with
  | stay => exact h
  | accept hfree => exact h.accept hfree
  | own hk hopen _ => exact h.write (h.owner hk hopen) _
  | lock hfree =>
    refine ⟨h.owned, h.registered, h.nodup, ?_, h.fresh, h.count, h.strays⟩
    rintro _ _ ⟨⟩
    exact List.suffix_rfl
  | @deliver line fd rest hloop =>
    have hsuffix := h.rest _ _ hloop
    obtain ⟨k, -, howner⟩ := h.owner_of_mem (hsuffix.subset List.mem_cons_self)
    have hw := h.write howner (.line line)
    refine ⟨hw.owned, hw.registered, hw.nodup, ?_, hw.fresh, hw.count, hw.strays⟩
    rintro _ _ ⟨⟩
    rw [Table.write_of_owner howner]
    exact (List.suffix_cons fd rest).trans hsuffix
  | unlock _ =>
    refine ⟨h.owned, h.registered, h.nodup, ?_, h.fresh, h.count, h.strays⟩
    rintro _ _ ⟨⟩
  | @add k fd hfree hk =>
    have hnew : fd ∉ t.replicaFds := by
      intro hfd
      obtain ⟨j, hj⟩ := (h.registered fd).mp hfd
      have hjk := h.thread_unique hj hk (by rintro ⟨⟩) (by rintro ⟨⟩)
      rw [hjk, hk] at hj
      cases hj
    refine h.reuse hfree hk (by rintro ⟨⟩) (fun fd' => ?_) ?_
    · rw [List.mem_append, List.mem_singleton]
      split
      · rename_i hfd
        simp [hfd]
      · rename_i hfd
        simp [hfd]
    · exact h.nodup.append (List.nodup_singleton fd) (List.disjoint_singleton.mpr hnew)
  | @remove k fd hfree hk =>
    refine h.reuse hfree hk (by rintro ⟨⟩) (fun fd' => ?_) (h.nodup.filter _)
    rw [List.mem_filter]
    split
    · rename_i hfd
      simp [hfd]
    · rename_i hfd
      simp [hfd]
  | close hk => exact h.close hk
  | leave hk => exact h.leave hk
  | openFile hfree => exact h.files (by rw [hfree]; rintro _ ⟨⟩)
  | closeFile hfile => exact h.files (by rw [hfile]; rintro _ ⟨⟩)

end

/-! ## What the connections are sent -/

def Payload.propagated : Payload → Option Bytes
  | .line text => some text
  | .reply _ | .dump _ => none

/-- Whether connection `k` is registered, and what was propagated while it was. -/
def watch (k : Nat) (w : Bool × List Bytes) : RegistryEvent → Bool × List Bytes
  | .added j => (w.1 || j = k, w.2)
  | .removed j => (w.1 && j ≠ k, w.2)
  | .propagated line => (w.1, if w.1 then w.2 ++ [line] else w.2)
  | .wrote _ _ => w

def watched (k : Nat) (events : List RegistryEvent) : Bool × List Bytes :=
  events.foldl (watch k) (false, [])

/-- The lines that are propagated between `add` and `remove` of connection `k`. -/
def window (k : Nat) (events : List RegistryEvent) : List Bytes := (watched k events).2

/-- The replies and the dump that the thread of connection `k` writes. -/
def ownWrites (k : Nat) (events : List RegistryEvent) : List Payload :=
  events.filterMap fun
    | .wrote j payload => if j = k then some payload else none
    | _ => none

theorem watched_concat (k : Nat) (events : List RegistryEvent) (event : RegistryEvent) :
    watched k (events ++ [event]) = watch k (watched k events) event := by
  rw [watched, List.foldl_concat]
  rfl

theorem ownWrites_concat (k : Nat) (events : List RegistryEvent) (event : RegistryEvent) :
    ownWrites k (events ++ [event]) = ownWrites k events ++ ownWrites k [event] := by
  rw [ownWrites, List.filterMap_append]
  rfl

namespace Table

variable (t : Table)

def isReplica (k : Nat) : Bool :=
  match t.threads k with
  | some (_, .replica) => true
  | _ => false

/-- The connections that the `propagate` under way has left. -/
def left : List Nat := (t.loop.elim [] Prod.snd).filterMap t.owner

/-- The line that connection `k` is about to get. -/
def pending (k : Nat) : List Bytes :=
  match t.loop with
  | some (line, _) => if k ∈ t.left then [line] else []
  | none => []

/-- What was written to a connection, against what has happened. -/
def Delivered (events : List RegistryEvent) (k : Nat) : Prop :=
  watched k events =
      (t.isReplica k, (t.written k).filterMap Payload.propagated ++ t.pending k) ∧
    (t.written k).filter (·.propagated.isNone) = ownWrites k events

end Table

section

variable {t t' : Table} {event : Option RegistryEvent} {events : List RegistryEvent}

theorem isReplica_iff {k : Nat} :
    t.isReplica k = true ↔ ∃ fd, t.threads k = some (fd, .replica) := by
  unfold Table.isReplica
  split
  · rename_i fd hk
    simp [hk]
  · rename_i hk
    simp only [Bool.false_eq_true, false_iff]
    rintro ⟨fd, hfd⟩
    exact hk fd hfd

/-- The connections behind the registry are those that are registered. -/
theorem RegistryInv.mem_owners (h : RegistryInv t) {k : Nat} :
    k ∈ t.replicaFds.filterMap t.owner ↔ t.isReplica k = true := by
  rw [List.mem_filterMap, isReplica_iff]
  constructor
  · rintro ⟨fd, hfd, hk⟩
    obtain ⟨j, hj, howner⟩ := h.owner_of_mem hfd
    rw [howner] at hk
    cases hk
    exact ⟨fd, hj⟩
  · rintro ⟨fd, hfd⟩
    exact ⟨fd, (h.registered fd).mpr ⟨k, hfd⟩, h.owner hfd (by rintro ⟨⟩)⟩

/-- A step that only moves files that the registry does not have. -/
theorem RegistryInv.left_eq (h : RegistryInv t) {t' : Table} (hloop : t'.loop = t.loop)
    (howner : ∀ fd ∈ t.replicaFds, t'.owner fd = t.owner fd) : t'.left = t.left := by
  unfold Table.left
  rw [hloop]
  cases hl : t.loop with
  | none => rfl
  | some l =>
    refine List.filterMap_congr fun fd hfd => howner fd ?_
    exact (h.rest l.1 l.2 hl).subset hfd

/-- A step that does not write and does not change what connection `k` is. -/
theorem Table.Delivered.frame {k : Nat} (hd : t.Delivered events k)
    (hloop : t'.loop = t.loop) (hleft : t'.left = t.left) (hwritten : t'.written = t.written)
    (hreplica : t'.isReplica k = t.isReplica k) : t'.Delivered events k := by
  have hpending : t'.pending k = t.pending k := by
    rw [Table.pending, Table.pending, hloop, hleft]
  rw [Table.Delivered, hwritten, hreplica, hpending]
  exact hd

theorem owner_update {files : Nat → Option File} {fd fd' : Nat} (h : fd' ≠ fd)
    (file : Option File) :
    ({ t with files := Function.update files fd file } : Table).owner fd' =
      ({ t with files := files } : Table).owner fd' := by
  simp only [Table.owner, Function.update_of_ne h]

/-- A file that is not a connection is not behind a descriptor of the registry. -/
theorem RegistryInv.ne_of_mem (h : RegistryInv t) {fd fd' : Nat} (hfd' : fd' ∈ t.replicaFds)
    (howner : t.owner fd = none) : fd' ≠ fd := by
  rintro rfl
  obtain ⟨k, -, hk⟩ := h.owner_of_mem hfd'
  rw [howner] at hk
  cases hk

/-- `isReplica` of a thread that uses its descriptor for something else. -/
theorem isReplica_update {k fd j : Nat} {status : Status} :
    ({ t with threads := Function.update t.threads k (some (fd, status)) } : Table).isReplica j =
      if j = k then decide (status = .replica) else t.isReplica j := by
  unfold Table.isReplica
  dsimp only
  by_cases hj : j = k
  · subst hj
    rw [Function.update_self, if_pos rfl]
    cases status <;> rfl
  · rw [Function.update_of_ne hj, if_neg hj]

/-- A write to a connection that is not by `propagate`. -/
theorem Table.Delivered.own {j k fd : Nat} {payload : Payload} (hd : t.Delivered events j)
    (howner : t.owner fd = some k) (hown : ∀ line, payload ≠ .line line) :
    (t.write fd payload).Delivered (events ++ [.wrote k payload]) j := by
  have hprop : payload.propagated = none := by
    cases payload with
    | line line => exact absurd rfl (hown line)
    | reply | dump => rfl
  obtain ⟨hwatch, hrest⟩ := hd
  rw [Table.write_of_owner howner]
  refine ⟨?_, ?_⟩
  · rw [watched_concat, watch, hwatch]
    by_cases hj : j = k
    · subst hj
      simp [hprop, Table.isReplica, Table.pending, Table.left, Table.owner]
    · simp [hj, Table.isReplica, Table.pending, Table.left, Table.owner]
  · rw [ownWrites_concat, ← hrest]
    by_cases hj : j = k
    · subst hj
      simp [hprop, ownWrites]
    · simp [hj, Ne.symm hj, ownWrites]

/-- A call of `propagate` takes the mutex: every registered connection is about to get the line. -/
theorem Table.Delivered.lock {k : Nat} {line : Bytes} (h : RegistryInv t) (hfree : t.loop = none)
    (hd : t.Delivered events k) :
    ({ t with loop := some (line, t.replicaFds) } : Table).Delivered
      (events ++ [.propagated line]) k := by
  obtain ⟨hwatch, hrest⟩ := hd
  have hbefore : t.pending k = [] := by rw [Table.pending, hfree]
  have hafter : ({ t with loop := some (line, t.replicaFds) } : Table).pending k =
      if t.isReplica k then [line] else [] := by
    rw [Table.pending]
    refine if_congr ?_ rfl rfl
    exact h.mem_owners
  refine ⟨?_, ?_⟩
  · rw [watched_concat, watch, hwatch, hafter, hbefore, List.append_nil]
    refine Prod.ext rfl ?_
    dsimp only
    split <;> simp
  · rw [ownWrites_concat, ← hrest]
    simp [ownWrites]

/-- The loop of `propagate` writes to the next descriptor. -/
theorem Table.Delivered.deliver {k fd : Nat} {line : Bytes} {rest : List Nat} (h : RegistryInv t)
    (hloop : t.loop = some (line, fd :: rest)) (hd : t.Delivered events k) :
    ({ t.write fd (.line line) with loop := some (line, rest) } : Table).Delivered events k := by
  obtain ⟨hwatch, hrest⟩ := hd
  have hsuffix := h.rest _ _ hloop
  obtain ⟨j, hj, howner⟩ := h.owner_of_mem (hsuffix.subset List.mem_cons_self)
  have hnodup : fd ∉ rest := (List.nodup_cons.mp (h.nodup.sublist hsuffix.sublist)).1
  -- The other descriptors that are left are those of other connections.
  have hother : j ∉ rest.filterMap t.owner := by
    intro hmem
    obtain ⟨fd', hfd', howner'⟩ := List.mem_filterMap.mp hmem
    obtain ⟨i, hi, hown⟩ := h.owner_of_mem (hsuffix.subset (List.mem_cons_of_mem _ hfd'))
    obtain rfl : i = j := Option.some.inj (hown.symm.trans howner')
    rw [hj] at hi
    cases hi
    exact hnodup hfd'
  have hleft : t.left = j :: rest.filterMap t.owner := by
    rw [Table.left, hloop]
    exact List.filterMap_cons_some howner
  have hbefore : t.pending k = if k ∈ j :: rest.filterMap t.owner then [line] else [] := by
    rw [Table.pending, hloop, ← hleft]
  rw [Table.write_of_owner howner]
  have hafter : ({ t with
      written := Function.update t.written j (t.written j ++ [.line line])
      loop := some (line, rest) } : Table).pending k =
      if k ∈ rest.filterMap t.owner then [line] else [] := rfl
  refine ⟨?_, ?_⟩
  · rw [hwatch, hbefore, hafter]
    refine Prod.ext rfl ?_
    by_cases hk : k = j
    · subst hk
      simp [hother, Payload.propagated]
    · simp [hk]
  · rw [← hrest]
    by_cases hk : k = j
    · subst hk
      simp [Payload.propagated]
    · simp [hk]

/-- A connection is registered, or no longer. -/
theorem Table.Delivered.reuse {j k fd : Nat} {status : Status} {fds : List Nat}
    {change : RegistryEvent} (hfree : t.loop = none) (hd : t.Delivered events j)
    (hwatch : ∀ w, watch j w change = (if j = k then decide (status = .replica) else w.1, w.2))
    (hown : ownWrites j [change] = []) :
    ({ t with
      replicaFds := fds
      threads := Function.update t.threads k (some (fd, status)) } : Table).Delivered
      (events ++ [change]) j := by
  have hpending (threads : Nat → Option (Nat × Status)) :
      ({ t with replicaFds := fds, threads := threads } : Table).pending j = t.pending j := by
    rw [Table.pending, Table.pending, hfree]
  refine ⟨?_, ?_⟩
  · rw [watched_concat, hwatch, hpending, hd.1]
    refine Prod.ext ?_ rfl
    exact isReplica_update.symm
  · rw [ownWrites_concat, hown, List.append_nil, ← hd.2]

/-- **What one step adds to what the connections were sent.** -/
theorem delivered_step (h : RegistryInv t) (hs : t.Step event t') {k : Nat}
    (hd : t.Delivered events k) : t'.Delivered (events ++ event.toList) k := by
  cases hs with
  | stay => rwa [Option.toList_none, List.append_nil]
  | accept hfree =>
    rw [Option.toList_none, List.append_nil]
    refine hd.frame rfl (h.left_eq rfl fun fd' hfd' => ?_) rfl ?_
    · exact owner_update (h.ne_of_mem hfd' (by rw [Table.owner, hfree])) _
    · refine isReplica_update.trans ?_
      split
      · rename_i hk
        rw [Table.isReplica, hk, h.fresh _ le_rfl]
        rfl
      · rfl
  | own hk hopen hown => exact hd.own (h.owner hk hopen) hown
  | lock hfree => exact hd.lock h hfree
  | deliver hloop =>
    rw [Option.toList_none, List.append_nil]
    exact hd.deliver h hloop
  | unlock hloop =>
    rw [Option.toList_none, List.append_nil]
    have hpending : t.pending k = [] := by
      rw [Table.pending, Table.left, hloop]
      rfl
    refine ⟨?_, hd.2⟩
    rw [hd.1, hpending]
    rfl
  | @add j fd hfree hj =>
    refine hd.reuse hfree (fun w => ?_) rfl
    by_cases hk : k = j
    · simp [watch, hk]
    · simp [watch, hk, Ne.symm hk]
  | @remove j fd hfree hj =>
    refine hd.reuse hfree (fun w => ?_) rfl
    by_cases hk : k = j
    · simp [watch, hk]
    · simp [watch, hk, Ne.symm hk]
  | @close j fd hj =>
    rw [Option.toList_none, List.append_nil]
    refine hd.frame rfl (h.left_eq rfl fun fd' hfd' => ?_) rfl ?_
    · refine owner_update ?_ _
      rintro rfl
      obtain ⟨i, hi⟩ := (h.registered fd').mp hfd'
      have hij := h.thread_unique hi hj (by rintro ⟨⟩) (by rintro ⟨⟩)
      rw [hij, hj] at hi
      cases hi
    · refine isReplica_update.trans ?_
      split
      · rename_i hk
        rw [Table.isReplica, hk, hj]
        rfl
      · rfl
  | @leave j fd hj =>
    rw [Option.toList_none, List.append_nil]
    refine hd.frame rfl (h.left_eq rfl fun _ _ => rfl) rfl ?_
    unfold Table.isReplica
    by_cases hk : k = j
    · subst hk
      simp [hj]
    · simp [hk]
  | openFile hfree =>
    rw [Option.toList_none, List.append_nil]
    refine hd.frame rfl (h.left_eq rfl fun fd' hfd' => ?_) rfl rfl
    exact owner_update (h.ne_of_mem hfd' (by rw [Table.owner, hfree])) _
  | closeFile hfile =>
    rw [Option.toList_none, List.append_nil]
    refine hd.frame rfl (h.left_eq rfl fun fd' hfd' => ?_) rfl rfl
    exact owner_update (h.ne_of_mem hfd' (by rw [Table.owner, hfile])) _

end

/-! ## Whole runs -/

section

variable {appendOnly : Bool} {capacity : Nat} {clock : Nat → Now} {disk : Disk}
  {files : Nat → Option File} {acts : List ProcessAction} {s : Process}
  {outs : List (Option RegistryEvent)}

theorem registryInv_run
    (hrun : tcpMachine.run (.start appendOnly capacity clock disk files) acts = some (s, outs)) :
    RegistryInv s.table := by
  refine Machine.run_invariant (I := fun s => RegistryInv s.table)
    (fun _ _ _ _ h _ hs => registryInv_step h (tcp_step_table hs)) (Machine.along_true _ _) hrun ?_
  exact registryInv_start ..

/-- **A replica gets its window.** In every run, whatever descriptors are used again, nothing is
written to a file that is not a connection. A connection gets the lines that are propagated between
its `add` and its `remove`, each once and in order, and what its own thread writes. -/
theorem replicas_get_their_window
    (hrun : tcpMachine.run (.start appendOnly capacity clock disk files) acts = some (s, outs)) :
    s.strays = [] ∧ ∀ k,
      (s.written k).filterMap Payload.propagated ++ s.table.pending k =
          window k outs.reduceOption ∧
        (s.written k).filter (·.propagated.isNone) = ownWrites k outs.reduceOption := by
  have hinv := registryInv_run hrun
  have hdelivered : ∀ k, s.table.Delivered outs.reduceOption k := by
    refine Machine.run_history (C := fun _ _ => True)
      (I := fun s _ outs => ∀ k, s.table.Delivered outs.reduceOption k)
      (fun _ _ os _ _ o hbefore h _ hs k => ?_) (Machine.along_true _ _) hrun ?_
    · have hstep := delivered_step (registryInv_run hbefore) (tcp_step_table hs) (h k)
      have hconcat : (os ++ [o]).reduceOption = os.reduceOption ++ o.toList := by
        rw [List.reduceOption_append]
        cases o <;> rfl
      rwa [hconcat]
    · exact fun _ => ⟨rfl, rfl⟩
  refine ⟨hinv.strays, fun k => ⟨?_, (hdelivered k).2⟩⟩
  rw [window, (hdelivered k).1]
  rfl

end

/-- Connection 0 is a replica with descriptor 5. When it is gone, connection 2 gets this number. -/
def reusedDescriptor : List ProcessAction :=
  let line (k : Nat) (text : String) := .handler k (.received .epoch (some (ascii text)))
  [.accept 5, .spawn, .accept 6, .spawn, line 0 "SYNC", .handler 0 .step, .handler 0 .step,
    .handler 0 (.wrote true), line 1 "SET a 1", .handler 1 .step, .handler 1 .step,
    .handler 1 .step, .handler 1 .step, .handler 1 (.wrote true),
    .handler 0 (.received .epoch none), .handler 0 .step, .handler 0 .step, .accept 5, .spawn,
    line 1 "DEL a", .handler 1 .step, .handler 1 .step, .handler 1 .step,
    .handler 1 (.wrote true), line 2 "PING", .handler 2 (.wrote true)]

theorem replicas_get_their_window_reused :
    ∃ s outs, tcpMachine.run (.start true 0 (fun _ => .epoch) .empty fun _ => none)
        reusedDescriptor = some (s, outs) ∧
      s.written 0 = [.dump [], .line (ascii "SET a 1")] ∧ s.written 2 = [.reply Reply.ok] ∧
      s.strays = [] ∧ ∀ k,
        (s.written k).filterMap Payload.propagated ++ s.table.pending k =
            window k outs.reduceOption ∧
          (s.written k).filter (·.propagated.isNone) = ownWrites k outs.reduceOption := by
  obtain ⟨s, outs, hrun, hfirst, hlast⟩ : ∃ s outs,
      tcpMachine.run (.start true 0 (fun _ => .epoch) .empty fun _ => none) reusedDescriptor =
          some (s, outs) ∧
        s.written 0 = [.dump [], .line (ascii "SET a 1")] ∧ s.written 2 = [.reply Reply.ok] :=
    ⟨_, _, rfl, by decide, by decide⟩
  exact ⟨s, outs, hrun, hfirst, hlast, replicas_get_their_window hrun⟩

/-! ## The end of the accept loop -/

namespace Process

variable {s t : Process} {event : Option RegistryEvent}

theorem write_frame (fd : Nat) (payload : Payload) :
    (s.write fd payload).acceptor = s.acceptor ∧ (s.write fd payload).accepted = s.accepted := by
  unfold write
  cases s.owner fd <;> exact ⟨rfl, rfl⟩

theorem propagateStep_frame {caller : Caller} {line : Bytes} {stage : Propagation}
    {next : Option Propagation} (h : s.propagateStep caller line stage = some (t, next, event)) :
    t.acceptor = s.acceptor ∧ t.accepted = s.accepted := by
  unfold propagateStep at h
  repeat' split at h
  all_goals cases h
  all_goals first | exact ⟨rfl, rfl⟩ | exact write_frame _ _

/-- Only the accept loop itself accepts, and moves on. -/
theorem handlerStep_frame {k fd : Nat} {phase : HandlerPhase} {e : HandlerEvent}
    {next : Option HandlerPhase} (h : s.handlerStep k fd phase e = some (t, next, event)) :
    t.acceptor = s.acceptor ∧ t.accepted = s.accepted := by
  unfold handlerStep at h
  split at h
  case h_3 =>
    obtain ⟨⟨t', next', event'⟩, hp, heq⟩ := Option.map_eq_some_iff.mp h
    cases heq
    exact propagateStep_frame hp
  all_goals repeat' split at h
  all_goals cases h
  all_goals first | exact ⟨rfl, rfl⟩ | exact write_frame _ _

end Process

/-- The counter goes up only for a new connection. -/
theorem Table.Step.active_le {t t' : Table} {event : Option RegistryEvent} (hs : t.Step event t')
    (haccepted : t'.accepted = t.accepted) : t'.active ≤ t.active := by
  have hwrite (fd : Nat) (payload : Payload) : (t.write fd payload).active = t.active := by
    unfold Table.write
    cases t.owner fd <;> rfl
  cases hs with
  | accept => exact absurd haccepted (Nat.succ_ne_self _)
  | own | deliver => exact (hwrite _ _).le
  | leave => exact Nat.sub_le _ _
  | stay | lock | unlock | add | remove | close | openFile | closeFile => exact le_rfl

/-- The deadline does not end the wait while a thread is counted. -/
def WaitSafe (s : Process) : ProcessAction → Prop
  | .poll true => s.active = 0
  | _ => True

instance (s : Process) : ∀ a, Decidable (WaitSafe s a)
  | .poll true => inferInstanceAs (Decidable (s.active = 0))
  | .poll false | .accept _ | .spawn | .stop | .leave | .handler _ _ | .apply _ _ _ | .link _
  | .openFile _ | .closeFile _ => isTrue trivial

/-- `run` has not returned while a thread is counted. -/
theorem returned_step {s s' : Process} {a : ProcessAction} {event : Option RegistryEvent}
    (hsafe : WaitSafe s a) (h : s.acceptor = .returned → s.active = 0)
    (hs : tcpMachine.step s a = some (s', event)) : s'.acceptor = .returned → s'.active = 0 := by
  -- A step that leaves the accept loop where it is.
  have hframe (hacceptor : s'.acceptor = s.acceptor) (haccepted : s'.accepted = s.accepted) :
      s'.acceptor = .returned → s'.active = 0 := by
    intro hreturned
    have hle : s'.active ≤ s.active := (tcp_step_table hs).active_le haccepted
    rw [hacceptor] at hreturned
    have := h hreturned
    omega
  cases a with
  | accept fd =>
    simp only [tcpMachine] at hs
    split at hs
    · cases hs
      rintro ⟨⟩
    · cases hs
  | spawn =>
    simp only [tcpMachine] at hs
    split at hs
    · split at hs
      · cases hs
        rintro ⟨⟩
      · cases hs
    all_goals cases hs
  | leave =>
    simp only [tcpMachine] at hs
    split at hs
    · cases hs
      rintro ⟨⟩
    · cases hs
  | poll late =>
    simp only [tcpMachine] at hs
    split at hs
    · cases hs
      intro hreturned
      dsimp only at hreturned ⊢
      split at hreturned
      · rename_i hdone
        rcases hdone with hzero | rfl
        · exact hzero
        · exact hsafe
      · cases hreturned
    · cases hs
  | handler k e =>
    simp only [tcpMachine] at hs
    split at hs
    · obtain ⟨⟨t, next, event'⟩, hstep, heq⟩ := Option.map_eq_some_iff.mp hs
      cases heq
      exact hframe (Process.handlerStep_frame hstep).1 (Process.handlerStep_frame hstep).2
    · cases hs
  | link i =>
    simp only [tcpMachine] at hs
    split at hs
    · obtain ⟨⟨t, next, event'⟩, hstep, heq⟩ := Option.map_eq_some_iff.mp hs
      cases heq
      exact hframe (Process.propagateStep_frame hstep).1 (Process.propagateStep_frame hstep).2
    · cases hs
  | stop =>
    cases hs
    exact hframe rfl rfl
  | apply | openFile | closeFile =>
    simp only [tcpMachine] at hs
    split at hs
    · cases hs
      exact hframe rfl rfl
    · cases hs

/-- **The work of the threads is done.** `activeConnections_` is the number of connections that have
been accepted and whose threads are not past `--activeConnections_`. When `run` returns, and its
deadline has not ended the wait while connections were counted, every thread that is still there is
past that statement, the last one of its work. -/
theorem drained_when_returned {appendOnly : Bool} {capacity : Nat} {clock : Nat → Now} {disk : Disk}
    {files : Nat → Option File} {acts : List ProcessAction} {s : Process}
    {outs : List (Option RegistryEvent)}
    (hrun : tcpMachine.run (.start appendOnly capacity clock disk files) acts = some (s, outs)) :
    s.active = {k ∈ Finset.range s.accepted | ((s.handlers k).bind countedAs).isSome}.card ∧
      (tcpMachine.Along WaitSafe (.start appendOnly capacity clock disk files) acts →
        s.acceptor = .returned → ∀ k fd phase, s.handlers k = some (fd, phase) →
          phase = .ending) := by
  have hinv := registryInv_run hrun
  refine ⟨hinv.count, fun halong hreturned k fd phase hk => ?_⟩
  have hzero : s.acceptor = .returned → s.active = 0 :=
    Machine.run_invariant (I := fun s => s.acceptor = .returned → s.active = 0)
      (fun _ _ _ _ h hsafe hs => returned_step hsafe h hs) halong hrun (by rintro ⟨⟩)
  have hempty : s.table.live = ∅ := Finset.card_eq_zero.mp (hinv.count.symm.trans (hzero hreturned))
  have hnone : ¬ (s.table.threads k).isSome := by
    rw [← hinv.mem_live, hempty]
    exact Finset.notMem_empty k
  have hstatus : phase.status = none := by
    change ¬ ((s.handlers k).bind countedAs).isSome at hnone
    rw [hk] at hnone
    simpa [countedAs] using hnone
  cases phase with
  | ending => rfl
  | _ => cases hstatus

/-- A client is there when the server is stopped, and goes. Its thread is counted off, and has not
ended. -/
def stoppedActions : List ProcessAction :=
  [.accept 5, .spawn, .stop, .leave, .poll false, .handler 0 (.received .epoch none),
    .handler 0 .step, .handler 0 .step, .poll false]

theorem drained_when_returned_stopped :
    ∃ s outs, tcpMachine.run (.start true 0 (fun _ => .epoch) .empty fun _ => none)
        stoppedActions = some (s, outs) ∧ s.acceptor = .returned ∧
      (s.handlers 0).isSome = true ∧
      ∀ k fd phase, s.handlers k = some (fd, phase) → phase = .ending := by
  obtain ⟨s, outs, hrun, hreturned, hthere⟩ : ∃ s outs,
      tcpMachine.run (.start true 0 (fun _ => .epoch) .empty fun _ => none) stoppedActions =
          some (s, outs) ∧
        s.acceptor = .returned ∧ (s.handlers 0).isSome = true :=
    ⟨_, _, rfl, rfl, rfl⟩
  exact ⟨s, outs, hrun, hreturned, hthere,
    (drained_when_returned hrun).2 (by decide) hreturned⟩

end TinyKV

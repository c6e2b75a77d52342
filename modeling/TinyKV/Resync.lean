import TinyKV.Recovery

/-!
# A replica that connects again

`ReplicaLink::runLoop` connects, sends `SYNC` and applies every line that comes, and it does so
again when the connection is lost. The replica's store is what it was: left over from before
`REPLICAOF`, or from a connection that was lost while the primary went on. The dump is one `SET` for
each pair of the primary, and no line of it drops a key.

* `resync_lookup`: the map of a replica after a whole dump.
* `resync_converges_iff`: it is the primary's map exactly if the replica had no key that the primary
  lacks, and had every pair whose line is too long for the parser.
-/

namespace TinyKV

open Cpp Recency SnapshotManager

/-- The lines that the handshake writes to a connection. -/
def Server.dumpTo (p : Server) (fd : Nat) : List Bytes :=
  ((p.handleSyncConnection fd).sent fd).drop (p.sent fd).length

theorem dumpTo_eq (p : Server) (fd : Nat) : p.dumpTo fd = dumpLines p.db.store.entries := by
  rw [Server.dumpTo, p.handleSyncConnection_sent]
  exact List.drop_left

/-- What a replica has after it has applied a whole dump: the primary's pairs that fit, and for any
other key what it had. -/
theorem resync_lookup {p r : Server} (hp : p.WordStore 0) (hr : r.db.store.capacity = 0) (fd : Nat)
    (clock : Nat → Now) (x : Bytes) :
    (r.applyLines clock (p.dumpTo fd)).db.store.lookup x =
      match p.db.store.lookup x with
      | none => r.db.store.lookup x
      | some v => if Fits x v then some v else r.db.store.lookup x := by
  rw [Server.applyLines_lookup hr, dumpTo_eq, applyAll_dumpLines p.db.store.unique hp.words]
  rfl

/-- **A `SYNC` on a replica that has data.** The primary is in any state that lines, snapshots and
restarts lead to, the replica in any state. After the whole dump the maps are equal exactly if
each key of the replica is a key of the primary, and each pair of the primary has a line that is
short enough or was there already. -/
theorem resync_converges_iff (appendOnly : Bool) (clock₀ : Nat → Now) (disk : Disk)
    (acts : List ServerAction) {p : Server} {outs : List (Option Server.Response)}
    (hrun : serverMachine.run (Server.start appendOnly 0 clock₀ disk) acts = some (p, outs))
    {r : Server} (hr : r.db.store.capacity = 0) (fd : Nat) (clock : Nat → Now) :
    (r.applyLines clock (p.dumpTo fd)).db.store.lookup = p.db.store.lookup ↔
      (∀ x, p.db.store.lookup x = none → r.db.store.lookup x = none) ∧
      ∀ x v, p.db.store.lookup x = some v → Fits x v ∨ r.db.store.lookup x = some v := by
  have hafter := resync_lookup (wordStore_of_run hrun) hr fd clock
  constructor
  · intro heq
    refine ⟨fun x hx => ?_, fun x v hx => ?_⟩
    · have h := hafter x
      rw [heq, hx] at h
      exact h.symm
    · have h := hafter x
      rw [heq, hx] at h
      by_cases hfit : Fits x v
      · exact .inl hfit
      · exact .inr (h.trans (if_neg hfit)).symm
  · rintro ⟨hgone, hpairs⟩
    funext x
    rw [hafter x]
    cases hx : p.db.store.lookup x with
    | none => exact hgone x hx
    | some v =>
      dsimp only
      split
      · rfl
      · rename_i hlong
        obtain hfit | hv := hpairs x v hx
        · exact absurd hfit hlong
        · exact hv

theorem find_singleton (x k v : Bytes) : find x [(k, v)] = if x = k then some v else none := by
  rw [find_cons]
  rfl

/-- A replica that has an old value of the primary's only key. -/
theorem resync_converges_iff_oldValue :
    ((afterLine "SET k 1").applyLines (fun _ => .epoch)
      ((afterLine "SET k 2").dumpTo 7)).db.store.lookup = (afterLine "SET k 2").db.store.lookup := by
  have hp : (afterLine "SET k 2").db.store.entries = [(ascii "k", ascii "2")] := by decide +kernel
  have hr : (afterLine "SET k 1").db.store.entries = [(ascii "k", ascii "1")] := by decide +kernel
  refine (resync_converges_iff true (fun _ => .epoch) .empty
    [.line 0 .epoch (.ofText "SET k 2")] rfl (by decide +kernel) 7 _).mpr ⟨fun x hx => ?_, ?_⟩
  · change find x (afterLine "SET k 2").db.store.entries = none at hx
    rw [hp, find_singleton] at hx
    rw [Store.lookup, hr, find_singleton]
    split at hx
    · cases hx
    · rename_i hne
      exact if_neg hne
  · intro x v hx
    have hm : (x, v) ∈ [(ascii "k", ascii "2")] := hp ▸ mem_of_find hx
    cases List.mem_singleton.mp hm
    exact .inl (by decide)

/-- A key that the primary does not have stays on the replica. -/
theorem not_resync_converges_staleKey :
    ¬ ∀ (appendOnly : Bool) (clock₀ : Nat → Now) (disk : Disk) (acts : List ServerAction)
      (p : Server) (outs : List (Option Server.Response)) (r : Server) (fd : Nat)
      (clock : Nat → Now),
      serverMachine.run (Server.start appendOnly 0 clock₀ disk) acts = some (p, outs) →
      r.db.store.capacity = 0 →
      (r.applyLines clock (p.dumpTo fd)).db.store.lookup = p.db.store.lookup := by
  intro h
  have heq := congrFun (h true (fun _ => .epoch) .empty [.line 0 .epoch (.ofText "SET k 1")]
    (afterLine "SET k 1") _ (afterLine "SET j 1") 7 (fun _ => .epoch) rfl (by decide +kernel))
    (ascii "j")
  revert heq
  decide +kernel

end TinyKV

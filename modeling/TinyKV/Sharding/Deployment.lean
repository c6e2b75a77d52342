import TinyKV.Reconnect
import TinyKV.Sharding.HealthChecker

/-!
# Shards with replicas, through failovers

Each shard has a primary and a replica, which follows the primary over a link. The health checker of
the router (`src/sharding/health_checker.cpp`) pings both. When the primary is down it sends
`REPLICAOF NO ONE` to the replica and makes it the active node. Clients, threads of the router that
still have an older address among them, may send lines to both nodes at any time.

* `deploymentMachine`: the lines at all nodes, the handshakes and deliveries on all links and the
  calls of `checkShard`, in any order. A primary that has crashed takes no more steps.
* `ShardPairInv`: what holds of the two nodes of a shard. A linked replica has a map that its
  primary had; after `REPLICAOF NO ONE` its map is such a map and what it has accepted since.
* `failover_keeps_prefix`: the active node of a shard is a primary, and after a failover it has the
  writes of the old primary up to some point, and then its own.

As in `Chain.lean`, the stores are unbounded, no deadline fires, and a link that is lost is not
opened again: a replica sends one `SYNC`, while its store is empty (`Reconnect.lean` has the others).
A line is executed, logged and propagated in one step, and so is the handshake.
-/

namespace TinyKV

open Cpp Recency Text SnapshotManager

/-! ## The machine -/

/-- Where a replica is with its primary. -/
inductive PairPhase where
  /-- It does not follow it. -/
  | apart
  | linked (l : Link)
  /-- `REPLICAOF NO ONE` has stopped this link. -/
  | released (l : Link)
  deriving DecidableEq

/-- The two nodes of a shard. -/
structure ShardPair where
  primary : Server
  replica : Server
  phase : PairPhase
  /-- The map of the primary at the `SYNC`, then after each successful write. -/
  writes : List KvMap
  /-- The successful writes of the replica since `REPLICAOF NO ONE`. -/
  accepted : List Bytes

structure Deployment where
  topology : ShardTopology
  pair : Bytes → ShardPair

/-- The files and the clock readings that the two nodes of a shard start with. -/
structure PairFiles where
  appendOnly : Bool
  clock : Nat → Now
  primary : Disk
  replica : Disk

def ShardPair.start (files : PairFiles) : ShardPair where
  primary := Server.start files.appendOnly 0 files.clock files.primary
  replica := Server.start files.appendOnly 0 files.clock files.replica
  phase := .apart
  writes := []
  accepted := []

def Deployment.start (config : Config) (files : Bytes → PairFiles) : Deployment where
  topology := parseShards config
  pair id := .start (files id)

inductive DeploymentAction where
  /-- A node of a shard handles a line of a client. -/
  | line (shardId : Bytes) (role : NodeRole) (fd : Nat) (now : Now) (line : Line)
  /-- `REPLICAOF` on the replica of a shard, and its `SYNC` on the connection `fd`. -/
  | sync (shardId : Bytes) (fd : Nat)
  /-- The replica of a shard applies the next line from its primary. -/
  | deliver (shardId : Bytes) (now : Now)
  | check (a : CheckAction)

namespace ShardPair

variable (p : ShardPair)

def node : NodeRole → Server
  | .PRIMARY => p.primary
  | .REPLICA => p.replica

/-- The primary has handled a line. -/
def primaryLine (fd : Nat) (now : Now) (line : Bytes) : ShardPair :=
  let s := (p.primary.handleLine fd now line).1
  { p with
    primary := s
    writes := if (p.primary.accepted now line).isSome then p.writes ++ [s.map] else p.writes }

/-- The replica has handled a line. `replicaOfNoOne` stops its link. -/
def replicaLine (fd : Nat) (now : Now) (line : Bytes) : ShardPair :=
  let s := (p.replica.handleLine fd now line).1
  match p.phase with
  | .apart => { p with replica := s }
  | .linked l =>
    { p with replica := s, phase := if s.role = .PRIMARY then .released l else .linked l }
  | .released _ =>
    { p with replica := s, accepted := p.accepted ++ (p.replica.accepted now line).toList }

/-- A handshake as the runs have it, of an empty replica that has not followed the primary yet. -/
def MaySync (fd : Nat) : Prop :=
  p.replica.db.store.entries = [] ∧ FitEntries p.primary.db.store.entries ∧
    fd ∉ p.primary.replicaFds ∧ p.primary.sent fd = []

instance (fd : Nat) : Decidable (p.MaySync fd) := inferInstanceAs (Decidable (_ ∧ _))

def sync (fd : Nat) : ShardPair :=
  { p with
    primary := p.primary.handleSyncConnection fd
    replica := { p.replica with role := .REPLICA }
    phase := .linked ⟨fd, (dumpLines p.primary.db.store.forEach).length, 0⟩
    writes := [p.primary.map] }

/-- The apply callback on a line that the reader of the link has returned. -/
def deliver (l : Link) (now : Now) (line : Bytes) : ShardPair :=
  { p with
    replica := p.replica.apply now line
    phase := .linked { l with taken := l.taken + 1 } }

end ShardPair

namespace Deployment

variable (s : Deployment)

def setPair (shardId : Bytes) (p : ShardPair) : Deployment :=
  { s with pair := Function.update s.pair shardId p }

/-- The node that the router sends the lines of a shard to. -/
def active (shard : Shard) : Server :=
  (s.pair shard.id).node (if shard.failedOver then .REPLICA else .PRIMARY)

end Deployment

/-- The output is what a client is answered. A connection that has sent `SYNC` is no client's any
more. A reply `+OK` to `REPLICAOF NO ONE` comes from a node that has executed it. -/
def deploymentMachine (maxMissedPings : Int) :
    Machine Deployment DeploymentAction (Option Server.Response) where
  step s
    | .line id role fd now line =>
      let p := s.pair id
      let response := ((p.node role).handleLine fd now line.1).2
      if fd ∈ (p.node role).replicaFds then none
      else match role with
        | .PRIMARY => some (s.setPair id (p.primaryLine fd now line.1), some response)
        | .REPLICA => some (s.setPair id (p.replicaLine fd now line.1), some response)
    | .sync id fd =>
      let p := s.pair id
      match p.phase with
      | .apart =>
        if p.MaySync fd ∧ s.topology.alreadyFailedOver id = false then
          some (s.setPair id (p.sync fd), none)
        else none
      | .linked _ | .released _ => none
    | .deliver id now =>
      let p := s.pair id
      match p.phase with
      | .linked l => ((p.primary.sent l.fd)[l.taken]?).map fun line =>
          (s.setPair id (p.deliver l now (stripCr line)), none)
      | .apart | .released _ => none
    | .check a =>
      let r := checkShard maxMissedPings s.topology a
      if r.2.reply = some Reply.ok ∧ (s.pair a.shardId).replica.role = .REPLICA then none
      else some ({ s with topology := r.1 }, none)

/-! ## The invariant of a pair -/

/-- What holds in a phase. -/
def ShardPair.PhaseOk (p : ShardPair) : PairPhase → Prop
  | .apart => p.replica.role = .PRIMARY ∧ p.accepted = []
  | .linked l => p.replica.role = .REPLICA ∧ p.accepted = [] ∧
      LinkInv p.primary p.replica l p.writes ∧ ∀ line ∈ p.primary.sent l.fd, isWriteLine line = true
  | .released l => p.replica.role = .PRIMARY ∧ ∃ m,
      (∀ j, l.taken = l.dumped + j → p.writes[j]? = some m) ∧
        p.replica.map = applyAll m (p.accepted.flatMap lineEffects)

structure ShardPairInv (p : ShardPair) : Prop where
  primaryStore : p.primary.WordStore 0
  replicaStore : p.replica.WordStore 0
  primary : p.primary.role = .PRIMARY
  phase : p.PhaseOk p.phase

theorem shardPairInv_start (files : PairFiles) : ShardPairInv (.start files) where
  primaryStore := wordStore_start _ 0 _ _
  replicaStore := wordStore_start _ 0 _ _
  primary := rfl
  phase := ⟨rfl, rfl⟩

section

variable {p : ShardPair} {fd : Nat} {line : Bytes}

theorem ShardPairInv.primaryLine (h : ShardPairInv p) (hfd : fd ∉ p.primary.replicaFds)
    (hline : attaches line = false) (now : Now) : ShardPairInv (p.primaryLine fd now line) := by
  have hw := wrote_handleLine h.primaryStore hfd now line
  refine ⟨hw.store, h.replicaStore, role_handleLine h.primary hline fd now, ?_⟩
  have hphase := h.phase
  show (p.primaryLine fd now line).PhaseOk p.phase
  cases hp : p.phase with
  | apart =>
    rw [hp] at hphase
    exact hphase
  | linked l =>
    rw [hp] at hphase
    obtain ⟨hrole, haccepted, hlink, hwrites⟩ := hphase
    refine ⟨hrole, haccepted, hlink.write hw, fun x hx => ?_⟩
    replace hx : x ∈ p.primary.sent l.fd ++ (p.primary.accepted now line).toList := by
      rw [← hw.sent l.fd hlink.registered]
      exact hx
    obtain hx | hx := List.mem_append.mp hx
    · exact hwrites x hx
    · obtain ⟨rfl, -, hwrite⟩ := accepted_eq_some (Option.mem_toList.mp hx)
      exact hwrite
  | released l =>
    rw [hp] at hphase
    obtain ⟨hrole, m, hm, hmap⟩ := hphase
    refine ⟨hrole, m, fun j hj => ?_, hmap⟩
    show (if (p.primary.accepted now line).isSome then _ else _)[j]? = some m
    split
    · obtain ⟨hlt, hget⟩ := List.getElem?_eq_some_iff.mp (hm j hj)
      rw [List.getElem?_append_left hlt]
      exact hm j hj
    · exact hm j hj

theorem ShardPairInv.replicaLine (h : ShardPairInv p) (hfd : fd ∉ p.replica.replicaFds)
    (hline : attaches line = false) (now : Now) : ShardPairInv (p.replicaLine fd now line) := by
  have hw := wrote_handleLine h.replicaStore hfd now line
  have hphase := h.phase
  unfold ShardPair.replicaLine
  dsimp only
  cases hp : p.phase with
  | apart =>
    rw [hp] at hphase
    obtain ⟨hrole, haccepted⟩ := hphase
    exact ⟨h.primaryStore, hw.store, h.primary, role_handleLine hrole hline fd now, haccepted⟩
  | linked l =>
    rw [hp] at hphase
    obtain ⟨hrole, haccepted, hlink, hwrites⟩ := hphase
    -- A replica accepts no write.
    have hnone : p.replica.accepted now line = none := by
      rw [Server.accepted, hrole]
      rfl
    have hmap : (p.replica.handleLine fd now line).1.map = p.replica.map := by
      rw [hw.map, hnone]
      rfl
    dsimp only
    split
    · rename_i hprimary
      refine ⟨h.primaryStore, hw.store, h.primary, hprimary, p.replica.map,
        fun j hj => hlink.getElem?_writes hj, ?_⟩
      show (p.replica.handleLine fd now line).1.map = applyAll _ (p.accepted.flatMap lineEffects)
      rw [hmap, haccepted]
      rfl
    · rename_i hprimary
      have hreplica : (p.replica.handleLine fd now line).1.role = .REPLICA := by
        cases hrole' : (p.replica.handleLine fd now line).1.role with
        | PRIMARY => exact absurd hrole' hprimary
        | REPLICA => rfl
      exact ⟨h.primaryStore, hw.store, h.primary, hreplica, haccepted,
        { hlink with replica := hmap.trans hlink.replica }, hwrites⟩
  | released l =>
    rw [hp] at hphase
    obtain ⟨hrole, m, hm, hmap⟩ := hphase
    refine ⟨h.primaryStore, hw.store, h.primary, role_handleLine hrole hline fd now, m, hm, ?_⟩
    show (p.replica.handleLine fd now line).1.map = _
    rw [hw.map, hmap, List.flatMap_append]
    exact (Keyed.run_append _ _ _ _).symm

theorem ShardPairInv.sync (h : ShardPairInv p) (hapart : p.phase = .apart) (hmay : p.MaySync fd) :
    ShardPairInv (p.sync fd) := by
  obtain ⟨hempty, hfit, hfd, hsent⟩ := hmay
  have hphase := h.phase
  rw [hapart] at hphase
  have hw := wrote_handleSyncConnection h.primaryStore hfd
  refine ⟨hw.store, ⟨h.replicaStore.capacity, h.replicaStore.words⟩, h.primary, rfl, hphase.2,
    linkInv_sync (r := { p.replica with role := .REPLICA }) h.primaryStore hfit hempty hfd hsent,
    fun line hl => ?_⟩
  -- The dump is lines of `SET`.
  replace hl : line ∈ dumpLines p.primary.db.store.entries := by
    have hdump := p.primary.handleSyncConnection_sent fd
    rw [hsent, List.nil_append] at hdump
    rw [← hdump]
    exact hl
  obtain ⟨k, v, hp⟩ := (parse_dumpLine_iff h.primaryStore.words).mpr hfit line hl
  rw [isWriteLine, hp]
  rfl

theorem ShardPairInv.deliver (h : ShardPairInv p) {l : Link} (hlinked : p.phase = .linked l)
    (hline : (p.primary.sent l.fd)[l.taken]? = some line) (now : Now) :
    ShardPairInv (p.deliver l now (stripCr line)) := by
  have hphase := h.phase
  rw [hlinked] at hphase
  obtain ⟨hrole, haccepted, hlink, hwrites⟩ := hphase
  have hmem := List.mem_of_getElem? hline
  have hwrite := isWriteLine_stripCr (hwrites line hmem)
  have hmap : (p.replica.apply now (stripCr line)).map =
      applyAll p.replica.map (lineEffects line) := by
    rw [← lineEffects_stripCr (hlink.parsed line hmem)]
    exact (Server.apply_store _ now _).2 h.replicaStore.capacity
  exact ⟨h.primaryStore, (wrote_apply h.replicaStore now _).store, h.primary,
    (role_apply hwrite now).trans hrole, haccepted, hlink.deliver hline hmap, hwrites⟩

end

/-! ## The topology -/

/-- Only the shard that is checked can fail over, and only if its replica has answered `+OK`. -/
theorem failsOver_of_checkShard {maxMissedPings : Int} {t : ShardTopology} {a : CheckAction}
    {id : Bytes} (hf : t.alreadyFailedOver id = false)
    (hf' : (checkShard maxMissedPings t a).1.alreadyFailedOver id = true) :
    id = a.shardId ∧ (checkShard maxMissedPings t a).2.reply = some Reply.ok := by
  obtain ⟨-, -, -, -, -, -, hok⟩ := failedOver_by_check hf hf'
  refine ⟨?_, hok⟩
  by_contra hne
  have hother := (checkShard_spec maxMissedPings t a).2.1 id hne
  rw [ShardTopology.alreadyFailedOver, hother] at hf'
  rw [ShardTopology.alreadyFailedOver] at hf
  rw [hf] at hf'
  cases hf'

/-! ## Whole runs -/

/-- What a step of the deployment is. -/
theorem deployment_step {maxMissedPings : Int} {s s' : Deployment} {a : DeploymentAction}
    {o : Option Server.Response} (hs : (deploymentMachine maxMissedPings).step s a = some (s', o)) :
    match a with
    | .line id .PRIMARY fd now line => fd ∉ (s.pair id).primary.replicaFds ∧
        s' = s.setPair id ((s.pair id).primaryLine fd now line.1)
    | .line id .REPLICA fd now line => fd ∉ (s.pair id).replica.replicaFds ∧
        s' = s.setPair id ((s.pair id).replicaLine fd now line.1)
    | .sync id fd => (s.pair id).phase = .apart ∧ (s.pair id).MaySync fd ∧
        s.topology.alreadyFailedOver id = false ∧ s' = s.setPair id ((s.pair id).sync fd)
    | .deliver id now => ∃ l line, (s.pair id).phase = .linked l ∧
        ((s.pair id).primary.sent l.fd)[l.taken]? = some line ∧
        s' = s.setPair id ((s.pair id).deliver l now (stripCr line))
    | .check a => s' = { s with topology := (checkShard maxMissedPings s.topology a).1 } ∧
        ((checkShard maxMissedPings s.topology a).2.reply = some Reply.ok →
          (s.pair a.shardId).replica.role = .PRIMARY) := by
  cases a with
  | line id role fd now line =>
    simp only [deploymentMachine] at hs
    split at hs
    · cases hs
    · rename_i hfd
      cases role <;> cases hs <;> exact ⟨hfd, rfl⟩
  | sync id fd =>
    simp only [deploymentMachine] at hs
    split at hs
    · rename_i hphase
      split at hs
      · rename_i hmay
        cases hs
        exact ⟨hphase, hmay.1, hmay.2, rfl⟩
      · cases hs
    · cases hs
    · cases hs
  | deliver id now =>
    simp only [deploymentMachine] at hs
    split at hs
    · rename_i l hphase
      obtain ⟨line, hline, heq⟩ := Option.map_eq_some_iff.mp hs
      cases heq
      exact ⟨l, line, hphase, hline, rfl⟩
    · cases hs
    · cases hs
  | check a =>
    simp only [deploymentMachine] at hs
    split at hs
    · cases hs
    · rename_i hnot
      cases hs
      refine ⟨rfl, fun hok => ?_⟩
      cases hrole : (s.pair a.shardId).replica.role with
      | PRIMARY => rfl
      | REPLICA => exact absurd ⟨hok, hrole⟩ hnot

structure DeploymentInv (s : Deployment) : Prop where
  pairs : ∀ id, ShardPairInv (s.pair id)
  latch : ∀ shard ∈ s.topology, shard.Latch
  failed : ∀ id, s.topology.alreadyFailedOver id = true → (s.pair id).replica.role = .PRIMARY

/-- The lines are not `REPLICAOF host port`. -/
def DeploymentAction.Detached : DeploymentAction → Prop
  | .line _ _ _ _ text => attaches text.1 = false
  | .sync _ _ | .deliver _ _ | .check _ => True

instance : ∀ a, Decidable (DeploymentAction.Detached a)
  | .line _ _ _ _ text => inferInstanceAs (Decidable (attaches text.1 = false))
  | .sync _ _ | .deliver _ _ | .check _ => inferInstanceAs (Decidable True)

/-- The nodes of one shard take a step. -/
theorem DeploymentInv.setPair {s : Deployment} (h : DeploymentInv s) {id : Bytes} {p : ShardPair}
    (hp : ShardPairInv p)
    (hfailed : s.topology.alreadyFailedOver id = true → p.replica.role = .PRIMARY) :
    DeploymentInv (s.setPair id p) := by
  refine ⟨fun id' => ?_, h.latch, fun id' hf => ?_⟩
  · show ShardPairInv (Function.update s.pair id p id')
    rw [Function.update_apply]
    split
    · exact hp
    · exact h.pairs id'
  · show (Function.update s.pair id p id').replica.role = .PRIMARY
    by_cases hid : id' = id
    · subst hid
      rw [Function.update_self]
      exact hfailed hf
    · rw [Function.update_of_ne hid]
      exact h.failed id' hf

theorem replicaLine_replica (p : ShardPair) (fd : Nat) (now : Now) (line : Bytes) :
    (p.replicaLine fd now line).replica = (p.replica.handleLine fd now line).1 := by
  unfold ShardPair.replicaLine
  dsimp only
  split <;> rfl

theorem deploymentInv_step {maxMissedPings : Int} {s s' : Deployment} {a : DeploymentAction}
    {o : Option Server.Response} (h : DeploymentInv s) (ha : a.Detached)
    (hs : (deploymentMachine maxMissedPings).step s a = some (s', o)) : DeploymentInv s' := by
  have hstep := deployment_step hs
  cases a with
  | line id role fd now line =>
    cases role with
    | PRIMARY =>
      obtain ⟨hfd, rfl⟩ := hstep
      exact h.setPair ((h.pairs id).primaryLine hfd ha now) (h.failed id)
    | REPLICA =>
      obtain ⟨hfd, rfl⟩ := hstep
      refine h.setPair ((h.pairs id).replicaLine hfd ha now) fun hf => ?_
      rw [replicaLine_replica]
      exact role_handleLine (h.failed id hf) ha fd now
  | sync id fd =>
    obtain ⟨hapart, hmay, hnot, rfl⟩ := hstep
    refine h.setPair ((h.pairs id).sync hapart hmay) fun hf => ?_
    rw [hnot] at hf
    cases hf
  | deliver id now =>
    obtain ⟨l, line, hlinked, hline, rfl⟩ := hstep
    refine h.setPair ((h.pairs id).deliver hlinked hline now) fun hf => ?_
    -- A linked replica is not the active node.
    have hphase := (h.pairs id).phase
    rw [hlinked] at hphase
    have hrole := h.failed id hf
    rw [hphase.1] at hrole
    cases hrole
  | check a =>
    obtain ⟨rfl, hok⟩ := hstep
    obtain ⟨acts, outs, hrun⟩ := checkShard_run maxMissedPings s.topology a
    refine ⟨h.pairs, forall_of_run (fun s s' hnext hs => hnext.latch hs) hrun h.latch,
      fun id hf => ?_⟩
    cases hbefore : s.topology.alreadyFailedOver id with
    | true => exact h.failed id hbefore
    | false =>
      obtain ⟨rfl, hreply⟩ := failsOver_of_checkShard hbefore hf
      exact hok hreply

theorem deploymentInv_start (config : Config) (files : Bytes → PairFiles) :
    DeploymentInv (.start config files) where
  pairs id := shardPairInv_start (files id)
  latch := parseShards_latch config
  failed _ _ := rfl

/-- **Failover.** However lines, deliveries and checks follow each other, the active node of each
shard is a primary, and a shard that has failed over is cut off from its old primary. If the link
was stopped when the replica had its dump and `j` lines more, then the replica has the map of the
old primary after its `j`-th write since the `SYNC`, with the writes on top that it has accepted
itself: what is lost is a last part of the writes of the old primary, and nothing of it comes
later. -/
theorem failover_keeps_prefix (maxMissedPings : Int) (config : Config) (files : Bytes → PairFiles)
    {acts : List DeploymentAction} (hacts : ∀ a ∈ acts, a.Detached) {s : Deployment}
    {outs : List (Option Server.Response)}
    (hrun : (deploymentMachine maxMissedPings).run (.start config files) acts = some (s, outs))
    {id : Bytes} {shard : Shard} (hshard : s.topology.findShard id = some shard) :
    shard.activeAddress =
        (if shard.failedOver then shard.replica.address else shard.primary.address) ∧
      (s.active shard).role = .PRIMARY ∧
      (shard.failedOver = true → ∀ l, (s.pair id).phase ≠ .linked l) ∧
      ∀ l j, (s.pair id).phase = .released l → l.taken = l.dumped + j →
        ∃ m, (s.pair id).writes[j]? = some m ∧
          (s.pair id).replica.map = applyAll m ((s.pair id).accepted.flatMap lineEffects) := by
  have h : DeploymentInv s :=
    Machine.run_invariant (C := fun _ a => a.Detached)
      (fun _ _ _ _ h ha hs => deploymentInv_step h ha hs) (Machine.along_of_forall hacts _) hrun
      (deploymentInv_start config files)
  have hid : shard.id = id := by simpa using List.find?_some hshard
  have hfailed : shard.failedOver = true → (s.pair id).replica.role = .PRIMARY := fun hf =>
    h.failed id (by rw [ShardTopology.alreadyFailedOver, hshard]; exact hf)
  have hphase := (h.pairs id).phase
  refine ⟨(h.latch shard (List.mem_of_find?_eq_some hshard)).active, ?_, fun hf l hl => ?_,
    fun l j hl hj => ?_⟩
  · rw [Deployment.active, hid]
    split
    · rename_i hf
      exact hfailed hf
    · exact (h.pairs id).primary
  · rw [hl] at hphase
    have hrole := hfailed hf
    rw [hphase.1] at hrole
    cases hrole
  · rw [hl] at hphase
    obtain ⟨-, m, hm, hmap⟩ := hphase
    exact ⟨m, hm j hj, hmap⟩

/-- The last write of the primary is on its way when the replica is promoted, and is lost. -/
def lostWrite : List DeploymentAction :=
  let line (role : NodeRole) (text : String) : DeploymentAction :=
    .line (ascii "s1") role 3 .epoch (.ofText text)
  [line .PRIMARY "SET k 1", .sync (ascii "s1") 7, .deliver (ascii "s1") .epoch,
    line .PRIMARY "INCR k", line .PRIMARY "SET k lost", .deliver (ascii "s1") .epoch,
    .check deadPrimary, line .REPLICA "SET k refused", line .REPLICA "REPLICAOF NO ONE",
    .check deadPrimary, line .REPLICA "INCR k"]

theorem failover_keeps_prefix_lostWrite :
    ∃ s outs shard m, (deploymentMachine 2).run
        (.start replicatedConfig fun _ => ⟨true, fun _ => .epoch, .empty, .empty⟩) lostWrite =
          some (s, outs) ∧
      s.topology.findShard (ascii "s1") = some shard ∧ shard.failedOver = true ∧
      (s.active shard).role = .PRIMARY ∧
      (s.pair (ascii "s1")).writes[1]? = some m ∧
      (s.pair (ascii "s1")).replica.map =
        applyAll m ((s.pair (ascii "s1")).accepted.flatMap lineEffects) ∧
      (s.pair (ascii "s1")).replica.map (ascii "k") = some (ascii "3") := by
  have hend : ((deploymentMachine 2).run
      (.start replicatedConfig fun _ => ⟨true, fun _ => .epoch, .empty, .empty⟩) lostWrite).any
      (fun x => (x.1.topology.findShard (ascii "s1")).any Shard.failedOver &&
        (x.1.pair (ascii "s1")).phase = .released ⟨7, 1, 2⟩ &&
        (x.1.pair (ascii "s1")).replica.map (ascii "k") = some (ascii "3")) = true := by
    decide +kernel
  obtain ⟨⟨s, outs⟩, hrun, hfacts⟩ := (Option.any_eq_true _ _).mp hend
  simp only [Bool.and_eq_true, decide_eq_true_eq] at hfacts
  obtain ⟨⟨hany, hphase⟩, hk⟩ := hfacts
  obtain ⟨shard, hshard, hfailed⟩ := (Option.any_eq_true _ _).mp hany
  obtain ⟨-, hrole, -, hdata⟩ :=
    failover_keeps_prefix 2 replicatedConfig _ (by decide +kernel) hrun hshard
  obtain ⟨m, hm, hmap⟩ := hdata _ 1 hphase rfl
  exact ⟨s, outs, shard, m, hrun, hshard, hfailed, hrole, hm, hmap, hk⟩

end TinyKV

import TinyKV.Sharding.Failover

/-!
# `HealthChecker`: pings and the decision to fail over

`src/sharding/health_checker.cpp`. `checkShard` pings the primary and the replica of a shard and
promotes the replica if the primary is down and the replica is up. What the network does is an
argument (`Exchange`): whether a fresh connection is made, whether the line is sent, and what comes
back. `checkShard` gives the new topology and a report of what it did.

* `History`: the outcomes of the pings of a node, from the reports of a run.
* `Tracks`: the health of a node says how many of its last pings failed (`tracks_step`).
* `failover_gating`: a shard fails over only after enough missed pings, to a replica that is up and
  that has answered `REPLICAOF NO ONE` with `+OK`.
-/

namespace TinyKV

open Cpp

/-- One request on a fresh connection, as the network lets it happen. -/
structure Exchange where
  connects : Bool
  sends : Bool
  /-- What `receiveLine` gives; `none` if it fails. -/
  response : Option Bytes

/-- The line is written to a connection. -/
def Exchange.reached (e : Exchange) (address : Bytes) : Bool :=
  (splitAddress address).isSome && e.connects

/-- The line that comes back. -/
def Exchange.reply (e : Exchange) (address : Bytes) : Option Bytes :=
  if e.reached address && e.sends then e.response else none

def pingNode (address : Bytes) (e : Exchange) : Bool := e.reply address = some Reply.ok

/-- One call of `checkShard`: the shard, and what the network does. -/
structure CheckAction where
  shardId : Bytes
  primary : Exchange
  replica : Exchange
  promotion : Exchange

/-- What `checkShard` did. -/
structure CheckReport where
  shardId : Bytes
  primaryUp : Bool
  /-- `none` if the shard has no replica. -/
  replicaUp : Option Bool := none
  /-- The replica is to be promoted. -/
  attempted : Bool := false
  /-- The address that `REPLICAOF NO ONE` was written to. -/
  sentTo : Option Bytes := none
  /-- The reply to it. -/
  reply : Option Bytes := none

def checkShard (maxMissedPings : Int) (t : ShardTopology) (a : CheckAction) :
    ShardTopology × CheckReport :=
  let primaryUp := pingNode (t.primaryAddress a.shardId) a.primary
  let t := t.recordPingResult a.shardId .PRIMARY primaryUp maxMissedPings
  let afterPrimary := t.healthOf a.shardId .PRIMARY
  if !t.hasReplica a.shardId then (t, { shardId := a.shardId, primaryUp := primaryUp })
  else
    let replicaAddr := t.replicaAddress a.shardId
    let replicaUp := pingNode replicaAddr a.replica
    let t := t.recordPingResult a.shardId .REPLICA replicaUp maxMissedPings
    let afterReplica := t.healthOf a.shardId .REPLICA
    let report : CheckReport :=
      { shardId := a.shardId, primaryUp := primaryUp, replicaUp := some replicaUp }
    if afterPrimary ≠ .DOWN then (t, report)
    else if afterReplica ≠ .UP then (t, report)
    else if t.alreadyFailedOver a.shardId then (t, report)
    else
      let reply := a.promotion.reply replicaAddr
      let report :=
        { report with
          attempted := true
          sentTo := if a.promotion.reached replicaAddr then some replicaAddr else none
          reply := reply }
      if reply = some Reply.ok then ((t.promoteReplica a.shardId).1, report) else (t, report)

/-- The checker as a machine: calls one after the other. -/
def healthMachine (maxMissedPings : Int) : Machine ShardTopology CheckAction CheckReport where
  step t a := some (checkShard maxMissedPings t a)

/-- The ping of a node that a report has. -/
def CheckReport.ping (r : CheckReport) (shardId : Bytes) (role : NodeRole) : Option Bool :=
  if r.shardId = shardId then
    match role with
    | .PRIMARY => some r.primaryUp
    | .REPLICA => r.replicaUp
  else none

/-- The pings of a node in a run, the first one first. -/
def pings (outs : List CheckReport) (shardId : Bytes) (role : NodeRole) : List Bool :=
  outs.filterMap fun r => r.ping shardId role

/-- How many of the last pings failed, one after the other. -/
def trailingMisses (ps : List Bool) : Nat := (ps.reverse.takeWhile fun p => !p).length

/-! ## One call -/

theorem findShard_recordPingResult (t : ShardTopology) (id : Bytes) (role : NodeRole)
    (success : Bool) (maxMissedPings : Int) (x : Bytes) :
    (t.recordPingResult id role success maxMissedPings).findShard x =
      if x = id then (t.findShard x).map fun s =>
        s.setNode ((s.node role).recordPing success maxMissedPings) role
      else t.findShard x :=
  ShardTopology.findShard_modifyShard (fun s => by cases role <;> rfl) t x

theorem findShard_promoteReplica {t : ShardTopology} {id : Bytes} {s : Shard}
    (hs : t.findShard id = some s) (hr : s.hasReplica = true) (hf : s.failedOver = false)
    (x : Bytes) :
    (t.promoteReplica id).1.findShard x =
      if x = id then some { s with activeAddress := s.replica.address, failedOver := true }
      else t.findShard x := by
  have hno : ¬ (!s.hasReplica || s.failedOver) = true := by simp [hr, hf]
  unfold ShardTopology.promoteReplica
  rw [hs]
  simp only [hno]
  refine (ShardTopology.findShard_modifyShard (by exact fun _ => rfl) t x).trans ?_
  split
  · rename_i hx
    rw [hx, hs]
    rfl
  · rfl

/-- What a call does to the shard that it checks. -/
structure Checked (maxMissedPings : Int) (s s' : Shard) (r : CheckReport) : Prop where
  primary : s'.primary = s.primary.recordPing r.primaryUp maxMissedPings
  replica : s'.replica = match r.replicaUp with
    | none => s.replica
    | some up => s.replica.recordPing up maxMissedPings
  /-- The replica is promoted only from this state. -/
  attempt : r.attempted = true → s'.primary.health = .DOWN ∧ s'.replica.health = .UP ∧
    r.replicaUp.isSome = true ∧ s.failedOver = false
  sentTo : ∀ addr, r.sentTo = some addr → r.attempted = true ∧ addr = s.replica.address
  reply : r.reply = some Reply.ok → r.sentTo = some s.replica.address
  failover : (s'.failedOver = s.failedOver ∧ s'.activeAddress = s.activeAddress ∧
      (r.attempted = true → r.reply ≠ some Reply.ok)) ∨
    (r.attempted = true ∧ r.reply = some Reply.ok ∧ s.failedOver = false ∧ s'.failedOver = true)

theorem sent_of_reply {e : Exchange} {address r : Bytes} (h : e.reply address = some r) :
    e.reached address = true := by
  unfold Exchange.reply at h
  split at h
  · rename_i hc
    exact (Bool.and_eq_true _ _ ▸ hc).1
  · cases h

/-- A call that does not try to promote. -/
theorem Checked.quiet {maxMissedPings : Int} {s : Shard} {id : Bytes} {up : Bool}
    {replicaUp : Option Bool} {replica : ShardNode}
    (hreplica : replica = match replicaUp with
      | none => s.replica
      | some up' => s.replica.recordPing up' maxMissedPings) :
    Checked maxMissedPings s
      { s with primary := s.primary.recordPing up maxMissedPings, replica := replica }
      { shardId := id, primaryUp := up, replicaUp := replicaUp } :=
  ⟨rfl, hreplica, fun h => (by cases h), fun _ h => (by cases h), fun h => (by cases h),
    .inl ⟨rfl, rfl, fun h => (by cases h)⟩⟩

/-- A call that tries to promote: the shard has failed over if the reply was `+OK`. -/
theorem Checked.attempted {maxMissedPings : Int} {s s' : Shard} {id : Bytes} {up up' : Bool}
    {e : Exchange} (hprimary : s'.primary = s.primary.recordPing up maxMissedPings)
    (hreplica : s'.replica = s.replica.recordPing up' maxMissedPings)
    (hdown : s'.primary.health = .DOWN) (hup : s'.replica.health = .UP) (hf : s.failedOver = false)
    (hend : (s'.failedOver = s.failedOver ∧ s'.activeAddress = s.activeAddress ∧
        e.reply s.replica.address ≠ some Reply.ok) ∨
      (e.reply s.replica.address = some Reply.ok ∧ s'.failedOver = true)) :
    Checked maxMissedPings s s'
      { shardId := id, primaryUp := up, replicaUp := some up', attempted := true
        sentTo := if e.reached s.replica.address then some s.replica.address else none
        reply := e.reply s.replica.address } := by
  refine ⟨hprimary, hreplica, fun _ => ⟨hdown, hup, rfl, hf⟩, fun addr h => ⟨rfl, ?_⟩,
    fun h => if_pos (sent_of_reply h), ?_⟩
  · dsimp only at h
    split at h
    · exact (Option.some.inj h).symm
    · cases h
  · obtain ⟨hsame, hactive, hno⟩ | ⟨hok, hfailed⟩ := hend
    · exact .inl ⟨hsame, hactive, fun _ => hno⟩
    · exact .inr ⟨rfl, hok, hf, hfailed⟩

/-- A call leaves the other shards, and does to its own what `Checked` says. -/
theorem checkShard_spec (maxMissedPings : Int) (t : ShardTopology) (a : CheckAction) :
    let r := checkShard maxMissedPings t a
    r.2.shardId = a.shardId ∧ (∀ x, x ≠ a.shardId → r.1.findShard x = t.findShard x) ∧
    ((t.findShard a.shardId = none ∧ r.1.findShard a.shardId = none ∧ r.2.sentTo = none ∧
        r.2.attempted = false) ∨
      ∃ s s', t.findShard a.shardId = some s ∧ r.1.findShard a.shardId = some s' ∧
        Checked maxMissedPings s s' r.2) := by
  intro r
  have hr : r = checkShard maxMissedPings t a := rfl
  unfold checkShard at hr
  dsimp only at hr
  generalize pingNode (t.primaryAddress a.shardId) a.primary = up at hr
  have h₁ := findShard_recordPingResult t a.shardId .PRIMARY up maxMissedPings
  generalize t.recordPingResult a.shardId .PRIMARY up maxMissedPings = t₁ at hr h₁
  have hother₁ : ∀ x, x ≠ a.shardId → t₁.findShard x = t.findShard x := fun x hx => by
    rw [h₁, if_neg hx]
  cases hs : t.findShard a.shardId with
  | none =>
    have hs₁ : t₁.findShard a.shardId = none := by
      rw [h₁, if_pos rfl, hs]
      rfl
    simp only [ShardTopology.hasReplica, hs₁] at hr
    rw [hr]
    exact ⟨rfl, hother₁, .inl ⟨rfl, hs₁, rfl, rfl⟩⟩
  | some s =>
    have hs₁ : t₁.findShard a.shardId =
        some { s with primary := s.primary.recordPing up maxMissedPings } := by
      rw [h₁, if_pos rfl, hs]
      rfl
    simp only [ShardTopology.hasReplica, ShardTopology.replicaAddress, ShardTopology.healthOf,
      hs₁] at hr
    by_cases hrep : s.hasReplica = true
    · -- The replica is pinged too.
      rw [if_neg (by simp [hrep])] at hr
      generalize pingNode s.replica.address a.replica = up' at hr
      have h₂ := findShard_recordPingResult t₁ a.shardId .REPLICA up' maxMissedPings
      generalize t₁.recordPingResult a.shardId .REPLICA up' maxMissedPings = t₂ at hr h₂
      have hs₂ : t₂.findShard a.shardId =
          some { s with
            primary := s.primary.recordPing up maxMissedPings
            replica := s.replica.recordPing up' maxMissedPings } := by
        rw [h₂, if_pos rfl, hs₁]
        rfl
      have hother₂ : ∀ x, x ≠ a.shardId → t₂.findShard x = t.findShard x := fun x hx => by
        rw [h₂, if_neg hx, hother₁ x hx]
      simp only [hs₂, ShardTopology.alreadyFailedOver] at hr
      -- The three guards of a promotion.
      split at hr
      · rw [hr]
        exact ⟨rfl, hother₂, .inr ⟨s, _, rfl, hs₂, .quiet rfl⟩⟩
      split at hr
      · rw [hr]
        exact ⟨rfl, hother₂, .inr ⟨s, _, rfl, hs₂, .quiet rfl⟩⟩
      split at hr
      · rw [hr]
        exact ⟨rfl, hother₂, .inr ⟨s, _, rfl, hs₂, .quiet rfl⟩⟩
      rename_i hdown hup hnot
      have hdown := not_not.mp hdown
      have hup := not_not.mp hup
      have hf : s.failedOver = false := by simpa using hnot
      split at hr
      · rename_i hok
        rw [hr]
        have h₃ := findShard_promoteReplica hs₂ hrep hf
        refine ⟨rfl, fun x hx => ?_, .inr ⟨s, _, rfl, (h₃ _).trans (if_pos rfl),
          .attempted rfl rfl hdown hup hf (.inr ⟨hok, rfl⟩)⟩⟩
        exact (h₃ x).trans ((if_neg hx).trans (hother₂ x hx))
      · rename_i hno
        rw [hr]
        exact ⟨rfl, hother₂, .inr ⟨s, _, rfl, hs₂,
          .attempted rfl rfl hdown hup hf (.inl ⟨rfl, rfl, hno⟩)⟩⟩
    · rw [if_pos (by simpa using hrep)] at hr
      rw [hr]
      exact ⟨rfl, hother₁, .inr ⟨s, _, rfl, hs₁, .quiet rfl⟩⟩

/-! ## Counting pings -/

theorem trailingMisses_concat (ps : List Bool) (p : Bool) :
    trailingMisses (ps ++ [p]) = if p then 0 else trailingMisses ps + 1 := by
  cases p <;> simp [trailingMisses]

theorem exists_replicate_of_le {ps : List Bool} {n : Nat} (h : n ≤ trailingMisses ps) :
    ∃ front, ps = front ++ List.replicate n false := by
  induction ps using List.reverseRecOn generalizing n with
  | nil =>
    obtain rfl : n = 0 := Nat.le_zero.mp h
    exact ⟨[], rfl⟩
  | append_singleton ps p ih =>
    rw [trailingMisses_concat] at h
    cases n with
    | zero => exact ⟨ps ++ [p], by simp⟩
    | succ n =>
      cases p with
      | true => simp at h
      | false =>
        obtain ⟨front, rfl⟩ := ih (Nat.le_of_succ_le_succ h)
        exact ⟨front, by rw [List.append_assoc, List.replicate_succ']⟩

/-- The counter and the health of a node, after the pings `ps`. -/
structure ShardNode.Tracks (maxMissedPings : Int) (ps : List Bool) (node : ShardNode) : Prop where
  misses : node.consecutiveMisses = trailingMisses ps
  health : node.health = .DOWN ↔ maxMissedPings ≤ trailingMisses ps

theorem tracks_recordPing {maxMissedPings : Int} (hmax : 1 ≤ maxMissedPings) {ps : List Bool}
    {node : ShardNode} (h : node.Tracks maxMissedPings ps) (up : Bool) :
    (node.recordPing up maxMissedPings).Tracks maxMissedPings (ps ++ [up]) := by
  unfold ShardNode.recordPing
  cases up with
  | true =>
    refine ⟨by rw [trailingMisses_concat]; rfl, ?_⟩
    rw [trailingMisses_concat]
    simp
    omega
  | false =>
    have hm := h.misses
    have hh := h.health
    simp only [Bool.false_eq_true, if_false]
    split
    · rename_i hge
      refine ⟨by rw [trailingMisses_concat, ← hm]; rfl, ?_⟩
      rw [trailingMisses_concat, ← hm]
      simpa using hge
    · rename_i hlt
      refine ⟨by rw [trailingMisses_concat, ← hm]; rfl, ?_⟩
      rw [trailingMisses_concat, ← hm]
      rw [← hm] at hh
      constructor
      · intro hd
        have := hh.mp hd
        simp at hlt ⊢
        omega
      · intro hge
        exact absurd (by simpa using hge) hlt

/-! ## What a call may do to a shard -/

/-- `checkShard` is some calls of the topology. -/
theorem checkShard_run (maxMissedPings : Int) (t : ShardTopology) (a : CheckAction) :
    ∃ acts outs, topologyMachine.run t acts = some ((checkShard maxMissedPings t a).1, outs) := by
  let ping (role : NodeRole) (success : Bool) : TopologyAction :=
    .ping a.shardId role success maxMissedPings
  unfold checkShard
  dsimp only
  split
  · exact ⟨[ping .PRIMARY _], _, rfl⟩
  split
  · exact ⟨[ping .PRIMARY _, ping .REPLICA _], _, rfl⟩
  split
  · exact ⟨[ping .PRIMARY _, ping .REPLICA _], _, rfl⟩
  split
  · exact ⟨[ping .PRIMARY _, ping .REPLICA _], _, rfl⟩
  split
  · exact ⟨[ping .PRIMARY _, ping .REPLICA _, .promote a.shardId], _, rfl⟩
  · exact ⟨[ping .PRIMARY _, ping .REPLICA _], _, rfl⟩

/-- A shard that fails over is the one that is checked, and its replica has answered. -/
theorem failedOver_by_check {maxMissedPings : Int} {t : ShardTopology} {a : CheckAction} {id : Bytes}
    (hf : t.alreadyFailedOver id = false)
    (hf' : (checkShard maxMissedPings t a).1.alreadyFailedOver id = true) :
    ∃ s s', t.findShard id = some s ∧ (checkShard maxMissedPings t a).1.findShard id = some s' ∧
      Checked maxMissedPings s s' (checkShard maxMissedPings t a).2 ∧
      (checkShard maxMissedPings t a).2.attempted = true ∧
      (checkShard maxMissedPings t a).2.reply = some Reply.ok := by
  obtain ⟨-, hother, hown⟩ := checkShard_spec maxMissedPings t a
  have hx : id = a.shardId := by
    by_contra hx
    rw [ShardTopology.alreadyFailedOver, hother id hx] at hf'
    rw [ShardTopology.alreadyFailedOver] at hf
    rw [hf] at hf'
    cases hf'
  subst hx
  obtain ⟨-, hnone', -⟩ | ⟨s, s', hs, hs', hc⟩ := hown
  · rw [ShardTopology.alreadyFailedOver, hnone'] at hf'
    cases hf'
  · rw [ShardTopology.alreadyFailedOver, hs] at hf
    rw [ShardTopology.alreadyFailedOver, hs'] at hf'
    change s.failedOver = false at hf
    change s'.failedOver = true at hf'
    obtain ⟨hsame, -⟩ | ⟨hatt, hok, -⟩ := hc.failover
    · rw [hsame, hf] at hf'
      cases hf'
    · exact ⟨s, s', hs, hs', hc, hatt, hok⟩

/-- `REPLICAOF NO ONE` goes to the replica, while the primary is down and has no successor. -/
theorem sentTo_by_check (maxMissedPings : Int) (t : ShardTopology) (a : CheckAction) {addr : Bytes}
    (h : (checkShard maxMissedPings t a).2.sentTo = some addr) :
    addr = t.replicaAddress a.shardId ∧
      (checkShard maxMissedPings t a).1.healthOf a.shardId .PRIMARY = .DOWN ∧
      t.alreadyFailedOver a.shardId = false := by
  obtain ⟨-, -, hown⟩ := checkShard_spec maxMissedPings t a
  obtain ⟨-, -, hsent, -⟩ | ⟨s, s', hs, hs', hc⟩ := hown
  · rw [hsent] at h
    cases h
  · obtain ⟨hatt, rfl⟩ := hc.sentTo addr h
    obtain ⟨hdown, -, -, hf⟩ := hc.attempt hatt
    refine ⟨?_, ?_, ?_⟩
    · rw [ShardTopology.replicaAddress, hs]
    · rw [ShardTopology.healthOf, hs']
      exact hdown
    · rw [ShardTopology.alreadyFailedOver, hs]
      exact hf

/-- Without the `+OK` of a replica the shards stay where they are. -/
theorem same_of_no_reply (maxMissedPings : Int) (t : ShardTopology) (a : CheckAction)
    (h : (checkShard maxMissedPings t a).2.reply ≠ some Reply.ok) (id : Bytes) :
    (checkShard maxMissedPings t a).1.activeAddressFor id = t.activeAddressFor id ∧
      (checkShard maxMissedPings t a).1.alreadyFailedOver id = t.alreadyFailedOver id := by
  obtain ⟨-, hother, hown⟩ := checkShard_spec maxMissedPings t a
  by_cases hx : id = a.shardId
  · subst hx
    obtain ⟨hnone, hnone', -⟩ | ⟨s, s', hs, hs', hc⟩ := hown
    · simp [ShardTopology.activeAddressFor, ShardTopology.alreadyFailedOver, hnone, hnone']
    · obtain ⟨hf, hactive, -⟩ | ⟨-, hok, -⟩ := hc.failover
      · simp [ShardTopology.activeAddressFor, ShardTopology.alreadyFailedOver, hs, hs', hf, hactive]
      · exact absurd hok h
  · simp [ShardTopology.activeAddressFor, ShardTopology.alreadyFailedOver, hother id hx]

/-! ## Whole runs -/

/-- Every node of the topology is tracked by the reports. -/
def TracksAll (maxMissedPings : Int) (t : ShardTopology) (outs : List CheckReport) : Prop :=
  ∀ id s, t.findShard id = some s → ∀ role, (s.node role).Tracks maxMissedPings (pings outs id role)

theorem pings_concat (outs : List CheckReport) (r : CheckReport) (id : Bytes) (role : NodeRole) :
    pings (outs ++ [r]) id role = pings outs id role ++ (r.ping id role).toList := by
  unfold pings
  rw [List.filterMap_append]
  cases h : r.ping id role <;> simp [h]

theorem tracksAll_step {maxMissedPings : Int} (hmax : 1 ≤ maxMissedPings) {t : ShardTopology}
    {outs : List CheckReport} (h : TracksAll maxMissedPings t outs) (a : CheckAction) :
    TracksAll maxMissedPings (checkShard maxMissedPings t a).1
      (outs ++ [(checkShard maxMissedPings t a).2]) := by
  obtain ⟨hid, hother, hown⟩ := checkShard_spec maxMissedPings t a
  intro id s' hs' role
  rw [pings_concat]
  by_cases hx : id = a.shardId
  · subst hx
    obtain ⟨-, hnone, -⟩ | ⟨s, s₁, hs, hs₁, hc⟩ := hown
    · rw [hnone] at hs'
      cases hs'
    · rw [hs'] at hs₁
      cases hs₁
      have hold := h _ s hs role
      cases role with
      | PRIMARY =>
        have hping : (checkShard maxMissedPings t a).2.ping a.shardId .PRIMARY =
            some (checkShard maxMissedPings t a).2.primaryUp := by
          simp only [CheckReport.ping, if_pos hid]
        rw [hping, Option.toList_some, Shard.node, hc.primary]
        exact tracks_recordPing hmax hold _
      | REPLICA =>
        have hping : (checkShard maxMissedPings t a).2.ping a.shardId .REPLICA =
            (checkShard maxMissedPings t a).2.replicaUp := by
          simp only [CheckReport.ping, if_pos hid]
        rw [hping, Shard.node, hc.replica]
        cases (checkShard maxMissedPings t a).2.replicaUp with
        | none =>
          rw [Option.toList_none, List.append_nil]
          exact hold
        | some up => exact tracks_recordPing hmax hold up
  · have hne : (checkShard maxMissedPings t a).2.shardId ≠ id := fun he => hx (he.symm.trans hid)
    have hping : (checkShard maxMissedPings t a).2.ping id role = none := by
      simp only [CheckReport.ping, if_neg hne]
    rw [hping, Option.toList_none, List.append_nil]
    exact h id s' (hother id hx ▸ hs') role

theorem tracksAll_run {maxMissedPings : Int} (hmax : 1 ≤ maxMissedPings) {t₀ t : ShardTopology}
    (hfresh : ∀ s ∈ t₀, ∀ role, (s.node role).health = .UP ∧ (s.node role).consecutiveMisses = 0)
    {acts : List CheckAction} {outs : List CheckReport}
    (hrun : (healthMachine maxMissedPings).run t₀ acts = some (t, outs)) :
    TracksAll maxMissedPings t outs := by
  refine Machine.run_history (I := fun t _ outs => TracksAll maxMissedPings t outs)
    (fun t _ outs a t' o _ h _ hs => ?_) (Machine.along_true _ _) hrun ?_
  · have he : checkShard maxMissedPings t a = (t', o) := Option.some.inj hs
    have hnext := tracksAll_step hmax h a
    rw [he] at hnext
    exact hnext
  · intro id s hs role
    obtain ⟨hup, hzero⟩ := hfresh s (List.mem_of_find?_eq_some hs) role
    refine ⟨hzero, ?_⟩
    rw [hup]
    simp [pings, trailingMisses]
    omega

/-- **Failover gating.** In a run of checks from nodes that were not pinged yet:

* a shard fails over in a call only if its last `maxMissedPings` pings of the primary failed, fewer
  than `maxMissedPings` last pings of the replica failed, and the replica answered
  `REPLICAOF NO ONE` of this call with `+OK`;
* `REPLICAOF NO ONE` goes to the shard's replica only while the primary is down and the shard has
  not failed over;
* a call without that `+OK` changes no active address and no `failedOver`. -/
theorem failover_gating {maxMissedPings : Int} (hmax : 1 ≤ maxMissedPings) {t₀ t : ShardTopology}
    (hfresh : ∀ s ∈ t₀, ∀ role, (s.node role).health = .UP ∧ (s.node role).consecutiveMisses = 0)
    (acts : List CheckAction) {outs : List CheckReport}
    (hrun : (healthMachine maxMissedPings).run t₀ acts = some (t, outs)) (a : CheckAction)
    {t' : ShardTopology} {r : CheckReport}
    (hstep : (healthMachine maxMissedPings).step t a = some (t', r)) :
    (∀ id, t.alreadyFailedOver id = false → t'.alreadyFailedOver id = true →
      (∃ front, pings (outs ++ [r]) id .PRIMARY =
        front ++ List.replicate maxMissedPings.toNat false) ∧
      r.replicaUp.isSome = true ∧
      (trailingMisses (pings (outs ++ [r]) id .REPLICA) : Int) < maxMissedPings ∧
      r.sentTo = some (t.replicaAddress id) ∧ r.reply = some Reply.ok) ∧
    (∀ addr, r.sentTo = some addr → addr = t.replicaAddress a.shardId ∧
      t'.healthOf a.shardId .PRIMARY = .DOWN ∧ t.alreadyFailedOver a.shardId = false) ∧
    (r.reply ≠ some Reply.ok → ∀ id, t'.activeAddressFor id = t.activeAddressFor id ∧
      t'.alreadyFailedOver id = t.alreadyFailedOver id) := by
  have he : checkShard maxMissedPings t a = (t', r) := Option.some.inj hstep
  have htracks := tracksAll_step hmax (tracksAll_run hmax hfresh hrun) a
  refine ⟨fun id hf hf' => ?_, fun addr haddr => ?_, fun hno id => ?_⟩
  · obtain ⟨s, s', hs, hs', hc, hatt, hok⟩ := failedOver_by_check hf (by rw [he]; exact hf')
    rw [he] at htracks hs' hc hatt hok
    dsimp only at htracks hs' hc hatt hok
    obtain ⟨hdown, hup, hsome, -⟩ := hc.attempt hatt
    refine ⟨exists_replicate_of_le ?_, hsome, ?_, ?_, hok⟩
    · have := (htracks _ s' hs' .PRIMARY).health.mp hdown
      omega
    · by_contra hge
      have := (htracks _ s' hs' .REPLICA).health.mpr (by omega)
      rw [show (s'.node .REPLICA).health = .UP from hup] at this
      cases this
    · rw [hc.reply hok, ShardTopology.replicaAddress, hs]
  · have hsent := sentTo_by_check maxMissedPings t a (by rw [he]; exact haddr)
    rw [he] at hsent
    exact hsent
  · have hsame := same_of_no_reply maxMissedPings t a (by rw [he]; exact hno) id
    rw [he] at hsame
    exact hsame

/-- Two calls in which the primary does not answer, and the replica answers everything. -/
def deadPrimary : CheckAction where
  shardId := ascii "s1"
  primary := ⟨false, false, none⟩
  replica := ⟨true, true, some Reply.ok⟩
  promotion := ⟨true, true, some Reply.ok⟩

theorem failover_gating_deadPrimary :
    ∃ t outs t' r,
      (healthMachine 2).run (parseShards replicatedConfig) [deadPrimary] = some (t, outs) ∧
      (healthMachine 2).step t deadPrimary = some (t', r) ∧
      t.alreadyFailedOver (ascii "s1") = false ∧ t'.alreadyFailedOver (ascii "s1") = true ∧
      (∃ front, pings (outs ++ [r]) (ascii "s1") .PRIMARY = front ++ [false, false]) ∧
      r.sentTo = some (ascii "127.0.0.1:7002") := by
  have hfresh : ∀ s ∈ parseShards replicatedConfig, ∀ role,
      (s.node role).health = .UP ∧ (s.node role).consecutiveMisses = 0 := by
    intro s hs role
    obtain ⟨id, -, rfl⟩ := List.mem_map.mp hs
    cases role <;> exact ⟨rfl, rfl⟩
  refine ⟨_, _, _, _, rfl, rfl, by decide +kernel, by decide +kernel, ?_, by decide +kernel⟩
  obtain ⟨hgate, -⟩ := failover_gating (show (1 : Int) ≤ 2 by decide) hfresh [deadPrimary] rfl
    deadPrimary rfl
  exact (hgate (ascii "s1") (by decide +kernel) (by decide +kernel)).1

end TinyKV

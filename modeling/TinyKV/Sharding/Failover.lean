import TinyKV.Sharding.Router

/-!
# Failover as a latch

Two calls change a topology: `recordPingResult`, which counts missed pings, and `promoteReplica`,
which makes the replica of a shard the active node. `topologyMachine` makes them in any order and
with any arguments.

* `Shard.Next`: what one call does to one shard (`apply_next`); `Shard.Later`: what a run does.
* `Shard.Latch`: the active address follows `failedOver`.
* `failover_latch`: a shard fails over once, to its replica, and never back.
* `route_eq_active_node`: `ROUTE` names the one node that `NODES` shows as active.
-/

namespace TinyKV

open Cpp

/-- A call that changes the topology. -/
inductive TopologyAction where
  | ping (shardId : Bytes) (role : NodeRole) (success : Bool) (maxMissedPings : Int)
  | promote (shardId : Bytes)

def TopologyAction.apply (t : ShardTopology) : TopologyAction → ShardTopology
  | .ping shardId role success maxMissedPings => t.recordPingResult shardId role success maxMissedPings
  | .promote shardId => (t.promoteReplica shardId).1

/-- The topology under any calls. -/
def topologyMachine : Machine ShardTopology TopologyAction Unit where
  step t a := some (a.apply t, ())

/-! ## One call -/

/-- The parts of a shard that the configuration gives. -/
structure Shard.SameLayout (s s' : Shard) : Prop where
  id : s'.id = s.id
  primary : s'.primary.address = s.primary.address
  replica : s'.replica.address = s.replica.address
  hasReplica : s'.hasReplica = s.hasReplica

/-- What one call does to a shard: its active node stays, or it fails over to its replica. -/
structure Shard.Next (s s' : Shard) : Prop where
  layout : s.SameLayout s'
  active : (s'.failedOver = s.failedOver ∧ s'.activeAddress = s.activeAddress) ∨
    (s.failedOver = false ∧ s.hasReplica = true ∧ s'.failedOver = true ∧
      s'.activeAddress = s.replica.address)

theorem Shard.SameLayout.rfl {s : Shard} : s.SameLayout s := ⟨.refl _, .refl _, .refl _, .refl _⟩

theorem Shard.SameLayout.trans {s₁ s₂ s₃ : Shard} (h : s₁.SameLayout s₂) (h' : s₂.SameLayout s₃) :
    s₁.SameLayout s₃ :=
  ⟨h'.id.trans h.id, h'.primary.trans h.primary, h'.replica.trans h.replica,
    h'.hasReplica.trans h.hasReplica⟩

theorem Shard.Next.rfl {s : Shard} : s.Next s := ⟨.rfl, .inl ⟨.refl _, .refl _⟩⟩

theorem recordPing_address (node : ShardNode) (success : Bool) (maxMissedPings : Int) :
    (node.recordPing success maxMissedPings).address = node.address := by
  unfold ShardNode.recordPing
  split
  · rfl
  · dsimp only
    split <;> rfl

theorem next_setNode (s : Shard) (role : NodeRole) {node : ShardNode}
    (h : node.address = (s.node role).address) : s.Next (s.setNode node role) := by
  cases role
  · exact ⟨⟨rfl, h, rfl, rfl⟩, .inl ⟨rfl, rfl⟩⟩
  · exact ⟨⟨rfl, rfl, h, rfl⟩, .inl ⟨rfl, rfl⟩⟩

theorem apply_next (t : ShardTopology) (a : TopologyAction) :
    List.Forall₂ Shard.Next t (a.apply t) := by
  cases a with
  | ping shardId role success maxMissedPings =>
    exact ShardTopology.forall₂_modifyShard (fun _ => .rfl) fun s _ =>
      next_setNode s role (recordPing_address _ _ _)
  | promote shardId =>
    show List.Forall₂ Shard.Next t (t.promoteReplica shardId).1
    unfold ShardTopology.promoteReplica
    split
    · exact List.forall₂_same.mpr fun _ _ => .rfl
    · rename_i shard hfind
      split
      · exact List.forall₂_same.mpr fun _ _ => .rfl
      · rename_i hno
        rw [Bool.or_eq_true, not_or, Bool.not_eq_true', Bool.not_eq_false, Bool.not_eq_true] at hno
        refine ShardTopology.forall₂_modifyShard (fun _ => .rfl) fun s hs => ?_
        rw [hfind] at hs
        cases hs
        exact ⟨⟨rfl, rfl, rfl, rfl⟩, .inr ⟨hno.2, hno.1, rfl, rfl⟩⟩

/-! ## Runs -/

/-- The active address follows `failedOver`, and only a shard with a replica fails over. -/
structure Shard.Latch (s : Shard) : Prop where
  active : s.activeAddress = if s.failedOver then s.replica.address else s.primary.address
  hasReplica : s.failedOver = true → s.hasReplica = true

/-- What a run does to a shard. -/
structure Shard.Later (s s' : Shard) : Prop where
  layout : s.SameLayout s'
  latched : s.failedOver = true → s'.failedOver = true ∧ s'.activeAddress = s.activeAddress

theorem Shard.Later.rfl {s : Shard} : s.Later s := ⟨.rfl, fun h => ⟨h, .refl _⟩⟩

theorem Shard.Next.latch {s s' : Shard} (h : s.Next s') (hs : s.Latch) : s'.Latch := by
  have hl := h.layout
  obtain ⟨hf, ha⟩ | ⟨-, hr, hf, ha⟩ := h.active
  · refine ⟨?_, fun h' => ?_⟩
    · rw [ha, hf, hl.primary, hl.replica]
      exact hs.active
    · rw [hl.hasReplica]
      exact hs.hasReplica (hf ▸ h')
  · refine ⟨?_, fun _ => hl.hasReplica.trans hr⟩
    rw [ha, hf, hl.replica]
    rfl

theorem Shard.Later.next {s₁ s₂ s₃ : Shard} (h : s₁.Later s₂) (h' : s₂.Next s₃) :
    s₁.Later s₃ := by
  refine ⟨h.layout.trans h'.layout, fun hf => ?_⟩
  obtain ⟨hf₂, ha₂⟩ := h.latched hf
  obtain ⟨hf₃, ha₃⟩ | ⟨hno, -⟩ := h'.active
  · exact ⟨hf₃.trans hf₂, ha₃.trans ha₂⟩
  · rw [hf₂] at hno
    cases hno

/-- A shard after a call was there before it. -/
theorem exists_next {t t' : ShardTopology} (h : List.Forall₂ Shard.Next t t') {s' : Shard}
    (hs : s' ∈ t') : ∃ s ∈ t, s.Next s' := by
  induction h with
  | nil => cases hs
  | cons hnext _ ih =>
    obtain rfl | hs := List.mem_cons.mp hs
    · exact ⟨_, List.mem_cons_self, hnext⟩
    · obtain ⟨s, hm, hn⟩ := ih hs
      exact ⟨s, List.mem_cons_of_mem _ hm, hn⟩

theorem later_next {t₁ t₂ t₃ : ShardTopology} (h : List.Forall₂ Shard.Later t₁ t₂)
    (h' : List.Forall₂ Shard.Next t₂ t₃) : List.Forall₂ Shard.Later t₁ t₃ := by
  induction h generalizing t₃ with
  | nil =>
    cases h'
    exact .nil
  | cons hlater _ ih =>
    cases h' with
    | cons hnext hrest => exact .cons (hlater.next hnext) (ih hrest)

/-- What holds of a shard and is kept by every call holds of it after a run. -/
theorem forall_of_run {P : Shard → Prop} (hP : ∀ s s', s.Next s' → P s → P s')
    {t t' : ShardTopology} {acts : List TopologyAction} {outs : List Unit}
    (hrun : topologyMachine.run t acts = some (t', outs)) (h : ∀ s ∈ t, P s) : ∀ s ∈ t', P s := by
  refine Machine.run_invariant (C := fun _ _ => True) (I := fun t => ∀ s ∈ t, P s)
    (fun t a t' o hI _ hs => ?_) (Machine.along_true _ _) hrun h
  cases hs
  intro s' hs'
  obtain ⟨s, hs, hnext⟩ := exists_next (apply_next t a) hs'
  exact hP s s' hnext (hI s hs)

/-- A shard of the start, at every point of a run. -/
theorem later_of_run {t t' : ShardTopology} {acts : List TopologyAction} {outs : List Unit}
    (hrun : topologyMachine.run t acts = some (t', outs)) : List.Forall₂ Shard.Later t t' := by
  refine Machine.run_invariant (C := fun _ _ => True) (I := fun u => List.Forall₂ Shard.Later t u)
    (fun u a u' o hI _ hs => ?_) (Machine.along_true _ _) hrun
    (List.forall₂_same.mpr fun _ _ => .rfl)
  cases hs
  exact later_next hI (apply_next u a)

/-! ## The latch -/

/-- How often the active address of the shard at place `i` changes in a run. -/
def activeChanges (i : Nat) : ShardTopology → List TopologyAction → Nat
  | _, [] => 0
  | t, a :: acts =>
    (if (t[i]?).map Shard.activeAddress = ((a.apply t)[i]?).map Shard.activeAddress then 0 else 1) +
      activeChanges i (a.apply t) acts

/-- The two topologies around a call, at one place. -/
theorem next_getElem? (t : ShardTopology) (a : TopologyAction) (i : Nat) :
    (t[i]? = none ∧ (a.apply t)[i]? = none) ∨
      ∃ s s', t[i]? = some s ∧ (a.apply t)[i]? = some s' ∧ s.Next s' := by
  have h := apply_next t a
  by_cases hi : i < t.length
  · have hi' : i < (a.apply t).length := h.length_eq ▸ hi
    refine .inr ⟨t[i], (a.apply t)[i], List.getElem?_eq_getElem hi, List.getElem?_eq_getElem hi', ?_⟩
    simpa using h.get hi hi'
  · have hi' : ¬ i < (a.apply t).length := h.length_eq ▸ hi
    exact .inl ⟨List.getElem?_eq_none (by omega), List.getElem?_eq_none (by omega)⟩

/-- A shard that has failed over stays at its address. -/
theorem activeChanges_of_failedOver {i : Nat} {t : ShardTopology} {s : Shard} (h : t[i]? = some s)
    (hf : s.failedOver = true) (acts : List TopologyAction) : activeChanges i t acts = 0 := by
  induction acts generalizing t s with
  | nil => rfl
  | cons a acts ih =>
    obtain ⟨hn, -⟩ | ⟨s₁, s', h₁, h', hnext⟩ := next_getElem? t a i
    · rw [h] at hn
      cases hn
    · rw [h] at h₁
      cases h₁
      obtain ⟨hf', ha'⟩ | ⟨hno, -⟩ := hnext.active
      · rw [activeChanges, h, h', Option.map_some, Option.map_some, ha', if_pos rfl,
          ih h' (hf'.trans hf)]
      · rw [hf] at hno
        cases hno

theorem activeChanges_le_one (i : Nat) (t : ShardTopology) (acts : List TopologyAction) :
    activeChanges i t acts ≤ 1 := by
  induction acts generalizing t with
  | nil => exact Nat.zero_le _
  | cons a acts ih =>
    have hrest := ih (a.apply t)
    obtain ⟨hn, hn'⟩ | ⟨s, s', h, h', hnext⟩ := next_getElem? t a i
    · rw [activeChanges, hn, hn', if_pos rfl, Nat.zero_add]
      exact hrest
    · obtain ⟨-, ha'⟩ | ⟨-, -, hf', -⟩ := hnext.active
      · rw [activeChanges, h, h', Option.map_some, Option.map_some, ha', if_pos rfl, Nat.zero_add]
        exact hrest
      · rw [activeChanges, activeChanges_of_failedOver h' hf' acts]
        split <;> omega

theorem parseShards_latch (config : Config) : ∀ s ∈ parseShards config, s.Latch := by
  intro s hs
  obtain ⟨id, -, rfl⟩ := List.mem_map.mp hs
  exact ⟨rfl, fun h => by cases h⟩

/-- **One-way failover.** In every state that any calls lead to from a parsed topology, the active
address of each shard is that of its replica if it has failed over and of its primary if not, a
shard that has failed over has a replica, and the ids, addresses and replicas are those of the
configuration. No later call changes a shard that has failed over, so its active address changes
at most once. -/
theorem failover_latch (config : Config) (acts : List TopologyAction) {t : ShardTopology}
    {outs : List Unit} (hrun : topologyMachine.run (parseShards config) acts = some (t, outs)) :
    (∀ s ∈ t, s.Latch) ∧ List.Forall₂ Shard.SameLayout (parseShards config) t ∧
    (∀ more t' outs', topologyMachine.run t more = some (t', outs') →
      List.Forall₂ (fun s s' => s.failedOver = true →
        s'.failedOver = true ∧ s'.activeAddress = s.activeAddress) t t') ∧
    ∀ i, activeChanges i (parseShards config) acts ≤ 1 := by
  refine ⟨?_, ?_, fun more t' outs' hmore => ?_, fun i => activeChanges_le_one i _ acts⟩
  · exact forall_of_run (fun s s' hnext hs => hnext.latch hs) hrun (parseShards_latch config)
  · exact (later_of_run hrun).imp fun s s' h => h.layout
  · exact (later_of_run hmore).imp fun s s' h => h.latched

/-- One shard with a replica. -/
def replicatedConfig : Config := fun key =>
  if key = ascii "shards" then some (ascii "s1")
  else if key = ascii "s1.primary" then some (ascii "127.0.0.1:7001")
  else if key = ascii "s1.replica" then some (ascii "127.0.0.1:7002")
  else none

/-- The primary is lost, the replica promoted, and the primary comes back. -/
def lostAndBack : List TopologyAction :=
  [.ping (ascii "s1") .PRIMARY false 1, .promote (ascii "s1"), .ping (ascii "s1") .PRIMARY true 1,
    .promote (ascii "s1")]

theorem failover_latch_lostAndBack :
    ∃ t outs, topologyMachine.run (parseShards replicatedConfig) lostAndBack = some (t, outs) ∧
      t.activeAddressFor (ascii "s1") = ascii "127.0.0.1:7002" ∧ (∀ s ∈ t, s.Latch) ∧
      activeChanges 0 (parseShards replicatedConfig) lostAndBack ≤ 1 := by
  refine ⟨_, _, rfl, by decide +kernel, ?_⟩
  obtain ⟨hlatch, -, -, hchanges⟩ := failover_latch replicatedConfig lostAndBack rfl
  exact ⟨hlatch, hchanges 0⟩

/-! ## `ROUTE` and `NODES` -/

/-- A shard before any call. -/
structure Shard.Initial (s : Shard) : Prop where
  failedOver : s.failedOver = false
  active : s.activeAddress = s.primary.address
  replica : s.hasReplica = true → s.replica.address ≠ []

/-- The addresses of a shard name its nodes: they are not empty, and the two are different. -/
structure Shard.Addressed (s : Shard) : Prop where
  primary : s.primary.address ≠ []
  replica : s.hasReplica = true → s.replica.address ≠ [] ∧ s.replica.address ≠ s.primary.address

theorem parseShards_initial (config : Config) : ∀ s ∈ parseShards config, s.Initial := by
  intro s hs
  obtain ⟨id, -, rfl⟩ := List.mem_map.mp hs
  exact ⟨rfl, rfl, fun h => by simpa [parseShard] using h⟩

theorem Shard.Initial.latch {s : Shard} (h : s.Initial) : s.Latch :=
  ⟨by rw [h.failedOver]; exact h.active, fun hf => by rw [h.failedOver] at hf; cases hf⟩

theorem Shard.Next.addressed {s s' : Shard} (h : s.Next s') (hs : s.Addressed) : s'.Addressed := by
  have hl := h.layout
  refine ⟨?_, fun hr => ?_⟩
  · rw [hl.primary]
    exact hs.primary
  · rw [hl.replica, hl.primary]
    exact hs.replica (hl.hasReplica ▸ hr)

/-- The entries of a shard in `snapshot`. -/
def Shard.snapshots (s : Shard) : List ShardTopology.NodeSnapshot := ShardTopology.snapshot [s]

/-- The entries of a shard that are shown as active. -/
def ShardTopology.activeNodes (t : ShardTopology) (shardId : Bytes) :
    List ShardTopology.NodeSnapshot :=
  t.snapshot.filter fun node => node.shardId = shardId && node.active

theorem snapshot_cons (s : Shard) (t : ShardTopology) :
    ShardTopology.snapshot (s :: t) = s.snapshots ++ t.snapshot := by
  simp [Shard.snapshots, ShardTopology.snapshot]

theorem shardId_of_mem_snapshots {s : Shard} {node : ShardTopology.NodeSnapshot}
    (h : node ∈ s.snapshots) : node.shardId = s.id := by
  unfold Shard.snapshots ShardTopology.snapshot at h
  rw [List.flatMap_singleton] at h
  obtain rfl | h := List.mem_cons.mp h
  · rfl
  · split at h
    · obtain rfl := List.mem_singleton.mp h
      rfl
    · cases h

theorem activeNodes_of_not_mem {t : ShardTopology} {id : Bytes} (h : id ∉ t.shardIds) :
    t.activeNodes id = [] := by
  refine List.filter_eq_nil_iff.mpr fun node hm hc => h ?_
  obtain ⟨s, hs, hm⟩ : ∃ s ∈ t, node ∈ s.snapshots := by
    obtain ⟨s, hs, hm⟩ := List.mem_flatMap.mp hm
    exact ⟨s, hs, by simpa [Shard.snapshots, ShardTopology.snapshot] using hm⟩
  rw [Bool.and_eq_true, decide_eq_true_eq, shardId_of_mem_snapshots hm] at hc
  exact List.mem_map.mpr ⟨s, hs, hc.1⟩

/-- A shard shows one node as active, the one at its active address. -/
theorem active_snapshots {s : Shard} (hl : s.Latch) (ha : s.Addressed) :
    ∃ node, (s.snapshots.filter fun node => node.active) = [node] ∧
      node.address = s.activeAddress := by
  have hact := hl.active
  cases hf : s.failedOver with
  | true =>
    have hr := hl.hasReplica hf
    have hne := (ha.replica hr).2
    rw [hf, if_pos rfl] at hact
    refine ⟨⟨s.id, .REPLICA, s.replica.address, s.replica.health, true⟩, ?_, hact.symm⟩
    simp [Shard.snapshots, ShardTopology.snapshot, hr, hact, hne]
  | false =>
    rw [hf, if_neg (by simp)] at hact
    refine ⟨⟨s.id, .PRIMARY, s.primary.address, s.primary.health, true⟩, ?_, hact.symm⟩
    cases hr : s.hasReplica with
    | true =>
      have hne := (ha.replica hr).2
      simp [Shard.snapshots, ShardTopology.snapshot, hr, hact, Ne.symm hne]
    | false => simp [Shard.snapshots, ShardTopology.snapshot, hr, hact]

/-- With distinct ids, the active entries under an id are those of its shard. -/
theorem activeNodes_eq {t : ShardTopology} (hid : t.shardIds.Nodup) {id : Bytes} {s : Shard}
    (hs : t.findShard id = some s) :
    t.activeNodes id = s.snapshots.filter fun node => node.active := by
  induction t with
  | nil => cases hs
  | cons x t ih =>
    rw [ShardTopology.shardIds, List.map_cons, List.nodup_cons] at hid
    rw [ShardTopology.activeNodes, snapshot_cons, List.filter_append]
    change _ ++ ShardTopology.activeNodes t id = _
    by_cases hx : x.id = id
    · rw [ShardTopology.findShard, List.find?_cons_of_pos (by simpa using hx)] at hs
      cases hs
      subst hx
      rw [activeNodes_of_not_mem hid.1, List.append_nil]
      refine List.filter_congr fun node hm => ?_
      rw [shardId_of_mem_snapshots hm, decide_eq_true rfl, Bool.true_and]
    · rw [ShardTopology.findShard, List.find?_cons_of_neg (by simpa using hx)] at hs
      rw [ih hid.2 hs, List.filter_eq_nil_iff.mpr, List.nil_append]
      intro node hm hc
      rw [Bool.and_eq_true, decide_eq_true_eq, shardId_of_mem_snapshots hm] at hc
      exact hx hc.1

theorem shardIds_of_later {t t' : ShardTopology} (h : List.Forall₂ Shard.Later t t') :
    t'.shardIds = t.shardIds := by
  unfold ShardTopology.shardIds
  induction h with
  | nil => rfl
  | cons hlater _ ih => rw [List.map_cons, List.map_cons, hlater.layout.id, ih]

theorem findShard_of_later {t t' : ShardTopology} (h : List.Forall₂ Shard.Later t t') {id : Bytes}
    {s' : Shard} (hs : t'.findShard id = some s') : ∃ s, t.findShard id = some s ∧ s.Later s' := by
  induction h with
  | nil => cases hs
  | @cons x x' u u' hlater _ ih =>
    by_cases hx : x.id = id
    · rw [ShardTopology.findShard,
        List.find?_cons_of_pos (by simpa [hlater.layout.id] using hx)] at hs
      cases hs
      exact ⟨x, List.find?_cons_of_pos (by simpa using hx), hlater⟩
    · rw [ShardTopology.findShard,
        List.find?_cons_of_neg (by simpa [hlater.layout.id] using hx)] at hs
      obtain ⟨s, hs, hl⟩ := ih hs
      exact ⟨s, (List.find?_cons_of_neg (by simpa using hx)).trans hs, hl⟩

/-- Under an id of the topology one node is shown as active, at the address that serves it. -/
theorem activeNodes_of_mem {t : ShardTopology} (hid : t.shardIds.Nodup)
    (ht : ∀ s ∈ t, s.Latch ∧ s.Addressed) {id : Bytes} (hm : id ∈ t.shardIds) :
    ∃ node, t.activeNodes id = [node] ∧ t.activeAddressFor id = node.address ∧
      node.address ≠ [] := by
  obtain ⟨s, hs, hfind⟩ : ∃ s ∈ t, t.findShard id = some s := by
    obtain ⟨shard, hmem, rfl⟩ := List.mem_map.mp hm
    have hsome : (t.findShard shard.id).isSome = true :=
      List.find?_isSome.mpr ⟨shard, hmem, decide_eq_true rfl⟩
    obtain ⟨s, hs⟩ := Option.isSome_iff_exists.mp hsome
    exact ⟨s, List.mem_of_find?_eq_some hs, hs⟩
  obtain ⟨hlatch, haddr⟩ := ht s hs
  obtain ⟨node, hnode, haddress⟩ := active_snapshots hlatch haddr
  refine ⟨node, (activeNodes_eq hid hfind).trans hnode, ?_, ?_⟩
  · rw [ShardTopology.activeAddressFor, hfind]
    exact haddress.symm
  · rw [haddress, hlatch.active]
    split
    · rename_i hf
      exact (haddr.replica (hlatch.hasReplica hf)).1
    · exact haddr.primary

/-- **`ROUTE` and `NODES` agree.** In every state that any calls lead to, `snapshot` shows exactly
one node of each shard as active, and for every key `ROUTE` names the active node of its shard. -/
theorem route_eq_active_node {t₀ : ShardTopology} (hne : t₀ ≠ []) (hid : t₀.shardIds.Nodup)
    (hinit : ∀ s ∈ t₀, s.Initial) (hprimary : ∀ s ∈ t₀, s.primary.address ≠ [])
    (hreplica : ∀ s ∈ t₀, s.hasReplica = true → s.replica.address ≠ s.primary.address)
    (servers : Bytes → Option Server) (n : Nat) (acts : List TopologyAction) {t : ShardTopology}
    {outs : List Unit} (hrun : topologyMachine.run t₀ acts = some (t, outs)) :
    (∀ id ∈ t₀.shardIds, ∃ node, t.activeNodes id = [node]) ∧
    ∀ key name, ∃ node,
      t.activeNodes ((Cluster.start t₀ servers n).ring.getNode key) = [node] ∧
      { Cluster.start t₀ servers n with topology := t }.addressForKey key = node.address ∧
      { Cluster.start t₀ servers n with topology := t }.answer ⟨.ROUTE, name, [key]⟩ =
        Reply.bulk node.address ∧
      node.address ≠ [] := by
  have hall : ∀ s ∈ t, s.Latch ∧ s.Addressed := by
    refine forall_of_run (P := fun s => s.Latch ∧ s.Addressed)
      (fun s s' h hs => ⟨h.latch hs.1, h.addressed hs.2⟩) hrun fun s hs => ?_
    exact ⟨(hinit s hs).latch, hprimary s hs,
      fun hr => ⟨(hinit s hs).replica hr, hreplica s hs hr⟩⟩
  have hids := shardIds_of_later (later_of_run hrun)
  have hnodup : t.shardIds.Nodup := by rw [hids]; exact hid
  refine ⟨fun id hm => ?_, fun key name => ?_⟩
  · obtain ⟨node, hnode, -⟩ := activeNodes_of_mem hnodup hall (hids.symm ▸ hm)
    exact ⟨node, hnode⟩
  · -- The ring names a shard of the topology.
    have hm : (Cluster.start t₀ servers n).ring.getNode key ∈ t₀.shardIds :=
      ConsistentHashRing.getNode_foldl_addNode (fun he => hne (List.map_eq_nil_iff.mp he)) key
    obtain ⟨node, hnode, haddress, hnonempty⟩ :=
      activeNodes_of_mem hnodup hall (hids.symm ▸ hm)
    exact ⟨node, hnode, haddress, congrArg Reply.bulk haddress, hnonempty⟩

theorem route_eq_active_node_lostAndBack :
    ∃ t outs, topologyMachine.run (parseShards replicatedConfig) lostAndBack = some (t, outs) ∧
      (∃ node, t.activeNodes (ascii "s1") = [node]) ∧
      { Cluster.start (parseShards replicatedConfig) (fun _ => none) 0 with
        topology := t }.addressForKey (ascii "k") ≠ [] := by
  refine ⟨_, _, rfl, ?_⟩
  obtain ⟨hone, hroute⟩ := route_eq_active_node
    (show parseShards replicatedConfig ≠ [] by decide +kernel) (by decide +kernel)
    (parseShards_initial _) (by decide +kernel) (by decide +kernel) (fun _ => none) 0 lostAndBack rfl
  obtain ⟨node, -, haddress, -, hnonempty⟩ := hroute (ascii "k") (ascii "ROUTE")
  exact ⟨hone (ascii "s1") (by decide +kernel), haddress.symm ▸ hnonempty⟩

end TinyKV

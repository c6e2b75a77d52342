import TinyKV.Sharding.HealthChecker

/-!
# The health of a node and the history of its pings

`src/sharding/shard_topology.cpp`. `consecutiveMisses` is an `int`. In a long outage it leaves the
type; the register then goes on modulo 2^32, and the test `consecutiveMisses >= maxMissedPings` can
fail again. The health stays: it is changed to `UP` only by a success.

* `recordPing32`, `recordPingResult32`: the functions with the counter as a 32-bit register.
* `ShardNode.wrap`: a node with an unbounded counter as the program has it.
  `recordPing32_wrap`, `recordPings32_wrap`: the registers follow the unbounded counters.
* `checkShard32`: `checkShard` on registers. A run of checks on registers is the run on unbounded
  counters, with the same reports (`healthMachine32_run`).
* `tracks_recordPings`: what the counter and the health say of the pings of a node.
* `health_reflects_pings`: a node is down exactly if its last `maxMissedPings` pings failed.
-/

namespace TinyKV

open Cpp

/-! ## The register -/

/-- The `int` in a 32-bit register. -/
def asInt32 (register : Nat) : Int := (register : Int).bmod (2 ^ 32)

/-- Below 2^31 the register holds the number itself. -/
theorem asInt32_of_lt {n : Nat} (h : n < 2 ^ 31) : asInt32 (n % 2 ^ 32) = n := by
  have hmod : n % 2 ^ 32 = n := Nat.mod_eq_of_lt (by omega)
  have hlo : -((2 ^ 32 : Nat) / 2 : Int) ≤ n := by
    have : -((2 ^ 32 : Nat) / 2 : Int) ≤ 0 := by decide
    omega
  have hhi : (n : Int) < ((2 ^ 32 : Nat) + 1) / 2 := by
    have : (((2 ^ 32 : Nat) + 1) / 2 : Int) = 2 ^ 31 := by decide
    rw [this]
    exact_mod_cast h
  simp only [hmod]
  exact Int.bmod_eq_of_le hlo hhi

/-- `ShardNode.recordPing` where `consecutiveMisses` is a 32-bit register. -/
def ShardNode.recordPing32 (node : ShardNode) (success : Bool) (maxMissedPings : Int) : ShardNode :=
  if success then { node with consecutiveMisses := 0, health := .UP }
  else
    let node := { node with consecutiveMisses := (node.consecutiveMisses + 1) % 2 ^ 32 }
    if asInt32 node.consecutiveMisses ≥ maxMissedPings then { node with health := .DOWN } else node

namespace ShardTopology

def recordPingResult32 (t : ShardTopology) (shardId : Bytes) (role : NodeRole) (success : Bool)
    (maxMissedPings : Int) : ShardTopology :=
  modifyShard shardId
    (fun shard => shard.setNode ((shard.node role).recordPing32 success maxMissedPings) role) t

end ShardTopology

/-- A call of `recordPingResult`. -/
structure PingCall where
  shardId : Bytes
  role : NodeRole
  success : Bool

/-- The calls one after the other, with an unbounded counter. -/
def recordPings (maxMissedPings : Int) (t : ShardTopology) (calls : List PingCall) :
    ShardTopology :=
  calls.foldl (fun t c => t.recordPingResult c.shardId c.role c.success maxMissedPings) t

/-- The calls one after the other, with 32-bit registers. -/
def recordPings32 (maxMissedPings : Int) (t : ShardTopology) (calls : List PingCall) :
    ShardTopology :=
  calls.foldl (fun t c => t.recordPingResult32 c.shardId c.role c.success maxMissedPings) t

/-- The recorded pings of a node, the first one first. -/
def pingsOf (calls : List PingCall) (shardId : Bytes) (role : NodeRole) : List Bool :=
  calls.filterMap fun c => if c.shardId = shardId ∧ c.role = role then some c.success else none

/-! ## Unbounded counters -/

/-- The last `n` pings failed exactly if so many trailing misses are counted. -/
theorem le_trailingMisses_iff {ps : List Bool} {n : Nat} :
    n ≤ trailingMisses ps ↔ ∃ front, ps = front ++ List.replicate n false := by
  refine ⟨exists_replicate_of_le, ?_⟩
  rintro ⟨front, rfl⟩
  induction n with
  | zero => exact Nat.zero_le _
  | succ n ih =>
    rw [List.replicate_succ', ← List.append_assoc, trailingMisses_concat]
    simpa using ih

theorem pingsOf_concat (calls : List PingCall) (c : PingCall) (id : Bytes) (role : NodeRole) :
    pingsOf (calls ++ [c]) id role =
      if c.shardId = id ∧ c.role = role then pingsOf calls id role ++ [c.success]
      else pingsOf calls id role := by
  unfold pingsOf
  rw [List.filterMap_append]
  split <;> rename_i hc <;> simp [hc]

theorem Shard.node_setNode (s : Shard) (n : ShardNode) (role role' : NodeRole) :
    (s.setNode n role).node role' = if role = role' then n else s.node role' := by
  cases role <;> cases role' <;> rfl

/-- The topology was not pinged yet. -/
def Unpinged (t : ShardTopology) : Prop :=
  ∀ s ∈ t, ∀ role, (s.node role).health = .UP ∧ (s.node role).consecutiveMisses = 0

/-- The counter and the health of every node after the calls. -/
theorem tracks_recordPings {m : Int} (hm : 1 ≤ m) {t : ShardTopology} (h : Unpinged t)
    (calls : List PingCall) {id : Bytes} {s : Shard}
    (hs : (recordPings m t calls).findShard id = some s) (role : NodeRole) :
    (s.node role).Tracks m (pingsOf calls id role) := by
  induction calls using List.reverseRecOn generalizing s with
  | nil =>
    obtain ⟨hup, hzero⟩ := h s (List.mem_of_find?_eq_some hs) role
    refine ⟨hzero, ?_⟩
    rw [hup]
    simp only [reduceCtorEq, false_iff, not_le, pingsOf, List.filterMap_nil]
    exact_mod_cast hm
  | append_singleton calls c ih =>
    rw [recordPings, List.foldl_append, List.foldl_cons, List.foldl_nil,
      findShard_recordPingResult] at hs
    rw [pingsOf_concat]
    split at hs
    · rename_i hid
      subst hid
      obtain ⟨s₀, hs₀, rfl⟩ := Option.map_eq_some_iff.mp hs
      rw [Shard.node_setNode]
      by_cases hrole : c.role = role
      · subst hrole
        rw [if_pos rfl, if_pos ⟨rfl, rfl⟩]
        exact tracks_recordPing hm (ih hs₀) c.success
      · rw [if_neg hrole, if_neg fun hc => hrole hc.2]
        exact ih hs₀
    · rename_i hid
      rw [if_neg fun hc => hid hc.1.symm]
      exact ih hs

/-! ## Registers follow counters -/

/-- A node with an unbounded counter, as the program has it. -/
def ShardNode.wrap (node : ShardNode) : ShardNode :=
  { node with consecutiveMisses := node.consecutiveMisses % 2 ^ 32 }

def Shard.wrap (s : Shard) : Shard :=
  { s with primary := s.primary.wrap, replica := s.replica.wrap }

/-- The health says whether the counter has come to the limit. -/
def ShardNode.Counted (maxMissedPings : Int) (node : ShardNode) : Prop :=
  node.health = .DOWN ↔ maxMissedPings ≤ node.consecutiveMisses

/-- A ping of a register. The test on the register is right when the counter comes to the limit.
From then on the node is down, so that the outcome of the test does not matter. -/
theorem recordPing32_wrap {m : Int} (hm : m ≤ 2 ^ 31 - 1) {node : ShardNode}
    (h : node.Counted m) (success : Bool) :
    node.wrap.recordPing32 success m = (node.recordPing success m).wrap := by
  unfold ShardNode.recordPing32 ShardNode.recordPing ShardNode.wrap
  cases success with
  | true => rfl
  | false =>
    have hmod : (node.consecutiveMisses % 2 ^ 32 + 1) % 2 ^ 32 =
        (node.consecutiveMisses + 1) % 2 ^ 32 := by omega
    simp only [Bool.false_eq_true, if_false, hmod]
    by_cases hdown : node.health = .DOWN
    · have hle : m ≤ node.consecutiveMisses := h.mp hdown
      rw [if_pos (show ((node.consecutiveMisses + 1 : Nat) : Int) ≥ m by omega)]
      split
      · rfl
      · simp [hdown]
    · have hlt : (node.consecutiveMisses : Int) < m := not_le.mp fun hle => hdown (h.mpr hle)
      rw [asInt32_of_lt (n := node.consecutiveMisses + 1) (by omega)]
      split
      · rfl
      · rfl

/-- A shard with counters at zero is as the program has it. -/
theorem Shard.wrap_of_zero {s : Shard} (h : ∀ role, (s.node role).consecutiveMisses = 0) :
    s.wrap = s := by
  have hnode : ∀ n : ShardNode, n.consecutiveMisses = 0 → n.wrap = n := by
    rintro ⟨address, health, misses⟩ rfl
    rfl
  have hprimary : s.primary.wrap = s.primary := hnode _ (h .PRIMARY)
  have hreplica : s.replica.wrap = s.replica := hnode _ (h .REPLICA)
  rw [Shard.wrap, hprimary, hreplica]

theorem Shard.node_wrap (s : Shard) (role : NodeRole) : s.wrap.node role = (s.node role).wrap := by
  cases role <;> rfl

theorem Shard.wrap_setNode (s : Shard) (n : ShardNode) (role : NodeRole) :
    (s.setNode n role).wrap = s.wrap.setNode n.wrap role := by
  cases role <;> rfl

/-- A change of the shard that is found, on registers. -/
theorem modifyShard_map_wrap {id : Bytes} {f g : Shard → Shard} {t : ShardTopology}
    (h : ∀ s, t.findShard id = some s → g s.wrap = (f s).wrap) :
    ShardTopology.modifyShard id g (t.map Shard.wrap) =
      (ShardTopology.modifyShard id f t).map Shard.wrap := by
  induction t with
  | nil => rfl
  | cons s t ih =>
    rw [List.map_cons, ShardTopology.modifyShard, ShardTopology.modifyShard]
    by_cases hid : s.id = id
    · rw [if_pos hid, if_pos (show s.wrap.id = id from hid), List.map_cons,
        h s (List.find?_cons_of_pos (by simpa using hid))]
    · rw [if_neg hid, if_neg (show ¬ s.wrap.id = id from hid), List.map_cons, ih fun s' hs' => ?_]
      refine h s' ?_
      rw [ShardTopology.findShard, List.find?_cons_of_neg (by simpa using hid)]
      exact hs'

/-- A call of `recordPingResult` on registers. -/
theorem recordPingResult32_wrap {m : Int} (hmax : m ≤ 2 ^ 31 - 1) {t : ShardTopology} {id : Bytes}
    {role : NodeRole} (h : ∀ s, t.findShard id = some s → (s.node role).Counted m)
    (success : Bool) :
    ShardTopology.recordPingResult32 (t.map Shard.wrap) id role success m =
      (t.recordPingResult id role success m).map Shard.wrap :=
  modifyShard_map_wrap fun s hs => by
    rw [Shard.wrap_setNode, Shard.node_wrap, recordPing32_wrap hmax (h s hs)]

/-- A topology that was not pinged yet is as the program has it. -/
theorem Unpinged.map_wrap {t : ShardTopology} (h : Unpinged t) : t.map Shard.wrap = t :=
  (List.map_congr_left fun s hs => Shard.wrap_of_zero fun role => (h s hs role).2).trans
    (List.map_id t)

/-- The registers hold the counters modulo 2^32, and the healths are the same, after any calls. -/
theorem recordPings32_wrap {m : Int} (hm : 1 ≤ m) (hmax : m ≤ 2 ^ 31 - 1) {t : ShardTopology}
    (h : Unpinged t) (calls : List PingCall) :
    recordPings32 m t calls = (recordPings m t calls).map Shard.wrap := by
  induction calls using List.reverseRecOn with
  | nil => exact h.map_wrap.symm
  | append_singleton calls c ih =>
    have hcalls : ∀ (f : ShardTopology → PingCall → ShardTopology),
        (calls ++ [c]).foldl f t = f (calls.foldl f t) c := fun f => by
      rw [List.foldl_append, List.foldl_cons, List.foldl_nil]
    rw [recordPings32, recordPings, hcalls, hcalls]
    rw [recordPings32, recordPings] at ih
    rw [ih]
    refine recordPingResult32_wrap hmax (fun s hs => ?_) c.success
    have htracks := tracks_recordPings hm h calls hs c.role
    rw [ShardNode.Counted, htracks.misses]
    exact htracks.health

/-! ## Checks on registers -/

/-- `checkShard` where the counters are 32-bit registers. -/
def checkShard32 (maxMissedPings : Int) (t : ShardTopology) (a : CheckAction) :
    ShardTopology × CheckReport :=
  let primaryUp := pingNode (t.primaryAddress a.shardId) a.primary
  let t := t.recordPingResult32 a.shardId .PRIMARY primaryUp maxMissedPings
  let afterPrimary := t.healthOf a.shardId .PRIMARY
  if !t.hasReplica a.shardId then (t, { shardId := a.shardId, primaryUp := primaryUp })
  else
    let replicaAddr := t.replicaAddress a.shardId
    let replicaUp := pingNode replicaAddr a.replica
    let t := t.recordPingResult32 a.shardId .REPLICA replicaUp maxMissedPings
    let afterReplica := t.healthOf a.shardId .REPLICA
    let report : CheckReport :=
      { shardId := a.shardId, primaryUp := primaryUp, replicaUp := some replicaUp }
    if afterPrimary ≠ .DOWN then (t, report)
    else if afterReplica ≠ .UP then (t, report)
    else if t.alreadyFailedOver a.shardId then (t, report)
    else
      let reply := a.promotion.reply replicaAddr
      let report :=
        { report with
          attempted := true
          sentTo := if a.promotion.reached replicaAddr then some replicaAddr else none
          reply := reply }
      if reply = some Reply.ok then ((t.promoteReplica a.shardId).1, report) else (t, report)

/-- The checker on registers. -/
def healthMachine32 (maxMissedPings : Int) : Machine ShardTopology CheckAction CheckReport where
  step t a := some (checkShard32 maxMissedPings t a)

section

variable (t : ShardTopology) (id : Bytes)

theorem findShard_map_wrap :
    ShardTopology.findShard (t.map Shard.wrap) id = (t.findShard id).map Shard.wrap := by
  rw [ShardTopology.findShard, List.find?_map]
  rfl

@[simp] theorem hasReplica_map_wrap :
    ShardTopology.hasReplica (t.map Shard.wrap) id = t.hasReplica id := by
  rw [ShardTopology.hasReplica, findShard_map_wrap, ShardTopology.hasReplica]
  cases t.findShard id <;> rfl

@[simp] theorem primaryAddress_map_wrap :
    ShardTopology.primaryAddress (t.map Shard.wrap) id = t.primaryAddress id := by
  rw [ShardTopology.primaryAddress, findShard_map_wrap, ShardTopology.primaryAddress]
  cases t.findShard id <;> rfl

@[simp] theorem replicaAddress_map_wrap :
    ShardTopology.replicaAddress (t.map Shard.wrap) id = t.replicaAddress id := by
  rw [ShardTopology.replicaAddress, findShard_map_wrap, ShardTopology.replicaAddress]
  cases t.findShard id <;> rfl

@[simp] theorem alreadyFailedOver_map_wrap :
    ShardTopology.alreadyFailedOver (t.map Shard.wrap) id = t.alreadyFailedOver id := by
  rw [ShardTopology.alreadyFailedOver, findShard_map_wrap, ShardTopology.alreadyFailedOver]
  cases t.findShard id <;> rfl

@[simp] theorem healthOf_map_wrap (role : NodeRole) :
    ShardTopology.healthOf (t.map Shard.wrap) id role = t.healthOf id role := by
  rw [ShardTopology.healthOf, findShard_map_wrap, ShardTopology.healthOf]
  cases t.findShard id with
  | none => rfl
  | some s => exact (congrArg ShardNode.health (s.node_wrap role)).trans rfl

theorem promoteReplica_map_wrap :
    (ShardTopology.promoteReplica (t.map Shard.wrap) id).1 =
      (t.promoteReplica id).1.map Shard.wrap := by
  rw [ShardTopology.promoteReplica, findShard_map_wrap, ShardTopology.promoteReplica]
  cases t.findShard id with
  | none => rfl
  | some s =>
    dsimp only [Option.map_some]
    rw [show (!s.wrap.hasReplica || s.wrap.failedOver) = (!s.hasReplica || s.failedOver) from rfl]
    split
    · rfl
    · exact modifyShard_map_wrap fun _ _ => rfl

end

/-- Every node that is found is counted. -/
def AllCounted (m : Int) (t : ShardTopology) : Prop :=
  ∀ id s, t.findShard id = some s → ∀ role, (s.node role).Counted m

theorem Unpinged.allCounted {m : Int} (hm : 1 ≤ m) {t : ShardTopology} (h : Unpinged t) :
    AllCounted m t := fun id s hs role => by
  obtain ⟨hup, hzero⟩ := h s (List.mem_of_find?_eq_some hs) role
  rw [ShardNode.Counted, hup, hzero]
  simp only [reduceCtorEq, false_iff, not_le]
  exact_mod_cast hm

theorem ShardNode.Counted.recordPing {m : Int} (hm : 1 ≤ m) {node : ShardNode} (h : node.Counted m)
    (success : Bool) : (node.recordPing success m).Counted m := by
  unfold ShardNode.recordPing
  cases success with
  | true =>
    show NodeHealth.UP = .DOWN ↔ m ≤ (0 : Nat)
    simp only [reduceCtorEq, false_iff, not_le]
    exact_mod_cast hm
  | false =>
    simp only [Bool.false_eq_true, if_false]
    split
    · rename_i hge
      exact ⟨fun _ => hge, fun _ => rfl⟩
    · rename_i hlt
      refine ⟨fun hdown => ?_, fun hge => absurd hge hlt⟩
      have hle : m ≤ node.consecutiveMisses := h.mp hdown
      show m ≤ (node.consecutiveMisses + 1 : Nat)
      omega

theorem AllCounted.recordPingResult {m : Int} (hm : 1 ≤ m) {t : ShardTopology} (h : AllCounted m t)
    (id : Bytes) (role : NodeRole) (success : Bool) :
    AllCounted m (t.recordPingResult id role success m) := fun x s' hs' role' => by
  rw [findShard_recordPingResult] at hs'
  split at hs'
  · obtain ⟨s, hs, rfl⟩ := Option.map_eq_some_iff.mp hs'
    rw [Shard.node_setNode]
    split
    · exact (h x s hs role).recordPing hm success
    · exact h x s hs role'
  · exact h x s' hs' role'

theorem AllCounted.promoteReplica {m : Int} {t : ShardTopology} (h : AllCounted m t) (id : Bytes) :
    AllCounted m (t.promoteReplica id).1 := by
  unfold ShardTopology.promoteReplica
  split
  · exact h
  split
  · exact h
  intro x s' hs' role
  rw [ShardTopology.findShard_modifyShard (by exact fun _ => rfl)] at hs'
  split at hs'
  · obtain ⟨s, hs, rfl⟩ := Option.map_eq_some_iff.mp hs'
    cases role with
    | PRIMARY => exact h x s hs .PRIMARY
    | REPLICA => exact h x s hs .REPLICA
  · exact h x s' hs' role

/-- A check on registers is the check on counters, and it reports the same. -/
theorem checkShard32_wrap {m : Int} (hm : 1 ≤ m) (hmax : m ≤ 2 ^ 31 - 1) {t : ShardTopology}
    (h : AllCounted m t) (a : CheckAction) :
    checkShard32 m (t.map Shard.wrap) a =
        ((checkShard m t a).1.map Shard.wrap, (checkShard m t a).2) ∧
      AllCounted m (checkShard m t a).1 := by
  unfold checkShard32 checkShard
  dsimp only
  rw [primaryAddress_map_wrap]
  generalize pingNode (t.primaryAddress a.shardId) a.primary = up
  have h₁ := h.recordPingResult hm a.shardId .PRIMARY up
  rw [recordPingResult32_wrap hmax fun s hs => h _ s hs .PRIMARY]
  generalize t.recordPingResult a.shardId .PRIMARY up m = t₁ at h₁ ⊢
  simp only [hasReplica_map_wrap, replicaAddress_map_wrap, healthOf_map_wrap]
  generalize pingNode (t₁.replicaAddress a.shardId) a.replica = up'
  have h₂ := h₁.recordPingResult hm a.shardId .REPLICA up'
  rw [recordPingResult32_wrap hmax fun s hs => h₁ _ s hs .REPLICA]
  generalize t₁.recordPingResult a.shardId .REPLICA up' m = t₂ at h₂ ⊢
  simp only [healthOf_map_wrap, alreadyFailedOver_map_wrap, promoteReplica_map_wrap]
  split
  · exact ⟨rfl, h₁⟩
  split
  · exact ⟨rfl, h₂⟩
  split
  · exact ⟨rfl, h₂⟩
  split
  · exact ⟨rfl, h₂⟩
  split
  · exact ⟨rfl, h₂.promoteReplica a.shardId⟩
  · exact ⟨rfl, h₂⟩

/-- **Checks on registers.** From nodes that were not pinged yet, the checks with 32-bit registers
are the checks with unbounded counters, with the same reports, however long the run is. -/
theorem healthMachine32_run {m : Int} (hm : 1 ≤ m) (hmax : m ≤ 2 ^ 31 - 1) {t t' : ShardTopology}
    (h : Unpinged t) {acts : List CheckAction} {outs : List CheckReport}
    (hrun : (healthMachine m).run t acts = some (t', outs)) :
    (healthMachine32 m).run t acts = some (t'.map Shard.wrap, outs) := by
  have hstep : ∀ t u a t' o, AllCounted m t ∧ u = t.map Shard.wrap → True →
      (healthMachine m).step t a = some (t', o) →
      ∃ u', (healthMachine32 m).step u a = some (u', o) ∧
        (AllCounted m t' ∧ u' = t'.map Shard.wrap) := by
    rintro t u a t' o ⟨hcounted, rfl⟩ - hs
    obtain ⟨hcheck, hcounted'⟩ := checkShard32_wrap hm hmax hcounted a
    rw [show checkShard m t a = (t', o) from Option.some.inj hs] at hcheck hcounted'
    exact ⟨t'.map Shard.wrap, congrArg some hcheck, hcounted', rfl⟩
  obtain ⟨u, hu, -, rfl⟩ := Machine.run_simulates hstep (Machine.along_true t acts) hrun
    ⟨h.allCounted hm, h.map_wrap.symm⟩
  exact hu

/-! ## What a call changes -/

/-- The shard before and after the call: it differs in the health and the counter of the node that
was pinged. -/
structure SameButNode (c : PingCall) (s s' : Shard) : Prop where
  id : s'.id = s.id
  hasReplica : s'.hasReplica = s.hasReplica
  activeAddress : s'.activeAddress = s.activeAddress
  failedOver : s'.failedOver = s.failedOver
  address : ∀ role, (s'.node role).address = (s.node role).address
  node : ∀ role, ¬ (s.id = c.shardId ∧ role = c.role) → s'.node role = s.node role

theorem recordPing32_address (node : ShardNode) (success : Bool) (m : Int) :
    (node.recordPing32 success m).address = node.address := by
  unfold ShardNode.recordPing32
  simp only [apply_ite ShardNode.address, ite_self]

/-- A new value of one node, at the same address. -/
theorem sameButNode_setNode {c : PingCall} {s : Shard} (hid : s.id = c.shardId) {n : ShardNode}
    (haddr : n.address = (s.node c.role).address) : SameButNode c s (s.setNode n c.role) := by
  obtain ⟨id, role, success⟩ := c
  refine ⟨?_, ?_, ?_, ?_, fun r => ?_, fun r hr => ?_⟩
  all_goals try (cases role <;> rfl)
  · rw [Shard.node_setNode]
    split
    · rename_i hrole
      rw [haddr, hrole]
    · rfl
  · rw [Shard.node_setNode, if_neg fun hrole => hr ⟨hid, hrole.symm⟩]

theorem id_of_findShard {t : ShardTopology} {id : Bytes} {s : Shard} (h : t.findShard id = some s) :
    s.id = id := by
  have hfound := List.find?_some (p := fun s : Shard => s.id = id) h
  simpa using hfound

theorem forall₂_recordPingResult32 (m : Int) (t : ShardTopology) (c : PingCall) :
    List.Forall₂ (SameButNode c) t (t.recordPingResult32 c.shardId c.role c.success m) := by
  refine ShardTopology.forall₂_modifyShard (fun s => ⟨rfl, rfl, rfl, rfl, fun _ => rfl,
    fun _ _ => rfl⟩) fun s hs => sameButNode_setNode ?_ (recordPing32_address _ _ _)
  exact id_of_findShard hs

theorem shardIds_eq_of_forall₂ {c : PingCall} {t t' : ShardTopology}
    (h : List.Forall₂ (SameButNode c) t t') : t'.shardIds = t.shardIds := by
  induction h with
  | nil => rfl
  | cons hs _ ih => exact congrArg₂ List.cons hs.id ih

theorem shardIds_recordPings32 (m : Int) (t : ShardTopology) (calls : List PingCall) :
    (recordPings32 m t calls).shardIds = t.shardIds := by
  induction calls generalizing t with
  | nil => rfl
  | cons c calls ih =>
    exact (ih _).trans (shardIds_eq_of_forall₂ (forall₂_recordPingResult32 m t c))

/-- With distinct ids every shard is found. -/
theorem findShard_of_mem {t : ShardTopology} (h : t.shardIds.Nodup) {s : Shard} (hs : s ∈ t) :
    t.findShard s.id = some s := by
  cases hf : t.findShard s.id with
  | none =>
    have := List.find?_eq_none.mp hf s hs
    simp at this
  | some s' =>
    rw [List.inj_on_of_nodup_map h (List.mem_of_find?_eq_some hf) hs (id_of_findShard hf)]

/-- A success brings the node up. -/
theorem healthOf_success {t : ShardTopology} {id : Bytes} {s : Shard} (hs : t.findShard id = some s)
    (role : NodeRole) (m : Int) :
    (t.recordPingResult32 id role true m).healthOf id role = .UP := by
  have hfind : (t.recordPingResult32 id role true m).findShard id =
      some (s.setNode ((s.node role).recordPing32 true m) role) := by
    refine (ShardTopology.findShard_modifyShard (fun s => by cases role <;> rfl) t id).trans ?_
    rw [if_pos rfl, hs]
    rfl
  rw [ShardTopology.healthOf, hfind]
  dsimp only
  rw [Shard.node_setNode, if_pos rfl]
  rfl

/-! ## Health -/

/-- **Health reflects the ping history**, for outages of any length. After any calls on a topology
with distinct ids that was not pinged before, a node is down exactly if its last `m` pings failed; a
success brings it up; a call changes the pinged node only, and there only health and counter. -/
theorem health_reflects_pings {m : Int} (hm : 1 ≤ m) (hmax : m ≤ 2 ^ 31 - 1)
    (shards : ShardTopology) (hids : shards.shardIds.Nodup) (hfresh : Unpinged shards)
    (calls : List PingCall) :
    let t := recordPings32 m shards calls
    t.shardIds = shards.shardIds ∧
    (∀ s ∈ t, ∀ role, t.healthOf s.id role = (s.node role).health ∧
      ((s.node role).health = .DOWN ↔
        ∃ front, pingsOf calls s.id role = front ++ List.replicate m.toNat false)) ∧
    (∀ s ∈ t, ∀ role, (t.recordPingResult32 s.id role true m).healthOf s.id role = .UP) ∧
    ∀ c, List.Forall₂ (SameButNode c) t (t.recordPingResult32 c.shardId c.role c.success m) := by
  intro t
  have htids : t.shardIds = shards.shardIds := shardIds_recordPings32 m shards calls
  have hfind : ∀ s ∈ t, t.findShard s.id = some s := fun s hs =>
    findShard_of_mem (htids ▸ hids) hs
  refine ⟨htids, fun s hs role => ⟨?_, ?_⟩, fun s hs role => healthOf_success (hfind s hs) role m,
    forall₂_recordPingResult32 m t⟩
  · rw [ShardTopology.healthOf, hfind s hs]
  · -- The same shard with an unbounded counter.
    have hwrap : t = (recordPings m shards calls).map Shard.wrap :=
      recordPings32_wrap hm hmax hfresh calls
    obtain ⟨s₀, hs₀, rfl⟩ := List.mem_map.mp (hwrap ▸ hs)
    have hfind₀ : (recordPings m shards calls).findShard s₀.id = some s₀ := by
      refine findShard_of_mem ?_ hs₀
      have hmap : t.shardIds = (recordPings m shards calls).shardIds := by
        rw [hwrap, ShardTopology.shardIds, List.map_map]
        rfl
      rw [← hmap, htids]
      exact hids
    have hhealth := (tracks_recordPings hm hfresh calls hfind₀ role).health
    rw [← le_trailingMisses_iff, Shard.node_wrap]
    refine hhealth.trans ?_
    show m ≤ _ ↔ m.toNat ≤ trailingMisses (pingsOf calls s₀.id role)
    omega

/-- The primary misses two pings, with an answer of the replica between them. -/
def twoMisses : List PingCall :=
  [⟨ascii "s1", .PRIMARY, false⟩, ⟨ascii "s1", .REPLICA, true⟩, ⟨ascii "s1", .PRIMARY, false⟩]

theorem health_reflects_pings_twoMisses :
    (recordPings32 2 (parseShards replicatedConfig) twoMisses).healthOf (ascii "s1") .PRIMARY =
      .DOWN := by
  have hfresh : Unpinged (parseShards replicatedConfig) := by
    intro s hs role
    obtain ⟨id, -, rfl⟩ := List.mem_map.mp hs
    cases role <;> exact ⟨rfl, rfl⟩
  have hids : (parseShards replicatedConfig).shardIds.Nodup := by decide +kernel
  obtain ⟨hsame, hhealth, -⟩ := health_reflects_pings (show (1 : Int) ≤ 2 by decide)
    (show (2 : Int) ≤ 2 ^ 31 - 1 by omega) (parseShards replicatedConfig) hids hfresh twoMisses
  have hmem : ascii "s1" ∈ (parseShards replicatedConfig).shardIds := by decide +kernel
  rw [← hsame] at hmem
  obtain ⟨s, hs, hid⟩ := List.mem_map.mp hmem
  obtain ⟨hof, hiff⟩ := hhealth s hs .PRIMARY
  rw [hid] at hof hiff
  rw [hof, hiff]
  exact ⟨[], by decide⟩

end TinyKV

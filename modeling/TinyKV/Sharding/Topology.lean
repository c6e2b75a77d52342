import TinyKV.Protocol
import Mathlib.Data.List.Forall2

/-!
# The shards and which node serves each

`src/sharding/shard_topology.cpp`: the shards with their nodes as `parseShards` reads them from the
configuration, the address that is active for a shard, the health of the nodes, the switch to a
replica, and the list of nodes that `NODES` prints.

Every function finds a shard by its id, the first one with that id. A function that changes a shard
changes the one that it finds (`modifyShard`); `forall₂_modifyShard` carries what it does to that
shard over to the whole list.

`consecutiveMisses` is an `int` in the source. It is unbounded here: a node is down before its
counter can leave the type, and stays down until a success resets the counter. The functions with a
32-bit register follow these (`recordPings32_wrap`).
-/

namespace TinyKV

open Cpp

inductive NodeRole where
  | PRIMARY | REPLICA
  deriving DecidableEq, Repr

inductive NodeHealth where
  | UP | DOWN
  deriving DecidableEq, Repr

structure ShardNode where
  address : Bytes
  health : NodeHealth := .UP
  consecutiveMisses : Nat := 0

/-- A shard: its id, its primary, an optional replica and the address that serves it. -/
structure Shard where
  id : Bytes
  primary : ShardNode
  hasReplica : Bool := false
  replica : ShardNode
  activeAddress : Bytes
  failedOver : Bool := false

/-- `ShardTopology::shards_` -/
abbrev ShardTopology : Type := List Shard

/-- `Config::values_` -/
abbrev Config : Type := Bytes → Option Bytes

/-- `Config::getString` -/
def Config.getString (config : Config) (key default : Bytes) : Bytes := (config key).getD default

/-- `splitCsv`: the pieces between commas that are not empty. -/
def splitCsv (csv : Bytes) : List Bytes := Text.words (fun c => c = 44) csv

/-- One shard of the configuration. -/
def parseShard (config : Config) (shardId : Bytes) : Shard :=
  let primaryAddr := config.getString (shardId ++ ascii ".primary") []
  let replicaAddr := config.getString (shardId ++ ascii ".replica") []
  { id := shardId
    primary := { address := primaryAddr }
    hasReplica := !replicaAddr.isEmpty
    replica := { address := replicaAddr }
    activeAddress := primaryAddr }

def parseShards (config : Config) : ShardTopology :=
  (splitCsv (config.getString (ascii "shards") [])).map (parseShard config)

namespace ShardTopology

variable (t : ShardTopology)

def findShard (shardId : Bytes) : Option Shard := t.find? fun s => s.id = shardId

def shardIds : List Bytes := t.map Shard.id

/-- `activeAddressFor`: empty if the shard is unknown. -/
def activeAddressFor (shardId : Bytes) : Bytes :=
  match findShard t shardId with
  | some shard => shard.activeAddress
  | none => []

structure NodeSnapshot where
  shardId : Bytes
  role : NodeRole
  address : Bytes
  health : NodeHealth
  active : Bool

/-- One entry for each node. -/
def snapshot : List NodeSnapshot :=
  t.flatMap fun shard =>
    { shardId := shard.id
      role := .PRIMARY
      address := shard.primary.address
      health := shard.primary.health
      active := shard.activeAddress = shard.primary.address } ::
    if shard.hasReplica then
      [{ shardId := shard.id
         role := .REPLICA
         address := shard.replica.address
         health := shard.replica.health
         active := shard.activeAddress = shard.replica.address }]
    else []

/-! ## Reading and changing one shard -/

def hasReplica (shardId : Bytes) : Bool :=
  match findShard t shardId with
  | some shard => shard.hasReplica
  | none => false

def primaryAddress (shardId : Bytes) : Bytes :=
  match findShard t shardId with
  | some shard => shard.primary.address
  | none => []

def replicaAddress (shardId : Bytes) : Bytes :=
  match findShard t shardId with
  | some shard => shard.replica.address
  | none => []

def alreadyFailedOver (shardId : Bytes) : Bool :=
  match findShard t shardId with
  | some shard => shard.failedOver
  | none => false

end ShardTopology

/-- The node of a role. -/
def Shard.node (shard : Shard) : NodeRole → ShardNode
  | .PRIMARY => shard.primary
  | .REPLICA => shard.replica

def Shard.setNode (shard : Shard) (node : ShardNode) : NodeRole → Shard
  | .PRIMARY => { shard with primary := node }
  | .REPLICA => { shard with replica := node }

/-- A ping of the node. -/
def ShardNode.recordPing (node : ShardNode) (success : Bool) (maxMissedPings : Int) : ShardNode :=
  if success then { node with consecutiveMisses := 0, health := .UP }
  else
    let node := { node with consecutiveMisses := node.consecutiveMisses + 1 }
    if (node.consecutiveMisses : Int) ≥ maxMissedPings then { node with health := .DOWN } else node

namespace ShardTopology

/-- Change the shard that `findShard` finds. -/
def modifyShard (shardId : Bytes) (f : Shard → Shard) : ShardTopology → ShardTopology
  | [] => []
  | shard :: t => if shard.id = shardId then f shard :: t else shard :: modifyShard shardId f t

def recordPingResult (t : ShardTopology) (shardId : Bytes) (role : NodeRole) (success : Bool)
    (maxMissedPings : Int) : ShardTopology :=
  modifyShard shardId
    (fun shard => shard.setNode ((shard.node role).recordPing success maxMissedPings) role) t

def healthOf (t : ShardTopology) (shardId : Bytes) (role : NodeRole) : NodeHealth :=
  match findShard t shardId with
  | none => .DOWN
  | some shard => (shard.node role).health

/-- `promoteReplica`, with what it returns. -/
def promoteReplica (t : ShardTopology) (shardId : Bytes) : ShardTopology × Bool :=
  match findShard t shardId with
  | none => (t, false)
  | some shard =>
    if !shard.hasReplica || shard.failedOver then (t, false)
    else
      (modifyShard shardId
        (fun shard => { shard with activeAddress := shard.replica.address, failedOver := true }) t,
        true)

/-! ## What a change of one shard does -/

theorem forall₂_modifyShard {R : Shard → Shard → Prop} (hrefl : ∀ s, R s s) {shardId : Bytes}
    {f : Shard → Shard} {t : ShardTopology}
    (hf : ∀ s, findShard t shardId = some s → R s (f s)) :
    List.Forall₂ R t (modifyShard shardId f t) := by
  induction t with
  | nil => exact .nil
  | cons s t ih =>
    unfold modifyShard
    split
    · rename_i hid
      exact .cons (hf s (List.find?_cons_of_pos (by simpa using hid)))
        (List.forall₂_same.mpr fun s' _ => hrefl s')
    · rename_i hid
      refine .cons (hrefl s) (ih fun s' hs' => hf s' ?_)
      rw [findShard, List.find?_cons_of_neg (by simpa using hid)]
      exact hs'

/-- A change that keeps the id is seen under that id only. -/
theorem findShard_modifyShard {shardId : Bytes} {f : Shard → Shard}
    (hid : ∀ s : Shard, (f s).id = s.id) (t : ShardTopology) (x : Bytes) :
    findShard (modifyShard shardId f t) x =
      if x = shardId then (findShard t x).map f else findShard t x := by
  induction t with
  | nil => split <;> rfl
  | cons s t ih =>
    unfold modifyShard
    by_cases hs : s.id = shardId
    · rw [if_pos hs]
      by_cases hx : x = shardId
      · subst hx
        rw [if_pos rfl, findShard, List.find?_cons_of_pos (by simpa [hid] using hs), findShard,
          List.find?_cons_of_pos (by simpa using hs)]
        rfl
      · have hne : ¬ s.id = x := fun he => hx (he.symm.trans hs)
        rw [if_neg hx, findShard, List.find?_cons_of_neg (by simpa [hid] using hne), findShard,
          List.find?_cons_of_neg (by simpa using hne)]
    · rw [if_neg hs]
      by_cases hx : s.id = x
      · subst hx
        rw [if_neg hs, findShard, List.find?_cons_of_pos (by simp), findShard,
          List.find?_cons_of_pos (by simp)]
      · simp only [findShard, List.find?_cons_of_neg (p := fun s' : Shard => s'.id = x)
          (show ¬ decide (s.id = x) = true by simpa using hx)] at ih ⊢
        exact ih

end ShardTopology

end TinyKV

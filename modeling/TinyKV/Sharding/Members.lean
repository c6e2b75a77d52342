import TinyKV.Sharding.Ring
import Mathlib.Data.Finset.Basic

/-!
# The ring after any calls

A ring is changed in place by `addNode` and `removeNode`, in any order, with repeated adds and with
removals of nodes that were never added.

* `RingCall`, `ConsistentHashRing.after`: a call, the ring after a list of calls.
* `present`: the nodes that were added and not removed since.
* `PositionsApart`: the ids of the calls are not empty, and no two of them have a position in
  common. `mem_after`: the ring then has exactly the positions of the nodes that are present.
* `ring_of_members`: the node of a key is the owner of the nearest position, so it depends on the
  nodes that are present only.
* `minimal_remapping`: an added node takes keys from the others, and no other key moves. Nothing is
  assumed of the positions.
-/

namespace TinyKV

open Cpp Circle

/-- A call that changes the ring. -/
inductive RingCall where
  | addNode (nodeId : Bytes)
  | removeNode (nodeId : Bytes)
  deriving DecidableEq, Repr

def RingCall.nodeId : RingCall → Bytes
  | .addNode nodeId | .removeNode nodeId => nodeId

/-- The nodes that were added and not removed since. -/
def present (calls : List RingCall) : Finset Bytes :=
  calls.foldl (fun nodes call =>
    match call with
    | .addNode nodeId => insert nodeId nodes
    | .removeNode nodeId => nodes.erase nodeId) ∅

namespace ConsistentHashRing

def apply (r : ConsistentHashRing) : RingCall → ConsistentHashRing
  | .addNode nodeId => r.addNode nodeId
  | .removeNode nodeId => r.removeNode nodeId

/-- The ring after the calls on an empty one. -/
def after (virtualNodesPerNode : Nat) (calls : List RingCall) : ConsistentHashRing :=
  calls.foldl apply { virtualNodesPerNode := virtualNodesPerNode }

/-- The ids are not empty, and two of them have no position in common. -/
structure PositionsApart (v : Nat) (calls : List RingCall) : Prop where
  nonempty : ∀ c ∈ calls, c.nodeId ≠ []
  apart : ∀ c ∈ calls, ∀ d ∈ calls, c.nodeId ≠ d.nodeId →
    ∀ i < v, ∀ j < v, position c.nodeId i ≠ position d.nodeId j

instance (v : Nat) (calls : List RingCall) : Decidable (PositionsApart v calls) :=
  decidable_of_iff ((∀ c ∈ calls, c.nodeId ≠ []) ∧
      ∀ c ∈ calls, ∀ d ∈ calls, c.nodeId ≠ d.nodeId →
        ∀ i < v, ∀ j < v, position c.nodeId i ≠ position d.nodeId j)
    ⟨fun h => ⟨h.1, h.2⟩, fun h => ⟨h.nonempty, h.apart⟩⟩

variable {v : Nat}

theorem after_snoc (v : Nat) (calls : List RingCall) (call : RingCall) :
    after v (calls ++ [call]) = (after v calls).apply call := by
  simp [after]

/-- The list of positions is increasing in every state. -/
theorem increasing_after (v : Nat) (calls : List RingCall) :
    Increasing (after v calls).ring ∧ (after v calls).virtualNodesPerNode = v := by
  induction calls using List.reverseRecOn with
  | nil => exact ⟨List.Pairwise.nil, rfl⟩
  | append_singleton calls call ih =>
    rw [after_snoc]
    cases call with
    | addNode nodeId => exact ⟨(addNode_spec ih.1 nodeId).1, ih.2⟩
    | removeNode nodeId => exact ⟨(removeNode_spec ih.1 nodeId).1, ih.2⟩

/-! ## The positions of the nodes that are present -/

theorem present_snoc_add (calls : List RingCall) (nodeId : Bytes) :
    present (calls ++ [.addNode nodeId]) = insert nodeId (present calls) := by
  simp [present]

theorem present_snoc_remove (calls : List RingCall) (nodeId : Bytes) :
    present (calls ++ [.removeNode nodeId]) = (present calls).erase nodeId := by
  simp [present]

/-- A present node was named by a call. -/
theorem exists_call_of_present {calls : List RingCall} {n : Bytes} (h : n ∈ present calls) :
    ∃ c ∈ calls, c.nodeId = n := by
  induction calls using List.reverseRecOn with
  | nil => simp [present] at h
  | append_singleton calls call ih =>
    cases call with
    | addNode nodeId =>
      rw [present_snoc_add, Finset.mem_insert] at h
      rcases h with rfl | h
      · exact ⟨.addNode n, by simp, rfl⟩
      · obtain ⟨c, hc, hn⟩ := ih h
        exact ⟨c, List.mem_append_left _ hc, hn⟩
    | removeNode nodeId =>
      rw [present_snoc_remove, Finset.mem_erase] at h
      obtain ⟨c, hc, hn⟩ := ih h.2
      exact ⟨c, List.mem_append_left _ hc, hn⟩

theorem PositionsApart.init {calls : List RingCall} {call : RingCall}
    (h : PositionsApart v (calls ++ [call])) : PositionsApart v calls where
  nonempty c hc := h.nonempty c (List.mem_append_left _ hc)
  apart c hc d hd := h.apart c (List.mem_append_left _ hc) d (List.mem_append_left _ hd)

/-- A present node and the node of the last call have no position in common. -/
theorem PositionsApart.last {calls : List RingCall} {call : RingCall}
    (h : PositionsApart v (calls ++ [call])) {n : Bytes} (hn : n ∈ present calls)
    (hne : n ≠ call.nodeId) {i j : Nat} (hi : i < v) (hj : j < v) :
    position n i ≠ position call.nodeId j := by
  obtain ⟨c, hc, rfl⟩ := exists_call_of_present hn
  exact h.apart c (List.mem_append_left _ hc) call (by simp) hne i hi j hj

/-- The ring has exactly the positions of the nodes that are present. -/
theorem mem_after {calls : List RingCall} (h : PositionsApart v calls) (e : UInt64 × Bytes) :
    e ∈ (after v calls).ring ↔ e.2 ∈ present calls ∧ ∃ i < v, e.1 = position e.2 i := by
  induction calls using List.reverseRecOn generalizing e with
  | nil => simp [after, present]
  | append_singleton calls call ih =>
    obtain ⟨hinc, hv⟩ := increasing_after v calls
    rw [after_snoc]
    cases call with
    | addNode nodeId =>
      show e ∈ ((after v calls).addNode nodeId).ring ↔ _
      rw [(addNode_spec hinc nodeId).2, hv, ih h.init, present_snoc_add, Finset.mem_insert]
      constructor
      · rintro (⟨rfl, i, hi, hpos⟩ | ⟨⟨hmem, i, hi, hpos⟩, -⟩)
        · exact ⟨.inl rfl, i, hi, hpos⟩
        · exact ⟨.inr hmem, i, hi, hpos⟩
      · rintro ⟨hmem, i, hi, hpos⟩
        by_cases he : e.2 = nodeId
        · exact .inl ⟨he, i, hi, he ▸ hpos⟩
        · have hmem := hmem.resolve_left he
          refine .inr ⟨⟨hmem, i, hi, hpos⟩, fun j hj => ?_⟩
          rw [hpos]
          exact h.last hmem he hi hj
    | removeNode nodeId =>
      show e ∈ ((after v calls).removeNode nodeId).ring ↔ _
      rw [(removeNode_spec hinc nodeId).2, hv, ih h.init, present_snoc_remove, Finset.mem_erase]
      constructor
      · rintro ⟨⟨hmem, i, hi, hpos⟩, hfree⟩
        exact ⟨⟨fun he => hfree i hi (he ▸ hpos), hmem⟩, i, hi, hpos⟩
      · rintro ⟨⟨hne, hmem⟩, i, hi, hpos⟩
        refine ⟨⟨hmem, i, hi, hpos⟩, fun j hj => ?_⟩
        rw [hpos]
        exact h.last hmem hne hi hj

/-- `n` owns the position that is the nearest one at or after the hash of the key, among the
positions of the nodes in `nodes`. -/
def OwnsNearest (v : Nat) (nodes : Finset Bytes) (key n : Bytes) : Prop :=
  n ∈ nodes ∧ ∃ i < v, ∀ m ∈ nodes, ∀ j < v,
    distance (fnv1a64 key) (position n i) ≤ distance (fnv1a64 key) (position m j)

theorem ring_eq_nil (hv : 1 ≤ v) {calls : List RingCall} (h : PositionsApart v calls) :
    (after v calls).ring = [] ↔ present calls = ∅ := by
  constructor
  · intro hnil
    refine Finset.eq_empty_of_forall_notMem fun n hn => ?_
    have hmem := (mem_after h (position n 0, n)).mpr ⟨hn, 0, hv, rfl⟩
    rw [hnil] at hmem
    cases hmem
  · intro hempty
    refine List.eq_nil_iff_forall_not_mem.mpr fun e he => ?_
    have hmem := ((mem_after h e).mp he).1
    rw [hempty] at hmem
    exact Finset.notMem_empty _ hmem

/-- The node of a key owns the nearest position. -/
theorem ownsNearest_getNode (hv : 1 ≤ v) {calls : List RingCall} (h : PositionsApart v calls)
    (hne : present calls ≠ ∅) (key : Bytes) :
    OwnsNearest v (present calls) key ((after v calls).getNode key) := by
  obtain ⟨hinc, -⟩ := increasing_after v calls
  obtain ⟨e, ⟨hmem, hnear⟩, hget⟩ :=
    exists_nearest hinc (fun hnil => hne ((ring_eq_nil hv h).mp hnil)) key
  obtain ⟨hpresent, i, hi, hpos⟩ := (mem_after h e).mp hmem
  rw [hget]
  refine ⟨hpresent, i, hi, fun m hm j hj => ?_⟩
  rw [← hpos]
  exact hnear (position m j, m) ((mem_after h _).mpr ⟨hm, j, hj, rfl⟩)

/-- Only one node owns the nearest position. -/
theorem getNode_of_ownsNearest {calls : List RingCall} (h : PositionsApart v calls) {key n : Bytes}
    (hn : OwnsNearest v (present calls) key n) : (after v calls).getNode key = n := by
  obtain ⟨hmem, i, hi, hnear⟩ := hn
  refine getNode_of_nearest (e := (position n i, n)) (increasing_after v calls).1
    ⟨(mem_after h _).mpr ⟨hmem, i, hi, rfl⟩, fun e' he' => ?_⟩
  obtain ⟨hpresent, j, hj, hpos⟩ := (mem_after h e').mp he'
  rw [hpos]
  exact hnear e'.2 hpresent j hj

/-- **The ring is a function of its members.** After any calls with ids that are not empty and have
no position in common, the node of a key is the owner of the nearest position at or after the hash
of the key, around the circle, among the positions of the nodes that are present; it is empty
exactly if there is none. A removed node gets no key, and calls that leave the same nodes present
lead to the same node for every key. -/
theorem ring_of_members (v : Nat) (hv : 1 ≤ v) (calls : List RingCall)
    (h : PositionsApart v calls) (key : Bytes) :
    ((after v calls).getNode key = [] ↔ present calls = ∅) ∧
    (present calls ≠ ∅ → OwnsNearest v (present calls) key ((after v calls).getNode key)) ∧
    (∀ n, n ∉ present calls → n ≠ [] → (after v calls).getNode key ≠ n) ∧
    ∀ calls', PositionsApart v calls' → present calls' = present calls →
      (after v calls').getNode key = (after v calls).getNode key := by
  have hsome := fun hne => ownsNearest_getNode hv h hne key
  have hnone : present calls = ∅ → (after v calls).getNode key = [] := fun hempty => by
    rw [getNode_eq, (ring_eq_nil hv h).mpr hempty]
    rfl
  refine ⟨⟨fun hget => ?_, hnone⟩, hsome, fun n hn hne hget => ?_, fun calls' h' hsame => ?_⟩
  · by_contra hne
    obtain ⟨c, hc, hid⟩ := exists_call_of_present (hsome hne).1
    exact h.nonempty c hc (hid.trans hget)
  · by_cases hempty : present calls = ∅
    · exact hne (hget.symm.trans (hnone hempty))
    · exact hn (hget ▸ (hsome hempty).1)
  · by_cases hempty : present calls = ∅
    · rw [hnone hempty, getNode_eq, (ring_eq_nil hv h').mpr (hsame.trans hempty)]
      rfl
    · refine getNode_of_ownsNearest h' ?_
      rw [hsame]
      exact hsome hempty

/-- Two shards, one of which was added twice and removed before. -/
def detour : List RingCall :=
  [.removeNode (ascii "shard1"), .addNode (ascii "shard1"), .addNode (ascii "shard0"),
    .addNode (ascii "shard1"), .removeNode (ascii "shard1"), .addNode (ascii "shard1")]

theorem ring_of_members_detour :
    (after 3 detour).getNode (ascii "user:1") =
      (after 3 [.addNode (ascii "shard0"), .addNode (ascii "shard1")]).getNode (ascii "user:1") :=
  ((ring_of_members 3 (by decide) _ (by decide +kernel) (ascii "user:1")).2.2.2 detour
    (by decide +kernel) (by decide +kernel))

/-! ## A node that is added -/

/-- **Minimal remapping.** After any calls, whoever's positions collide: when a node is added, a key
goes to it or stays where it was. -/
theorem minimal_remapping (v : Nat) (calls : List RingCall) (n key : Bytes) :
    ((after v calls).addNode n).getNode key = n ∨
      ((after v calls).addNode n).getNode key = (after v calls).getNode key := by
  obtain ⟨hinc, -⟩ := increasing_after v calls
  obtain ⟨hinc', hmem⟩ := addNode_spec hinc n
  by_cases hnil : ((after v calls).addNode n).ring = []
  · -- A ring without virtual nodes stays empty.
    have hold : (after v calls).ring = [] := by
      by_contra hne
      exact (addNode_ring (after v calls) n).2 (.inr hne) hnil
    right
    rw [getNode_eq, getNode_eq, hnil, hold]
  · obtain ⟨e, ⟨he, hnear⟩, hget⟩ := exists_nearest hinc' hnil key
    rw [hget]
    rcases (hmem e).mp he with ⟨hown, -⟩ | ⟨hold, -⟩
    · exact .inl hown
    · -- Every old position is still taken, by its node or by `n`, so no old one is nearer.
      right
      refine (getNode_of_nearest hinc ⟨hold, fun d hd => ?_⟩).symm
      by_cases hover : ∃ i < (after v calls).virtualNodesPerNode, d.1 = position n i
      · exact hnear (d.1, n) ((hmem _).mpr (.inl ⟨rfl, hover⟩))
      · exact hnear d ((hmem d).mpr (.inr ⟨hd, fun i hi hpos => hover ⟨i, hi, hpos⟩⟩))

end ConsistentHashRing

end TinyKV

import TinyKV.Protocol
import TinyKV.Lib.Circle

/-!
# The consistent hash ring

`src/sharding/consistent_hash_ring.cpp`. Each node has some positions on a ring of 64-bit hashes;
a key belongs to the node with the next position at or after the hash of the key. `ring_` is a
`std::map`, a list of positions in increasing order here.

* `addNode_spec`, `removeNode_spec`: the positions after a call. The list stays increasing.
* `getNode_eq`: a key belongs to the next position on the circle of hashes (`Lib/Circle.lean`).
* `getNode_mem`: a ring that is not empty names one of the nodes that were added.
-/

namespace TinyKV

open Cpp Circle

/-- FNV-1a, and the finalizer of MurmurHash3. -/
def fnv1a64 (data : Bytes) : UInt64 :=
  let hash := data.foldl (fun h c => (h ^^^ c.toUInt64) * 1099511628211) 1469598103934665603
  let hash := hash ^^^ (hash >>> 33)
  let hash := hash * 0xff51afd7ed558ccd
  let hash := hash ^^^ (hash >>> 33)
  let hash := hash * 0xc4ceb9fe1a85ec53
  hash ^^^ (hash >>> 33)

structure ConsistentHashRing where
  virtualNodesPerNode : Nat := 150
  /-- Hash position and node id, sorted by position. -/
  ring : List (UInt64 × Bytes) := []
  nodes : List Bytes := []

namespace ConsistentHashRing

/-- `ring_[pos] = nodeId` -/
def assign (pos : UInt64) (nodeId : Bytes) : List (UInt64 × Bytes) → List (UInt64 × Bytes)
  | [] => [(pos, nodeId)]
  | e :: es =>
    if pos < e.1 then (pos, nodeId) :: e :: es
    else if pos = e.1 then (pos, nodeId) :: es
    else e :: assign pos nodeId es

/-- The position of virtual node `i`. -/
def position (nodeId : Bytes) (i : Nat) : UInt64 := fnv1a64 (nodeId ++ ascii "#" ++ to_string i)

def addNode (r : ConsistentHashRing) (nodeId : Bytes) : ConsistentHashRing :=
  { r with
    ring := (List.range r.virtualNodesPerNode).foldl
      (fun es i => assign (position nodeId i) nodeId es) r.ring
    nodes := r.nodes ++ [nodeId] }

def removeNode (r : ConsistentHashRing) (nodeId : Bytes) : ConsistentHashRing :=
  { r with
    ring := (List.range r.virtualNodesPerNode).foldl
      (fun es i => es.filter fun e => e.1 ≠ position nodeId i) r.ring
    nodes := r.nodes.filter fun n => n ≠ nodeId }

/-- `getNode`: the empty id if the ring has no nodes. -/
def getNode (r : ConsistentHashRing) (key : Bytes) : Bytes :=
  match r.ring with
  | [] => []
  | first :: _ =>
    match r.ring.find? fun e => fnv1a64 key ≤ e.1 with
    | some e => e.2
    | none => first.2 -- Wrap around past the highest position.

/-! ## The positions -/

section

variable {pos : UInt64} {nodeId : Bytes} {es : List (UInt64 × Bytes)}

/-- The assigned position has the new id, the others stay. -/
theorem mem_assign_iff (h : Increasing es) {e : UInt64 × Bytes} :
    e ∈ assign pos nodeId es ↔ e = (pos, nodeId) ∨ e ∈ es ∧ e.1 ≠ pos := by
  induction es with
  | nil => simp [assign]
  | cons d es ih =>
    obtain ⟨hd, hes⟩ := List.pairwise_cons.mp h
    rw [assign]
    split
    · rename_i hlt
      have hall : ∀ x ∈ d :: es, x.1 ≠ pos := by
        intro x hx
        rcases List.mem_cons.mp hx with rfl | hx
        · exact (UInt64.ne_of_lt hlt).symm
        · exact (UInt64.ne_of_lt (UInt64.lt_trans hlt (hd x hx))).symm
      grind
    · split
      · rename_i _ heq
        have hall : ∀ x ∈ es, x.1 ≠ pos := fun x hx => (UInt64.ne_of_lt (heq ▸ hd x hx)).symm
        grind
      · rename_i _ hne
        rw [List.mem_cons, ih hes]
        grind

theorem increasing_assign (h : Increasing es) : Increasing (assign pos nodeId es) := by
  induction es with
  | nil => exact List.pairwise_singleton _ _
  | cons d es ih =>
    obtain ⟨hd, hes⟩ := List.pairwise_cons.mp h
    rw [assign]
    split
    · rename_i hlt
      refine List.pairwise_cons.mpr ⟨fun x hx => ?_, h⟩
      rcases List.mem_cons.mp hx with rfl | hx
      · exact hlt
      · exact UInt64.lt_trans hlt (hd x hx)
    · rename_i hge
      split
      · rename_i heq
        exact List.pairwise_cons.mpr ⟨fun x hx => heq ▸ hd x hx, hes⟩
      · rename_i hne
        refine List.pairwise_cons.mpr ⟨fun x hx => ?_, ih hes⟩
        rcases (mem_assign_iff hes).mp hx with rfl | hx
        · exact UInt64.lt_of_le_of_ne (UInt64.not_lt.mp hge) fun he => hne he.symm
        · exact hd x hx.1

/-- The loop of `addNode`, at the positions `p 0`, ..., `p (n - 1)`. -/
theorem foldl_assign_spec (h : Increasing es) (p : Nat → UInt64) (n : Nat) :
    Increasing ((List.range n).foldl (fun es i => assign (p i) nodeId es) es) ∧
    ∀ e, e ∈ (List.range n).foldl (fun es i => assign (p i) nodeId es) es ↔
      (e.2 = nodeId ∧ ∃ i < n, e.1 = p i) ∨ (e ∈ es ∧ ∀ i < n, e.1 ≠ p i) := by
  induction n with
  | zero => exact ⟨h, by simp⟩
  | succ n ih =>
    obtain ⟨hinc, hmem⟩ := ih
    rw [List.range_succ, List.foldl_append]
    refine ⟨increasing_assign hinc, fun e => ?_⟩
    rw [List.foldl_cons, List.foldl_nil, mem_assign_iff hinc, hmem, Prod.ext_iff]
    simp only [Nat.lt_succ_iff_lt_or_eq]
    grind

/-- The loop of `removeNode`. -/
theorem foldl_erase_spec (h : Increasing es) (p : Nat → UInt64) (n : Nat) :
    Increasing ((List.range n).foldl (fun es i => es.filter fun e => e.1 ≠ p i) es) ∧
    ∀ e, e ∈ (List.range n).foldl (fun es i => es.filter fun e => e.1 ≠ p i) es ↔
      e ∈ es ∧ ∀ i < n, e.1 ≠ p i := by
  induction n with
  | zero => exact ⟨h, by simp⟩
  | succ n ih =>
    obtain ⟨hinc, hmem⟩ := ih
    rw [List.range_succ, List.foldl_append]
    refine ⟨hinc.filter _, fun e => ?_⟩
    rw [List.foldl_cons, List.foldl_nil, List.mem_filter, hmem]
    simp only [Nat.lt_succ_iff_lt_or_eq, decide_eq_true_eq]
    grind

end

/-- `addNode` gives the node its positions, whoever had them before. -/
theorem addNode_spec {r : ConsistentHashRing} (h : Increasing r.ring) (nodeId : Bytes) :
    Increasing (r.addNode nodeId).ring ∧ ∀ e, e ∈ (r.addNode nodeId).ring ↔
      (e.2 = nodeId ∧ ∃ i < r.virtualNodesPerNode, e.1 = position nodeId i) ∨
      (e ∈ r.ring ∧ ∀ i < r.virtualNodesPerNode, e.1 ≠ position nodeId i) :=
  foldl_assign_spec h (position nodeId) r.virtualNodesPerNode

/-- `removeNode` frees the positions of the node, whoever has them. -/
theorem removeNode_spec {r : ConsistentHashRing} (h : Increasing r.ring) (nodeId : Bytes) :
    Increasing (r.removeNode nodeId).ring ∧ ∀ e, e ∈ (r.removeNode nodeId).ring ↔
      e ∈ r.ring ∧ ∀ i < r.virtualNodesPerNode, e.1 ≠ position nodeId i :=
  foldl_erase_spec h (position nodeId) r.virtualNodesPerNode

/-! ## The node of a key -/

/-- `lower_bound`, and the wrap around. -/
theorem getNode_eq (r : ConsistentHashRing) (key : Bytes) :
    r.getNode key = (clockwise (fnv1a64 key) r.ring).elim [] Prod.snd := by
  unfold getNode
  split
  · rename_i hr
    simp [clockwise, hr]
  · rename_i first rest hr
    split
    · rename_i e he
      simp [clockwise, he]
    · rename_i hnone
      rw [clockwise, hnone, hr]
      simp

/-- The node of the nearest position. -/
theorem getNode_of_nearest {r : ConsistentHashRing} (h : Increasing r.ring) {key : Bytes}
    {e : UInt64 × Bytes} (he : Nearest (fnv1a64 key) e r.ring) : r.getNode key = e.2 := by
  rw [getNode_eq]
  cases hc : clockwise (fnv1a64 key) r.ring with
  | none =>
    have hmem := he.1
    rw [clockwise_eq_none.mp hc] at hmem
    cases hmem
  | some d => rw [Option.elim_some, (nearest_clockwise h hc).unique h he]

theorem exists_nearest {r : ConsistentHashRing} (h : Increasing r.ring) (hne : r.ring ≠ [])
    (key : Bytes) : ∃ e, Nearest (fnv1a64 key) e r.ring ∧ r.getNode key = e.2 := by
  cases hc : clockwise (fnv1a64 key) r.ring with
  | none => exact absurd (clockwise_eq_none.mp hc) hne
  | some e => exact ⟨e, nearest_clockwise h hc, by rw [getNode_eq, hc]; rfl⟩

theorem mem_assign {pos : UInt64} {nodeId : Bytes} {es : List (UInt64 × Bytes)}
    {e : UInt64 × Bytes} (h : e ∈ assign pos nodeId es) : e = (pos, nodeId) ∨ e ∈ es := by
  induction es with
  | nil => exact .inl (List.mem_singleton.mp h)
  | cons d es ih =>
    rw [assign] at h
    split at h
    · exact List.mem_cons.mp h
    split at h
    · rcases List.mem_cons.mp h with rfl | h
      · exact .inl rfl
      · exact .inr (List.mem_cons_of_mem _ h)
    · rcases List.mem_cons.mp h with rfl | h
      · exact .inr List.mem_cons_self
      · exact (ih h).imp_right (List.mem_cons_of_mem _)

theorem assign_ne_nil (pos : UInt64) (nodeId : Bytes) (es : List (UInt64 × Bytes)) :
    assign pos nodeId es ≠ [] := by
  cases es with
  | nil => simp [assign]
  | cons e es =>
    rw [assign]
    split
    · simp
    · split <;> simp

/-- A node that is added brings its own id, and at least one position. -/
theorem addNode_ring (r : ConsistentHashRing) (nodeId : Bytes) :
    (∀ e ∈ (r.addNode nodeId).ring, e.2 = nodeId ∨ e ∈ r.ring) ∧
    (r.virtualNodesPerNode ≠ 0 ∨ r.ring ≠ [] → (r.addNode nodeId).ring ≠ []) := by
  show (∀ e ∈ (List.range r.virtualNodesPerNode).foldl _ r.ring, _) ∧ _
  unfold addNode
  generalize r.ring = es
  generalize r.virtualNodesPerNode = n
  induction n with
  | zero => exact ⟨fun e he => .inr he, fun h => h.resolve_left fun h0 => h0 rfl⟩
  | succ n ih =>
    simp only [List.range_succ, List.foldl_append, List.foldl_cons, List.foldl_nil] at ih ⊢
    refine ⟨fun e he => ?_, fun _ => assign_ne_nil _ _ _⟩
    rcases mem_assign he with rfl | he
    · exact .inl rfl
    · exact ih.1 e he

/-- A ring that is not empty names a node of one of its positions. -/
theorem getNode_mem {r : ConsistentHashRing} (h : r.ring ≠ []) (key : Bytes) :
    ∃ e ∈ r.ring, r.getNode key = e.2 := by
  unfold getNode
  split
  · rename_i hr; exact absurd hr h
  · rename_i first rest hr
    split
    · rename_i e he
      exact ⟨e, List.mem_of_find?_eq_some he, rfl⟩
    · exact ⟨first, by rw [hr]; exact List.mem_cons_self, rfl⟩

/-- A ring to which nodes were added one after the other. -/
theorem getNode_foldl_addNode {ids : List Bytes} (hids : ids ≠ []) (key : Bytes) :
    (ids.foldl addNode {}).getNode key ∈ ids := by
  have hring : ∀ (r : ConsistentHashRing) (ids : List Bytes), r.virtualNodesPerNode ≠ 0 →
      (∀ e ∈ (ids.foldl addNode r).ring, e.2 ∈ ids ∨ e ∈ r.ring) ∧
      (ids ≠ [] ∨ r.ring ≠ [] → (ids.foldl addNode r).ring ≠ []) := by
    intro r ids hv
    induction ids generalizing r with
    | nil => exact ⟨fun e he => .inr he, fun h => h.resolve_left fun h0 => h0 rfl⟩
    | cons id ids ih =>
      obtain ⟨hmem, hne⟩ := addNode_ring r id
      obtain ⟨hmem', hne'⟩ := ih (r.addNode id) hv
      refine ⟨fun e he => ?_, fun _ => hne' (.inr (hne (.inl hv)))⟩
      rcases hmem' e he with he | he
      · exact .inl (List.mem_cons_of_mem _ he)
      · rcases hmem e he with he | he
        · exact .inl (he ▸ List.mem_cons_self)
        · exact .inr he
  obtain ⟨hmem, hne⟩ := hring {} ids (by decide)
  obtain ⟨e, he, hget⟩ := getNode_mem (hne (.inl hids)) key
  rw [hget]
  exact (hmem e he).resolve_right List.not_mem_nil

end ConsistentHashRing

end TinyKV

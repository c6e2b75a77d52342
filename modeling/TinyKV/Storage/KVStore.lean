import TinyKV.Lib.Recency
import TinyKV.Lib.Cpp
import Mathlib.Data.Finmap

/-!
# `KVStore`: the LRU list and its index

`src/storage/kv_store.cpp`. The store keeps its pairs in a `std::list`, the pair used last first,
and an `unordered_map` from each key to the list node of its pair. Here a list node has an identity
(`Node.id`), an iterator is that identity, and a node keeps it when it is spliced to the front.

* The operations (`setLocked`, `get`, `del`, `exists`, `forEach`, `incrementBy`) follow the source:
  each looks the key up in the index, then works on the node it found.
* `KVStore.Rep`: the list and the index agree (no key twice, the index has exactly the keys of the
  list and maps each to its node). `KVStore.Inv` adds the capacity.
* `KVStore.entries`: what the store holds, as a recency list (`Lib/Recency.lean`). Under the
  invariant each operation is an operation of recency lists (`Inv.set_entries`, `Inv.get_spec`,
  ...), and it keeps the invariant.
* `Store`: a `KVStore` with its invariant. The rest of the development uses only `Store` and what
  it looks up.

`incrementBy` gives `none` where the source throws `std::invalid_argument`; the state is then as
before.
-/

namespace TinyKV

open Cpp Recency

/-- A node of the list: its identity (what an iterator points at), its key and its value. -/
structure Node where
  id : Nat
  key : Bytes
  value : Bytes
  deriving DecidableEq, Repr

/-- The pair of a node. -/
def Node.entry (n : Node) : Bytes × Bytes := (n.key, n.value)

structure KVStore where
  /-- `0` means unbounded. -/
  capacity : Nat
  /-- Front: the pair used last. -/
  lru : List Node
  /-- The node of each key. -/
  index : Finmap fun _ : Bytes => Nat
  /-- The identity of the next node that is made. -/
  nextId : Nat

namespace KVStore

/-! ## The operations -/

/-- The constructor. -/
def empty (capacity : Nat) : KVStore := ⟨capacity, [], ∅, 0⟩

/-- `it->second`, the node an iterator points at. -/
def node? (s : KVStore) (it : Nat) : Option Node := s.lru.find? fun n => n.id = it

/-- `it->second->second = value`. -/
def assign (s : KVStore) (it : Nat) (value : Bytes) : KVStore :=
  { s with lru := s.lru.map fun n => if n.id = it then { n with value := value } else n }

/-- `lru_.splice(lru_.begin(), lru_, it)`. -/
def splice (s : KVStore) (it : Nat) : KVStore :=
  match s.node? it with
  | none => s
  | some n => { s with lru := n :: s.lru.filter fun m => m.id ≠ it }

/-- `index_.erase(lru_.back().first); lru_.pop_back()`. -/
def popBack (s : KVStore) : KVStore :=
  match s.lru.getLast? with
  | none => s
  | some b => { s with index := s.index.erase b.key, lru := s.lru.dropLast }

/-- `while (lru_.size() > capacity_)`. The loop ends after at most `lru_.size()` rounds. -/
def evictLoop : Nat → KVStore → KVStore
  | 0, s => s
  | fuel + 1, s => if s.lru.length > s.capacity then evictLoop fuel s.popBack else s

def setLocked (s : KVStore) (key value : Bytes) : KVStore :=
  match s.index.lookup key with
  | some it => (s.assign it value).splice it
  | none =>
    let s' : KVStore :=
      { s with
        lru := ⟨s.nextId, key, value⟩ :: s.lru
        index := s.index.insert key s.nextId
        nextId := s.nextId + 1 }
    if s.capacity ≠ 0 then evictLoop s'.lru.length s' else s'

def set (s : KVStore) (key value : Bytes) : KVStore := s.setLocked key value

def get (s : KVStore) (key : Bytes) : Option Bytes × KVStore :=
  match s.index.lookup key with
  | none => (none, s)
  | some it => (((s.splice it).node? it).map Node.value, s.splice it)

def del (s : KVStore) (key : Bytes) : Bool × KVStore :=
  match s.index.lookup key with
  | none => (false, s)
  | some it =>
    (true, { s with lru := s.lru.filter fun n => n.id ≠ it, index := s.index.erase key })

/-- The pairs that `forEach` visits, in order. -/
def forEach (s : KVStore) : List (Bytes × Bytes) := s.lru.map Node.entry

def «exists» (s : KVStore) (key : Bytes) : Bool := (s.index.lookup key).isSome

def size (s : KVStore) : Nat := s.index.keys.card

def incrementBy (s : KVStore) (key : Bytes) (delta : Int) : Option (Int × KVStore) :=
  let current :=
    match s.index.lookup key with
    | none => some 0
    | some it => (s.node? it).bind fun n => stoll n.value
  current.map fun c => (wrap64 (c + delta), s.setLocked key (to_string (wrap64 (c + delta))))

/-- What the store holds, the pair used last first. -/
def entries (s : KVStore) : List (Bytes × Bytes) := s.lru.map Node.entry

/-! ## The invariant -/

/-- The list and the index agree. -/
structure Rep (s : KVStore) : Prop where
  keys : (s.lru.map Node.key).Nodup
  ids : (s.lru.map Node.id).Nodup
  fresh : ∀ n ∈ s.lru, n.id < s.nextId
  index : ∀ k it, s.index.lookup k = some it ↔ ∃ n ∈ s.lru, n.id = it ∧ n.key = k

/-- The representation invariant. -/
structure Inv (s : KVStore) : Prop extends Rep s where
  bound : s.capacity ≠ 0 → s.lru.length ≤ s.capacity

theorem empty_inv (capacity : Nat) : (empty capacity).Inv where
  keys := List.nodup_nil
  ids := List.nodup_nil
  fresh := by simp [empty]
  index := by simp [empty]
  bound _ := Nat.zero_le _

variable {s : KVStore}

theorem keys_entries (s : KVStore) : s.entries.map Prod.fst = s.lru.map Node.key := by
  simp [entries, Node.entry]

theorem Rep.unique (h : s.Rep) : UniqueKeys s.entries := by
  rw [UniqueKeys, keys_entries]
  exact h.keys

/-- A key without a node is not in the list. -/
theorem Rep.index_none (h : s.Rep) {k : Bytes} :
    s.index.lookup k = none ↔ k ∉ s.entries.map Prod.fst := by
  rw [keys_entries, Option.eq_none_iff_forall_ne_some]
  constructor
  · intro hn hk
    obtain ⟨n, hn', rfl⟩ := List.mem_map.mp hk
    exact hn n.id ((h.index n.key n.id).mpr ⟨n, hn', rfl, rfl⟩)
  · intro hk it hit
    obtain ⟨n, hn, -, rfl⟩ := (h.index k it).mp hit
    exact hk (List.mem_map_of_mem hn)

theorem Rep.mem_keys (h : s.Rep) {k : Bytes} {it : Nat} (hi : s.index.lookup k = some it) :
    k ∈ s.entries.map Prod.fst := by
  by_contra hk
  rw [h.index_none.mpr hk] at hi
  cases hi

/-- The node that the index gives for `k` is the only node of `k`. -/
theorem Rep.id_iff_key (h : s.Rep) {k : Bytes} {it : Nat} (hi : s.index.lookup k = some it)
    {n : Node} (hn : n ∈ s.lru) : n.id = it ↔ n.key = k := by
  obtain ⟨m, hm, rfl, rfl⟩ := (h.index k it).mp hi
  constructor
  · intro e; rw [List.inj_on_of_nodup_map h.ids hn hm e]
  · intro e; rw [List.inj_on_of_nodup_map h.keys hn hm e]

/-- The nodes after the node of `k` is taken out. -/
theorem Rep.filter_id (h : s.Rep) {k : Bytes} {it : Nat} (hi : s.index.lookup k = some it) :
    (s.lru.filter fun n => n.id ≠ it) = s.lru.filter fun n => n.key ≠ k :=
  List.filter_congr fun n hn => by simp [h.id_iff_key hi hn]

theorem entries_filter_key (s : KVStore) (k : Bytes) :
    (s.lru.filter fun n => n.key ≠ k).map Node.entry = remove k s.entries := by
  rw [remove, entries, List.filter_map]
  rfl

theorem Rep.length_filter_key (h : s.Rep) {k : Bytes} {it : Nat}
    (hi : s.index.lookup k = some it) :
    (s.lru.filter fun n => n.key ≠ k).length + 1 = s.lru.length := by
  have hl := h.unique.length_remove (h.mem_keys hi)
  rw [← entries_filter_key] at hl
  simpa [entries] using hl

/-- The value of the node that the index gives for `k` is what `k` looks up. -/
theorem Rep.node_value (h : s.Rep) {k : Bytes} {it : Nat} (hi : s.index.lookup k = some it) :
    ∃ n ∈ s.lru, n.id = it ∧ n.key = k ∧ s.node? it = some n ∧
      find k s.entries = some n.value := by
  obtain ⟨n, hn, rfl, rfl⟩ := (h.index k it).mp hi
  refine ⟨n, hn, rfl, rfl, ?_, ?_⟩
  · unfold node?
    rw [List.find?_eq_some_iff_append]
    obtain ⟨a, b, hab⟩ := List.append_of_mem hn
    refine ⟨by simp, a, b, hab, fun m hm => ?_⟩
    -- A node in front of `n` has another identity: the identities have no doubles.
    have hnd := h.ids
    rw [hab, List.map_append, List.map_cons, List.nodup_append] at hnd
    have hne := hnd.2.2 m.id (List.mem_map_of_mem hm) n.id (by simp)
    simpa using hne
  · exact h.unique.mem_iff.mp (List.mem_map_of_mem (f := Node.entry) hn)

/-! ## The operations on what the store holds -/

theorem assign_lru_filter (s : KVStore) (it : Nat) (v : Bytes) :
    ((s.assign it v).lru.filter fun n => n.id ≠ it) = s.lru.filter fun n => n.id ≠ it := by
  show List.filter _ (List.map _ s.lru) = _
  induction s.lru with
  | nil => rfl
  | cons n l ih =>
    by_cases hn : n.id = it
    · simpa [hn] using ih
    · simpa [hn] using ih

theorem assign_node? (s : KVStore) (it : Nat) (v : Bytes) :
    (s.assign it v).node? it = (s.node? it).map fun n => { n with value := v } := by
  show List.find? _ (List.map _ s.lru) = (List.find? _ s.lru).map _
  induction s.lru with
  | nil => rfl
  | cons n l ih =>
    by_cases hn : n.id = it
    · simp [hn]
    · simpa [hn] using ih

/-- The list after a splice of the node of `k`: that node, then the others. -/
theorem Rep.splice_lru (h : s.Rep) {k : Bytes} {it : Nat} (hi : s.index.lookup k = some it) :
    ∃ n ∈ s.lru, n.id = it ∧ n.key = k ∧ find k s.entries = some n.value ∧
      s.splice it = { s with lru := n :: s.lru.filter fun m => m.key ≠ k } := by
  obtain ⟨n, hn, hid, hk, hnode, hval⟩ := h.node_value hi
  refine ⟨n, hn, hid, hk, hval, ?_⟩
  rw [splice, hnode, ← h.filter_id hi]

/-- The list after an overwrite of the node of `k` and its splice. -/
theorem Rep.assign_splice_lru (h : s.Rep) {k : Bytes} {it : Nat}
    (hi : s.index.lookup k = some it) (v : Bytes) :
    (s.assign it v).splice it =
      { s with lru := ⟨it, k, v⟩ :: s.lru.filter fun m => m.key ≠ k } := by
  obtain ⟨n, -, hid, hk, hnode, -⟩ := h.node_value hi
  have ha : (s.assign it v).node? it = some ⟨it, k, v⟩ := by
    rw [assign_node?, hnode, Option.map_some, hid, hk]
  rw [splice, ha]
  simp only
  rw [assign_lru_filter, h.filter_id hi]
  rfl

/-- The node of `k` moved to the front, with any value: the list and the index still agree. -/
theorem Rep.front (h : s.Rep) {k : Bytes} {it : Nat} (hi : s.index.lookup k = some it)
    (v : Bytes) : Rep { s with lru := ⟨it, k, v⟩ :: s.lru.filter fun m => m.key ≠ k } := by
  obtain ⟨n, hn, hid, hk, -⟩ := h.node_value hi
  have hsub : (s.lru.filter fun m => m.key ≠ k).Sublist s.lru := List.filter_sublist
  refine ⟨?_, ?_, ?_, ?_⟩
  · exact List.nodup_cons.mpr ⟨by simp, h.keys.sublist (hsub.map _)⟩
  · refine List.nodup_cons.mpr ⟨?_, h.ids.sublist (hsub.map _)⟩
    rw [← h.filter_id hi]
    simp
  · intro m hm
    rcases List.mem_cons.mp hm with rfl | hm
    · exact hid ▸ h.fresh n hn
    · exact h.fresh m (hsub.subset hm)
  · intro k' it'
    rw [h.index k' it']
    constructor
    · rintro ⟨m, hm, rfl, rfl⟩
      by_cases hmk : m.key = k
      · exact ⟨⟨it, k, v⟩, by simp, ((h.id_iff_key hi hm).mpr hmk).symm, hmk.symm⟩
      · exact ⟨m, by simp [hm, hmk], rfl, rfl⟩
    · rintro ⟨m, hm, rfl, rfl⟩
      rcases List.mem_cons.mp hm with rfl | hm
      · exact ⟨n, hn, hid, hk⟩
      · exact ⟨m, hsub.subset hm, rfl, rfl⟩

/-- The node of `k` taken out, from the list and from the index. -/
theorem Rep.drop (h : s.Rep) (k : Bytes) :
    Rep { s with lru := s.lru.filter fun m => m.key ≠ k, index := s.index.erase k } := by
  have hsub : (s.lru.filter fun m => m.key ≠ k).Sublist s.lru := List.filter_sublist
  refine ⟨h.keys.sublist (hsub.map _), h.ids.sublist (hsub.map _),
    fun m hm => h.fresh m (hsub.subset hm), fun k' it' => ?_⟩
  by_cases hk : k' = k
  · subst hk
    simp only [Finmap.lookup_erase, reduceCtorEq, false_iff, not_exists, not_and]
    intro m hm _
    simpa using (List.mem_filter.mp hm).2
  · rw [Finmap.lookup_erase_ne hk, h.index k' it']
    constructor
    · rintro ⟨m, hm, rfl, rfl⟩
      exact ⟨m, by simp [hm, hk], rfl, rfl⟩
    · rintro ⟨m, hm, rfl, rfl⟩
      exact ⟨m, hsub.subset hm, rfl, rfl⟩

/-- A new node in front, for a key that has none. -/
theorem Rep.emplace (h : s.Rep) {k : Bytes} (hk : s.index.lookup k = none) (v : Bytes) :
    Rep { s with
      lru := ⟨s.nextId, k, v⟩ :: s.lru
      index := s.index.insert k s.nextId
      nextId := s.nextId + 1 } := by
  have hkey : k ∉ s.lru.map Node.key := by
    rw [← keys_entries]
    exact h.index_none.mp hk
  refine ⟨List.nodup_cons.mpr ⟨hkey, h.keys⟩, List.nodup_cons.mpr ⟨?_, h.ids⟩, ?_, ?_⟩
  · intro hm
    obtain ⟨n, hn, hid⟩ := List.mem_map.mp hm
    exact Nat.lt_irrefl _ (hid ▸ h.fresh n hn)
  · intro m hm
    rcases List.mem_cons.mp hm with rfl | hm
    · exact Nat.lt_succ_self _
    · exact Nat.lt_succ_of_lt (h.fresh m hm)
  · intro k' it'
    by_cases hk' : k' = k
    · subst hk'
      simp only [Finmap.lookup_insert, Option.some.injEq]
      constructor
      · rintro rfl; exact ⟨_, List.mem_cons_self, rfl, rfl⟩
      · rintro ⟨m, hm, rfl, hmk⟩
        rcases List.mem_cons.mp hm with rfl | hm
        · rfl
        · exact absurd (hmk ▸ List.mem_map_of_mem hm) hkey
    · rw [Finmap.lookup_insert_of_ne _ hk', h.index k' it']
      constructor
      · rintro ⟨m, hm, rfl, rfl⟩; exact ⟨m, List.mem_cons_of_mem _ hm, rfl, rfl⟩
      · rintro ⟨m, hm, rfl, rfl⟩
        rcases List.mem_cons.mp hm with rfl | hm
        · exact absurd rfl hk'
        · exact ⟨m, hm, rfl, rfl⟩

/-! ### The eviction loop -/

/-- The last node is the only node of its key. -/
theorem Rep.dropLast_eq (h : s.Rep) {b : Node} (hb : s.lru.getLast? = some b) :
    s.lru.dropLast = s.lru.filter fun m => m.key ≠ b.key := by
  obtain ⟨l, hl⟩ := List.getLast?_eq_some_iff.mp hb
  have hnd := h.keys
  rw [hl, List.map_append, List.nodup_append] at hnd
  rw [hl, List.dropLast_concat, List.filter_append, List.filter_eq_self.mpr, List.filter_cons_of_neg]
  · simp
  · simp
  · intro m hm
    simpa using hnd.2.2 m.key (List.mem_map_of_mem hm) b.key (by simp)

theorem Rep.popBack (h : s.Rep) : s.popBack.Rep := by
  unfold KVStore.popBack
  split
  · exact h
  · rename_i b hb
    rw [h.dropLast_eq hb]
    exact h.drop b.key

theorem popBack_lru (s : KVStore) : s.popBack.lru = s.lru.dropLast := by
  unfold popBack
  split
  · rename_i h
    simp [List.getLast?_eq_none_iff.mp h]
  · rfl

@[simp] theorem popBack_capacity (s : KVStore) : s.popBack.capacity = s.capacity := by
  unfold popBack
  split <;> rfl

@[simp] theorem evictLoop_capacity (fuel : Nat) (s : KVStore) :
    (evictLoop fuel s).capacity = s.capacity := by
  induction fuel generalizing s with
  | zero => rfl
  | succ fuel ih =>
    rw [evictLoop]
    split
    · rw [ih, popBack_capacity]
    · rfl

theorem Rep.evictLoop (h : s.Rep) (fuel : Nat) : (KVStore.evictLoop fuel s).Rep := by
  induction fuel generalizing s with
  | zero => exact h
  | succ fuel ih =>
    rw [KVStore.evictLoop]
    split
    · exact ih h.popBack
    · exact h

/-- The loop runs until the list is within the capacity. -/
theorem evictLoop_lru {fuel : Nat} (hf : s.lru.length ≤ fuel) :
    (evictLoop fuel s).lru = s.lru.take s.capacity := by
  induction fuel generalizing s with
  | zero =>
    have : s.lru = [] := List.length_eq_zero_iff.mp (by omega)
    simp [evictLoop, this]
  | succ fuel ih =>
    rw [evictLoop]
    split
    · rename_i hlt
      have hp : s.popBack.lru.length ≤ fuel := by rw [popBack_lru, List.length_dropLast]; omega
      rw [ih hp, popBack_lru, popBack_capacity, List.dropLast_eq_take, List.take_take]
      congr 1
      omega
    · rw [List.take_of_length_le (by omega)]

/-! ### Specifications -/

/-- `set` binds the key in front; an insert over the capacity drops from the back. -/
theorem Inv.set_entries (h : s.Inv) (k v : Bytes) :
    (s.set k v).entries = trim s.capacity (put k v s.entries) := by
  unfold KVStore.set setLocked
  split
  · rename_i it hi
    rw [h.assign_splice_lru hi]
    rw [trim_of_le]
    · exact congrArg ((k, v) :: ·) (entries_filter_key s k)
    · intro hc
      rw [h.unique.length_put_of_mem (h.mem_keys hi)]
      simpa [entries] using h.bound hc
  · rename_i hi
    have hrem : remove k s.entries = s.entries := remove_of_not_mem (h.index_none.mp hi)
    simp only
    split
    · rename_i hc
      rw [put, hrem, trim, if_neg hc, entries, evictLoop_lru (by simp), List.map_take]
      rfl
    · rename_i hc
      rw [not_not.mp hc, put, hrem]
      rfl

@[simp] theorem set_capacity (s : KVStore) (k v : Bytes) : (s.set k v).capacity = s.capacity := by
  unfold KVStore.set setLocked
  split
  · unfold splice
    split <;> rfl
  · simp only
    split
    · simp
    · rfl

theorem Inv.set (h : s.Inv) (k v : Bytes) : (s.set k v).Inv := by
  have hrep : (s.set k v).Rep := by
    unfold KVStore.set setLocked
    split
    · rename_i it hi
      rw [h.assign_splice_lru hi]
      exact h.front hi v
    · rename_i hi
      simp only
      split
      · exact (h.emplace hi v).evictLoop _
      · exact h.emplace hi v
  refine ⟨hrep, fun hc => ?_⟩
  rw [set_capacity] at hc ⊢
  have he := congrArg List.length (h.set_entries k v)
  simp only [entries, List.length_map, trim, if_neg hc, List.length_take] at he
  omega

/-- `get` gives the value of the key, and moves it to the front. -/
theorem Inv.get_spec (h : s.Inv) (k : Bytes) :
    (s.get k).1 = find k s.entries ∧ (s.get k).2.Inv ∧ (s.get k).2.capacity = s.capacity ∧
      (s.get k).2.entries = match find k s.entries with
        | none => s.entries
        | some v => put k v s.entries := by
  unfold KVStore.get
  split
  · rename_i hi
    have hf : find k s.entries = none := find_eq_none.mpr (h.index_none.mp hi)
    rw [hf]
    exact ⟨rfl, h, rfl, rfl⟩
  · rename_i it hi
    obtain ⟨⟨id, key, value⟩, hn, rfl, rfl, hval, hs⟩ := h.splice_lru hi
    simp only at hs hval hi ⊢
    rw [hs, hval]
    refine ⟨by simp [node?], ⟨h.front hi value, fun hc => ?_⟩, rfl, ?_⟩
    · rw [List.length_cons, h.length_filter_key hi]
      exact h.bound hc
    · exact congrArg ((key, value) :: ·) (entries_filter_key s key)

/-- `del` drops the key, and tells if it was there. -/
theorem Inv.del_spec (h : s.Inv) (k : Bytes) :
    (s.del k).1 = (find k s.entries).isSome ∧ (s.del k).2.Inv ∧
      (s.del k).2.capacity = s.capacity ∧ (s.del k).2.entries = remove k s.entries := by
  unfold KVStore.del
  split
  · rename_i hi
    have hk := h.index_none.mp hi
    rw [find_eq_none.mpr hk, remove_of_not_mem hk]
    exact ⟨rfl, h, rfl, rfl⟩
  · rename_i it hi
    obtain ⟨n, -, -, -, -, hval⟩ := h.node_value hi
    rw [hval, h.filter_id hi]
    refine ⟨rfl, ⟨h.drop k, fun hc => ?_⟩, rfl, entries_filter_key s k⟩
    exact Nat.le_trans (List.length_filter_le _ _) (h.bound hc)

theorem Inv.exists_eq (h : s.Inv) (k : Bytes) : s.exists k = (find k s.entries).isSome := by
  unfold «exists»
  cases hi : s.index.lookup k with
  | none => rw [find_eq_none.mpr (h.index_none.mp hi)]; rfl
  | some it =>
    obtain ⟨n, -, -, -, -, hval⟩ := h.node_value hi
    rw [hval]
    rfl

/-- The number that `incrementBy` reads: `0` for an absent key; `none` if the value is no
number. -/
def counter : Option Bytes → Option Int
  | none => some 0
  | some v => stoll v

/-- `incrementBy` reads the number of the key, and sets the key. -/
theorem Inv.incrementBy_eq (h : s.Inv) (k : Bytes) (delta : Int) :
    s.incrementBy k delta = (counter (find k s.entries)).map fun c =>
      (wrap64 (c + delta), s.set k (to_string (wrap64 (c + delta)))) := by
  unfold incrementBy
  cases hi : s.index.lookup k with
  | none => rw [find_eq_none.mpr (h.index_none.mp hi)]; rfl
  | some it =>
    obtain ⟨n, -, -, -, hnode, hval⟩ := h.node_value hi
    simp [hnode, hval, KVStore.set, counter]

end KVStore

end TinyKV

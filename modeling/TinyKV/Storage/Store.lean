import TinyKV.Storage.KVStore

/-!
# Stores

A `Store` is a `KVStore` with its representation invariant, so a store whose list and index
disagree cannot be built. Its operations are those of `KVStore`. Two views of a store are used:

* `Store.entries`: the pairs, the one used last first; each operation is one of recency lists
  (`Lib/Recency.lean`).
* `Store.lookup`: the key → value map, what a client can observe. On an unbounded store each
  operation changes the map at its key only (`lookup_set`, `lookup_del`, `lookup_get`, ...).
-/

namespace TinyKV

open Cpp Recency
open KVStore (counter)

/-- A `KVStore` with its invariant. -/
structure Store where
  kv : KVStore
  inv : kv.Inv

/-- A key → value map. -/
abbrev KvMap := Bytes → Option Bytes

namespace Store

/-- A fresh store. -/
def empty (capacity : Nat) : Store := ⟨.empty capacity, KVStore.empty_inv capacity⟩

def capacity (s : Store) : Nat := s.kv.capacity

/-- The pairs, the one used last first. -/
def entries (s : Store) : List (Bytes × Bytes) := s.kv.entries

/-- The key → value map. -/
def lookup (s : Store) : KvMap := fun k => find k s.entries

def set (s : Store) (key value : Bytes) : Store := ⟨s.kv.set key value, s.inv.set key value⟩

def get (s : Store) (key : Bytes) : Option Bytes × Store :=
  ((s.kv.get key).1, ⟨(s.kv.get key).2, (s.inv.get_spec key).2.1⟩)

def del (s : Store) (key : Bytes) : Bool × Store :=
  ((s.kv.del key).1, ⟨(s.kv.del key).2, (s.inv.del_spec key).2.1⟩)

def «exists» (s : Store) (key : Bytes) : Bool := s.kv.exists key

def forEach (s : Store) : List (Bytes × Bytes) := s.kv.forEach

theorem incrementBy_inv {s : Store} {key : Bytes} {delta n : Int} {kv : KVStore}
    (h : s.kv.incrementBy key delta = some (n, kv)) : kv.Inv := by
  rw [s.inv.incrementBy_eq] at h
  obtain ⟨c, -, hc⟩ := Option.map_eq_some_iff.mp h
  obtain ⟨-, rfl⟩ := Prod.mk.inj hc
  exact s.inv.set _ _

def incrementBy (s : Store) (key : Bytes) (delta : Int) : Option (Int × Store) :=
  match h : s.kv.incrementBy key delta with
  | none => none
  | some (n, kv) => some (n, ⟨kv, incrementBy_inv h⟩)

/-! ## Entries -/

variable {s : Store}

theorem unique (s : Store) : UniqueKeys s.entries := s.inv.unique

theorem mem_entries {k v : Bytes} : (k, v) ∈ s.entries ↔ s.lookup k = some v :=
  s.unique.mem_iff

theorem length_entries_le (hc : s.capacity ≠ 0) : s.entries.length ≤ s.capacity := by
  rw [entries, KVStore.entries, List.length_map]
  exact s.inv.bound hc

@[simp] theorem forEach_eq (s : Store) : s.forEach = s.entries := rfl

@[simp] theorem entries_set (s : Store) (k v : Bytes) :
    (s.set k v).entries = trim s.capacity (put k v s.entries) := s.inv.set_entries k v

@[simp] theorem capacity_set (s : Store) (k v : Bytes) : (s.set k v).capacity = s.capacity :=
  KVStore.set_capacity s.kv k v

@[simp] theorem get_fst (s : Store) (k : Bytes) : (s.get k).1 = s.lookup k :=
  (s.inv.get_spec k).1

theorem entries_get (s : Store) (k : Bytes) :
    (s.get k).2.entries = match s.lookup k with
      | none => s.entries
      | some v => put k v s.entries := (s.inv.get_spec k).2.2.2

@[simp] theorem capacity_get (s : Store) (k : Bytes) : (s.get k).2.capacity = s.capacity :=
  (s.inv.get_spec k).2.2.1

@[simp] theorem del_fst (s : Store) (k : Bytes) : (s.del k).1 = (s.lookup k).isSome :=
  (s.inv.del_spec k).1

@[simp] theorem entries_del (s : Store) (k : Bytes) : (s.del k).2.entries = remove k s.entries :=
  (s.inv.del_spec k).2.2.2

@[simp] theorem capacity_del (s : Store) (k : Bytes) : (s.del k).2.capacity = s.capacity :=
  (s.inv.del_spec k).2.2.1

@[simp] theorem exists_eq (s : Store) (k : Bytes) : s.exists k = (s.lookup k).isSome :=
  s.inv.exists_eq k

theorem incrementBy_eq (s : Store) (k : Bytes) (delta : Int) :
    s.incrementBy k delta = (counter (s.lookup k)).map fun c =>
      (wrap64 (c + delta), s.set k (to_string (wrap64 (c + delta)))) := by
  have h := s.inv.incrementBy_eq k delta
  unfold incrementBy
  split
  · rename_i hn
    rw [h, Option.map_eq_none_iff] at hn
    rw [lookup, entries, hn]
    rfl
  · rename_i n kv hs
    rw [h] at hs
    obtain ⟨c, hc, he⟩ := Option.map_eq_some_iff.mp hs
    obtain ⟨rfl, rfl⟩ := Prod.mk.inj he
    rw [lookup, entries, hc]
    rfl

/-! ## The key → value map -/

/-- A `set` on a store of any capacity: the key that gives way is gone. -/
theorem lookup_set_apply (s : Store) (k v x : Bytes) :
    (s.set k v).lookup x =
      if x = k then some v else if evicted s.capacity k s.entries = some x then none
        else s.lookup x := by
  rw [lookup, entries_set]
  exact s.unique.find_trim_put (fun hc => length_entries_le hc) k x v

theorem lookup_set (hc : s.capacity = 0) (k v : Bytes) :
    (s.set k v).lookup = Function.update s.lookup k (some v) := by
  funext x
  simp only [lookup, entries_set, hc, trim_zero, find_put, Function.update_apply]

@[simp] theorem lookup_get (s : Store) (k : Bytes) : (s.get k).2.lookup = s.lookup := by
  funext x
  unfold lookup
  rw [entries_get]
  split
  · rfl
  · rename_i v hv
    rw [find_put]
    split
    · rename_i hx; rw [hx]; exact hv.symm
    · rfl

@[simp] theorem lookup_del (s : Store) (k : Bytes) :
    (s.del k).2.lookup = Function.update s.lookup k none := by
  funext x
  simp only [lookup, entries_del, find_remove, Function.update_apply]

end Store

end TinyKV

import TinyKV.Storage.Store

/-!
# Whole runs of a `KVStore`

A store is made empty and then called any number of times. What the calls did before decides the
order of the list, and the order decides what a full store drops.

* `KVStore.Op`, `KVStore.apply`, `KVStore.after`: a call, the store after it, the store after a
  list of calls.
* `inv_after`: the representation invariant in every state. `representation` spells it out: the
  index has exactly the keys of the list and maps each to its node, and `forEach` visits what `get`
  finds.
* `KVStore.touched`, `KVStore.lastTouch`: the key that a call touches (a `set`, a `get` that finds
  it, an `incrementBy` that does not throw), and the number of the last call that touched a key.
* `stamped_after`: the list is in the order of the last touches. `lru_exact`: a full store drops the
  key with the oldest one.
-/

namespace TinyKV

open Cpp Recency

namespace KVStore

/-! ## Calls -/

/-- A call of a public member function. -/
inductive Op where
  | set (key value : Bytes)
  | get (key : Bytes)
  | del (key : Bytes)
  | «exists» (key : Bytes)
  | forEach
  | incrementBy (key : Bytes) (delta : Int)
  deriving DecidableEq, Repr

/-- The store after a call. An `incrementBy` that throws leaves it as it was. -/
def apply (s : KVStore) : Op → KVStore
  | .set key value => s.set key value
  | .get key => (s.get key).2
  | .del key => (s.del key).2
  | .exists _ => s
  | .forEach => s
  | .incrementBy key delta =>
    match s.incrementBy key delta with
    | some (_, s') => s'
    | none => s

/-- The store after the calls `ops` on an empty one. -/
def after (capacity : Nat) (ops : List Op) : KVStore := ops.foldl apply (empty capacity)

/-- The keys, the one used last first. -/
def keys (s : KVStore) : List Bytes := s.lru.map Node.key

/-- The key that a call touches. -/
def touched (s : KVStore) : Op → Option Bytes
  | .set key _ => some key
  | .get key => if (s.get key).1.isSome then some key else none
  | .incrementBy key delta => if (s.incrementBy key delta).isSome then some key else none
  | .del _ | .exists _ | .forEach => none

/-- The key that a call adds to the store. -/
def inserts (s : KVStore) : Op → Option Bytes
  | .set key _ => if key ∈ s.keys then none else some key
  | .incrementBy key delta =>
    if key ∉ s.keys ∧ (s.incrementBy key delta).isSome then some key else none
  | .get _ | .del _ | .exists _ | .forEach => none

/-- The key that call number `i` touches. -/
def touchedAt (capacity : Nat) (ops : List Op) (i : Nat) : Option Bytes :=
  (ops[i]?).bind (after capacity (ops.take i)).touched

/-- The number of the last call that touches `key`. -/
def lastTouch (capacity : Nat) (ops : List Op) (key : Bytes) : Option Nat :=
  ((List.range ops.length).filter fun i => touchedAt capacity ops i = some key).getLast?

@[simp] theorem after_nil (capacity : Nat) : after capacity [] = empty capacity := rfl

theorem after_snoc (capacity : Nat) (ops : List Op) (op : Op) :
    after capacity (ops ++ [op]) = (after capacity ops).apply op := by
  simp [after]

/-! ## The invariant -/

section Calls

variable {s : KVStore}

theorem keys_eq (s : KVStore) : s.keys = s.entries.map Prod.fst := (keys_entries s).symm

/-- What a call does to the pairs. -/
theorem Inv.apply_spec (h : s.Inv) (op : Op) :
    (s.apply op).Inv ∧ (s.apply op).capacity = s.capacity ∧
      (s.apply op).entries = match op with
        | .set k v => trim s.capacity (put k v s.entries)
        | .get k => touch k s.entries
        | .del k => remove k s.entries
        | .exists _ | .forEach => s.entries
        | .incrementBy k d =>
          match counter (find k s.entries) with
          | none => s.entries
          | some c => trim s.capacity (put k (to_string (wrap64 (c + d))) s.entries) := by
  cases op with
  | set k v => exact ⟨h.set k v, set_capacity s k v, h.set_entries k v⟩
  | get k =>
    obtain ⟨-, hinv, hcap, hentries⟩ := h.get_spec k
    refine ⟨hinv, hcap, ?_⟩
    show (s.get k).2.entries = touch k s.entries
    rw [hentries, touch]
    cases find k s.entries <;> rfl
  | del k => exact (h.del_spec k).2
  | «exists» k => exact ⟨h, rfl, rfl⟩
  | forEach => exact ⟨h, rfl, rfl⟩
  | incrementBy k d =>
    simp only [apply, h.incrementBy_eq]
    cases counter (find k s.entries) with
    | none => exact ⟨h, rfl, rfl⟩
    | some c => exact ⟨h.set _ _, set_capacity s _ _, h.set_entries _ _⟩

theorem inv_after (capacity : Nat) (ops : List Op) :
    (after capacity ops).Inv ∧ (after capacity ops).capacity = capacity := by
  induction ops using List.reverseRecOn with
  | nil => exact ⟨empty_inv capacity, rfl⟩
  | append_singleton ops op ih =>
    obtain ⟨hinv, hcap, -⟩ := ih.1.apply_spec op
    rw [after_snoc]
    exact ⟨hinv, hcap.trans ih.2⟩

/-- The index has exactly the keys of the list. -/
theorem Rep.mem_index_keys (h : s.Rep) (k : Bytes) : k ∈ s.index.keys ↔ k ∈ s.keys := by
  rw [Finmap.mem_keys, keys_eq, ← not_iff_not, ← Finmap.lookup_eq_none]
  exact h.index_none

/-- `index_.size()` is the length of the list. -/
theorem Rep.size_eq (h : s.Rep) : s.size = s.lru.length := by
  have hkeys : s.index.keys = s.keys.toFinset := by
    ext k
    rw [List.mem_toFinset]
    exact h.mem_index_keys k
  have hlen : s.keys.length = s.lru.length := List.length_map _
  rw [size, hkeys, List.toFinset_card_of_nodup (show s.keys.Nodup from h.keys), hlen]

/-- `forEach` visits a pair once if `get` finds it, and never otherwise. -/
theorem Inv.count_forEach (h : s.Inv) (k v : Bytes) :
    s.forEach.count (k, v) = if (s.get k).1 = some v then 1 else 0 := by
  have hnodup : s.entries.Nodup := List.Nodup.of_map Prod.fst h.unique
  rw [(h.get_spec k).1, show s.forEach = s.entries from rfl]
  split
  · rename_i hf
    exact List.count_eq_one_of_mem hnodup (h.unique.mem_iff.mpr hf)
  · rename_i hf
    exact List.count_eq_zero.mpr fun hm => hf (h.unique.mem_iff.mp hm)

end Calls

/-- **Representation invariant.** After any calls: no key is twice in the list; the index has
exactly the keys of the list and maps each to the node that holds it; list and index have the same
size, which is within the capacity; `forEach` visits each pair that `get` would return once, and
nothing else. -/
theorem representation (capacity : Nat) (ops : List Op) :
    (after capacity ops).keys.Nodup ∧
    (∀ k, k ∈ (after capacity ops).index.keys ↔ k ∈ (after capacity ops).keys) ∧
    (∀ k it, (after capacity ops).index.lookup k = some it →
      ∃ n ∈ (after capacity ops).lru, (after capacity ops).node? it = some n ∧ n.key = k) ∧
    (after capacity ops).size = (after capacity ops).lru.length ∧
    (capacity ≠ 0 → (after capacity ops).size ≤ capacity) ∧
    ∀ k v, (after capacity ops).forEach.count (k, v) =
      if ((after capacity ops).get k).1 = some v then 1 else 0 := by
  obtain ⟨h, hcap⟩ := inv_after capacity ops
  refine ⟨h.keys, h.mem_index_keys, fun k it hit => ?_, h.size_eq, fun hc => ?_, h.count_forEach⟩
  · obtain ⟨n, hn, -, hkey, hnode, -⟩ := h.node_value hit
    exact ⟨n, hn, hnode, hkey⟩
  · rw [h.size_eq]
    have := h.bound
    rw [hcap] at this
    exact this hc

/-! ## The last touch of a key -/

theorem touchedAt_snoc {capacity : Nat} {ops : List Op} {op : Op} {i : Nat} (hi : i ≤ ops.length) :
    touchedAt capacity (ops ++ [op]) i =
      if i = ops.length then (after capacity ops).touched op else touchedAt capacity ops i := by
  unfold touchedAt
  split
  · rename_i he
    subst he
    simp
  · have hlt : i < ops.length := by omega
    rw [List.getElem?_append_left hlt, List.take_append_of_le_length hi]

/-- A call that touches `key` is the last touch of it. -/
theorem lastTouch_snoc (capacity : Nat) (ops : List Op) (op : Op) (key : Bytes) :
    lastTouch capacity (ops ++ [op]) key =
      if (after capacity ops).touched op = some key then some ops.length
      else lastTouch capacity ops key := by
  have hbefore : ((List.range ops.length).filter fun i =>
      touchedAt capacity (ops ++ [op]) i = some key) =
      (List.range ops.length).filter fun i => touchedAt capacity ops i = some key := by
    refine List.filter_congr fun i hi => ?_
    have hlt := List.mem_range.mp hi
    rw [touchedAt_snoc hlt.le, if_neg (by omega)]
  unfold lastTouch
  rw [List.length_append, List.length_singleton, List.range_succ, List.filter_append, hbefore,
    List.filter_singleton, touchedAt_snoc (Nat.le_refl _), if_pos rfl]
  split
  · rename_i ht
    simp [ht]
  · rename_i ht
    simp [ht]

theorem lastTouch_lt {capacity : Nat} {ops : List Op} {key : Bytes} {i : Nat}
    (h : lastTouch capacity ops key = some i) : i < ops.length :=
  List.mem_range.mp (List.mem_of_mem_filter (List.mem_of_getLast? h))

section Calls

variable {s : KVStore}

/-- A call that touches `k` puts it in front. -/
theorem Inv.entries_of_touched (h : s.Inv) {op : Op} {k : Bytes} (ht : s.touched op = some k) :
    ∃ v, (s.apply op).entries = trim s.capacity (put k v s.entries) := by
  obtain ⟨-, -, hentries⟩ := h.apply_spec op
  rw [hentries]
  cases op with
  | set key v =>
    cases ht
    exact ⟨v, rfl⟩
  | get key =>
    obtain ⟨hfound, hk⟩ := Option.ite_none_right_eq_some.mp ht
    obtain rfl := Option.some.inj hk
    rw [(h.get_spec key).1] at hfound
    obtain ⟨v, hv⟩ := Option.isSome_iff_exists.mp hfound
    refine ⟨v, ?_⟩
    simp only [touch, hv, Option.elim_some]
    rw [trim_of_le]
    intro hc
    rw [h.unique.length_put_of_mem (List.mem_map_of_mem (mem_of_find hv))]
    simpa [entries] using h.bound hc
  | incrementBy key d =>
    obtain ⟨hok, hk⟩ := Option.ite_none_right_eq_some.mp ht
    cases hk
    rw [h.incrementBy_eq, Option.isSome_map] at hok
    obtain ⟨c, hc⟩ := Option.isSome_iff_exists.mp hok
    exact ⟨to_string (wrap64 (c + d)), by simp only [hc]⟩
  | del key | «exists» key | forEach => cases ht

/-- A call that touches no key changes nothing, if it is no `del`. -/
theorem Inv.apply_of_not_touched (h : s.Inv) {op : Op} (ht : s.touched op = none)
    (hdel : ∀ k, op ≠ .del k) : s.apply op = s := by
  cases op with
  | set key v => cases ht
  | get key =>
    have hmiss : (s.get key).1 = none := by simpa [touched] using ht
    have hindex : s.index.lookup key = none := by
      rw [(h.get_spec key).1, find_eq_none] at hmiss
      exact h.index_none.mpr hmiss
    simp [apply, get, hindex]
  | incrementBy key d =>
    have hthrow : s.incrementBy key d = none := by simpa [touched] using ht
    simp [apply, hthrow]
  | del key => exact absurd rfl (hdel key)
  | «exists» key | forEach => rfl

/-- A call adds the key that it touches, if the store does not have it. -/
theorem Inv.inserts_eq_some (h : s.Inv) {op : Op} {k : Bytes} :
    s.inserts op = some k ↔ s.touched op = some k ∧ k ∉ s.keys := by
  cases op with
  | set key v =>
    simp only [inserts, touched, Option.ite_none_left_eq_some, Option.some.injEq]
    grind
  | get key =>
    simp only [inserts, touched, reduceCtorEq, false_iff, not_and, not_not]
    intro ht
    obtain ⟨hfound, hk⟩ := Option.ite_none_right_eq_some.mp ht
    obtain rfl := Option.some.inj hk
    rw [(h.get_spec key).1] at hfound
    obtain ⟨v, hv⟩ := Option.isSome_iff_exists.mp hfound
    rw [keys_eq]
    exact List.mem_map_of_mem (mem_of_find hv)
  | incrementBy key d =>
    simp only [inserts, touched, Option.ite_none_right_eq_some, Option.some.injEq]
    grind
  | del key | «exists» key | forEach => simp [inserts, touched]

end Calls

/-- **The order of the list** is the order of the last touches. -/
theorem stamped_after (capacity : Nat) (ops : List Op) :
    Stamped (lastTouch capacity ops) (after capacity ops).entries := by
  induction ops using List.reverseRecOn with
  | nil => exact Stamped.nil
  | append_singleton ops op ih =>
    obtain ⟨h, -⟩ := inv_after capacity ops
    have hlast := lastTouch_snoc capacity ops op
    rw [after_snoc]
    cases ht : (after capacity ops).touched op with
    | some k =>
      obtain ⟨v, hentries⟩ := h.entries_of_touched ht
      have hput :
          Stamped (lastTouch capacity (ops ++ [op])) (put k v (after capacity ops).entries) := by
        refine ih.put (fun x i hi => lastTouch_lt hi) ?_ (fun x hx => ?_) v
        · rw [hlast, if_pos ht]
        · rw [hlast, if_neg fun he => hx (Option.some.inj (he.symm.trans ht))]
      rw [hentries]
      exact hput.sublist (trim_sublist _ _)
    | none =>
      have hsame : ∀ x, lastTouch capacity (ops ++ [op]) x = lastTouch capacity ops x := fun x => by
        rw [hlast, if_neg (by simp [ht])]
      have hsub : ((after capacity ops).apply op).entries.Sublist (after capacity ops).entries := by
        by_cases hdel : ∃ k, op = .del k
        · obtain ⟨k, rfl⟩ := hdel
          rw [(h.apply_spec (.del k)).2.2]
          exact remove_sublist k _
        · rw [h.apply_of_not_touched ht fun k hk => hdel ⟨k, hk⟩]
      exact (ih.sublist hsub).congr fun e _ => hsame e.1

/-! ## Eviction -/

/-- `old` is the present key with the oldest last touch. -/
def IsOldest (capacity : Nat) (ops : List Op) (old : Bytes) : Prop :=
  old ∈ (after capacity ops).keys ∧ ∃ i, lastTouch capacity ops old = some i ∧
    ∀ x ∈ (after capacity ops).keys, x ≠ old → ∃ j, lastTouch capacity ops x = some j ∧ i < j

section Calls

variable {s : KVStore}

theorem length_entries (s : KVStore) : s.entries.length = s.lru.length := List.length_map _

/-- A new key in a full store: the last key of the list gives way. -/
theorem Inv.keys_of_full (h : s.Inv) (hc : s.capacity ≠ 0) {op : Op} {k : Bytes}
    (hins : s.inserts op = some k) (hfull : s.size = s.capacity) :
    ∃ init e, s.entries = init ++ [e] ∧ (s.apply op).keys = k :: init.map Prod.fst := by
  obtain ⟨ht, hk⟩ := h.inserts_eq_some.mp hins
  obtain ⟨v, hentries⟩ := h.entries_of_touched ht
  have hlen : s.entries.length = s.capacity := by rw [length_entries, ← h.size_eq, hfull]
  obtain ⟨init, e, hsplit⟩ : ∃ init e, s.entries = init ++ [e] := by
    refine ⟨_, _, (List.dropLast_append_getLast (l := s.entries) fun hnil => hc ?_).symm⟩
    rw [← hlen, hnil, List.length_nil]
  rw [keys_eq, hsplit] at hk
  rw [hsplit, List.length_append, List.length_singleton] at hlen
  refine ⟨init, e, hsplit, ?_⟩
  rw [keys_eq, hentries, hsplit, ← hlen, trim_put_full hk]
  rfl

/-- A call that adds no key to a full store drops no key, if it is no `del` of it. -/
theorem Inv.eq_del_of_dropped (h : s.Inv) {op : Op}
    (hroom : ¬ ((s.inserts op).isSome ∧ s.size = s.capacity)) {x : Bytes} (hx : x ∈ s.keys)
    (hx' : x ∉ (s.apply op).keys) : op = .del x := by
  rw [keys_eq] at hx hx'
  cases ht : s.touched op with
  | some k =>
    obtain ⟨v, hentries⟩ := h.entries_of_touched ht
    have hlen : s.capacity ≠ 0 → (put k v s.entries).length ≤ s.capacity := by
      intro hc
      have hbound := h.bound hc
      rw [h.unique.length_put, length_entries]
      split
      · exact hbound
      · rename_i hk
        have hins := h.inserts_eq_some.mpr ⟨ht, by rwa [keys_eq]⟩
        have hsize : s.size ≠ s.capacity := fun he => hroom ⟨by rw [hins]; rfl, he⟩
        rw [h.size_eq] at hsize
        omega
    refine absurd ?_ hx'
    rw [hentries, trim_of_le hlen, put, List.map_cons, keys_remove]
    by_cases hxk : x = k
    · simp [hxk]
    · exact List.mem_cons_of_mem _ (List.mem_filter.mpr ⟨hx, by simpa using hxk⟩)
  | none =>
    by_cases hdel : ∃ k, op = .del k
    · obtain ⟨k, rfl⟩ := hdel
      rw [(h.apply_spec (.del k)).2.2, keys_remove] at hx'
      by_contra hne
      exact hx' (List.mem_filter.mpr ⟨hx, by simpa using fun he : x = k => hne (by rw [he])⟩)
    · rw [h.apply_of_not_touched ht fun k hk => hdel ⟨k, hk⟩] at hx'
      exact absurd hx hx'

end Calls

/-- **Exact LRU eviction.** After any calls on a store with a capacity, the list has the keys in
strictly decreasing order of their last touch. A call that adds a key to a full store drops exactly
one key, the one with the oldest last touch, and not the new one; no other call drops a key, a `del`
of it apart. A call that touches no key leaves everything as it was, if it is no `del`. -/
theorem lru_exact (capacity : Nat) (hc : 1 ≤ capacity) (ops : List Op) :
    (∃ times : List Nat,
      (after capacity ops).keys.map (lastTouch capacity ops) = times.map some ∧
        times.Pairwise (· > ·)) ∧
    (∀ op k, (after capacity ops).inserts op = some k → (after capacity ops).size = capacity →
      ∃ old, IsOldest capacity ops old ∧ old ≠ k ∧
        ∀ x, x ∈ (after capacity (ops ++ [op])).keys ↔
          x = k ∨ x ∈ (after capacity ops).keys ∧ x ≠ old) ∧
    (∀ op, ¬ (((after capacity ops).inserts op).isSome ∧ (after capacity ops).size = capacity) →
      ∀ x ∈ (after capacity ops).keys, x ∉ (after capacity (ops ++ [op])).keys → op = .del x) ∧
    ∀ op, (after capacity ops).touched op = none → (∀ k, op ≠ .del k) →
      after capacity (ops ++ [op]) = after capacity ops := by
  obtain ⟨h, hcap⟩ := inv_after capacity ops
  have hstamped := stamped_after capacity ops
  refine ⟨?_, fun op k hins hfull => ?_, fun op hroom x hx hx' => ?_, fun op ht hdel => ?_⟩
  · obtain ⟨times, htimes, hsorted⟩ := hstamped
    refine ⟨times, ?_, hsorted⟩
    rw [keys_eq, List.map_map, ← htimes]
    rfl
  · obtain ⟨init, e, hsplit, hkeys⟩ := h.keys_of_full (by omega) hins (by rw [hfull, hcap])
    have hnew := (h.inserts_eq_some.mp hins).2
    have hunique := h.unique
    rw [keys_eq, hsplit, List.map_append, List.map_singleton] at hnew
    rw [UniqueKeys, hsplit, List.map_append, List.map_singleton, List.nodup_append] at hunique
    rw [hsplit] at hstamped
    obtain ⟨i, hi, hlater⟩ := hstamped.oldest
    rw [after_snoc, hkeys]
    refine ⟨e.1, ⟨?_, i, hi, fun x hx hne => ?_⟩, fun he => hnew (by simp [he]), fun x => ?_⟩
    · simp [keys_eq, hsplit]
    · rw [keys_eq, hsplit, List.map_append, List.map_singleton, List.mem_append] at hx
      obtain ⟨p, hp, rfl⟩ := List.mem_map.mp (hx.resolve_right (by simpa using hne))
      exact hlater p hp
    · rw [keys_eq, hsplit, List.map_append, List.map_singleton]
      have hlast : ∀ y ∈ init.map Prod.fst, y ≠ e.1 := fun y hy => hunique.2.2 y hy e.1 (by simp)
      grind
  · rw [after_snoc] at hx'
    exact h.eq_del_of_dropped (by rw [hcap]; exact hroom) hx hx'
  · rw [after_snoc]
    exact h.apply_of_not_touched ht hdel

/-- The key that was read last stays; the other one gives way. -/
def readThenInsert : List Op :=
  [.set (ascii "a") (ascii "1"), .set (ascii "b") (ascii "2"), .get (ascii "a"),
    .get (ascii "none"), .incrementBy (ascii "a") 1]

theorem lru_exact_readThenInsert :
    IsOldest 2 readThenInsert (ascii "b") ∧
      (after 2 (readThenInsert ++ [.set (ascii "c") (ascii "3")])).keys = [ascii "c", ascii "a"] := by
  obtain ⟨-, hfull, -⟩ := lru_exact 2 (by decide) readThenInsert
  obtain ⟨old, hold, -, hkeys⟩ := hfull (.set (ascii "c") (ascii "3")) (ascii "c")
    (by decide +kernel) (by decide +kernel)
  have hgone : ascii "b" ∉ (after 2 (readThenInsert ++ [.set (ascii "c") (ascii "3")])).keys := by
    decide +kernel
  have hb : ascii "b" = old := by
    by_contra hne
    exact hgone ((hkeys _).mpr (.inr ⟨by decide +kernel, hne⟩))
  exact ⟨hb ▸ hold, by decide +kernel⟩

end KVStore

end TinyKV

import TinyKV.Storage.History

/-!
# Stores of different capacities

The same calls go to two stores, one of which may keep more. A `get` can find its key in the larger
store only, a `set` can overwrite there what it adds to the smaller one, and the two evict at
different times. Still the smaller store stays inside the larger one (`Recency.Nested`): the larger
one evicts only when the smaller one is full too, and then both drop the same key or the smaller one
has lost it before.

* `nested_apply`, `nested_after`: one call, and any calls.
* `lru_inclusion`: what this says of a client's `get`.
-/

namespace TinyKV

open Cpp Recency

namespace KVStore

/-- The value that a call stores does not depend on what the store holds. -/
def Op.IsPlain : Op → Prop
  | .incrementBy _ _ => False
  | .set _ _ | .get _ | .del _ | .exists _ | .forEach => True

instance : ∀ op : Op, Decidable op.IsPlain
  | .incrementBy _ _ => inferInstanceAs (Decidable False)
  | .set _ _ | .get _ | .del _ | .exists _ | .forEach => inferInstanceAs (Decidable True)

section

variable {c₁ c₂ : Nat}

theorem nested_apply {s t : KVStore} (hs : s.Inv) (ht : t.Inv) (hc₁ : s.capacity = c₁)
    (hc₂ : t.capacity = c₂) (hpos : 1 ≤ c₁) (hle : c₂ = 0 ∨ c₁ ≤ c₂)
    (h : Nested c₁ c₂ s.entries t.entries) {op : Op} (hop : op.IsPlain) :
    Nested c₁ c₂ (s.apply op).entries (t.apply op).entries := by
  rw [(hs.apply_spec op).2.2, (ht.apply_spec op).2.2, hc₁, hc₂]
  cases op with
  | set k v =>
    refine h.put ht.unique hpos hle ?_ (fun hc => ?_) k v
    · rw [length_entries, ← hc₁]
      exact hs.bound (by omega)
    · rw [length_entries, ← hc₂]
      exact ht.bound (by omega)
  | get k => exact h.touch ht.unique k
  | del k => exact h.remove ht.unique k
  | «exists» k | forEach => exact h
  | incrementBy k d => exact hop.elim

theorem nested_after (hpos : 1 ≤ c₁) (hle : c₂ = 0 ∨ c₁ ≤ c₂) {ops : List Op}
    (hops : ∀ op ∈ ops, op.IsPlain) :
    Nested c₁ c₂ (after c₁ ops).entries (after c₂ ops).entries := by
  induction ops using List.reverseRecOn with
  | nil => exact ⟨.refl _, fun _ => Nat.zero_le _⟩
  | append_singleton ops op ih =>
    obtain ⟨hs, hcap₁⟩ := inv_after c₁ ops
    obtain ⟨ht, hcap₂⟩ := inv_after c₂ ops
    rw [after_snoc, after_snoc]
    exact nested_apply hs ht hcap₁ hcap₂ hpos hle
      (ih fun o ho => hops o (List.mem_append_left _ ho)) (hops op (by simp))

/-- A smaller store answers a `get` as the larger one, or not at all. -/
theorem get_of_nested (hpos : 1 ≤ c₁) (hle : c₂ = 0 ∨ c₁ ≤ c₂) {ops : List Op}
    (hops : ∀ op ∈ ops, op.IsPlain) (k : Bytes) :
    ((after c₁ ops).get k).1 = none ∨ ((after c₁ ops).get k).1 = ((after c₂ ops).get k).1 := by
  have hs := (inv_after c₁ ops).1
  have ht := (inv_after c₂ ops).1
  rw [(hs.get_spec k).1, (ht.get_spec k).1]
  cases hf : find k (after c₁ ops).entries with
  | none => exact .inl rfl
  | some v =>
    have hmem := (nested_after hpos hle hops).sub.subset (mem_of_find hf)
    exact .inr (ht.unique.mem_iff.mp hmem).symm

end

/-- **LRU inclusion.** After the same calls on an empty store of capacity `c₁` and one of a larger
capacity `c₂` (or none): every pair of the smaller store is in the larger one, the keys that both
have stand in the same order, the larger store has at most `c₂ - c₁` pairs more, and a `get` on the
smaller store gives nothing, or what it would give on a store without a capacity. -/
theorem lru_inclusion (c₁ c₂ : Nat) (hpos : 1 ≤ c₁) (hle : c₂ = 0 ∨ c₁ ≤ c₂) (ops : List Op)
    (hops : ∀ op ∈ ops, op.IsPlain) :
    (∀ k v, (k, v) ∈ (after c₁ ops).entries → (k, v) ∈ (after c₂ ops).entries) ∧
    (after c₁ ops).keys = (after c₂ ops).keys.filter (fun x => x ∈ (after c₁ ops).keys) ∧
    (c₂ ≠ 0 → (after c₂ ops).size ≤ (after c₁ ops).size + (c₂ - c₁)) ∧
    ∀ k, ((after c₁ ops).get k).1 = none ∨ ((after c₁ ops).get k).1 = ((after 0 ops).get k).1 := by
  have h := nested_after hpos hle hops
  have hs := (inv_after c₁ ops).1
  have ht := (inv_after c₂ ops).1
  refine ⟨fun k v hm => h.sub.subset hm, ?_, fun hc => ?_, get_of_nested hpos (.inl rfl) hops⟩
  · simp only [keys_eq]
    convert h.keys_eq ht.unique
  · rw [hs.size_eq, ht.size_eq, ← length_entries, ← length_entries]
    exact h.near hc

/-- The read finds its key in the larger store only. -/
def readEvicted : List Op :=
  [.set (ascii "a") (ascii "1"), .set (ascii "b") (ascii "2"), .get (ascii "a"),
    .set (ascii "c") (ascii "3")]

theorem lru_inclusion_readEvicted :
    (after 1 readEvicted).keys = [ascii "c"] ∧ (after 2 readEvicted).keys = [ascii "c", ascii "a"] ∧
      ∀ k v, (k, v) ∈ (after 1 readEvicted).entries → (k, v) ∈ (after 2 readEvicted).entries :=
  ⟨by decide +kernel, by decide +kernel,
    (lru_inclusion 1 2 (by decide) (by decide) readEvicted (by decide)).1⟩

end KVStore

end TinyKV

import TinyKV.Sharding.Ring
import TinyKV.Lib.Mixing

/-!
# What `fnv1a64` tells apart

`src/sharding/consistent_hash_ring.cpp`. `fnv1a64` is a byte loop and a finalizer. The finalizer is
injective on 64-bit words (`finalize_injective`), so that it adds no collision to those of the loop.
The loop is injective in the register and in the byte (`hashByte_injective`), so that two strings of
one length that differ in one byte never collide.
-/

namespace TinyKV

open Mixing

/-- `hash ^= c; hash *= kPrime` -/
def hashByte (hash : UInt64) (c : UInt8) : UInt64 := (hash ^^^ c.toUInt64) * 1099511628211

/-- The byte loop. -/
def hashLoop (data : Bytes) : UInt64 := data.foldl hashByte 1469598103934665603

/-- The finalizer. -/
def finalize (hash : UInt64) : UInt64 :=
  let hash := hash ^^^ (hash >>> 33)
  let hash := hash * 0xff51afd7ed558ccd
  let hash := hash ^^^ (hash >>> 33)
  let hash := hash * 0xc4ceb9fe1a85ec53
  hash ^^^ (hash >>> 33)

theorem fnv1a64_eq (data : Bytes) : fnv1a64 data = finalize (hashLoop data) := rfl

/-! ## Words of 64 bits -/

theorem xorShift33_injective : Function.Injective fun x : UInt64 => x ^^^ (x >>> 33) := by
  intro x y h
  refine UInt64.toBitVec_inj.mp (xorShift_injective (k := 33) (by decide) ?_)
  simpa using congrArg UInt64.toBitVec h

theorem mul64_injective {m : UInt64} (hm : Odd m.toNat) :
    Function.Injective fun x : UInt64 => x * m := by
  intro x y h
  refine UInt64.toBitVec_inj.mp (mul_injective (m := m.toBitVec) hm ?_)
  simpa using congrArg UInt64.toBitVec h

theorem finalize_injective : Function.Injective finalize := by
  have h₁ : Odd (0xff51afd7ed558ccd : UInt64).toNat := by decide
  have h₂ : Odd (0xc4ceb9fe1a85ec53 : UInt64).toNat := by decide
  exact xorShift33_injective.comp ((mul64_injective h₂).comp
    (xorShift33_injective.comp ((mul64_injective h₁).comp xorShift33_injective)))

theorem prime_injective : Function.Injective fun x : UInt64 => x * 1099511628211 :=
  mul64_injective (by decide)

/-- The loop keeps registers apart, and bytes. -/
theorem hashByte_injective :
    (∀ c, Function.Injective fun hash => hashByte hash c) ∧
      ∀ hash, Function.Injective (hashByte hash) := by
  refine ⟨fun c x y h => ?_, fun hash c d h => ?_⟩
  · have hxor : x ^^^ c.toUInt64 = y ^^^ c.toUInt64 := prime_injective h
    exact UInt64.toBitVec_inj.mp ((BitVec.xor_left_inj _).mp (congrArg UInt64.toBitVec hxor))
  · have hxor : hash ^^^ c.toUInt64 = hash ^^^ d.toUInt64 := prime_injective h
    have hword : c.toUInt64 = d.toUInt64 :=
      UInt64.toBitVec_inj.mp ((BitVec.xor_right_inj _).mp (congrArg UInt64.toBitVec hxor))
    exact UInt8.toUInt64_inj.mp hword

/-- **The finalizer adds no collision**: two strings collide exactly if the values of the byte loop
are the same. Strings of one length that differ in exactly one byte do not collide. -/
theorem fnv1a64_collisions :
    (∀ a b : Bytes, fnv1a64 a = fnv1a64 b ↔ hashLoop a = hashLoop b) ∧
    ∀ a b : Bytes, a.length = b.length → (∃! i : Nat, a[i]? ≠ b[i]?) → fnv1a64 a ≠ fnv1a64 b := by
  have hiff : ∀ a b : Bytes, fnv1a64 a = fnv1a64 b ↔ hashLoop a = hashLoop b := fun a b => by
    rw [fnv1a64_eq, fnv1a64_eq, finalize_injective.eq_iff]
  refine ⟨hiff, fun a b hlen honce => ?_⟩
  obtain ⟨front, c, d, rest, rfl, rfl, hcd⟩ := exists_split_of_differ_once hlen honce
  rw [Ne, hiff]
  exact foldl_ne hashByte_injective.1 hashByte_injective.2 front hcd rest _

/-- Two keys that differ in the last byte. -/
theorem fnv1a64_collisions_lastByte : fnv1a64 (ascii "key1") ≠ fnv1a64 (ascii "key2") := by
  refine fnv1a64_collisions.2 _ _ (by decide) ⟨3, by decide, fun i hi => ?_⟩
  match i with
  | 0 | 1 | 2 => exact absurd rfl hi
  | 3 => rfl
  | _ + 4 => exact absurd rfl hi

end TinyKV

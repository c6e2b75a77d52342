import Mathlib.Data.Nat.ModEq
import Mathlib.Data.Nat.Prime.Basic

/-!
# Steps of a hash that lose nothing

A hash of a text runs a step for each character on a register and then mixes the register. No two
registers are mixed to the same value, if each operation is injective:

* `xorShift_injective`: `x ^ (x >> k)` for a positive shift `k`.
* `mul_injective`: the multiplication with an odd number modulo a power of two.
* `foldl_injective`: a loop of steps that are injective on the register.
* `foldl_ne`: if the step is injective in the character too, the loop tells texts apart that differ
  in one character.
-/

namespace Mixing

/-! ## Words -/

variable {w : Nat}

/-- A word that is a shift of itself is zero. -/
theorem eq_zero_of_shift {k : Nat} (hk : 0 < k) {d : BitVec w} (h : d >>> k = d) : d = 0#w := by
  have hdiv : d.toNat / 2 ^ k = d.toNat := by
    rw [← Nat.shiftRight_eq_div_pow, ← BitVec.toNat_ushiftRight, h]
  refine BitVec.eq_of_toNat_eq ?_
  rw [BitVec.toNat_zero]
  by_contra hpos
  have hlt : d.toNat / 2 ^ k < d.toNat :=
    Nat.div_lt_self (Nat.pos_of_ne_zero hpos) (Nat.one_lt_two_pow (Nat.ne_of_gt hk))
  omega

theorem xorShift_injective {k : Nat} (hk : 0 < k) :
    Function.Injective fun x : BitVec w => x ^^^ (x >>> k) := by
  intro x y h
  -- The difference of two words with one image is its own shift.
  have hself : (x ^^^ y) >>> k = x ^^^ y := by
    have hxor : x ^^^ y = (x >>> k) ^^^ (y >>> k) := by
      have hmove : ∀ a b c d : Bool, (a ^^ c) = (b ^^ d) → (a ^^ b) = (c ^^ d) := by decide
      ext i hi
      have hbit := congrArg (fun z => z[i]) h
      simp only [BitVec.getElem_xor] at hbit ⊢
      exact hmove _ _ _ _ hbit
    rw [BitVec.ushiftRight_xor_distrib, ← hxor]
  exact BitVec.xor_eq_zero_iff.mp (eq_zero_of_shift hk hself)

theorem mul_injective {m : BitVec w} (hm : Odd m.toNat) :
    Function.Injective fun x : BitVec w => x * m := by
  intro x y h
  have hmod : x.toNat * m.toNat ≡ y.toNat * m.toNat [MOD 2 ^ w] := by
    simpa [Nat.ModEq] using congrArg BitVec.toNat h
  have hcop : Nat.gcd (2 ^ w) m.toNat = 1 :=
    Nat.Coprime.pow_left w (Nat.coprime_two_left.mpr hm)
  have hxy := Nat.ModEq.cancel_right_of_coprime hcop hmod
  refine BitVec.eq_of_toNat_eq ?_
  rwa [Nat.ModEq, Nat.mod_eq_of_lt x.isLt, Nat.mod_eq_of_lt y.isLt] at hxy

/-! ## Loops -/

variable {α β : Type*} {step : β → α → β}

theorem foldl_injective (hstep : ∀ a, Function.Injective fun b => step b a) (l : List α) :
    Function.Injective fun b => l.foldl step b := by
  induction l with
  | nil => exact fun _ _ h => h
  | cons a l ih => exact fun b b' h => hstep a (ih h)

/-- One character is another: what comes after it cannot bring the registers together. -/
theorem foldl_ne (hstep : ∀ a, Function.Injective fun b => step b a)
    (hchar : ∀ b, Function.Injective (step b)) (front : List α) {c d : α} (hcd : c ≠ d)
    (rest : List α) (b : β) :
    (front ++ c :: rest).foldl step b ≠ (front ++ d :: rest).foldl step b := by
  intro h
  rw [List.foldl_append, List.foldl_append, List.foldl_cons, List.foldl_cons] at h
  exact hcd (hchar _ (foldl_injective hstep rest h))

/-- Two texts of one length that differ at one place. -/
theorem exists_split_of_differ_once {a b : List α} (hlen : a.length = b.length)
    (h : ∃! i : Nat, a[i]? ≠ b[i]?) :
    ∃ front c d rest, a = front ++ c :: rest ∧ b = front ++ d :: rest ∧ c ≠ d := by
  obtain ⟨i, hi, huniq⟩ := h
  have hsame : ∀ j, j ≠ i → a[j]? = b[j]? := fun j hj => by
    by_contra hne
    exact hj (huniq j hne)
  have hia : i < a.length := by
    by_contra hge
    exact hi (by rw [List.getElem?_eq_none (by omega), List.getElem?_eq_none (by omega)])
  have hib : i < b.length := hlen ▸ hia
  refine ⟨a.take i, a[i], b[i], a.drop (i + 1), ?_, ?_, ?_⟩
  · rw [← List.drop_eq_getElem_cons hia, List.take_append_drop]
  · have hfront : a.take i = b.take i := by
      refine List.ext_getElem? fun j => ?_
      rw [List.getElem?_take, List.getElem?_take]
      split
      · exact hsame j (by omega)
      · rfl
    have hrest : a.drop (i + 1) = b.drop (i + 1) := by
      refine List.ext_getElem? fun j => ?_
      rw [List.getElem?_drop, List.getElem?_drop]
      exact hsame _ (by omega)
    rw [hfront, hrest, ← List.drop_eq_getElem_cons hib, List.take_append_drop]
  · intro heq
    refine hi ?_
    rw [List.getElem?_eq_getElem hia, List.getElem?_eq_getElem hib, heq]

end Mixing

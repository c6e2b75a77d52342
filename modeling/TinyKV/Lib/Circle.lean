import Mathlib.Algebra.Group.Nat.Defs
import Mathlib.Data.List.Basic
import Mathlib.Data.List.Nodup

/-!
# Points on a circle

The 64-bit words as points on a circle, each point followed by the next word and the last one by
`0`. Some points carry a value; they are kept in a list in increasing order.

* `distance h p`: the steps from `h` up to `p`, past the top of the range if `p` is below `h`.
* `Nearest h e es`: `e` is at the first point of `es` at or after `h`.
* `clockwise h es`: search from `h` upward, else take the lowest point. In an increasing list this
  is the nearest one (`nearest_clockwise`), and there is only one (`Nearest.unique`).
-/

namespace Circle

variable {α : Type*}

/-- The steps from `h` up to `p`, around the circle. -/
def distance (h p : UInt64) : UInt64 := p - h

/-- The points are in increasing order. -/
def Increasing (es : List (UInt64 × α)) : Prop := es.Pairwise fun a b => a.1 < b.1

/-- `e` is at the first point of `es` at or after `h`. -/
def Nearest (h : UInt64) (e : UInt64 × α) (es : List (UInt64 × α)) : Prop :=
  e ∈ es ∧ ∀ e' ∈ es, distance h e.1 ≤ distance h e'.1

/-- The first entry at or after `h`, else the lowest one. -/
def clockwise (h : UInt64) (es : List (UInt64 × α)) : Option (UInt64 × α) :=
  (es.find? fun e => h ≤ e.1).or es.head?

/-! ## Distances -/

theorem toNat_distance (h p : UInt64) :
    (distance h p).toNat =
      if h ≤ p then p.toNat - h.toNat else 2 ^ 64 - h.toNat + p.toNat := by
  have hh := h.toNat_lt
  have hp := p.toNat_lt
  simp only [distance, UInt64.toNat_sub, UInt64.le_iff_toNat_le]
  split <;> omega

/-- Two points at or after `h`, or two points below it, are in the order of their words. -/
theorem distance_le {h p q : UInt64} (hpq : p ≤ q) (hside : h ≤ p ∨ q < h) :
    distance h p ≤ distance h q := by
  have hp := p.toNat_lt
  have hq := q.toNat_lt
  rw [UInt64.le_iff_toNat_le, toNat_distance, toNat_distance]
  rw [UInt64.le_iff_toNat_le, UInt64.lt_iff_toNat_lt] at hside
  rw [UInt64.le_iff_toNat_le] at hpq
  simp only [UInt64.le_iff_toNat_le]
  split <;> split <;> omega

/-- A point at or after `h` is before one below `h`. -/
theorem distance_le_of_wrap {h p q : UInt64} (hp : h ≤ p) (hq : q < h) :
    distance h p ≤ distance h q := by
  have := p.toNat_lt
  rw [UInt64.le_iff_toNat_le, toNat_distance, toNat_distance, if_pos hp,
    if_neg (UInt64.not_le.mpr hq)]
  rw [UInt64.le_iff_toNat_le] at hp
  rw [UInt64.lt_iff_toNat_lt] at hq
  omega

theorem distance_inj {h p q : UInt64} (he : distance h p = distance h q) : p = q :=
  (UInt64.sub_left_inj h).mp he

/-! ## The nearest point -/

section

variable {h : UInt64} {e e' : UInt64 × α} {es : List (UInt64 × α)}

theorem Increasing.eq_of_mem (hs : Increasing es) (he : e ∈ es) (he' : e' ∈ es)
    (hpos : e.1 = e'.1) : e = e' := by
  have hnodup : (es.map Prod.fst).Nodup := List.pairwise_map.mpr (hs.imp UInt64.ne_of_lt)
  exact List.inj_on_of_nodup_map hnodup he he' hpos

theorem Nearest.unique (hs : Increasing es) (he : Nearest h e es) (he' : Nearest h e' es) :
    e = e' := by
  refine hs.eq_of_mem he.1 he'.1 (distance_inj (h := h) ?_)
  exact UInt64.le_antisymm (he.2 e' he'.1) (he'.2 e he.1)

theorem clockwise_eq_none : clockwise h es = none ↔ es = [] := by
  cases es with
  | nil => simp [clockwise]
  | cons e es => simp [clockwise]

theorem nearest_clockwise (hs : Increasing es) (he : clockwise h es = some e) : Nearest h e es := by
  unfold clockwise at he
  cases hfind : es.find? fun e => h ≤ e.1 with
  | some d =>
    rw [hfind] at he
    cases he
    obtain ⟨hle, before, after, rfl, hbefore⟩ := List.find?_eq_some_iff_append.mp hfind
    have hle : h ≤ e.1 := by simpa using hle
    refine ⟨by simp, fun e' he' => ?_⟩
    rcases List.mem_append.mp he' with hm | hm
    · -- In front of the entry all points are below `h`.
      exact distance_le_of_wrap hle (by simpa using hbefore e' hm)
    · rcases List.mem_cons.mp hm with rfl | hm
      · exact UInt64.le_refl _
      · have hlt := (List.pairwise_cons.mp (List.pairwise_append.mp hs).2.1).1 e' hm
        exact distance_le (UInt64.le_of_lt hlt) (.inl hle)
  | none =>
    rw [hfind, Option.none_or] at he
    have hbelow : ∀ e' ∈ es, e'.1 < h := fun e' he' => by
      simpa using List.find?_eq_none.mp hfind e' he'
    cases es with
    | nil => cases he
    | cons d es =>
      cases he
      refine ⟨List.mem_cons_self, fun e' he' => ?_⟩
      rcases List.mem_cons.mp he' with rfl | hm
      · exact UInt64.le_refl _
      · exact distance_le (UInt64.le_of_lt ((List.pairwise_cons.mp hs).1 e' hm))
          (.inr (hbelow e' he'))

end

end Circle

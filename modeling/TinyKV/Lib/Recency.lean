import Mathlib.Data.List.Basic
import Mathlib.Data.List.Nodup

/-!
# Recency lists

A finite map kept as a list of pairs, the pair used last first, as a cache keeps it:

* `put k v es`: bind `k` to `v` and move it to the front.
* `remove k es`: drop `k`.
* `trim c es`: keep the first `c` pairs; `c = 0` is no limit.
* `find k es`: the value of `k`. `touch k es`: move it to the front, if it has one.
* `UniqueKeys es`: no key is bound twice. Every operation keeps it.
* `Stamped stamp es`: the keys stand in the order of their stamps, the latest first. A `put` with a
  later stamp than all others keeps it, so the last pair is the one with the oldest stamp.
* `Nested c₁ c₂ es fs`: a list under the limit `c₁` inside one under a larger limit `c₂`. The same
  operations on both keep it.
-/

namespace Recency

variable {κ β : Type*} [DecidableEq κ]

/-- Drop the pair of `k`. -/
def remove (k : κ) (es : List (κ × β)) : List (κ × β) := es.filter fun e => e.1 ≠ k

/-- Bind `k` to `v`, in front. -/
def put (k : κ) (v : β) (es : List (κ × β)) : List (κ × β) := (k, v) :: remove k es

/-- Keep the first `c` pairs; all of them if `c = 0`. -/
def trim (c : Nat) (es : List (κ × β)) : List (κ × β) := if c = 0 then es else es.take c

/-- The value of `k`. -/
def find (k : κ) : List (κ × β) → Option β
  | [] => none
  | e :: es => if k = e.1 then some e.2 else find k es

/-- Move `k` to the front, if it is bound. -/
def touch (k : κ) (es : List (κ × β)) : List (κ × β) := (find k es).elim es fun v => put k v es

/-- No key is bound twice. -/
def UniqueKeys (es : List (κ × β)) : Prop := (es.map Prod.fst).Nodup

omit [DecidableEq κ] in
@[simp] theorem trim_zero (es : List (κ × β)) : trim 0 es = es := rfl

/-! ## Keys -/

theorem mem_remove {k : κ} {e : κ × β} {es : List (κ × β)} :
    e ∈ remove k es ↔ e ∈ es ∧ e.1 ≠ k := by
  simp [remove]

theorem mem_put {k : κ} {v : β} {e : κ × β} {es : List (κ × β)} :
    e ∈ put k v es ↔ e = (k, v) ∨ e ∈ es ∧ e.1 ≠ k := by
  rw [put, List.mem_cons, mem_remove]

omit [DecidableEq κ] in
theorem trim_sublist (c : Nat) (es : List (κ × β)) : (trim c es).Sublist es := by
  unfold trim
  split
  · exact .refl es
  · exact List.take_sublist c es

omit [DecidableEq κ] in
theorem mem_of_mem_trim {c : Nat} {e : κ × β} {es : List (κ × β)} (h : e ∈ trim c es) :
    e ∈ es :=
  (trim_sublist c es).subset h

theorem remove_sublist (k : κ) (es : List (κ × β)) : (remove k es).Sublist es :=
  List.filter_sublist

theorem not_mem_keys_remove (k : κ) (es : List (κ × β)) :
    k ∉ (remove k es).map Prod.fst := by
  simp [remove]

/-- Without a pair of `k` nothing is dropped. -/
theorem remove_of_not_mem {k : κ} {es : List (κ × β)} (h : k ∉ es.map Prod.fst) :
    remove k es = es := by
  refine List.filter_eq_self.mpr fun e he => ?_
  simp only [ne_eq, decide_not, Bool.not_eq_true', decide_eq_false_iff_not]
  rintro rfl
  exact h (List.mem_map_of_mem he)

theorem UniqueKeys.remove {es : List (κ × β)} (h : UniqueKeys es) (k : κ) :
    UniqueKeys (remove k es) :=
  h.sublist ((remove_sublist k es).map Prod.fst)

theorem UniqueKeys.put {es : List (κ × β)} (h : UniqueKeys es) (k : κ) (v : β) :
    UniqueKeys (put k v es) :=
  List.nodup_cons.mpr ⟨not_mem_keys_remove k es, h.remove k⟩

omit [DecidableEq κ] in
theorem UniqueKeys.take {es : List (κ × β)} (h : UniqueKeys es) (n : Nat) :
    UniqueKeys (es.take n) :=
  h.sublist ((List.take_sublist n es).map Prod.fst)

omit [DecidableEq κ] in
theorem UniqueKeys.trim {es : List (κ × β)} (h : UniqueKeys es) (c : Nat) :
    UniqueKeys (trim c es) :=
  h.sublist ((trim_sublist c es).map Prod.fst)

/-! ## Lookup -/

@[simp] theorem find_nil (k : κ) : find k ([] : List (κ × β)) = none := rfl

theorem find_cons (x : κ) (e : κ × β) (es : List (κ × β)) :
    find x (e :: es) = if x = e.1 then some e.2 else find x es := rfl

theorem find_eq_none {k : κ} {es : List (κ × β)} :
    find k es = none ↔ k ∉ es.map Prod.fst := by
  induction es with
  | nil => simp
  | cons e es ih =>
    rw [find_cons, List.map_cons, List.mem_cons, not_or, ← ih]
    by_cases he : k = e.1 <;> simp [he]

theorem find_remove (k x : κ) (es : List (κ × β)) :
    find x (remove k es) = if x = k then none else find x es := by
  induction es with
  | nil => simp [remove]
  | cons e es ih =>
    simp only [remove] at ih
    by_cases he : e.1 = k
    · rw [remove, List.filter_cons_of_neg (by simp [he]), ih, find_cons, he]
      by_cases hx : x = k <;> simp [hx]
    · rw [remove, List.filter_cons_of_pos (by simp [he]), find_cons, ih, find_cons]
      by_cases hx : x = e.1 <;> simp [hx, he]

theorem find_put (k x : κ) (v : β) (es : List (κ × β)) :
    find x (put k v es) = if x = k then some v else find x es := by
  rw [put, find_cons, find_remove]
  by_cases hx : x = k <;> simp [hx]

theorem mem_of_find {k : κ} {v : β} {es : List (κ × β)} (h : find k es = some v) :
    (k, v) ∈ es := by
  induction es with
  | nil => cases h
  | cons e es ih =>
    rw [find_cons] at h
    split at h
    · rename_i hk
      cases h
      rw [hk]
      exact List.mem_cons_self
    · exact List.mem_cons_of_mem _ (ih h)

/-- In a list without doubles, a pair is what its key looks up. -/
theorem UniqueKeys.mem_iff {es : List (κ × β)} (h : UniqueKeys es) {k : κ} {v : β} :
    (k, v) ∈ es ↔ find k es = some v := by
  induction es with
  | nil => simp
  | cons e es ih =>
    obtain ⟨hn, h'⟩ := List.nodup_cons.mp h
    rw [List.mem_cons, ih h', find_cons]
    by_cases hk : k = e.1
    · subst hk
      have hno : find e.1 es = none := find_eq_none.mpr hn
      simp [hno, Prod.ext_iff, eq_comm]
    · simp [hk, Prod.ext_iff]

/-! ## Lengths -/

/-- A bound key that is dropped makes the list one shorter. -/
theorem UniqueKeys.length_remove {es : List (κ × β)} (h : UniqueKeys es) {k : κ}
    (hk : k ∈ es.map Prod.fst) : (Recency.remove k es).length + 1 = es.length := by
  induction es with
  | nil => simp at hk
  | cons e es ih =>
    obtain ⟨hn, h'⟩ := List.nodup_cons.mp h
    by_cases he : e.1 = k
    · subst he
      rw [Recency.remove, List.filter_cons_of_neg (by simp)]
      rw [show es.filter _ = es from remove_of_not_mem hn]
      simp
    · have hk' : k ∈ es.map Prod.fst := by
        rcases List.mem_cons.mp hk with rfl | hk
        · exact absurd rfl he
        · exact hk
      rw [Recency.remove, List.filter_cons_of_pos (by simp [he]), List.length_cons,
        List.length_cons]
      exact congrArg (· + 1) (ih h' hk')

theorem UniqueKeys.length_put_of_mem {es : List (κ × β)} (h : UniqueKeys es) {k : κ}
    (hk : k ∈ es.map Prod.fst) (v : β) : (Recency.put k v es).length = es.length := by
  rw [Recency.put, List.length_cons, h.length_remove hk]

omit [DecidableEq κ] in
/-- A list within the limit is not cut. -/
theorem trim_of_le {c : Nat} {es : List (κ × β)} (h : c ≠ 0 → es.length ≤ c) : trim c es = es := by
  unfold trim
  split
  · rfl
  · rename_i hc
    exact List.take_of_length_le (h hc)

/-- Pairs that are put one after the other, with no key twice and within the limit, end up in
front of what was there, the last one first. -/
theorem foldl_trim_put {c : Nat} {es acc : List (κ × β)} (h : UniqueKeys (es ++ acc))
    (hle : c ≠ 0 → (es ++ acc).length ≤ c) :
    es.foldl (fun acc e => trim c (put e.1 e.2 acc)) acc = es.reverse ++ acc := by
  induction es generalizing acc with
  | nil => rfl
  | cons e es ih =>
    have hswap : (es ++ e :: acc).Perm (e :: es ++ acc) := List.perm_middle
    have hnew : e.1 ∉ acc.map Prod.fst := by
      intro hm
      obtain ⟨p, hp, he⟩ := List.mem_map.mp hm
      exact (List.nodup_cons.mp h).1 (he ▸ List.mem_map_of_mem (List.mem_append_right es hp))
    have hput : trim c (put e.1 e.2 acc) = e :: acc := by
      rw [put, remove_of_not_mem hnew, trim_of_le]
      intro hc
      have := hle hc
      simp only [List.cons_append, List.length_cons, List.length_append] at this ⊢
      omega
    rw [List.foldl_cons, hput, ih ((hswap.map Prod.fst).nodup_iff.mpr h) fun hc =>
      le_of_eq_of_le hswap.length_eq (hle hc)]
    simp

omit [DecidableEq κ] in
/-- A list with two keys is not its own reverse. -/
theorem UniqueKeys.reverse_eq_iff {es : List (κ × β)} (h : UniqueKeys es) :
    es.reverse = es ↔ es.length ≤ 1 := by
  match es with
  | [] => simp
  | [e] => simp
  | e :: f :: es =>
    simp only [List.length_cons, Nat.reduceLeDiff, iff_false]
    intro heq
    -- The first pair would be the last one as well.
    have hlast : (f :: es).getLast? = some e := by
      have hhead := congrArg List.head? heq
      rwa [List.head?_reverse, List.getLast?_cons_cons, List.head?_cons] at hhead
    have hmem : e ∈ f :: es := List.mem_of_getLast? hlast
    exact (List.nodup_cons.mp h).1 (List.mem_map_of_mem hmem)

/-! ## Eviction -/

/-- The key that gives way when `k` is put into a list that may have `c` pairs. -/
def evicted (c : Nat) (k : κ) (es : List (κ × β)) : Option κ :=
  if c ≠ 0 ∧ c ≤ es.length ∧ k ∉ es.map Prod.fst then es.getLast?.map Prod.fst else none

/-- The evicted key was in the list and is not the one that is put. -/
theorem of_evicted {c : Nat} {k e : κ} {es : List (κ × β)} (h : evicted c k es = some e) :
    e ∈ es.map Prod.fst ∧ e ≠ k := by
  unfold evicted at h
  split at h
  · rename_i hev
    obtain ⟨p, hp, rfl⟩ := Option.map_eq_some_iff.mp h
    have hm : p.1 ∈ es.map Prod.fst := List.mem_map_of_mem (List.mem_of_getLast? hp)
    exact ⟨hm, fun he => hev.2.2 (he ▸ hm)⟩
  · cases h

theorem find_append (x : κ) (es fs : List (κ × β)) :
    find x (es ++ fs) = (find x es).or (find x fs) := by
  induction es with
  | nil => rfl
  | cons e es ih =>
    rw [List.cons_append, find_cons, find_cons, ih]
    split <;> rfl

/-- A new key put into a full list: the last pair gives way. -/
theorem trim_put_full {init : List (κ × β)} {e : κ × β} {k : κ}
    (hk : k ∉ (init ++ [e]).map Prod.fst) (v : β) :
    trim (init.length + 1) (put k v (init ++ [e])) = (k, v) :: init := by
  rw [put, remove_of_not_mem hk, trim, if_neg (by omega), List.take_succ_cons, List.take_left]

/-- A put into a list within the limit: the key is bound, the evicted one is gone, the others
stay. -/
theorem UniqueKeys.find_trim_put {es : List (κ × β)} (h : UniqueKeys es) {c : Nat}
    (hle : c ≠ 0 → es.length ≤ c) (k x : κ) (v : β) :
    find x (Recency.trim c (Recency.put k v es)) =
      if x = k then some v else if evicted c k es = some x then none else find x es := by
  by_cases hev : c ≠ 0 ∧ c ≤ es.length ∧ k ∉ es.map Prod.fst
  · rw [evicted, if_pos hev]
    obtain ⟨hc, hlen, hk⟩ := hev
    obtain ⟨init, e, rfl⟩ : ∃ init e, es = init ++ [e] := by
      refine ⟨_, _, (List.dropLast_append_getLast (l := es) ?_).symm⟩
      rintro rfl
      exact hc (Nat.le_zero.mp hlen)
    have hinit : c = init.length + 1 := by
      have := hle hc
      simp only [List.length_append, List.length_singleton] at this hlen
      omega
    have htrim : Recency.trim c (Recency.put k v (init ++ [e])) = (k, v) :: init := by
      rw [hinit, trim_put_full hk]
    have hlast : e.1 ∉ init.map Prod.fst := by
      intro hm
      have hd := h
      rw [UniqueKeys, List.map_append, List.map_singleton] at hd
      exact (List.nodup_append.mp hd).2.2 _ hm _ (List.mem_singleton.mpr rfl) rfl
    rw [htrim, find_cons, find_append, List.getLast?_concat, Option.map_some]
    by_cases hx : x = e.1
    · subst hx
      simp [find_eq_none.mpr hlast]
    · simp [hx, Ne.symm hx, find_cons]
  · have hput : c ≠ 0 → (Recency.put k v es).length ≤ c := by
      intro hc
      by_cases hk : k ∈ es.map Prod.fst
      · rw [h.length_put_of_mem hk]
        exact hle hc
      · rw [Recency.put, remove_of_not_mem hk, List.length_cons]
        have : ¬ c ≤ es.length := fun hl => hev ⟨hc, hl, hk⟩
        omega
    rw [trim_of_le hput, find_put, evicted, if_neg hev]
    simp

/-- The keys of a list that was cut are the keys that are still bound. -/
theorem UniqueKeys.keys_trim {es : List (κ × β)} (h : UniqueKeys es) (c : Nat) :
    (Recency.trim c es).map Prod.fst =
      (es.map Prod.fst).filter fun x => (find x (Recency.trim c es)).isSome := by
  have hbound : ∀ {fs : List (κ × β)} {x}, (find x fs).isSome = true ↔ x ∈ fs.map Prod.fst := by
    intro fs x
    rw [Option.isSome_iff_ne_none, Ne, find_eq_none, not_not]
  unfold Recency.trim
  split
  · rw [List.filter_eq_self.mpr fun x hx => hbound.mpr hx]
  · have hsplit : es.map Prod.fst = (es.take c).map Prod.fst ++ (es.drop c).map Prod.fst := by
      rw [← List.map_append, List.take_append_drop]
    have hd : ((es.take c).map Prod.fst ++ (es.drop c).map Prod.fst).Nodup := hsplit ▸ h
    conv_rhs => rw [hsplit, List.filter_append]
    rw [List.filter_eq_self.mpr fun x hx => hbound.mpr hx, List.filter_eq_nil_iff.mpr,
      List.append_nil]
    intro x hx hf
    exact (List.nodup_append.mp hd).2.2 x (hbound.mp hf) x hx rfl

theorem keys_remove (k : κ) (es : List (κ × β)) :
    (remove k es).map Prod.fst = (es.map Prod.fst).filter fun x => x ≠ k := by
  rw [remove, List.filter_map]
  rfl

/-- Lists without doubles that bind the same keys are equally long. -/
theorem UniqueKeys.length_eq {es fs : List (κ × β)} (h : UniqueKeys es) (h' : UniqueKeys fs)
    (hf : ∀ x, find x es = find x fs) : es.length = fs.length := by
  have hperm : (es.map Prod.fst).Perm (fs.map Prod.fst) := by
    refine (List.perm_ext_iff_of_nodup h h').mpr fun x => ?_
    rw [← not_iff_not, ← find_eq_none, ← find_eq_none, hf]
  simpa using hperm.length_eq

/-! ## Stamps -/

/-- The keys stand in the order of their stamps, the latest first. -/
def Stamped (stamp : κ → Option Nat) (es : List (κ × β)) : Prop :=
  ∃ times : List Nat, es.map (fun e => stamp e.1) = times.map some ∧ times.Pairwise (· > ·)

section Stamps

variable {stamp stamp' : κ → Option Nat} {es fs : List (κ × β)}

omit [DecidableEq κ] in
theorem Stamped.nil : Stamped stamp ([] : List (κ × β)) := ⟨[], rfl, .nil⟩

omit [DecidableEq κ] in
theorem Stamped.sublist (h : Stamped stamp fs) (hs : es.Sublist fs) : Stamped stamp es := by
  obtain ⟨times, htimes, hsorted⟩ := h
  have hmap := hs.map fun e => stamp e.1
  rw [htimes] at hmap
  obtain ⟨times', hsub, heq⟩ := List.sublist_map_iff.mp hmap
  exact ⟨times', heq, hsorted.sublist hsub⟩

omit [DecidableEq κ] in
theorem Stamped.congr (h : Stamped stamp es) (he : ∀ e ∈ es, stamp' e.1 = stamp e.1) :
    Stamped stamp' es := by
  obtain ⟨times, htimes, hsorted⟩ := h
  exact ⟨times, (List.map_congr_left he).trans htimes, hsorted⟩

/-- A key that is put in front gets a later stamp than all others. -/
theorem Stamped.put (h : Stamped stamp es) {k : κ} {n : Nat}
    (hlt : ∀ x i, stamp x = some i → i < n) (hk : stamp' k = some n)
    (hne : ∀ x, x ≠ k → stamp' x = stamp x) (v : β) : Stamped stamp' (Recency.put k v es) := by
  have hrest : Stamped stamp (Recency.remove k es) := h.sublist (remove_sublist k es)
  obtain ⟨times, htimes, hsorted⟩ := hrest.congr fun e he => hne e.1 (mem_remove.mp he).2
  refine ⟨n :: times, by simp [Recency.put, hk, htimes],
    List.pairwise_cons.mpr ⟨fun i hi => ?_, hsorted⟩⟩
  have hmem : some i ∈ (Recency.remove k es).map fun e => stamp' e.1 := by
    rw [htimes]
    exact List.mem_map_of_mem hi
  obtain ⟨e, he, hstamp⟩ := List.mem_map.mp hmem
  rw [hne e.1 (mem_remove.mp he).2] at hstamp
  exact hlt e.1 i hstamp

omit [DecidableEq κ] in
/-- The last pair has the oldest stamp. -/
theorem Stamped.oldest {init : List (κ × β)} {e : κ × β} (h : Stamped stamp (init ++ [e])) :
    ∃ i, stamp e.1 = some i ∧ ∀ x ∈ init, ∃ j, stamp x.1 = some j ∧ i < j := by
  obtain ⟨times, htimes, hsorted⟩ := h
  rw [List.map_append, List.map_singleton] at htimes
  obtain ⟨before, last, rfl, hbefore, hlast⟩ := List.append_eq_map_iff.mp htimes
  obtain ⟨i, rfl, hi⟩ := List.map_eq_singleton_iff.mp hlast
  refine ⟨i, hi.symm, fun x hx => ?_⟩
  have hmem : stamp x.1 ∈ before.map some := by
    rw [hbefore]
    exact List.mem_map_of_mem hx
  obtain ⟨j, hj, hstamp⟩ := List.mem_map.mp hmem
  exact ⟨j, hstamp.symm, (List.pairwise_append.mp hsorted).2.2 j hj i (by simp)⟩

end Stamps

/-! ## Two limits -/

/-- The list `es` under the limit `c₁` is inside `fs`, which has the larger limit `c₂` (`0` is no
limit) and at most as many pairs more as its limit is larger. -/
structure Nested (c₁ c₂ : Nat) (es fs : List (κ × β)) : Prop where
  sub : es.Sublist fs
  near : c₂ ≠ 0 → fs.length ≤ es.length + (c₂ - c₁)

section Nested

variable {c₁ c₂ : Nat} {es fs : List (κ × β)}

omit [DecidableEq κ] in
theorem sublist_dropLast (h : es.Sublist fs) : es.dropLast.Sublist fs.dropLast := by
  have ht := (List.reverse_sublist.mpr h).tail
  rw [List.tail_reverse, List.tail_reverse] at ht
  exact List.reverse_sublist.mp ht

theorem put_sublist (h : es.Sublist fs) (k : κ) (v : β) : (put k v es).Sublist (put k v fs) :=
  (h.filter _).cons_cons _

theorem UniqueKeys.length_put (h : UniqueKeys es) (k : κ) (v : β) :
    (Recency.put k v es).length = es.length + if k ∈ es.map Prod.fst then 0 else 1 := by
  split
  · rename_i hk
    exact h.length_put_of_mem hk v
  · rename_i hk
    rw [Recency.put, remove_of_not_mem hk, List.length_cons]

/-- The same pair put into both. -/
theorem Nested.put (h : Nested c₁ c₂ es fs) (hu : UniqueKeys fs) (hpos : 1 ≤ c₁)
    (hle : c₂ = 0 ∨ c₁ ≤ c₂) (hes : es.length ≤ c₁) (hfs : c₂ ≠ 0 → fs.length ≤ c₂) (k : κ) (v : β) :
    Nested c₁ c₂ (Recency.trim c₁ (Recency.put k v es)) (Recency.trim c₂ (Recency.put k v fs)) := by
  have hkeys : k ∈ es.map Prod.fst → k ∈ fs.map Prod.fst := fun hk => (h.sub.map _).subset hk
  have hsmall := UniqueKeys.length_put (hu.sublist (h.sub.map _)) k v
  have hlarge := hu.length_put k v
  have hsub := put_sublist h.sub k v
  have htrim : Recency.trim c₁ (Recency.put k v es) = (Recency.put k v es).take c₁ :=
    if_neg (by omega)
  rw [htrim]
  by_cases hc : c₂ = 0
  · subst hc
    exact ⟨(List.take_sublist _ _).trans hsub, fun h0 => absurd rfl h0⟩
  · have hnear := h.near hc
    have hle := hle.resolve_left hc
    have hfs := hfs hc
    rw [Recency.trim, if_neg hc]
    refine ⟨?_, fun _ => ?_⟩
    · by_cases hcut : (Recency.put k v fs).length ≤ c₂
      · rw [List.take_of_length_le hcut]
        exact (List.take_sublist _ _).trans hsub
      · -- The larger list is full and `k` is new to it, so the smaller one is full too: both drop
        -- their last pair.
        have hnew : k ∉ fs.map Prod.fst := by
          intro hk
          rw [if_pos hk] at hlarge
          omega
        rw [if_neg hnew] at hlarge
        rw [if_neg fun hk => hnew (hkeys hk)] at hsmall
        have e₁ : c₁ = (Recency.put k v es).length - 1 := by omega
        have e₂ : c₂ = (Recency.put k v fs).length - 1 := by omega
        rw [e₁, e₂, ← List.dropLast_eq_take, ← List.dropLast_eq_take]
        exact sublist_dropLast hsub
    · rw [List.length_take, List.length_take, hsmall, hlarge]
      by_cases hk : k ∈ fs.map Prod.fst
      · rw [if_pos hk]
        omega
      · rw [if_neg hk, if_neg fun hk' => hk (hkeys hk')]
        omega

/-- The same key dropped from both. -/
theorem Nested.remove (h : Nested c₁ c₂ es fs) (hu : UniqueKeys fs) (k : κ) :
    Nested c₁ c₂ (Recency.remove k es) (Recency.remove k fs) := by
  refine ⟨h.sub.filter _, fun hc => ?_⟩
  have hnear := h.near hc
  by_cases hk : k ∈ es.map Prod.fst
  · have hsmall := UniqueKeys.length_remove (hu.sublist (h.sub.map _)) hk
    have hlarge := hu.length_remove ((h.sub.map _).subset hk)
    omega
  · rw [remove_of_not_mem hk]
    have := (remove_sublist k fs).length_le
    omega

theorem UniqueKeys.length_touch (h : UniqueKeys es) (k : κ) :
    (Recency.touch k es).length = es.length := by
  unfold Recency.touch
  cases hf : find k es with
  | none => rfl
  | some v => exact h.length_put_of_mem (List.mem_map_of_mem (mem_of_find hf)) v

/-- A key moved to the front wherever it is bound. -/
theorem Nested.touch (h : Nested c₁ c₂ es fs) (hu : UniqueKeys fs) (k : κ) :
    Nested c₁ c₂ (Recency.touch k es) (Recency.touch k fs) := by
  have hu' : UniqueKeys es := hu.sublist (h.sub.map _)
  refine ⟨?_, fun hc => ?_⟩
  · unfold Recency.touch
    cases hes : find k es with
    | some v =>
      rw [hu.mem_iff.mp (h.sub.subset (mem_of_find hes))]
      exact put_sublist h.sub k v
    | none =>
      cases find k fs with
      | none => exact h.sub
      | some v =>
        -- The smaller list lost the key earlier: it stays, and the larger one moves it.
        rw [← remove_of_not_mem (find_eq_none.mp hes)]
        exact (h.sub.filter _).cons _
  · rw [hu.length_touch, hu'.length_touch]
    exact h.near hc

/-- The keys of the smaller list, in the order of the larger one. -/
theorem Nested.keys_eq (h : Nested c₁ c₂ es fs) (hu : UniqueKeys fs) :
    es.map Prod.fst = (fs.map Prod.fst).filter fun x => x ∈ es.map Prod.fst := by
  have hsub : (es.map Prod.fst).Sublist ((fs.map Prod.fst).filter fun x => x ∈ es.map Prod.fst) := by
    have hfilter := (h.sub.map Prod.fst).filter fun x => decide (x ∈ es.map Prod.fst)
    rwa [List.filter_eq_self.mpr fun x hx => decide_eq_true hx] at hfilter
  have hnodup : ((fs.map Prod.fst).filter fun x => decide (x ∈ es.map Prod.fst)).Nodup := hu.filter _
  refine hsub.eq_of_length (List.Perm.length_eq ?_)
  refine (List.perm_ext_iff_of_nodup (hnodup.sublist hsub) hnodup).mpr fun x => ?_
  exact ⟨fun hx => hsub.subset hx, fun hx => of_decide_eq_true (List.mem_filter.mp hx).2⟩

end Nested

end Recency

import Mathlib.Logic.Function.Basic
import Mathlib.Data.List.Basic

/-!
# Keyed updates

A state with one cell for each key (`κ → β`), and updates that each rewrite one cell by an
operation on its content (`app : ω → β → β`). What a list of updates does to a cell depends only
on the operations on that cell, in their order (`run_apply`), so a property of a log can be shown
one key at a time. An update can be moved before updates with which it commutes
(`run_move_front`).

A state can be split over several parts, with each key in the part that it is placed in
(`Split`). An update of a key in its part is an update of the whole (`Split.update`).
-/

namespace Keyed

variable {κ ω β : Type*} [DecidableEq κ] (app : ω → β → β)

/-- One update. -/
def step (m : κ → β) (u : κ × ω) : κ → β := Function.update m u.1 (app u.2 (m u.1))

/-- A list of updates, the first one first. -/
def run (m : κ → β) (us : List (κ × ω)) : κ → β := us.foldl (step app) m

/-- The operations on the cell of `k`, in their order. -/
def opsAt (k : κ) (us : List (κ × ω)) : List ω := (us.filter fun u => u.1 = k).map Prod.snd

/-- What operations do to one cell. -/
def runCell (x : β) (ops : List ω) : β := ops.foldl (fun y o => app o y) x

@[simp] theorem run_nil (m : κ → β) : run app m [] = m := rfl

@[simp] theorem run_cons (m : κ → β) (u : κ × ω) (us : List (κ × ω)) :
    run app m (u :: us) = run app (step app m u) us := rfl

theorem run_append (m : κ → β) (us vs : List (κ × ω)) :
    run app m (us ++ vs) = run app (run app m us) vs := List.foldl_append

omit [DecidableEq κ] in
@[simp] theorem runCell_nil (x : β) : runCell app x [] = x := rfl

omit [DecidableEq κ] in
@[simp] theorem runCell_cons (x : β) (o : ω) (ops : List ω) :
    runCell app x (o :: ops) = runCell app (app o x) ops := rfl

theorem opsAt_cons (k : κ) (u : κ × ω) (us : List (κ × ω)) :
    opsAt k (u :: us) = if u.1 = k then u.2 :: opsAt k us else opsAt k us := by
  unfold opsAt
  split
  · rename_i h; rw [List.filter_cons_of_pos (by simp [h])]; rfl
  · rename_i h; rw [List.filter_cons_of_neg (by simp [h])]

theorem opsAt_append (k : κ) (us vs : List (κ × ω)) :
    opsAt k (us ++ vs) = opsAt k us ++ opsAt k vs := by
  rw [opsAt, List.filter_append, List.map_append]
  rfl

theorem mem_opsAt {k : κ} {o : ω} {us : List (κ × ω)} : o ∈ opsAt k us ↔ (k, o) ∈ us := by
  simp [opsAt]

/-- A cell after a list of updates. -/
theorem run_apply (m : κ → β) (us : List (κ × ω)) (k : κ) :
    run app m us k = runCell app (m k) (opsAt k us) := by
  induction us generalizing m with
  | nil => rfl
  | cons u us ih =>
    rw [run_cons, ih, opsAt_cons]
    by_cases h : u.1 = k
    · subst h
      simp [step]
    · simp [h, step, Function.update_of_ne (Ne.symm h)]

/-- Two updates of one cell commute, or they are on two cells. -/
def Commutes (u v : κ × ω) : Prop :=
  u.1 = v.1 → ∀ x, app u.2 (app v.2 x) = app v.2 (app u.2 x)

variable {app}

theorem step_comm {u v : κ × ω} (h : Commutes app u v) (m : κ → β) :
    step app (step app m u) v = step app (step app m v) u := by
  unfold step
  by_cases hk : u.1 = v.1
  · rw [hk, Function.update_self, Function.update_self, Function.update_idem,
      Function.update_idem, h hk]
  · rw [Function.update_of_ne (Ne.symm hk), Function.update_of_ne hk, Function.update_comm hk]

/-- An update can be moved before updates with which it commutes. -/
theorem run_move_front {us : List (κ × ω)} {v : κ × ω} (h : ∀ u ∈ us, Commutes app u v)
    (m : κ → β) : run app m (us ++ [v]) = run app m (v :: us) := by
  induction us generalizing m with
  | nil => rfl
  | cons u us ih =>
    rw [List.cons_append, run_cons, ih fun u' hu => h u' (List.mem_cons_of_mem _ hu), run_cons,
      run_cons, run_cons, step_comm (h u List.mem_cons_self)]

/-! ## Split states -/

section Split

variable {σ : Type*} [DecidableEq σ]

omit [DecidableEq κ] [DecidableEq σ] in
/-- The parts hold `whole`, each key in the part that it is placed in. -/
def Split (place : κ → σ) (parts : σ → κ → β) (whole : κ → β) : Prop :=
  ∀ k, parts (place k) k = whole k

theorem Split.update {place : κ → σ} {parts : σ → κ → β} {whole : κ → β}
    (h : Split place parts whole) (k : κ) (x : β) :
    Split place (Function.update parts (place k) (Function.update (parts (place k)) k x))
      (Function.update whole k x) := by
  intro k'
  by_cases hk : k' = k
  · subst hk
    simp only [Function.update_self]
  · rw [Function.update_of_ne hk, ← h k']
    by_cases hp : place k' = place k
    · rw [hp, Function.update_self, Function.update_of_ne hk]
    · rw [Function.update_of_ne hp]

end Split

end Keyed

import Mathlib.Algebra.GroupWithZero.Nat
import Mathlib.Data.List.Induction
import Mathlib.Data.Option.Basic

/-!
# Machines and their runs

A machine takes actions. An action that is not enabled in a state has no step; an enabled one
gives the next state and an output. A system of several parties is a machine too: its actions say
which party moves, so a list of actions is a schedule, and a statement about every run is a
statement about every interleaving.

* `Machine.run`: the state after a list of actions, with the outputs; `none` if one of the
  actions is not enabled where it is taken.
* `Machine.Along C`: every step that a run takes meets the condition `C` on the state before it
  and the action.
* `Machine.run_invariant`: what every step keeps holds after every run.
* `Machine.run_history`: the same with the actions and outputs so far.
* `Machine.forall_prefix_iff_along`: if a step outside of `C` always breaks a property, then the
  property holds all along a run exactly if the run is along `C`.
* `Machine.run_progress`: if what every step keeps enables the next action, every run goes through.
* `Machine.run_potential`: if each step costs at most what a potential loses and the action brings
  in, then so does a run. A party whose steps cost one stops for want of potential.
* `Machine.run_simulates`: a machine that follows another one step by step, with the same outputs,
  follows its runs.
* `Machine.run_erase`: a run without the actions that leave no trace.
* `Machine.collect f`: what `f` reads off the steps of a run, in order.
-/

/-- A machine with states `σ`, actions `ι` and outputs `ο`. -/
structure Machine (σ ι ο : Type*) where
  step : σ → ι → Option (σ × ο)

namespace Machine

variable {σ τ ι ο β : Type*} (M : Machine σ ι ο)

/-- The state after the actions `is`, with the outputs of the steps. -/
def run : σ → List ι → Option (σ × List ο)
  | s, [] => some (s, [])
  | s, i :: is =>
    match M.step s i with
    | none => none
    | some (s', o) =>
      match run s' is with
      | none => none
      | some (t, os) => some (t, o :: os)

/-- Every step of the run of `is` from `s` meets `C`. -/
def Along (C : σ → ι → Prop) : σ → List ι → Prop
  | _, [] => True
  | s, i :: is => C s i ∧ ∀ s' o, M.step s i = some (s', o) → Along C s' is

/-- A condition that can be decided at each step can be decided along a run. -/
instance decidableAlong (C : σ → ι → Prop) [∀ s i, Decidable (C s i)] :
    ∀ (s : σ) (is : List ι), Decidable (M.Along C s is)
  | _, [] => isTrue trivial
  | s, i :: is =>
    match h : M.step s i with
    | none => decidable_of_iff (C s i) ⟨fun hc => ⟨hc, by simp [h]⟩, fun hc => hc.1⟩
    | some (s', o) =>
      have := decidableAlong C s' is
      decidable_of_iff (C s i ∧ M.Along C s' is)
        ⟨fun hc => ⟨hc.1, by rintro _ _ he; rw [h] at he; cases he; exact hc.2⟩,
          fun hc => ⟨hc.1, hc.2 s' o h⟩⟩

/-- What `f` reads off the steps of the run of `is` from `s`, in order. -/
def collect (f : σ → ι → Option β) : σ → List ι → List β
  | _, [] => []
  | s, i :: is =>
    match M.step s i with
    | none => []
    | some (s', _) => (f s i).toList ++ collect f s' is

variable {M}

@[simp] theorem run_nil {s : σ} : M.run s [] = some (s, []) := rfl

/-- A run that starts with `i`: one step, then the rest. -/
theorem run_cons {s t : σ} {i : ι} {is : List ι} {os : List ο} :
    M.run s (i :: is) = some (t, os) ↔
      ∃ s' o os', M.step s i = some (s', o) ∧ M.run s' is = some (t, os') ∧ os = o :: os' := by
  constructor
  · intro h
    simp only [run] at h
    split at h
    · cases h
    · rename_i s' o hs
      split at h
      · cases h
      · rename_i t' os' hr
        cases h
        exact ⟨s', o, os', hs, hr, rfl⟩
  · rintro ⟨s', o, os', hs, hr, rfl⟩
    simp [run, hs, hr]

theorem run_append {s t : σ} {is js : List ι} {os : List ο} :
    M.run s (is ++ js) = some (t, os) ↔
      ∃ u os₁ os₂, M.run s is = some (u, os₁) ∧ M.run u js = some (t, os₂) ∧ os = os₁ ++ os₂ := by
  induction is generalizing s os with
  | nil =>
    constructor
    · intro h; exact ⟨s, [], os, rfl, h, rfl⟩
    · rintro ⟨u, os₁, os₂, h₁, h₂, rfl⟩
      cases h₁
      exact h₂
  | cons i is ih =>
    rw [List.cons_append, run_cons]
    constructor
    · rintro ⟨s', o, os', hs, hr, rfl⟩
      obtain ⟨u, os₁, os₂, h₁, h₂, rfl⟩ := ih.mp hr
      exact ⟨u, o :: os₁, os₂, run_cons.mpr ⟨s', o, os₁, hs, h₁, rfl⟩, h₂, rfl⟩
    · rintro ⟨u, os₁, os₂, h₁, h₂, rfl⟩
      obtain ⟨s', o, os', hs, hr, rfl⟩ := run_cons.mp h₁
      exact ⟨s', o, os' ++ os₂, hs, ih.mpr ⟨u, os', os₂, hr, h₂, rfl⟩, rfl⟩

theorem length_of_run {s t : σ} {is : List ι} {os : List ο} (h : M.run s is = some (t, os)) :
    os.length = is.length := by
  induction is generalizing s os with
  | nil =>
    cases h
    rfl
  | cons i is ih =>
    obtain ⟨s', o, os', -, hr, rfl⟩ := run_cons.mp h
    rw [List.length_cons, List.length_cons, ih hr]

/-- The step of a run at one of its actions. -/
theorem run_at {s t : σ} {is js : List ι} {i : ι} {os : List ο}
    (h : M.run s (is ++ i :: js) = some (t, os)) :
    ∃ u os₁ u' o os₂, M.run s is = some (u, os₁) ∧ M.step u i = some (u', o) ∧
      os[is.length]? = some o ∧ M.run u' js = some (t, os₂) := by
  obtain ⟨u, os₁, os₂, hfirst, hrest, rfl⟩ := run_append.mp h
  obtain ⟨u', o, os', hs, hlast, rfl⟩ := run_cons.mp hrest
  refine ⟨u, os₁, u', o, os', hfirst, hs, ?_, hlast⟩
  rw [← length_of_run hfirst]
  simp

section

variable {f : σ → ι → Option β}

theorem collect_cons {s s' : σ} {i : ι} {o : ο} (h : M.step s i = some (s', o)) (is : List ι) :
    M.collect f s (i :: is) = (f s i).toList ++ M.collect f s' is := by
  simp only [collect, h]

theorem collect_append {s t : σ} {is : List ι} {os : List ο} (h : M.run s is = some (t, os))
    (js : List ι) : M.collect f s (is ++ js) = M.collect f s is ++ M.collect f t js := by
  induction is generalizing s os with
  | nil =>
    cases h
    rfl
  | cons i is ih =>
    obtain ⟨s', o, os', hs, hr, rfl⟩ := run_cons.mp h
    rw [List.cons_append, collect_cons hs, collect_cons hs, ih hr, List.append_assoc]

/-- One more step. -/
theorem collect_concat {s t u : σ} {is : List ι} {os : List ο} {i : ι} {o : ο}
    (h : M.run s is = some (t, os)) (hs : M.step t i = some (u, o)) :
    M.collect f s (is ++ [i]) = M.collect f s is ++ (f t i).toList := by
  rw [collect_append h, collect_cons hs]
  exact congrArg _ (List.append_nil _)

end

/-- **Invariant rule.** What every step with `C` keeps holds after every run along `C`. -/
theorem run_invariant {C : σ → ι → Prop} {I : σ → Prop}
    (hstep : ∀ s i s' o, I s → C s i → M.step s i = some (s', o) → I s')
    {s t : σ} {is : List ι} {os : List ο} (hC : M.Along C s is) (hr : M.run s is = some (t, os))
    (hs : I s) : I t := by
  induction is generalizing s os with
  | nil => cases hr; exact hs
  | cons i is ih =>
    obtain ⟨s', o, os', h, hr', rfl⟩ := run_cons.mp hr
    exact ih (hC.2 s' o h) hr' (hstep s i s' o hs hC.1 h)

theorem along_cons {C : σ → ι → Prop} {s s' : σ} {i : ι} {is : List ι} {o : ο}
    (h : M.step s i = some (s', o)) : M.Along C s (i :: is) ↔ C s i ∧ M.Along C s' is := by
  refine and_congr_right fun _ => ⟨fun hall => hall s' o h, fun hrest t o' ht => ?_⟩
  rw [h] at ht
  cases ht
  exact hrest

theorem along_of_forall {C : ι → Prop} {is : List ι} (h : ∀ i ∈ is, C i) (s : σ) :
    M.Along (fun _ i => C i) s is := by
  induction is generalizing s with
  | nil => trivial
  | cons i is ih =>
    have hlater : ∀ j ∈ is, C j := fun j hj => h j (List.mem_cons_of_mem _ hj)
    exact ⟨h i List.mem_cons_self, fun s' _ _ => ih hlater s'⟩

/-- **Progress rule.** If an action with `C` is enabled where `I` holds, and keeps `I`, then a list
of actions along `C` runs to its end. -/
theorem run_progress {C : σ → ι → Prop} {I : σ → Prop}
    (hstep : ∀ s i, I s → C s i → ∃ s' o, M.step s i = some (s', o) ∧ I s')
    {s : σ} {is : List ι} (hC : M.Along C s is) (hs : I s) :
    ∃ t os, M.run s is = some (t, os) ∧ I t := by
  induction is generalizing s with
  | nil => exact ⟨s, [], rfl, hs⟩
  | cons i is ih =>
    obtain ⟨s', o, h, hs'⟩ := hstep s i hs hC.1
    obtain ⟨t, os, hr, ht⟩ := ih (hC.2 s' o h) hs'
    exact ⟨t, o :: os, run_cons.mpr ⟨s', o, os, h, hr, rfl⟩, ht⟩

theorem along_append {C : σ → ι → Prop} {s : σ} {is js : List ι} :
    M.Along C s (is ++ js) ↔
      M.Along C s is ∧ ∀ t os, M.run s is = some (t, os) → M.Along C t js := by
  induction is generalizing s with
  | nil =>
    constructor
    · rintro h
      refine ⟨trivial, fun t os hr => ?_⟩
      cases hr
      exact h
    · rintro ⟨-, h⟩
      exact h s [] rfl
  | cons i is ih =>
    constructor
    · rintro ⟨hi, hrest⟩
      refine ⟨⟨hi, fun s' o hs => (ih.mp (hrest s' o hs)).1⟩, fun t os hr => ?_⟩
      obtain ⟨s', o, os', hs, hr', rfl⟩ := run_cons.mp hr
      exact (ih.mp (hrest s' o hs)).2 t os' hr'
    · rintro ⟨⟨hi, hrest⟩, hlater⟩
      refine ⟨hi, fun s' o hs => ih.mpr ⟨hrest s' o hs, fun t os hr => ?_⟩⟩
      exact hlater t (o :: os) (run_cons.mpr ⟨s', o, os, hs, hr, rfl⟩)

/-- **History rule.** What every step with `C` keeps of the state, the actions and the outputs so
far holds of them after every run along `C`. -/
theorem run_history {C : σ → ι → Prop} {s₀ : σ} {I : σ → List ι → List ο → Prop}
    (hstep : ∀ s is os i s' o, M.run s₀ is = some (s, os) → I s is os → C s i →
      M.step s i = some (s', o) → I s' (is ++ [i]) (os ++ [o]))
    {t : σ} {is : List ι} {os : List ο} (hC : M.Along C s₀ is) (hr : M.run s₀ is = some (t, os))
    (h₀ : I s₀ [] []) : I t is os := by
  induction is using List.reverseRecOn generalizing t os with
  | nil =>
    cases hr
    exact h₀
  | append_singleton is i ih =>
    obtain ⟨s, os', last, hbefore, hlast, rfl⟩ := run_append.mp hr
    obtain ⟨hCis, hClast⟩ := along_append.mp hC
    obtain ⟨s', o, _, hs, hnil, rfl⟩ := run_cons.mp hlast
    cases hnil
    exact hstep s is os' i _ o hbefore (ih hCis hbefore) (hClast s os' hbefore).1 hs

/-- **Exact condition.** If a step with `C` keeps the invariant `I`, which gives `P`, and a step
without `C` breaks `P`, then `P` holds all along a run exactly if the run is along `C`. -/
theorem forall_prefix_iff_along {C : σ → ι → Prop} {I P : σ → Prop} (hP : ∀ s, I s → P s)
    (hstep : ∀ s i s' o, I s → C s i → M.step s i = some (s', o) → I s')
    (hbreak : ∀ s i s' o, I s → ¬ C s i → M.step s i = some (s', o) → ¬ P s')
    (hoff : ∀ s i, M.step s i = none → C s i) {s : σ} (hs : I s) (is : List ι) :
    (∀ pre t os, pre <+: is → M.run s pre = some (t, os) → P t) ↔ M.Along C s is := by
  induction is generalizing s with
  | nil =>
    refine ⟨fun _ => trivial, fun _ pre t os hpre hrun => ?_⟩
    rw [List.prefix_nil.mp hpre] at hrun
    cases hrun
    exact hP s hs
  | cons i is ih =>
    constructor
    · intro hall
      have hC : C s i := by
        cases h : M.step s i with
        | none => exact hoff s i h
        | some x =>
          by_contra hn
          refine hbreak s i x.1 x.2 hs hn h (hall [i] x.1 [x.2] ⟨is, rfl⟩ ?_)
          exact run_cons.mpr ⟨x.1, x.2, [], h, rfl, rfl⟩
      refine ⟨hC, fun s' o h => (ih (hstep s i s' o hs hC h)).mp ?_⟩
      intro pre t os hpre hrun
      refine hall (i :: pre) t (o :: os) (List.cons_prefix_cons.mpr ⟨rfl, hpre⟩) ?_
      exact run_cons.mpr ⟨s', o, os, h, hrun, rfl⟩
    · rintro ⟨hC, hrest⟩ pre t os hpre hrun
      cases pre with
      | nil =>
        cases hrun
        exact hP s hs
      | cons j pre =>
        obtain ⟨rfl, hpre'⟩ := List.cons_prefix_cons.mp hpre
        obtain ⟨s', o, os', h, hr, rfl⟩ := run_cons.mp hrun
        exact (ih (hstep s j s' o hs hC h)).mpr (hrest s' o h) pre t os' hpre' hr

/-- A run meets the condition that is always true. -/
theorem along_true (s : σ) (is : List ι) : M.Along (fun _ _ => True) s is :=
  along_of_forall (fun _ _ => trivial) s

/-- A run whose outputs meet `P` takes only steps whose outputs do. -/
theorem along_of_outputs {P : ο → Prop} {s t : σ} {is : List ι} {os : List ο}
    (hr : M.run s is = some (t, os)) (hos : ∀ o ∈ os, P o) :
    M.Along (fun s i => ∀ s' o, M.step s i = some (s', o) → P o) s is := by
  induction is generalizing s os with
  | nil => trivial
  | cons i is ih =>
    obtain ⟨s', o, os', hs, hrest, rfl⟩ := run_cons.mp hr
    refine (along_cons hs).mpr ⟨fun s₁ o₁ hs₁ => ?_, ih hrest fun o' ho' => ?_⟩
    · rw [hs] at hs₁
      cases hs₁
      exact hos o List.mem_cons_self
    · exact hos o' (List.mem_cons_of_mem _ ho')

theorem along_and {C D : σ → ι → Prop} {s : σ} {is : List ι} (hC : M.Along C s is)
    (hD : M.Along D s is) : M.Along (fun s i => C s i ∧ D s i) s is := by
  induction is generalizing s with
  | nil => trivial
  | cons i is ih => exact ⟨⟨hC.1, hD.1⟩, fun s' o hs => ih (hC.2 s' o hs) (hD.2 s' o hs)⟩

/-- **Potential rule.** If each step costs at most what the potential loses and the action brings
in, then so does a run. -/
theorem run_potential (potential : σ → Nat) {C : σ → ι → Prop} {I : σ → Prop} {cost gain : ι → Nat}
    (hstep : ∀ s i s' o, I s → C s i → M.step s i = some (s', o) →
      I s' ∧ potential s' + cost i ≤ potential s + gain i)
    {s t : σ} {is : List ι} {os : List ο} (hC : M.Along C s is) (hr : M.run s is = some (t, os))
    (hs : I s) : potential t + (is.map cost).sum ≤ potential s + (is.map gain).sum := by
  induction is generalizing s os with
  | nil =>
    cases hr
    exact Nat.le_refl _
  | cons i is ih =>
    obtain ⟨s', o, os', hi, hrest, rfl⟩ := run_cons.mp hr
    obtain ⟨hs', hle⟩ := hstep s i s' o hs hC.1 hi
    have htail := ih (hC.2 s' o hi) hrest hs'
    simp only [List.map_cons, List.sum_cons]
    omega

/-- **Simulation rule.** If each step of `M` is a step of `N` with the same output wherever the
state of `N` meets `C`, and the states stay related by `R`, then a run of `M` is a run of `N` with
the same outputs. -/
theorem run_simulates {N : Machine τ ι ο} {C : τ → ι → Prop} {R : σ → τ → Prop}
    (hstep : ∀ a b i a' o, R a b → C b i → M.step a i = some (a', o) →
      ∃ b', N.step b i = some (b', o) ∧ R a' b')
    {a a' : σ} {b : τ} {is : List ι} {os : List ο} (hC : N.Along C b is)
    (hr : M.run a is = some (a', os)) (hR : R a b) :
    ∃ b', N.run b is = some (b', os) ∧ R a' b' := by
  induction is generalizing a b os with
  | nil => cases hr; exact ⟨b, rfl, hR⟩
  | cons i is ih =>
    obtain ⟨a₁, o, os', h, hr', rfl⟩ := run_cons.mp hr
    obtain ⟨b₁, hb, hR₁⟩ := hstep a b i a₁ o hR hC.1 h
    obtain ⟨b', hb', hR'⟩ := ih (hC.2 b₁ o hb) hr' hR₁
    exact ⟨b', run_cons.mpr ⟨b₁, o, os', hb, hb', rfl⟩, hR'⟩

/-- **Erasure rule.** If a hidden action leaves the state related to what it was related to, and
related states make the other actions together, then a run without its hidden actions is a run that
ends in a related state. -/
theorem run_erase {C : ι → Prop} {R : σ → σ → Prop} {hidden : ι → Bool}
    (hhide : ∀ s u i s' o, R s u → C i → hidden i = true → M.step s i = some (s', o) → R s' u)
    (hkeep : ∀ s u i s' o, R s u → C i → hidden i = false → M.step s i = some (s', o) →
      ∃ u', M.step u i = some (u', o) ∧ R s' u')
    {s t u : σ} {is : List ι} {os : List ο} (hC : ∀ i ∈ is, C i)
    (hr : M.run s is = some (t, os)) (hR : R s u) :
    ∃ u' os', M.run u (is.filter fun i => !hidden i) = some (u', os') ∧ R t u' := by
  induction is generalizing s u os with
  | nil =>
    cases hr
    exact ⟨u, [], rfl, hR⟩
  | cons i is ih =>
    obtain ⟨s', o, os', hs, hr', rfl⟩ := run_cons.mp hr
    have hi := hC i List.mem_cons_self
    have hrest := fun j hj => hC j (List.mem_cons_of_mem i hj)
    cases hh : hidden i with
    | true =>
      rw [List.filter_cons_of_neg (by simp [hh])]
      exact ih hrest hr' (hhide s u i s' o hR hi hh hs)
    | false =>
      rw [List.filter_cons_of_pos (by simp [hh])]
      obtain ⟨u₁, hu, hR₁⟩ := hkeep s u i s' o hR hi hh hs
      obtain ⟨u', os'', hru, hR'⟩ := ih hrest hr' hR₁
      exact ⟨u', o :: os'', run_cons.mpr ⟨u₁, o, os'', hu, hru, rfl⟩, hR'⟩

end Machine

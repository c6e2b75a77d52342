import Mathlib.Tactic.Common

/-!
# Programs of atomic steps

A program makes atomic steps on a shared state, one at a time, and what it does next may depend on
what it saw. Two programs that share the state run in any interleaving of their steps.

* `Prog`: a program that gives a result. `Prog.run`: the program on its own. `Prog.Within n`: it
  makes at most `n` steps.
* `Interleaved p q s x`: `x` is the last state and the two results of an interleaving of `p` and `q`
  from `s`. `serial`: the two programs one after the other.
* `Always p q s P`: `P` holds at the end of every interleaving; `always_step_step` takes the first
  step apart. `Serializable`: every interleaving ends like one of the two serial orders.
* `Prog.Keeps I f`: while `I` holds, no step changes what `f` sees of the state.
* `Prog.Ends I P`: while `I` holds, every step keeps it, and a result meets `P`.
* `Prog.Follows I f p q`: on what `f` sees of the state, `p` is the program `q`. Interleavings of
  two programs are interleavings of the programs that they follow (`Interleaved.follows`,
  `exists_interleaved`).
* `Interleaved.independent`: programs that follow others on two parts of the state, and keep the
  part of the other one, do not notice each other.
-/

/-- A program over the states `σ` with results `ρ`. A step at `s` leads to the state `act s` and
goes on with `next s`. -/
inductive Prog (σ ρ : Type*) where
  | done (r : ρ)
  | step (act : σ → σ) (next : σ → Prog σ ρ)

variable {σ τ β ρ ρ' : Type*}

/-- The last state and the two results of an interleaving of two programs. -/
inductive Interleaved : Prog σ ρ → Prog σ ρ' → σ → σ × ρ × ρ' → Prop
  | done (r : ρ) (r' : ρ') (s : σ) : Interleaved (.done r) (.done r') s (s, r, r')
  | left {act : σ → σ} {next : σ → Prog σ ρ} {q : Prog σ ρ'} {s : σ} {x : σ × ρ × ρ'} :
      Interleaved (next s) q (act s) x → Interleaved (.step act next) q s x
  | right {p : Prog σ ρ} {act : σ → σ} {next : σ → Prog σ ρ'} {s : σ} {x : σ × ρ × ρ'} :
      Interleaved p (next s) (act s) x → Interleaved p (.step act next) s x

namespace Prog

/-- The last state and the result of a program that runs on its own. -/
def run : Prog σ ρ → σ → σ × ρ
  | .done r, s => (s, r)
  | .step act next, s => (next s).run (act s)

/-- The program makes at most `n` steps. -/
def Within : Prog σ ρ → Nat → Prop
  | .done _, _ => True
  | .step _ next, n => 0 < n ∧ ∀ s, (next s).Within (n - 1)

/-- While `I` holds, no step changes what `f` sees, and `I` goes on to hold. -/
def Keeps (I : σ → Prop) (f : σ → β) : Prog σ ρ → Prop
  | .done _ => True
  | .step act next => ∀ s, I s → I (act s) ∧ f (act s) = f s ∧ (next s).Keeps I f

/-- While `I` holds, every step keeps it, and a result meets `P`. -/
def Ends (I : σ → Prop) (P : ρ → Prop) : Prog σ ρ → Prop
  | .done r => P r
  | .step act next => ∀ s, I s → I (act s) ∧ (next s).Ends I P

/-- While `I` holds, the steps are those of another program on what `f` sees, and `I` goes on to
hold. -/
def Follows (I : σ → Prop) (f : σ → τ) : Prog σ ρ → Prog τ ρ → Prop
  | .done r, .done r' => r = r'
  | .step act next, .step act' next' => ∀ s, I s →
      I (act s) ∧ f (act s) = act' (f s) ∧ (next s).Follows I f (next' (f s))
  | _, _ => False

/-- `p`, then `q`. -/
def serial (p : Prog σ ρ) (q : Prog σ ρ') (s : σ) : σ × ρ × ρ' :=
  ((q.run (p.run s).1).1, (p.run s).2, (q.run (p.run s).1).2)

variable {I : σ → Prop} {f : σ → τ}

theorem Within.mono {p : Prog σ ρ} {m n : Nat} (h : p.Within m) (hmn : m ≤ n) : p.Within n := by
  induction p generalizing m n with
  | done r => trivial
  | step act next ih =>
    obtain ⟨hpos, hnext⟩ := h
    exact ⟨Nat.lt_of_lt_of_le hpos hmn, fun s => ih s (hnext s) (by omega)⟩

theorem Ends.run {P : ρ → Prop} {p : Prog σ ρ} (h : p.Ends I P) {s : σ} (hs : I s) :
    I (p.run s).1 ∧ P (p.run s).2 := by
  induction p generalizing s with
  | done r => exact ⟨hs, h⟩
  | step act next ih =>
    obtain ⟨hI, hnext⟩ := h s hs
    exact ih s hnext hI

theorem Follows.run {p : Prog σ ρ} {p' : Prog τ ρ} (h : p.Follows I f p') {s : σ} (hs : I s) :
    I (p.run s).1 ∧ f (p.run s).1 = (p'.run (f s)).1 ∧ (p.run s).2 = (p'.run (f s)).2 := by
  induction p generalizing p' s with
  | done r =>
    cases p' with
    | done r' => exact ⟨hs, rfl, h⟩
    | step => cases h
  | step act next ih =>
    cases p' with
    | done r' => cases h
    | step act' next' =>
      obtain ⟨hI, hf, hnext⟩ := h s hs
      have := ih s hnext hI
      rwa [hf] at this

/-- Two programs one after the other, and the programs that they follow. -/
theorem Follows.serial {p : Prog σ ρ} {q : Prog σ ρ'} {p' : Prog τ ρ} {q' : Prog τ ρ'}
    (hp : p.Follows I f p') (hq : q.Follows I f q') {s : σ} (hs : I s) :
    (f (p.serial q s).1, (p.serial q s).2) = p'.serial q' (f s) := by
  obtain ⟨hI, hf, hr⟩ := hp.run hs
  obtain ⟨-, hf', hr'⟩ := hq.run hI
  simp only [Prog.serial, hf', hr, hr', hf]

end Prog

open Prog

/-! ## Interleavings -/

section

variable {p : Prog σ ρ} {q : Prog σ ρ'} {s : σ} {x : σ × ρ × ρ'}

theorem interleaved_step_step {act act' : σ → σ} {next : σ → Prog σ ρ} {next' : σ → Prog σ ρ'} :
    Interleaved (.step act next) (.step act' next') s x ↔
      Interleaved (next s) (.step act' next') (act s) x ∨
        Interleaved (.step act next) (next' s) (act' s) x := by
  constructor
  · intro h
    cases h with
    | left h => exact .inl h
    | right h => exact .inr h
  · rintro (h | h)
    · exact .left h
    · exact .right h

/-- Against a program without steps. -/
theorem interleaved_done_left {r : ρ} :
    Interleaved (.done r) q s x ↔ x = ((q.run s).1, r, (q.run s).2) := by
  induction q generalizing s with
  | done r' =>
    constructor
    · rintro ⟨⟩
      rfl
    · rintro rfl
      exact .done r r' s
  | step act next ih =>
    constructor
    · rintro ⟨⟩
      rename_i h
      exact (ih s).mp h
    · intro h
      exact .right ((ih s).mpr h)

/-- The serial order is an interleaving. -/
theorem interleaved_serial (p : Prog σ ρ) (q : Prog σ ρ') (s : σ) :
    Interleaved p q s (serial p q s) := by
  induction p generalizing s with
  | done r => exact interleaved_done_left.mpr rfl
  | step act next ih => exact .left (ih s (act s))

theorem Interleaved.swap (h : Interleaved p q s x) : Interleaved q p s (x.1, x.2.2, x.2.1) := by
  induction h with
  | done r r' s => exact .done r' r s
  | left _ ih => exact .right ih
  | right _ ih => exact .left ih

theorem interleaved_swap {t : σ} {r : ρ} {r' : ρ'} :
    Interleaved p q s (t, r, r') ↔ Interleaved q p s (t, r', r) := ⟨.swap, .swap⟩

theorem interleaved_done_right {r' : ρ'} :
    Interleaved p (.done r') s x ↔ x = ((p.run s).1, (p.run s).2, r') := by
  obtain ⟨t, r, r''⟩ := x
  rw [interleaved_swap, interleaved_done_left]
  simp only [Prod.mk.injEq]
  tauto

/-- `P` holds at the end of every interleaving. -/
def Always (p : Prog σ ρ) (q : Prog σ ρ') (s : σ) (P : σ × ρ × ρ' → Prop) : Prop :=
  ∀ x, Interleaved p q s x → P x

/-- Every interleaving ends like `p` before `q`, or like `q` before `p`. -/
def Serializable (p : Prog σ ρ) (q : Prog σ ρ') (s : σ) : Prop :=
  Always p q s fun x => x = serial p q s ∨ (x.1, x.2.2, x.2.1) = serial q p s

section

variable {P : σ × ρ × ρ' → Prop}

@[simp] theorem always_step_step {act act' : σ → σ} {next : σ → Prog σ ρ}
    {next' : σ → Prog σ ρ'} :
    Always (.step act next) (.step act' next') s P ↔
      Always (next s) (.step act' next') (act s) P ∧
        Always (.step act next) (next' s) (act' s) P := by
  simp only [Always, interleaved_step_step, or_imp, forall_and]

@[simp] theorem always_done_left {r : ρ} :
    Always (.done r) q s P ↔ P ((q.run s).1, r, (q.run s).2) := by
  simp only [Always, interleaved_done_left, forall_eq]

@[simp] theorem always_done_right {r' : ρ'} :
    Always p (.done r') s P ↔ P ((p.run s).1, (p.run s).2, r') := by
  simp only [Always, interleaved_done_right, forall_eq]

end

theorem Serializable.swap (h : Serializable p q s) : Serializable q p s :=
  fun _ hx => (h _ hx.swap).symm

theorem serializable_swap : Serializable p q s ↔ Serializable q p s := ⟨.swap, .swap⟩

/-- A program without steps has nothing in between. -/
theorem serializable_done (r : ρ) (q : Prog σ ρ') (s : σ) : Serializable (.done r) q s :=
  always_done_left.mpr (.inl rfl)

variable {I : σ → Prop}

/-- What both programs keep is kept. -/
theorem Interleaved.keeps {f : σ → β} (h : Interleaved p q s x) (hp : p.Keeps I f)
    (hq : q.Keeps I f) (hs : I s) : f x.1 = f s := by
  induction h with
  | done r r' s => rfl
  | left _ ih =>
    obtain ⟨hI, hf, hnext⟩ := hp _ hs
    exact (ih hnext hq hI).trans hf
  | right _ ih =>
    obtain ⟨hI, hf, hnext⟩ := hq _ hs
    exact (ih hp hnext hI).trans hf

variable {f : σ → τ} {p' : Prog τ ρ} {q' : Prog τ ρ'}

/-- An interleaving of two programs is one of the programs that they follow. -/
theorem Interleaved.follows (h : Interleaved p q s x) (hp : p.Follows I f p')
    (hq : q.Follows I f q') (hs : I s) : Interleaved p' q' (f s) (f x.1, x.2) := by
  induction h generalizing p' q' with
  | done r r' s =>
    cases p' with
    | step => cases hp
    | done =>
      cases q' with
      | step => cases hq
      | done =>
        cases hp
        cases hq
        exact .done _ _ _
  | left _ ih =>
    cases p' with
    | done => cases hp
    | step act' next' =>
      obtain ⟨hI, hf, hnext⟩ := hp _ hs
      have hrest := ih hnext hq hI
      rw [hf] at hrest
      exact .left hrest
  | right _ ih =>
    cases q' with
    | done => cases hq
    | step act' next' =>
      obtain ⟨hI, hf, hnext⟩ := hq _ hs
      have hrest := ih hp hnext hI
      rw [hf] at hrest
      exact .right hrest

/-- An interleaving of the programs that two programs follow is one of the two programs. -/
theorem exists_interleaved {t : τ} {y : τ × ρ × ρ'} (h : Interleaved p' q' t y)
    (hp : p.Follows I f p') (hq : q.Follows I f q') (hs : I s) (ht : f s = t) :
    ∃ x, Interleaved p q s x ∧ (f x.1, x.2) = y := by
  induction h generalizing p q s with
  | done r r' t =>
    cases p with
    | step => cases hp
    | done =>
      cases q with
      | step => cases hq
      | done =>
        cases hp
        cases hq
        exact ⟨_, .done _ _ s, by rw [ht]⟩
  | left _ ih =>
    cases p with
    | done => cases hp
    | step act next =>
      obtain ⟨hI, hf, hnext⟩ := hp s hs
      rw [ht] at hf hnext
      obtain ⟨x, hx, hy⟩ := ih hnext hq hI hf
      exact ⟨x, .left hx, hy⟩
  | right _ ih =>
    cases q with
    | done => cases hq
    | step act next =>
      obtain ⟨hI, hf, hnext⟩ := hq s hs
      rw [ht] at hf hnext
      obtain ⟨x, hx, hy⟩ := ih hp hnext hI hf
      exact ⟨x, .right hx, hy⟩

/-- **Independence.** Each of two programs that work on different parts of the state does what it
does on its own. -/
theorem Interleaved.independent {υ : Type*} {g : σ → υ} {q' : Prog υ ρ'} (h : Interleaved p q s x)
    (hp : p.Follows I f p') (hpg : p.Keeps I g) (hq : q.Follows I g q') (hqf : q.Keeps I f)
    (hs : I s) :
    (f x.1, x.2.1) = p'.run (f s) ∧ (g x.1, x.2.2) = q'.run (g s) := by
  induction h generalizing p' q' with
  | done r r' s =>
    cases p' with
    | step => cases hp
    | done =>
      cases q' with
      | step => cases hq
      | done =>
        cases hp
        cases hq
        exact ⟨rfl, rfl⟩
  | left _ ih =>
    cases p' with
    | done => cases hp
    | step act' next' =>
      obtain ⟨hI, hf, hnext⟩ := hp _ hs
      obtain ⟨-, hg, hkeep⟩ := hpg _ hs
      have hrest := ih hnext hkeep hq hqf hI
      rwa [hf, hg] at hrest
  | right _ ih =>
    cases q' with
    | done => cases hq
    | step act' next' =>
      obtain ⟨hI, hg, hnext⟩ := hq _ hs
      obtain ⟨-, hf, hkeep⟩ := hqf _ hs
      have hrest := ih hp hpg hnext hkeep hI
      rwa [hf, hg] at hrest

end

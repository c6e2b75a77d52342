import TinyKV.Lib.Interleaving
import Mathlib.Data.List.Basic
import Mathlib.Order.Nat

/-!
# Linearizability

Any number of clients run programs on a shared state. A program is an operation on an object that
the state holds: it is called, makes its steps between those of other clients, and returns.

* `HistoryEvent`: what is seen of the clients. `Serial`: operations one after the other.
* `Linearization`: the operations in a serial order in which each takes effect between its call and
  its return. `RealTime`: an operation that has returned before another one is called comes first.
* `Book`: what the clients wait for, with the operations that have taken effect. `Book.call`,
  `Book.effect` and `Book.ret`: a client calls an operation, it takes effect, the client gets its
  result. So every history whose steps are of these kinds has a linearization.
* `Prog.Atomic`: one step of the program does all that the operation does to the object; the steps
  before and after it do nothing that is seen.
* `Tracks`: a book of clients with atomic programs. `Tracks.call`, `Tracks.step` and `Tracks.ret`:
  what their steps keep.
-/

variable {γ ω β τ σ ρ : Type*}

/-- What is seen of the clients of an object. -/
inductive HistoryEvent (γ ω β : Type*) where
  | call (client : γ) (op : ω)
  | ret (client : γ) (result : β)

/-- An operation that has taken effect. -/
structure Effected (γ ω β : Type*) where
  client : γ
  op : ω
  result : β

/-- The operations one after the other, from `s` to `t`, with their results. -/
def Serial (spec : ω → τ → τ × β) : τ → List (Effected γ ω β) → τ → Prop
  | s, [], t => s = t
  | s, e :: es, t => e.result = (spec e.op s).2 ∧ Serial spec (spec e.op s).1 es t

theorem Serial.concat {spec : ω → τ → τ × β} {s t : τ} {ops : List (Effected γ ω β)}
    (h : Serial spec s ops t) (c : γ) (op : ω) :
    Serial spec s (ops ++ [⟨c, op, (spec op t).2⟩]) (spec op t).1 := by
  induction ops generalizing s with
  | nil =>
    obtain rfl : s = t := h
    exact ⟨rfl, rfl⟩
  | cons e es ih => exact ⟨h.1, ih h.2⟩

section

variable [DecidableEq γ]

/-- The operations that the client calls, in order. -/
def callsOf (c : γ) (h : List (HistoryEvent γ ω β)) : List ω :=
  h.filterMap fun
    | .call c' op => if c' = c then some op else none
    | .ret _ _ => none

/-- The results that the client gets, in order. -/
def returnsOf (c : γ) (h : List (HistoryEvent γ ω β)) : List β :=
  h.filterMap fun
    | .call _ _ => none
    | .ret c' r => if c' = c then some r else none

/-- The operations of the client that have taken effect, in order. -/
def opsOf (c : γ) (ops : List (Effected γ ω β)) : List ω :=
  ops.filterMap fun e => if e.client = c then some e.op else none

/-- Their results. -/
def resultsOf (c : γ) (ops : List (Effected γ ω β)) : List β :=
  ops.filterMap fun e => if e.client = c then some e.result else none

/-- `ops` are operations of the history in a serial order, from `s` to `t`, in which each takes
effect between its call and its return: at every moment some first ones of them have taken effect;
these were called, and those that have returned are among them, with the same results. -/
structure Linearization (spec : ω → τ → τ × β) (s : τ) (h : List (HistoryEvent γ ω β))
    (ops : List (Effected γ ω β)) (t : τ) : Prop where
  serial : Serial spec s ops t
  between : ∀ n, ∃ k ≤ ops.length, ∀ c, returnsOf c (h.take n) <+: resultsOf c (ops.take k) ∧
    opsOf c (ops.take k) <+: callsOf c (h.take n)

variable {spec : ω → τ → τ × β} {s t : τ} {h : List (HistoryEvent γ ω β)}
  {ops : List (Effected γ ω β)}

@[simp] theorem callsOf_append (c : γ) (h h' : List (HistoryEvent γ ω β)) :
    callsOf c (h ++ h') = callsOf c h ++ callsOf c h' := List.filterMap_append

@[simp] theorem returnsOf_append (c : γ) (h h' : List (HistoryEvent γ ω β)) :
    returnsOf c (h ++ h') = returnsOf c h ++ returnsOf c h' := List.filterMap_append

@[simp] theorem opsOf_append (c : γ) (ops ops' : List (Effected γ ω β)) :
    opsOf c (ops ++ ops') = opsOf c ops ++ opsOf c ops' := List.filterMap_append

@[simp] theorem resultsOf_append (c : γ) (ops ops' : List (Effected γ ω β)) :
    resultsOf c (ops ++ ops') = resultsOf c ops ++ resultsOf c ops' := List.filterMap_append

theorem length_resultsOf (c : γ) (ops : List (Effected γ ω β)) :
    (resultsOf c ops).length = (opsOf c ops).length := by
  induction ops with
  | nil => rfl
  | cons e es ih =>
    unfold resultsOf opsOf at ih ⊢
    by_cases he : e.client = c
    · simpa [he] using ih
    · simpa [he] using ih

/-- If the operation `i` of `c` has returned when the operation `j` of `d` is not yet called, then
it comes first in the serial order. -/
def RealTime (h : List (HistoryEvent γ ω β)) (ops : List (Effected γ ω β)) : Prop :=
  ∀ n i j c d, i < (returnsOf c (h.take n)).length → (callsOf d (h.take n)).length ≤ j →
    ∃ k, i < (opsOf c (ops.take k)).length ∧ (opsOf d (ops.take k)).length ≤ j

theorem Linearization.realTime (hl : Linearization spec s h ops t) : RealTime h ops := by
  intro n i j c d hret hcall
  obtain ⟨k, -, hk⟩ := hl.between n
  refine ⟨k, ?_, (hk d).2.length_le.trans hcall⟩
  rw [← length_resultsOf]
  exact hret.trans_le (hk c).1.length_le

/-- One more event, and operations that take effect at it. -/
theorem Linearization.extend (hl : Linearization spec s h ops t) {t' : τ}
    {h' events : List (HistoryEvent γ ω β)} (hh : h' = h ++ events) (hone : events.length ≤ 1)
    {ops' : List (Effected γ ω β)} (hops : ops <+: ops') (hserial : Serial spec s ops' t')
    (hend : ∀ c, returnsOf c h' <+: resultsOf c ops' ∧ opsOf c ops' <+: callsOf c h') :
    Linearization spec s h' ops' t' := by
  refine ⟨hserial, fun n => ?_⟩
  by_cases hn : n ≤ h.length
  · obtain ⟨k, hle, hk⟩ := hl.between n
    obtain ⟨more, rfl⟩ := hops
    refine ⟨k, hle.trans (by simp), fun c => ?_⟩
    rw [hh, List.take_append_of_le_length hn, List.take_append_of_le_length hle]
    exact hk c
  · refine ⟨ops'.length, le_rfl, fun c => ?_⟩
    have hall : h'.length ≤ n := by
      rw [hh, List.length_append]
      omega
    rw [List.take_of_length_le hall, List.take_length]
    exact hend c

end

/-! ## Clients and what they wait for -/

/-- Where a client is with its operation. -/
inductive CallStage (ω β : Type*) where
  | idle
  | called (op : ω)
  /-- The operation has taken effect, with this result. -/
  | effected (result : β)

section

variable [DecidableEq γ] (spec : ω → τ → τ × β) (s₀ : τ)

/-- What the history and the operations say of a client. -/
def CallStage.Ok (h : List (HistoryEvent γ ω β)) (ops : List (Effected γ ω β)) (c : γ) :
    CallStage ω β → Prop
  | .idle => callsOf c h = opsOf c ops ∧ returnsOf c h = resultsOf c ops
  | .called op => callsOf c h = opsOf c ops ++ [op] ∧ returnsOf c h = resultsOf c ops
  | .effected b => callsOf c h = opsOf c ops ∧ resultsOf c ops = returnsOf c h ++ [b]

/-- The history so far, the operations that have taken effect and what the clients wait for. -/
structure Book (pending : γ → CallStage ω β) (h : List (HistoryEvent γ ω β))
    (ops : List (Effected γ ω β)) (t : τ) : Prop where
  lin : Linearization spec s₀ h ops t
  clients : ∀ c, (pending c).Ok h ops c

variable {spec s₀} {pending : γ → CallStage ω β} {h : List (HistoryEvent γ ω β)}
  {ops : List (Effected γ ω β)} {t : τ} {c : γ} {op : ω} {b : β}

theorem CallStage.Ok.prefixes {p : CallStage ω β} (hp : p.Ok h ops c) :
    returnsOf c h <+: resultsOf c ops ∧ opsOf c ops <+: callsOf c h := by
  cases p with
  | idle => exact ⟨hp.2 ▸ List.prefix_rfl, hp.1 ▸ List.prefix_rfl⟩
  | called op => exact ⟨hp.2 ▸ List.prefix_rfl, hp.1 ▸ List.prefix_append _ _⟩
  | effected b => exact ⟨hp.2 ▸ List.prefix_append _ _, hp.1 ▸ List.prefix_rfl⟩

theorem book_start (spec : ω → τ → τ × β) (s₀ : τ) :
    Book spec s₀ (fun _ : γ => .idle) ([] : List (HistoryEvent γ ω β)) [] s₀ where
  lin := ⟨rfl, fun n => ⟨0, le_rfl, fun c => by simp [returnsOf, resultsOf, opsOf, callsOf]⟩⟩
  clients _ := ⟨rfl, rfl⟩

/-- What a step must do: it keeps what is known of the other clients. -/
theorem Book.move (hb : Book spec s₀ pending h ops t) {t' : τ} (p : CallStage ω β)
    (events : List (HistoryEvent γ ω β)) (hone : events.length ≤ 1)
    (more : List (Effected γ ω β)) (hserial : Serial spec s₀ (ops ++ more) t')
    (hself : p.Ok (h ++ events) (ops ++ more) c)
    (hother : ∀ d, d ≠ c → callsOf d events = [] ∧ returnsOf d events = [] ∧ opsOf d more = [] ∧
      resultsOf d more = []) :
    Book spec s₀ (Function.update pending c p) (h ++ events) (ops ++ more) t' := by
  have hclients : ∀ d, (Function.update pending c p d).Ok (h ++ events) (ops ++ more) d := by
    intro d
    by_cases hd : d = c
    · subst hd
      rw [Function.update_self]
      exact hself
    · obtain ⟨hcalls, hrets, hops, hresults⟩ := hother d hd
      have hold := hb.clients d
      rw [Function.update_of_ne hd]
      unfold CallStage.Ok at hold ⊢
      simpa only [callsOf_append, returnsOf_append, opsOf_append, resultsOf_append, hcalls, hrets,
        hops, hresults, List.append_nil] using hold
  exact ⟨hb.lin.extend rfl hone (List.prefix_append _ _) hserial fun d => (hclients d).prefixes,
    hclients⟩

/-- A client calls an operation. -/
theorem Book.call (hb : Book spec s₀ pending h ops t) (hc : pending c = .idle) (op : ω) :
    Book spec s₀ (Function.update pending c (.called op)) (h ++ [.call c op]) ops t := by
  have hidle := hb.clients c
  rw [hc] at hidle
  have hmove := hb.move (c := c) (.called op) [.call c op] le_rfl []
    (by rw [List.append_nil]; exact hb.lin.serial) ?_ ?_
  · rwa [List.append_nil] at hmove
  · refine ⟨?_, ?_⟩
    · rw [List.append_nil, ← hidle.1, callsOf_append]
      simp [callsOf]
    · rw [List.append_nil, ← hidle.2, returnsOf_append]
      simp [returnsOf]
  · intro d hd
    simp [callsOf, returnsOf, opsOf, resultsOf, Ne.symm hd]

/-- The operation of a client takes effect. -/
theorem Book.effect (hb : Book spec s₀ pending h ops t) (hc : pending c = .called op) :
    Book spec s₀ (Function.update pending c (.effected (spec op t).2)) h
      (ops ++ [⟨c, op, (spec op t).2⟩]) (spec op t).1 := by
  have hcalled := hb.clients c
  rw [hc] at hcalled
  have hmove := hb.move (c := c) (.effected (spec op t).2) [] (Nat.zero_le 1)
    [⟨c, op, (spec op t).2⟩] (hb.lin.serial.concat c op) ?_ ?_
  · rwa [List.append_nil] at hmove
  · refine ⟨?_, ?_⟩
    · rw [List.append_nil, hcalled.1, opsOf_append]
      simp [opsOf]
    · rw [List.append_nil, hcalled.2, resultsOf_append]
      simp [resultsOf]
  · intro d hd
    simp [callsOf, returnsOf, opsOf, resultsOf, Ne.symm hd]

/-- A client gets its result. -/
theorem Book.ret (hb : Book spec s₀ pending h ops t) (hc : pending c = .effected b) :
    Book spec s₀ (Function.update pending c .idle) (h ++ [.ret c b]) ops t := by
  have heffected := hb.clients c
  rw [hc] at heffected
  have hmove := hb.move (c := c) .idle [.ret c b] le_rfl []
    (by rw [List.append_nil]; exact hb.lin.serial) ?_ ?_
  · rwa [List.append_nil] at hmove
  · refine ⟨?_, ?_⟩
    · rw [List.append_nil, ← heffected.1, callsOf_append]
      simp [callsOf]
    · rw [List.append_nil, heffected.2, returnsOf_append]
      simp [returnsOf]
  · intro d hd
    simp [callsOf, returnsOf, opsOf, resultsOf, Ne.symm hd]

end

/-! ## Atomic programs -/

namespace Prog

/-- What is left of a program whose operation has taken effect: nothing is seen of its steps, and it
ends with the result `b`. -/
def Settled (I : σ → Prop) (view : σ → τ) (out : ρ → β) (b : β) (p : Prog σ ρ) : Prop :=
  p.Keeps I view ∧ p.Ends I fun r => out r = b

/-- One step of the program does to the object what `f` does, and the steps around it do nothing
that is seen. A program without such a step leaves the object as it is. -/
def Atomic (I : σ → Prop) (view : σ → τ) (out : ρ → β) (f : τ → τ × β) : Prog σ ρ → Prop
  | .done r => ∀ s, I s → f (view s) = (view s, out r)
  | .step act next => ∀ s, I s → I (act s) ∧
      (view (act s) = view s ∧ (next s).Atomic I view out f ∨
        view (act s) = (f (view s)).1 ∧ (next s).Settled I view out (f (view s)).2)

variable {I : σ → Prop} {view : σ → τ} {out : ρ → β} {b : β}

theorem Settled.done {r : ρ} (h : out r = b) : (Prog.done r : Prog σ ρ).Settled I view out b :=
  ⟨trivial, h⟩

theorem Settled.step {act : σ → σ} {next : σ → Prog σ ρ}
    (h : ∀ s, I s → I (act s) ∧ view (act s) = view s ∧ (next s).Settled I view out b) :
    (Prog.step act next).Settled I view out b :=
  ⟨fun s hs => ⟨(h s hs).1, (h s hs).2.1, (h s hs).2.2.1⟩, fun s hs => ⟨(h s hs).1, (h s hs).2.2.2⟩⟩

theorem Settled.next {act : σ → σ} {next : σ → Prog σ ρ}
    (h : (Prog.step act next).Settled I view out b) {s : σ} (hs : I s) :
    I (act s) ∧ view (act s) = view s ∧ (next s).Settled I view out b :=
  ⟨(h.1 s hs).1, (h.1 s hs).2.1, (h.1 s hs).2.2, (h.2 s hs).2⟩

end Prog

/-! ## Clients of atomic programs -/

section

variable [DecidableEq γ] (I : σ → Prop) (view : σ → τ) (out : ρ → β) (spec : ω → τ → τ × β) (s₀ : τ)

/-- What is known of the program of a client. -/
def ClientOk : CallStage ω β → Option (Prog σ ρ) → Prop
  | .idle, none => True
  | .called op, some p => p.Atomic I view out (spec op)
  | .effected b, some p => p.Settled I view out b
  | _, _ => False

/-- The shared state, the programs of the clients, the history so far and the operations that have
taken effect. -/
structure Tracks (s : σ) (progs : γ → Option (Prog σ ρ)) (h : List (HistoryEvent γ ω β))
    (ops : List (Effected γ ω β)) : Prop where
  inv : I s
  clients : ∃ pending, Book spec s₀ pending h ops (view s) ∧
    ∀ c, ClientOk I view out spec (pending c) (progs c)

variable {I view out spec s₀} {s : σ} {progs : γ → Option (Prog σ ρ)}
  {h : List (HistoryEvent γ ω β)} {ops : List (Effected γ ω β)} {c : γ}

theorem Tracks.lin (ht : Tracks I view out spec s₀ s progs h ops) :
    Linearization spec s₀ h ops (view s) := by
  obtain ⟨_, hb, -⟩ := ht.clients
  exact hb.lin

theorem tracks_start (hs : I s) :
    Tracks I view out spec (view s) s (fun _ : γ => none) ([] : List (HistoryEvent γ ω β)) [] :=
  ⟨hs, fun _ => .idle, book_start spec (view s), fun _ => trivial⟩

/-- A step changes what is known of one client. -/
theorem clientOk_update {pending : γ → CallStage ω β}
    (hclients : ∀ d, ClientOk I view out spec (pending d) (progs d)) (p : CallStage ω β)
    (prog : Option (Prog σ ρ)) (hself : ClientOk I view out spec p prog) (c d : γ) :
    ClientOk I view out spec (Function.update pending c p d) (Function.update progs c prog d) := by
  by_cases hd : d = c
  · subst hd
    rw [Function.update_self, Function.update_self]
    exact hself
  · rw [Function.update_of_ne hd, Function.update_of_ne hd]
    exact hclients d

/-- A client calls an operation. -/
theorem Tracks.call (ht : Tracks I view out spec s₀ s progs h ops) (hc : progs c = none) {op : ω}
    {p : Prog σ ρ} (hp : p.Atomic I view out (spec op)) :
    Tracks I view out spec s₀ s (Function.update progs c (some p)) (h ++ [.call c op]) ops := by
  obtain ⟨pending, hb, hclients⟩ := ht.clients
  have hself := hclients c
  rw [hc] at hself
  cases hpc : pending c with
  | idle =>
    have hcalled : ClientOk I view out spec (.called op) (some p) := hp
    exact ⟨ht.inv, _, hb.call hpc op, clientOk_update hclients _ _ hcalled c⟩
  | called | effected =>
    rw [hpc] at hself
    cases hself

/-- A client makes a step. -/
theorem Tracks.step (ht : Tracks I view out spec s₀ s progs h ops) {act : σ → σ}
    {next : σ → Prog σ ρ} (hc : progs c = some (.step act next)) :
    ∃ ops', Tracks I view out spec s₀ (act s) (Function.update progs c (some (next s))) h ops' := by
  obtain ⟨pending, hb, hclients⟩ := ht.clients
  have hself := hclients c
  rw [hc] at hself
  cases hpc : pending c with
  | idle =>
    rw [hpc] at hself
    cases hself
  | called op =>
    rw [hpc] at hself
    obtain ⟨hinv, ⟨hview, hlater⟩ | ⟨hview, hnow⟩⟩ := hself s ht.inv
    · refine ⟨ops, hinv, pending, by rw [hview]; exact hb, ?_⟩
      have hupdate := clientOk_update hclients (.called op) (some (next s)) hlater c
      rwa [← hpc, Function.update_eq_self] at hupdate
    · have heffected : ClientOk I view out spec (.effected (spec op (view s)).2) (some (next s)) :=
        hnow
      have hbook := hb.effect hpc
      rw [← hview] at hbook
      exact ⟨_, hinv, _, hbook, clientOk_update hclients _ _ heffected c⟩
  | effected b =>
    rw [hpc] at hself
    obtain ⟨hinv, hview, hnext⟩ := hself.next ht.inv
    refine ⟨ops, hinv, pending, by rw [hview]; exact hb, ?_⟩
    have hupdate := clientOk_update hclients (.effected b) (some (next s)) hnext c
    rwa [← hpc, Function.update_eq_self] at hupdate

/-- A client returns. -/
theorem Tracks.ret (ht : Tracks I view out spec s₀ s progs h ops) {r : ρ}
    (hc : progs c = some (.done r)) :
    ∃ ops', Tracks I view out spec s₀ s (Function.update progs c none) (h ++ [.ret c (out r)])
      ops' := by
  obtain ⟨pending, hb, hclients⟩ := ht.clients
  have hself := hclients c
  rw [hc] at hself
  have hidle : ClientOk I view out spec (.idle : CallStage ω β) none := trivial
  cases hpc : pending c with
  | idle =>
    rw [hpc] at hself
    cases hself
  | called op =>
    -- The operation leaves the object as it is; it takes effect now.
    rw [hpc] at hself
    have hnow : spec op (view s) = (view s, out r) := hself s ht.inv
    have heffect := hb.effect hpc
    rw [hnow] at heffect
    have hret := heffect.ret (Function.update_self _ _ _)
    rw [Function.update_idem] at hret
    exact ⟨_, ht.inv, _, hret, clientOk_update hclients _ _ hidle c⟩
  | effected b =>
    rw [hpc] at hself
    obtain rfl : out r = b := hself.2
    exact ⟨ops, ht.inv, _, hb.ret hpc, clientOk_update hclients _ _ hidle c⟩

end

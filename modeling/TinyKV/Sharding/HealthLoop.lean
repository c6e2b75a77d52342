import TinyKV.Sharding.HealthChecker

/-!
# The thread of the health checker

`HealthChecker::runLoop` in `src/sharding/health_checker.cpp` checks all shards in rounds, with a
pause of `intervalMs_` after each round that it sleeps in pieces of 50 milliseconds. `stop` clears
`running_`, which the thread reads between two checks and between two pieces, and joins the thread.

* `loopMachine`: the thread, a step at a time, and `stop`. What the network does at a step is part
  of the action (`Network`). A check does not return if a peer accepts and never answers.
* `LoopPhase.left`: how many steps the round takes until its end; `roundSteps` for a whole one.
* `dead_primary_fails_over`: when the pings of a primary fail from the start and its replica
  answers, the shard has failed over after `maxMissedPings` rounds.
* `checks_are_spaced`: the thread sleeps for `intervalMs_` at least between two checks of a shard.
* `stop_returns`: after `stop` the thread ends, with at most one more check or sleep, unless the
  check that it is in does not return.

The counter `waited` is an `int` in the source. It is unbounded here: it leaves the type only for
intervals in the last 50 milliseconds below `INT_MAX`.
-/

namespace TinyKV

open Cpp

/-! ## The thread -/

/-- What the network does with the requests of a check, for each shard. -/
structure Network where
  ping : Bytes → NodeRole → Exchange
  promotion : Bytes → Exchange
  /-- The requests to the shard return. They wait for an answer without a limit. -/
  returns : Bytes → Bool

def Network.check (net : Network) (shardId : Bytes) : CheckAction where
  shardId := shardId
  primary := net.ping shardId .PRIMARY
  replica := net.ping shardId .REPLICA
  promotion := net.promotion shardId

@[simp] theorem Network.check_shardId (net : Network) (id : Bytes) : (net.check id).shardId = id :=
  rfl

/-- Where the thread is in `runLoop`. -/
inductive LoopPhase where
  /-- `while (running_.load())` -/
  | loop
  /-- `for (const auto& shardId : ..)`, with the shards that are left. -/
  | shards (ids : List Bytes)
  /-- `checkShard(shardId)` -/
  | checking (shardId : Bytes) (ids : List Bytes)
  /-- `waited < intervalMs_ && running_.load()` -/
  | waiting (waited : Int)
  /-- `sleep_for` -/
  | sleeping (waited : Int)
  | ended
  deriving DecidableEq

structure HealthChecker where
  topology : ShardTopology
  running : Bool
  phase : LoopPhase

/-- `HealthChecker::start` -/
def HealthChecker.start (topology : ShardTopology) : HealthChecker := ⟨topology, true, .loop⟩

inductive LoopAction where
  | thread (net : Network)
  /-- `running_ = false` in `stop`. -/
  | stop

inductive LoopEvent where
  | checked (r : CheckReport)
  | slept (milliseconds : Int)

section

variable (intervalMs maxMissedPings : Int)

/-- One step of `runLoop`. -/
def HealthChecker.runLoop (s : HealthChecker) (net : Network) :
    Option (HealthChecker × Option LoopEvent) :=
  match s.phase with
  | .loop =>
    some ({ s with phase := if s.running then .shards s.topology.shardIds else .ended }, none)
  | .shards [] => some ({ s with phase := .waiting 0 }, none)
  | .shards (id :: ids) =>
    some ({ s with phase := if s.running then .checking id ids else .waiting 0 }, none)
  | .checking id ids =>
    if net.returns id then
      let r := checkShard maxMissedPings s.topology (net.check id)
      some ({ s with topology := r.1, phase := .shards ids }, some (.checked r.2))
    else none
  | .waiting waited =>
    some ({ s with phase := if waited < intervalMs && s.running then .sleeping waited else .loop },
      none)
  | .sleeping waited =>
    some ({ s with phase := .waiting (waited + 50) }, some (.slept (min 50 (intervalMs - waited))))
  | .ended => none

/-- The thread and the calls of `stop`. -/
def loopMachine : Machine HealthChecker LoopAction (Option LoopEvent) where
  step s
    | .thread net => s.runLoop intervalMs maxMissedPings net
    | .stop => some ({ s with running := false }, none)

end

/-- The checks of a run. -/
def reports (outs : List (Option LoopEvent)) : List CheckReport :=
  outs.filterMap fun
    | some (.checked r) => some r
    | _ => none

/-- The sleeps of a run. -/
def sleeps (outs : List (Option LoopEvent)) : List Int :=
  outs.filterMap fun
    | some (.slept milliseconds) => some milliseconds
    | _ => none

theorem reports_concat (outs : List (Option LoopEvent)) (o : Option LoopEvent) :
    reports (outs ++ [o]) = reports outs ++ reports [o] := List.filterMap_append

/-! ## How long a round takes -/

/-- The pieces that the thread still sleeps. -/
def pieces (intervalMs waited : Int) : Nat := ((intervalMs - waited).toNat + 49) / 50

/-- The steps that are left of a round. -/
def LoopPhase.left (intervalMs : Int) : LoopPhase → Nat
  | .loop | .ended => 0
  | .shards ids => 2 * ids.length + 2 * pieces intervalMs 0 + 2
  | .checking _ ids => 2 * ids.length + 2 * pieces intervalMs 0 + 3
  | .waiting waited => 2 * pieces intervalMs waited + 1
  | .sleeping waited => 2 * pieces intervalMs (waited + 50) + 2

/-- The steps of a round. -/
def roundSteps (intervalMs : Int) (t : ShardTopology) : Nat :=
  2 * t.shardIds.length + 2 * pieces intervalMs 0 + 3

/-- The shards that the round has not checked yet. -/
def LoopPhase.rest : LoopPhase → List Bytes
  | .loop | .waiting _ | .sleeping _ | .ended => []
  | .shards ids => ids
  | .checking id ids => id :: ids

/-- How often the shard is still checked in the round. -/
def LoopPhase.pending (shardId : Bytes) (phase : LoopPhase) : Nat := phase.rest.count shardId

theorem pieces_of_lt {intervalMs waited : Int} (h : waited < intervalMs) :
    pieces intervalMs waited = pieces intervalMs (waited + 50) + 1 := by
  unfold pieces
  omega

theorem pieces_of_not_lt {intervalMs waited : Int} (h : ¬ waited < intervalMs) :
    pieces intervalMs waited = 0 := by
  unfold pieces
  omega

section

variable {intervalMs maxMissedPings : Int} {s s' : HealthChecker} {net : Network}
  {o : Option LoopEvent}

/-- A step while the checker runs: the round goes on, or a new one begins. -/
theorem runLoop_running (hrunning : s.running = true)
    (hs : s.runLoop intervalMs maxMissedPings net = some (s', o)) :
    s'.running = true ∧
      (s'.phase.left intervalMs + 1 = s.phase.left intervalMs ∨
        s.phase = .loop ∧ s'.phase.left intervalMs + 1 = roundSteps intervalMs s.topology) := by
  unfold HealthChecker.runLoop at hs
  split at hs
  · rename_i hphase
    cases hs
    refine ⟨hrunning, .inr ⟨hphase, ?_⟩⟩
    simp only [hrunning, if_true, LoopPhase.left, roundSteps]
  · rename_i hphase
    cases hs
    refine ⟨hrunning, .inl ?_⟩
    simp only [hphase, LoopPhase.left, List.length_nil]
    omega
  · rename_i id ids hphase
    cases hs
    refine ⟨hrunning, .inl ?_⟩
    simp only [hphase, hrunning, if_true, LoopPhase.left, List.length_cons]
    omega
  · rename_i id ids hphase
    obtain ⟨-, hs⟩ := Option.ite_none_right_eq_some.mp hs
    cases hs
    refine ⟨hrunning, .inl ?_⟩
    simp only [hphase, LoopPhase.left]
  · rename_i waited hphase
    cases hs
    refine ⟨hrunning, .inl ?_⟩
    by_cases hlt : waited < intervalMs
    · simp only [hphase, hrunning, hlt, decide_true, Bool.and_self, if_true, LoopPhase.left,
        pieces_of_lt hlt]
      omega
    · simp only [hphase, hlt, decide_false, Bool.false_and, Bool.false_eq_true, if_false,
        LoopPhase.left, pieces_of_not_lt hlt]
  · rename_i waited hphase
    cases hs
    refine ⟨hrunning, .inl ?_⟩
    simp only [hphase, LoopPhase.left]
  · cases hs

/-- A step is a check, or it leaves the topology. -/
theorem runLoop_check (hs : s.runLoop intervalMs maxMissedPings net = some (s', o)) :
    (reports [o] = [] ∧ s'.topology = s.topology) ∨
      ∃ id ids, s.phase = .checking id ids ∧ s'.phase = .shards ids ∧
        reports [o] = [(checkShard maxMissedPings s.topology (net.check id)).2] ∧
        s'.topology = (checkShard maxMissedPings s.topology (net.check id)).1 := by
  unfold HealthChecker.runLoop at hs
  split at hs
  case h_4 id ids hphase =>
    obtain ⟨-, hs⟩ := Option.ite_none_right_eq_some.mp hs
    cases hs
    exact .inr ⟨id, ids, hphase, rfl, rfl, rfl⟩
  case h_7 => cases hs
  all_goals
    cases hs
    exact .inl ⟨rfl, rfl⟩

/-- The pings of one check. -/
theorem pings_check (maxMissedPings : Int) (t : ShardTopology) (a : CheckAction) (id : Bytes)
    (role : NodeRole) :
    pings [(checkShard maxMissedPings t a).2] id role =
      if a.shardId = id then
        match role with
        | .PRIMARY => [(checkShard maxMissedPings t a).2.primaryUp]
        | .REPLICA => (checkShard maxMissedPings t a).2.replicaUp.toList
      else [] := by
  have hid := (checkShard_spec maxMissedPings t a).1
  by_cases h : a.shardId = id
  · cases role with
    | PRIMARY => simp [pings, CheckReport.ping, hid, h]
    | REPLICA =>
      cases hup : (checkShard maxMissedPings t a).2.replicaUp <;>
        simp [pings, CheckReport.ping, hid, h, hup]
  · simp [pings, CheckReport.ping, hid, h]

/-- The checks of a shard, while the checker runs. -/
theorem runLoop_pending (hrunning : s.running = true)
    (hs : s.runLoop intervalMs maxMissedPings net = some (s', o)) (id : Bytes) :
    (s.phase ≠ .loop ∧
      (pings (reports [o]) id .PRIMARY).length + s'.phase.pending id = s.phase.pending id) ∨
    (s.phase = .loop ∧ reports [o] = [] ∧ s'.phase.pending id = s.topology.shardIds.count id) := by
  unfold HealthChecker.runLoop at hs
  split at hs
  · rename_i hphase
    cases hs
    refine .inr ⟨hphase, rfl, ?_⟩
    simp only [hrunning, if_true, LoopPhase.pending, LoopPhase.rest]
  · rename_i hphase
    cases hs
    refine .inl ⟨by simp [hphase], ?_⟩
    simp [hphase, LoopPhase.pending, LoopPhase.rest, reports, pings]
  · rename_i x ids hphase
    cases hs
    refine .inl ⟨by simp [hphase], ?_⟩
    simp [hphase, hrunning, LoopPhase.pending, LoopPhase.rest, reports, pings]
  · rename_i x ids hphase
    obtain ⟨-, hs⟩ := Option.ite_none_right_eq_some.mp hs
    cases hs
    refine .inl ⟨by simp [hphase], ?_⟩
    show (pings [(checkShard _ _ _).2] id .PRIMARY).length + _ = _
    rw [pings_check, hphase]
    show (if x = id then _ else _ : List Bool).length + ids.count id = (x :: ids).count id
    by_cases hx : x = id
    · rw [if_pos hx, hx, List.count_cons_self, List.length_singleton, Nat.add_comm]
    · rw [if_neg hx, List.count_cons_of_ne hx, List.length_nil, Nat.zero_add]
  · rename_i waited hphase
    cases hs
    refine .inl ⟨by simp [hphase], ?_⟩
    by_cases hsleep : (decide (waited < intervalMs) && s.running) = true
    · simp [hphase, hsleep, LoopPhase.pending, LoopPhase.rest, reports, pings]
    · simp [hphase, hsleep, LoopPhase.pending, LoopPhase.rest, reports, pings]
  · rename_i waited hphase
    cases hs
    refine .inl ⟨by simp [hphase], ?_⟩
    simp [hphase, LoopPhase.pending, LoopPhase.rest, reports, pings]
  · cases hs

end

/-- A thread that is not told to stop takes its steps, if all checks return. -/
theorem runLoop_progress {intervalMs maxMissedPings : Int} {s : HealthChecker}
    (hrunning : s.running = true) (hphase : s.phase ≠ .ended) {net : Network}
    (hreturns : ∀ id, net.returns id = true) :
    ∃ s' o, s.runLoop intervalMs maxMissedPings net = some (s', o) ∧ s'.running = true ∧
      s'.phase ≠ .ended := by
  unfold HealthChecker.runLoop
  split
  · exact ⟨_, _, rfl, hrunning, by simp [hrunning]⟩
  · exact ⟨_, _, rfl, hrunning, by simp⟩
  · exact ⟨_, _, rfl, hrunning, by simp [hrunning]⟩
  · rw [if_pos (hreturns _)]
    exact ⟨_, _, rfl, hrunning, by simp⟩
  · refine ⟨_, _, rfl, hrunning, ?_⟩
    dsimp only
    split <;> rintro ⟨⟩
  · exact ⟨_, _, rfl, hrunning, by simp⟩
  · rename_i hended
    exact absurd hended hphase

/-! ## A shard that loses its primary -/

/-- What a check of a shard with a replica reports. The shard has failed over after it if its
primary is then down, its replica up, and the replica answers. -/
theorem checkShard_found {maxMissedPings : Int} {t : ShardTopology} {a : CheckAction} {s : Shard}
    (hs : t.findShard a.shardId = some s) (hreplica : s.hasReplica = true)
    {t' : ShardTopology} {r : CheckReport} (hr : checkShard maxMissedPings t a = (t', r)) :
    r.primaryUp = pingNode s.primary.address a.primary ∧
      r.replicaUp = some (pingNode s.replica.address a.replica) ∧
      ∀ s', t'.findShard a.shardId = some s' → s'.primary.health = .DOWN →
        s'.replica.health = .UP → a.promotion.reply s.replica.address = some Reply.ok →
        s'.failedOver = true := by
  unfold checkShard at hr
  dsimp only at hr
  rw [show t.primaryAddress a.shardId = s.primary.address by
    rw [ShardTopology.primaryAddress, hs]] at hr
  generalize pingNode s.primary.address a.primary = up at hr ⊢
  have h₁ := findShard_recordPingResult t a.shardId .PRIMARY up maxMissedPings a.shardId
  generalize t.recordPingResult a.shardId .PRIMARY up maxMissedPings = t₁ at hr h₁
  have hs₁ : t₁.findShard a.shardId =
      some { s with primary := s.primary.recordPing up maxMissedPings } := by
    rw [h₁, if_pos rfl, hs]
    rfl
  simp only [ShardTopology.hasReplica, ShardTopology.replicaAddress, ShardTopology.healthOf,
    hs₁] at hr
  rw [if_neg (by simp [hreplica])] at hr
  generalize pingNode s.replica.address a.replica = up' at hr ⊢
  have h₂ := findShard_recordPingResult t₁ a.shardId .REPLICA up' maxMissedPings a.shardId
  generalize t₁.recordPingResult a.shardId .REPLICA up' maxMissedPings = t₂ at hr h₂
  have hs₂ : t₂.findShard a.shardId =
      some { s with
        primary := s.primary.recordPing up maxMissedPings
        replica := s.replica.recordPing up' maxMissedPings } := by
    rw [h₂, if_pos rfl, hs₁]
    rfl
  simp only [hs₂, ShardTopology.alreadyFailedOver] at hr
  -- The guards of a promotion.
  split at hr
  · rename_i hnot
    cases hr
    refine ⟨rfl, rfl, fun s' hs' hdown => ?_⟩
    rw [hs₂] at hs'
    cases hs'
    exact absurd hdown hnot
  split at hr
  · rename_i hnot
    cases hr
    refine ⟨rfl, rfl, fun s' hs' _ hup => ?_⟩
    rw [hs₂] at hs'
    cases hs'
    exact absurd hup hnot
  split at hr
  · rename_i hf
    cases hr
    refine ⟨rfl, rfl, fun s' hs' _ _ _ => ?_⟩
    rw [hs₂] at hs'
    cases hs'
    exact hf
  rename_i hf
  split at hr
  · cases hr
    refine ⟨rfl, rfl, fun s' hs' _ _ _ => ?_⟩
    rw [findShard_promoteReplica hs₂ hreplica (Bool.not_eq_true _ ▸ hf), if_pos rfl] at hs'
    cases hs'
    rfl
  · rename_i hno
    cases hr
    exact ⟨rfl, rfl, fun s' _ _ _ hok => absurd hok hno⟩

/-- The pings of the shard's primary fail, its replica answers everything, and all checks return. -/
structure Network.Lost (net : Network) (t : ShardTopology) (id : Bytes) : Prop where
  returns : ∀ x, net.returns x = true
  primary : pingNode (t.primaryAddress id) (net.ping id .PRIMARY) = false
  replica : pingNode (t.replicaAddress id) (net.ping id .REPLICA) = true
  promotion : (net.promotion id).reply (t.replicaAddress id) = some Reply.ok

/-- A step of the thread on a network that has lost the primary. -/
def LoopAction.Lost (t : ShardTopology) (id : Bytes) : LoopAction → Prop
  | .thread net => net.Lost t id
  | .stop => False

theorem trailingMisses_of_false {ps : List Bool} (h : ∀ p ∈ ps, p = false) :
    trailingMisses ps = ps.length := by
  rw [List.eq_replicate_of_mem h]
  simp [trailingMisses]

theorem trailingMisses_of_true {ps : List Bool} (h : ∀ p ∈ ps, p = true) :
    trailingMisses ps = 0 := by
  unfold trailingMisses
  cases hr : ps.reverse with
  | nil => rfl
  | cons p rest =>
    obtain rfl : p = true := h p (by rw [← List.mem_reverse, hr]; exact List.mem_cons_self)
    rfl

theorem later_checkShard {t₀ t : ShardTopology} (h : List.Forall₂ Shard.Later t₀ t)
    (maxMissedPings : Int) (a : CheckAction) :
    List.Forall₂ Shard.Later t₀ (checkShard maxMissedPings t a).1 := by
  obtain ⟨acts, outs, hrun⟩ := checkShard_run maxMissedPings t a
  refine Machine.run_invariant (C := fun _ _ => True)
    (I := fun u => List.Forall₂ Shard.Later t₀ u) (fun u a u' o hu _ hs => ?_)
    (Machine.along_true _ _) hrun h
  cases hs
  exact later_next hu (apply_next u a)

theorem latch_checkShard {t : ShardTopology} (h : ∀ s ∈ t, s.Latch) (maxMissedPings : Int)
    (a : CheckAction) : ∀ s ∈ (checkShard maxMissedPings t a).1, s.Latch := by
  obtain ⟨acts, outs, hrun⟩ := checkShard_run maxMissedPings t a
  exact forall_of_run (fun s s' hnext hs => hnext.latch hs) hrun h

/-- A shard of the start, later. -/
theorem exists_later {t₀ t : ShardTopology} (h : List.Forall₂ Shard.Later t₀ t) {id : Bytes}
    {s₀ : Shard} (hs₀ : t₀.findShard id = some s₀) : ∃ s, t.findShard id = some s ∧ s₀.Later s := by
  have hid : id ∈ t.shardIds := by
    rw [shardIds_of_later h]
    have heq : s₀.id = id := by simpa using List.find?_some hs₀
    exact List.mem_map.mpr ⟨s₀, List.mem_of_find?_eq_some hs₀, heq⟩
  obtain ⟨shard, hmem, heq⟩ := List.mem_map.mp hid
  have hsome : (t.findShard id).isSome = true :=
    List.find?_isSome.mpr ⟨shard, hmem, by simpa using heq⟩
  obtain ⟨s, hs⟩ := Option.isSome_iff_exists.mp hsome
  obtain ⟨s₁, hs₁, hlater⟩ := findShard_of_later h hs
  rw [hs₀] at hs₁
  cases hs₁
  exact ⟨s, hs, hlater⟩

/-- What a run keeps while the network has lost the primary of the shard `id`. -/
structure Watched (intervalMs maxMissedPings : Int) (t₀ : ShardTopology) (id : Bytes)
    (s : HealthChecker) (acts : List LoopAction) (outs : List (Option LoopEvent)) : Prop where
  running : s.running = true
  later : List.Forall₂ Shard.Later t₀ s.topology
  latch : ∀ shard ∈ s.topology, shard.Latch
  tracks : TracksAll maxMissedPings s.topology (reports outs)
  left : s.phase.left intervalMs < roundSteps intervalMs t₀
  pending : s.phase.pending id ≤ t₀.shardIds.count id
  rounds : ∃ k, acts.length + s.phase.left intervalMs = k * roundSteps intervalMs t₀ ∧
    (pings (reports outs) id .PRIMARY).length + s.phase.pending id = k * t₀.shardIds.count id
  primary : ∀ p ∈ pings (reports outs) id .PRIMARY, p = false
  replica : ∀ p ∈ pings (reports outs) id .REPLICA, p = true
  failsOver : maxMissedPings ≤ (pings (reports outs) id .PRIMARY).length →
    s.topology.alreadyFailedOver id = true

section

variable {intervalMs maxMissedPings : Int} {t₀ : ShardTopology} {id : Bytes} {s s' : HealthChecker}
  {acts : List LoopAction} {outs : List (Option LoopEvent)} {net : Network} {o : Option LoopEvent}

theorem pings_reports_concat (outs : List (Option LoopEvent)) (o : Option LoopEvent) (id : Bytes)
    (role : NodeRole) :
    pings (reports (outs ++ [o])) id role =
      pings (reports outs) id role ++ pings (reports [o]) id role := by
  rw [reports_concat]
  exact List.filterMap_append

/-- The step of the round. -/
theorem Watched.count (h : Watched intervalMs maxMissedPings t₀ id s acts outs)
    (hs : s.runLoop intervalMs maxMissedPings net = some (s', o)) (a : LoopAction) :
    s'.running = true ∧ s'.phase.left intervalMs < roundSteps intervalMs t₀ ∧
      s'.phase.pending id ≤ t₀.shardIds.count id ∧
      ∃ k, (acts ++ [a]).length + s'.phase.left intervalMs = k * roundSteps intervalMs t₀ ∧
        (pings (reports (outs ++ [o])) id .PRIMARY).length + s'.phase.pending id =
          k * t₀.shardIds.count id := by
  have hids := shardIds_of_later h.later
  have hround : roundSteps intervalMs s.topology = roundSteps intervalMs t₀ := by
    rw [roundSteps, hids]
    rfl
  obtain ⟨hrunning, hleft⟩ := runLoop_running h.running hs
  have hpending := runLoop_pending h.running hs id
  obtain ⟨k, hlength, hpings⟩ := h.rounds
  have hlt := h.left
  have hle := h.pending
  rw [hround] at hleft
  rw [hids] at hpending
  rw [pings_reports_concat, List.length_append, List.length_append, List.length_singleton]
  refine ⟨hrunning, ?_⟩
  obtain ⟨hloop, hpending⟩ | ⟨hloop, hreports, hpending⟩ := hpending
  · obtain hleft | ⟨hloop', -⟩ := hleft
    · exact ⟨by omega, by omega, k, by omega, by omega⟩
    · exact absurd hloop' hloop
  · -- A round begins.
    have hzero : s.phase.left intervalMs = 0 ∧ s.phase.pending id = 0 := by
      rw [hloop]
      exact ⟨rfl, rfl⟩
    obtain hleft | ⟨-, hleft⟩ := hleft
    · omega
    · refine ⟨by omega, by omega, k + 1, ?_, ?_⟩
      · rw [Nat.add_mul, Nat.one_mul]
        omega
      · rw [hreports, Nat.add_mul, Nat.one_mul]
        simp only [pings, List.filterMap_nil, List.length_nil] at hpings ⊢
        omega

/-- A check of the shard. -/
theorem lost_check {t t' : ShardTopology} {r : CheckReport} (hlater : List.Forall₂ Shard.Later t₀ t)
    {s₀ : Shard} (hs₀ : t₀.findShard id = some s₀) (hreplica : s₀.hasReplica = true)
    (hnet : net.Lost t₀ id) (hr : checkShard maxMissedPings t (net.check id) = (t', r)) :
    pings [r] id .PRIMARY = [false] ∧ pings [r] id .REPLICA = [true] ∧
      ∀ s', t'.findShard id = some s' → s'.primary.health = .DOWN → s'.replica.health = .UP →
        s'.failedOver = true := by
  obtain ⟨s, hs, hsame⟩ := exists_later hlater hs₀
  obtain ⟨-, hdead, halive, hreply⟩ := hnet
  rw [ShardTopology.primaryAddress, hs₀] at hdead
  rw [ShardTopology.replicaAddress, hs₀] at halive hreply
  have hfound := checkShard_found (a := net.check id) hs
    (hsame.layout.hasReplica.trans hreplica) hr
  rw [hsame.layout.primary, hsame.layout.replica] at hfound
  obtain ⟨hup, hup', hover⟩ := hfound
  have hpings (role : NodeRole) := pings_check maxMissedPings t (net.check id) id role
  rw [hr] at hpings
  refine ⟨?_, ?_, fun s' hs' hdown hup => hover s' hs' hdown hup hreply⟩
  · rw [hpings, net.check_shardId, if_pos rfl]
    exact congrArg (fun up => [up]) (hup.trans hdead)
  · rw [hpings, net.check_shardId, if_pos rfl]
    exact congrArg Option.toList (hup'.trans (congrArg some halive))

theorem watched_step (hmax : 1 ≤ maxMissedPings) {s₀ : Shard} (hs₀ : t₀.findShard id = some s₀)
    (hreplica : s₀.hasReplica = true)
    (h : Watched intervalMs maxMissedPings t₀ id s acts outs) (hnet : net.Lost t₀ id)
    (hs : s.runLoop intervalMs maxMissedPings net = some (s', o)) (a : LoopAction) :
    Watched intervalMs maxMissedPings t₀ id s' (acts ++ [a]) (outs ++ [o]) := by
  obtain ⟨hrunning, hleft, hpending, hrounds⟩ := h.count hs a
  obtain ⟨hreports, htopology⟩ | ⟨x, ids, -, -, hreports, htopology⟩ := runLoop_check hs
  · have hsame : reports (outs ++ [o]) = reports outs := by
      rw [reports_concat, hreports, List.append_nil]
    refine ⟨hrunning, htopology ▸ h.later, htopology ▸ h.latch, ?_, hleft, hpending, hrounds, ?_,
      ?_, ?_⟩
    · rw [hsame, htopology]
      exact h.tracks
    · rw [hsame]
      exact h.primary
    · rw [hsame]
      exact h.replica
    · rw [hsame, htopology]
      exact h.failsOver
  have hlater := later_checkShard h.later maxMissedPings (net.check x)
  have hlatch := latch_checkShard h.latch maxMissedPings (net.check x)
  have htracks := tracksAll_step hmax h.tracks (net.check x)
  have hother := (checkShard_spec maxMissedPings s.topology (net.check x)).2.1 id
  have hpings (role : NodeRole) := pings_reports_concat outs o id role
  rw [hreports] at hpings
  have hconcat : reports (outs ++ [o]) = reports outs ++ reports [o] := reports_concat outs o
  rw [hreports] at hconcat
  rw [← hconcat] at htracks
  by_cases hx : x = id
  · -- The shard itself is checked.
    subst hx
    generalize hr : checkShard maxMissedPings s.topology (net.check x) = c at *
    obtain ⟨t', r⟩ := c
    dsimp only at htopology hpings hlater hlatch htracks
    subst htopology
    obtain ⟨hdead, halive, hover⟩ := lost_check h.later hs₀ hreplica hnet hr
    have hprimary := hpings .PRIMARY
    have hreplicaUp := hpings .REPLICA
    rw [hdead] at hprimary
    rw [halive] at hreplicaUp
    have hfalse : ∀ p ∈ pings (reports (outs ++ [o])) x .PRIMARY, p = false := by
      rw [hprimary]
      intro p hp
      obtain hp | hp := List.mem_append.mp hp
      · exact h.primary p hp
      · exact List.mem_singleton.mp hp
    have htrue : ∀ p ∈ pings (reports (outs ++ [o])) x .REPLICA, p = true := by
      rw [hreplicaUp]
      intro p hp
      obtain hp | hp := List.mem_append.mp hp
      · exact h.replica p hp
      · exact List.mem_singleton.mp hp
    refine ⟨hrunning, hlater, hlatch, htracks, hleft, hpending, hrounds, hfalse, htrue,
      fun hle => ?_⟩
    obtain ⟨shard, hshard, -⟩ := exists_later hlater hs₀
    rw [ShardTopology.alreadyFailedOver, hshard]
    refine hover shard hshard ?_ ?_
    · have hdown := (htracks x shard hshard .PRIMARY).health
      rw [trailingMisses_of_false hfalse] at hdown
      exact hdown.mpr hle
    · have hdown := (htracks x shard hshard .REPLICA).health
      rw [trailingMisses_of_true htrue] at hdown
      cases hhealth : shard.replica.health with
      | UP => rfl
      | DOWN =>
        have := hdown.mp hhealth
        omega
  · have hnone (role : NodeRole) :
        pings (reports (outs ++ [o])) id role = pings (reports outs) id role := by
      rw [hpings, pings_check, net.check_shardId, if_neg hx, List.append_nil]
    refine ⟨hrunning, htopology ▸ hlater, htopology ▸ hlatch, htopology ▸ htracks, hleft, hpending,
      hrounds, ?_, ?_, fun hle => ?_⟩
    · rw [hnone]
      exact h.primary
    · rw [hnone]
      exact h.replica
    · rw [hnone] at hle
      rw [ShardTopology.alreadyFailedOver, htopology, hother (Ne.symm hx)]
      exact h.failsOver hle

theorem watched_start (hmax : 1 ≤ maxMissedPings) (config : Config) (id : Bytes) :
    Watched intervalMs maxMissedPings (parseShards config) id (.start (parseShards config)) []
      [] := by
  have hfresh : ∀ s ∈ parseShards config, ∀ role,
      (s.node role).health = .UP ∧ (s.node role).consecutiveMisses = 0 := by
    intro s hs role
    obtain ⟨id, -, rfl⟩ := List.mem_map.mp hs
    cases role <;> exact ⟨rfl, rfl⟩
  have htracks : TracksAll maxMissedPings (parseShards config) [] := by
    have hnone : (healthMachine maxMissedPings).run (parseShards config) [] =
        some (parseShards config, []) := rfl
    exact tracksAll_run hmax hfresh hnone
  refine ⟨rfl, List.forall₂_same.mpr fun _ _ => .rfl, parseShards_latch config, htracks, ?_,
    Nat.zero_le _, ⟨0, ?_, ?_⟩, ?_, ?_, ?_⟩
  · simp [HealthChecker.start, LoopPhase.left, roundSteps]
  · simp [HealthChecker.start, LoopPhase.left]
  · simp [HealthChecker.start, LoopPhase.pending, LoopPhase.rest, reports, pings]
  · rintro _ ⟨⟩
  · rintro _ ⟨⟩
  · intro hle
    have hnone : (pings (reports []) id .PRIMARY).length = 0 := rfl
    rw [hnone] at hle
    omega

/-- Enough steps are enough checks. -/
theorem Watched.le_pings (h : Watched intervalMs maxMissedPings t₀ id s acts outs)
    (hid : 0 < t₀.shardIds.count id) {n : Nat}
    (henough : n * roundSteps intervalMs t₀ ≤ acts.length) :
    n ≤ (pings (reports outs) id .PRIMARY).length := by
  obtain ⟨k, hlength, hpings⟩ := h.rounds
  have hleft := h.left
  have hpending := h.pending
  generalize roundSteps intervalMs t₀ = r at *
  generalize t₀.shardIds.count id = c at *
  have hk : n ≤ k := by
    by_contra hlt
    have : (k + 1) * r ≤ n * r := Nat.mul_le_mul_right r (by omega)
    rw [Nat.add_mul, Nat.one_mul] at this
    omega
  obtain rfl | hk := Nat.eq_or_lt_of_le hk
  · -- The last round has just ended.
    have hzero : s.phase.pending id = 0 := by
      have hend : s.phase.left intervalMs = 0 := by omega
      cases hphase : s.phase with
      | loop | ended | waiting | sleeping => rfl
      | shards ids | checking x ids =>
        rw [hphase] at hend
        simp only [LoopPhase.left] at hend
        omega
    have : n ≤ n * c := Nat.le_mul_of_pos_right n hid
    omega
  · have h₁ : (n + 1) * c ≤ k * c := Nat.mul_le_mul_right c hk
    have h₂ : n ≤ n * c := Nat.le_mul_of_pos_right n hid
    rw [Nat.add_mul, Nat.one_mul] at h₁
    omega

end

/-- **A primary is lost.** If from the start of the checker every ping of the primary of a shard
fails, and the replica answers the pings and `REPLICAOF NO ONE`, then the shard has failed over to
the replica after `maxMissedPings` rounds, whatever the pings of the other shards give, as long as
every check returns. -/
theorem dead_primary_fails_over {intervalMs maxMissedPings : Int} (hmax : 1 ≤ maxMissedPings)
    (config : Config) {id : Bytes} (hreplica : (parseShards config).hasReplica id = true)
    {acts : List LoopAction} (hacts : ∀ a ∈ acts, a.Lost (parseShards config) id)
    (henough : maxMissedPings.toNat * roundSteps intervalMs (parseShards config) ≤ acts.length) :
    ∃ s outs, (loopMachine intervalMs maxMissedPings).run (.start (parseShards config)) acts =
        some (s, outs) ∧
      s.topology.alreadyFailedOver id = true ∧
      s.topology.activeAddressFor id = (parseShards config).replicaAddress id := by
  obtain ⟨s₀, hs₀, hreplica⟩ : ∃ s₀, (parseShards config).findShard id = some s₀ ∧
      s₀.hasReplica = true := by
    unfold ShardTopology.hasReplica at hreplica
    split at hreplica
    · rename_i s₀ hs₀
      exact ⟨s₀, hs₀, hreplica⟩
    · cases hreplica
  have hprogress : ∀ (s : HealthChecker) (a : LoopAction), s.running = true ∧ s.phase ≠ .ended →
      a.Lost (parseShards config) id →
      ∃ s' o, (loopMachine intervalMs maxMissedPings).step s a = some (s', o) ∧
        s'.running = true ∧ s'.phase ≠ .ended := by
    intro s a hs ha
    cases a with
    | thread net => exact runLoop_progress hs.1 hs.2 ha.returns
    | stop => cases ha
  obtain ⟨s, outs, hrun, -⟩ :=
    Machine.run_progress hprogress (Machine.along_of_forall hacts (.start (parseShards config)))
      ⟨rfl, by rintro ⟨⟩⟩
  have h : Watched intervalMs maxMissedPings (parseShards config) id s acts outs := by
    refine Machine.run_history (C := fun _ a => a.Lost (parseShards config) id)
      (I := Watched intervalMs maxMissedPings (parseShards config) id)
      (fun s acts outs a s' o _ h ha hs => ?_) (Machine.along_of_forall hacts _) hrun ?_
    · cases a with
      | thread net => exact watched_step hmax hs₀ hreplica h ha hs _
      | stop => cases ha
    · exact watched_start hmax config id
  have hid : 0 < (parseShards config).shardIds.count id := by
    have heq : s₀.id = id := by simpa using List.find?_some hs₀
    exact List.count_pos_iff.mpr (List.mem_map.mpr ⟨s₀, List.mem_of_find?_eq_some hs₀, heq⟩)
  have hover : s.topology.alreadyFailedOver id = true := by
    refine h.failsOver ?_
    have := h.le_pings hid henough
    omega
  refine ⟨s, outs, hrun, hover, ?_⟩
  obtain ⟨shard, hshard, hsame⟩ := exists_later h.later hs₀
  have hactive := (h.latch shard (List.mem_of_find?_eq_some hshard)).active
  rw [ShardTopology.alreadyFailedOver, hshard] at hover
  rw [ShardTopology.activeAddressFor, hshard, ShardTopology.replicaAddress, hs₀]
  rw [if_pos hover, hsame.layout.replica] at hactive
  exact hactive

/-- The replica of a shard answers everything, and nothing else does. -/
def lostNetwork : Network where
  ping _ role := match role with
    | .PRIMARY => ⟨false, false, none⟩
    | .REPLICA => ⟨true, true, some Reply.ok⟩
  promotion _ := ⟨true, true, some Reply.ok⟩
  returns _ := true

theorem dead_primary_fails_over_lostNetwork :
    ∃ s outs, (loopMachine 120 3).run (.start (parseShards replicatedConfig))
        (List.replicate 33 (.thread lostNetwork)) = some (s, outs) ∧
      s.topology.alreadyFailedOver (ascii "s1") = true ∧
      s.topology.activeAddressFor (ascii "s1") =
        (parseShards replicatedConfig).replicaAddress (ascii "s1") := by
  refine dead_primary_fails_over (by decide) replicatedConfig (by decide +kernel)
    (fun a ha => ?_) (by decide +kernel)
  rw [List.eq_of_mem_replicate ha]
  exact ⟨fun _ => rfl, by decide +kernel, by decide +kernel, by decide +kernel⟩

/-! ## The pace of the checks -/

theorem sleeps_concat (outs : List (Option LoopEvent)) (o : Option LoopEvent) :
    (sleeps (outs ++ [o])).sum = (sleeps outs).sum + (sleeps [o]).sum := by
  rw [sleeps, List.filterMap_append, List.sum_append]
  rfl

/-- The thread has slept for `slept` since it checked the shard. Where it stands then, if that is
less than the interval. -/
def HealthChecker.Since (intervalMs : Int) (s : HealthChecker) (id : Bytes) (slept : Int) : Prop :=
  0 ≤ slept ∧ (intervalMs ≤ slept ∨
    match s.phase with
    | .loop => s.running = false
    | .shards ids => id ∉ ids
    | .checking next ids => id ∉ next :: ids
    | .waiting waited => waited ≤ slept
    | .sleeping waited => waited ≤ slept
    | .ended => True)

section

variable {intervalMs maxMissedPings : Int} {s s' : HealthChecker} {net : Network}
  {o : Option LoopEvent}

/-- The pause of a round is over after the interval, or when the checker stops. -/
theorem since_step {id : Bytes} {slept : Int} (h : s.Since intervalMs id slept)
    (hsleeping : ∀ waited, s.phase = .sleeping waited → waited < intervalMs)
    (hs : s.runLoop intervalMs maxMissedPings net = some (s', o)) :
    s'.Since intervalMs id (slept + (sleeps [o]).sum) := by
  obtain ⟨hpos, h⟩ := h
  unfold HealthChecker.runLoop at hs
  split at hs
  case h_7 => cases hs
  case h_6 waited hphase =>
    cases hs
    have hlt := hsleeping waited hphase
    rw [hphase] at h
    have hsum : (sleeps [some (.slept (min 50 (intervalMs - waited)))]).sum =
      min 50 (intervalMs - waited) := Int.add_zero _
    rw [hsum]
    refine ⟨by omega, ?_⟩
    obtain h | h := h
    · exact .inl (by omega)
    · -- A piece of 50 milliseconds, or what is left of the interval.
      by_cases hpiece : intervalMs - waited < 50
      · exact .inl (by omega)
      · exact .inr (show waited + 50 ≤ _ by omega)
  case h_4 hphase =>
    obtain ⟨-, hs⟩ := Option.ite_none_right_eq_some.mp hs
    cases hs
    rw [hphase] at h
    refine ⟨(Int.add_zero slept).symm ▸ hpos, ?_⟩
    rw [show (sleeps _).sum = 0 from rfl, Int.add_zero]
    exact h.imp_right fun hnot hmem => hnot (List.mem_cons_of_mem _ hmem)
  all_goals
    rename_i hphase
    cases hs
    rw [hphase] at h
    refine ⟨(Int.add_zero slept).symm ▸ hpos, ?_⟩
    rw [show (sleeps _).sum = 0 from rfl, Int.add_zero]
    obtain h | h := h
    · exact .inl h
  case h_1 => exact .inr (by simp [h])
  case h_2 => exact .inr hpos
  case h_3 =>
    cases hrunning : s.running
    · exact .inr (by simpa [hrunning] using hpos)
    · exact .inr (by simpa [hrunning] using h)
  case h_5 waited =>
    replace h : waited ≤ slept := h
    by_cases hlt : waited < intervalMs
    · cases hrunning : s.running
      · exact .inr (by simp)
      · exact .inr (by simpa [hlt] using h)
    · exact .inl (by omega)

/-- The round comes to no shard twice: if the shard is checked, the interval is over. -/
theorem since_check {r : CheckReport} (hrest : s.phase.rest.Nodup)
    (hs : s.runLoop intervalMs maxMissedPings net = some (s', some (.checked r))) :
    s'.Since intervalMs r.shardId 0 ∧
      ∀ slept, s.Since intervalMs r.shardId slept → intervalMs ≤ slept := by
  obtain ⟨hnone, -⟩ | ⟨id, ids, hphase, hphase', hreports, -⟩ := runLoop_check hs
  · cases hnone
  have hid : r.shardId = id := by
    rw [List.singleton_inj.mp hreports, (checkShard_spec _ _ _).1, net.check_shardId]
  rw [hid]
  refine ⟨⟨Int.le_refl 0, .inr ?_⟩, fun slept hsince => ?_⟩
  · rw [hphase']
    rw [hphase] at hrest
    exact (List.nodup_cons.mp hrest).1
  · obtain hover | hnot := hsince.2
    · exact hover
    · rw [hphase] at hnot
      exact absurd List.mem_cons_self hnot

theorem since_stop {id : Bytes} {slept : Int} (h : s.Since intervalMs id slept) :
    ({ s with running := false } : HealthChecker).Since intervalMs id slept := by
  obtain ⟨hpos, hover | h⟩ := h
  · exact ⟨hpos, .inl hover⟩
  · refine ⟨hpos, .inr ?_⟩
    cases hphase : s.phase with
    | loop => rfl
    | _ =>
      rw [hphase] at h
      exact h

/-- The round leaves out no shard and takes none twice. -/
theorem rest_step (hids : s.topology.shardIds.Nodup) (hrest : s.phase.rest.Nodup)
    (hs : s.runLoop intervalMs maxMissedPings net = some (s', o)) : s'.phase.rest.Nodup := by
  unfold HealthChecker.runLoop at hs
  split at hs
  case h_4 hphase =>
    obtain ⟨-, hs⟩ := Option.ite_none_right_eq_some.mp hs
    cases hs
    rw [hphase] at hrest
    exact List.Nodup.of_cons hrest
  case h_7 => cases hs
  all_goals
    rename_i hphase
    cases hs
    rw [hphase] at hrest
    dsimp only
  case h_1 =>
    split
    · exact hids
    · exact List.nodup_nil
  case h_2 | h_6 => exact List.nodup_nil
  case h_3 =>
    split
    · exact hrest
    · exact List.nodup_nil
  case h_5 =>
    split
    · exact List.nodup_nil
    · exact List.nodup_nil

theorem sleeping_step (hs : s.runLoop intervalMs maxMissedPings net = some (s', o)) {waited : Int}
    (hphase : s'.phase = .sleeping waited) : waited < intervalMs := by
  unfold HealthChecker.runLoop at hs
  split at hs
  case h_4 =>
    obtain ⟨-, hs⟩ := Option.ite_none_right_eq_some.mp hs
    cases hs
    cases hphase
  case h_7 => cases hs
  all_goals
    cases hs
    dsimp only at hphase
  case h_5 =>
    split at hphase
    · rename_i hlt
      cases hphase
      simp only [Bool.and_eq_true, decide_eq_true_eq] at hlt
      exact hlt.1
    · cases hphase
  case h_2 | h_6 => cases hphase
  case h_1 | h_3 =>
    split at hphase
    · cases hphase
    · cases hphase

end

/-- A checked shard of the run, and what was slept since. -/
theorem split_concat {outs before after : List (Option LoopEvent)} {o x : Option LoopEvent}
    (h : outs ++ [o] = before ++ x :: after) :
    (after = [] ∧ outs = before ∧ o = x) ∨
      ∃ between, after = between ++ [o] ∧ outs = before ++ x :: between := by
  rcases List.eq_nil_or_concat after with rfl | ⟨between, last, rfl⟩
  · obtain ⟨rfl, ho⟩ := List.append_inj' h rfl
    exact .inl ⟨rfl, rfl, List.singleton_inj.mp ho⟩
  · rw [List.concat_eq_append, ← List.cons_append, ← List.append_assoc] at h
    obtain ⟨rfl, ho⟩ := List.append_inj' h rfl
    exact .inr ⟨between, by rw [List.concat_eq_append, ho], rfl⟩

/-- What a run keeps of the pauses between the checks. -/
structure Paced (intervalMs : Int) (s : HealthChecker) (outs : List (Option LoopEvent)) : Prop where
  ids : s.topology.shardIds.Nodup
  rest : s.phase.rest.Nodup
  sleeping : ∀ waited, s.phase = .sleeping waited → waited < intervalMs
  since : ∀ before r after, outs = before ++ some (.checked r) :: after →
    s.Since intervalMs r.shardId (sleeps after).sum
  paced : ∀ before r between r' after,
    outs = before ++ some (.checked r) :: (between ++ some (.checked r') :: after) →
    r.shardId = r'.shardId → intervalMs ≤ (sleeps between).sum

theorem paced_step {intervalMs maxMissedPings : Int} {s s' : HealthChecker}
    {outs : List (Option LoopEvent)} {a : LoopAction} {o : Option LoopEvent}
    (h : Paced intervalMs s outs)
    (hs : (loopMachine intervalMs maxMissedPings).step s a = some (s', o)) :
    Paced intervalMs s' (outs ++ [o]) := by
  have hids : s'.topology.shardIds = s.topology.shardIds := by
    cases a with
    | stop =>
      cases hs
      rfl
    | thread net =>
      obtain ⟨-, htopology⟩ | ⟨id, -, -, -, -, htopology⟩ := runLoop_check hs
      · rw [htopology]
      · rw [htopology]
        exact shardIds_of_later (later_checkShard (List.forall₂_same.mpr fun _ _ => .rfl) _ _)
  have hsince : ∀ id slept, s.Since intervalMs id slept →
      s'.Since intervalMs id (slept + (sleeps [o]).sum) := by
    intro id slept hsince
    cases a with
    | stop =>
      cases hs
      rw [show (sleeps [none]).sum = 0 from rfl, Int.add_zero]
      exact since_stop hsince
    | thread net => exact since_step hsince h.sleeping hs
  have hcheck : ∀ r, o = some (.checked r) → s'.Since intervalMs r.shardId 0 ∧
      ∀ slept, s.Since intervalMs r.shardId slept → intervalMs ≤ slept := by
    rintro r rfl
    cases a with
    | stop => cases hs
    | thread net => exact since_check h.rest hs
  refine ⟨hids ▸ h.ids, ?_, ?_, fun before r after hsplit => ?_,
    fun before r between r' after hsplit hsame => ?_⟩
  · cases a with
    | stop =>
      cases hs
      exact h.rest
    | thread net => exact rest_step h.ids h.rest hs
  · cases a with
    | stop =>
      cases hs
      exact h.sleeping
    | thread net => exact fun _ => sleeping_step hs
  · obtain ⟨rfl, -, ho⟩ | ⟨between, rfl, houts⟩ := split_concat hsplit
    · exact (hcheck r ho).1
    · rw [sleeps_concat]
      exact hsince _ _ (h.since before r between houts)
  · rw [← List.cons_append, ← List.append_assoc] at hsplit
    obtain ⟨rfl, houts, ho⟩ | ⟨later, rfl, houts⟩ := split_concat hsplit
    · -- The second check is the step itself.
      refine (hcheck r' ho).2 _ ?_
      rw [← hsame]
      exact h.since before r between houts
    · refine h.paced before r between r' later ?_ hsame
      rw [houts, List.append_assoc, List.cons_append]

/-- **The checks of a shard are an interval apart.** Between two checks of a shard, the thread
sleeps for at least `intervalMs`, whatever the network does and whenever `stop` is called. -/
theorem checks_are_spaced {intervalMs maxMissedPings : Int} {t : ShardTopology}
    (hids : t.shardIds.Nodup) {acts : List LoopAction} {s : HealthChecker}
    {before between after : List (Option LoopEvent)} {r r' : CheckReport}
    (hrun : (loopMachine intervalMs maxMissedPings).run (.start t) acts =
      some (s, before ++ some (.checked r) :: (between ++ some (.checked r') :: after)))
    (hsame : r.shardId = r'.shardId) : intervalMs ≤ (sleeps between).sum := by
  have h : Paced intervalMs s
      (before ++ some (.checked r) :: (between ++ some (.checked r') :: after)) := by
    refine Machine.run_history (C := fun _ _ => True)
      (I := fun s _ outs => Paced intervalMs s outs) (fun s _ outs a s' o _ h _ hs => ?_)
      (Machine.along_true _ _) hrun ?_
    · exact paced_step h hs
    · refine ⟨hids, List.nodup_nil, fun _ h => (nomatch h), fun before r after h => ?_,
        fun before r between r' after h => ?_⟩
      · exact absurd h.symm (by simp)
      · exact absurd h.symm (by simp)
  exact h.paced before r between r' after rfl hsame

/-- Two rounds with one shard, and a pause of 120 milliseconds between them. -/
theorem checks_are_spaced_twoRounds :
    let first := checkShard 3 (parseShards replicatedConfig) (lostNetwork.check (ascii "s1"))
    let second := checkShard 3 first.1 (lostNetwork.check (ascii "s1"))
    let between := [none, none, some (.slept 50), none, some (.slept 50), none, some (.slept 20),
      none, none, none]
    (loopMachine 120 3).run (.start (parseShards replicatedConfig))
        (List.replicate 14 (.thread lostNetwork)) =
      some (⟨second.1, true, .shards []⟩,
        [none, none] ++ some (.checked first.2) :: (between ++ some (.checked second.2) :: [])) ∧
      120 ≤ (sleeps between).sum := by
  intro first second between
  have hrun : (loopMachine 120 3).run (.start (parseShards replicatedConfig))
        (List.replicate 14 (.thread lostNetwork)) =
      some (⟨second.1, true, .shards []⟩,
        [none, none] ++ some (.checked first.2) ::
          (between ++ some (.checked second.2) :: [])) := by
    rfl
  exact ⟨hrun, checks_are_spaced (by decide +kernel) hrun (by decide +kernel)⟩

/-! ## The checker stops -/

/-- The steps of the thread that are left once `running` is cleared. -/
def LoopPhase.toEnd : LoopPhase → Nat
  | .ended => 0
  | .loop => 1
  | .waiting _ => 2
  | .shards _ => 3
  | .sleeping _ => 3
  | .checking .. => 4

/-- The checks and sleeps that are left once `running` is cleared. -/
def LoopPhase.events : LoopPhase → Nat
  | .checking .. => 1
  | .sleeping _ => 1
  | .ended => 0
  | .loop => 0
  | .waiting _ => 0
  | .shards _ => 0

def LoopAction.ofThread : LoopAction → Bool
  | .thread _ => true
  | .stop => false

theorem runLoop_stopped {intervalMs maxMissedPings : Int} {s s' : HealthChecker} {net : Network}
    {o : Option LoopEvent} (hstop : s.running = false)
    (hs : s.runLoop intervalMs maxMissedPings net = some (s', o)) :
    s'.running = false ∧ s'.phase.toEnd + 1 = s.phase.toEnd ∧
      (reports [o]).length + (sleeps [o]).length + s'.phase.events = s.phase.events ∧
      ∀ milliseconds ∈ sleeps [o], milliseconds ≤ 50 := by
  unfold HealthChecker.runLoop at hs
  split at hs
  case h_4 hphase =>
    obtain ⟨-, hs⟩ := Option.ite_none_right_eq_some.mp hs
    cases hs
    rw [hphase]
    refine ⟨hstop, ?_⟩
    simp [LoopPhase.toEnd, LoopPhase.events, reports, sleeps]
  case h_7 => cases hs
  all_goals
    rename_i hphase
    cases hs
    rw [hphase]
    refine ⟨hstop, ?_⟩
  case h_1 | h_2 | h_3 | h_5 => simp [hstop, LoopPhase.toEnd, LoopPhase.events, reports, sleeps]
  case h_6 =>
    simp [LoopPhase.toEnd, LoopPhase.events, reports, sleeps]

/-- What is left of a run after `stop`. -/
structure Stopping (phase : LoopPhase) (s : HealthChecker) (acts : List LoopAction)
    (outs : List (Option LoopEvent)) : Prop where
  stopped : s.running = false
  toEnd : acts.countP LoopAction.ofThread + s.phase.toEnd = phase.toEnd
  events : (reports outs).length + (sleeps outs).length + s.phase.events = phase.events
  pieces : ∀ milliseconds ∈ sleeps outs, milliseconds ≤ 50

theorem stopping_step {intervalMs maxMissedPings : Int} {phase : LoopPhase} {s s' : HealthChecker}
    {acts : List LoopAction} {outs : List (Option LoopEvent)} {a : LoopAction}
    {o : Option LoopEvent}
    (h : Stopping phase s acts outs)
    (hs : (loopMachine intervalMs maxMissedPings).step s a = some (s', o)) :
    Stopping phase s' (acts ++ [a]) (outs ++ [o]) := by
  have hsleeps : sleeps (outs ++ [o]) = sleeps outs ++ sleeps [o] := List.filterMap_append
  obtain ⟨hstop, htoEnd, hevents, hpieces⟩ := h
  cases a with
  | stop =>
    cases hs
    refine ⟨rfl, ?_, ?_, ?_⟩
    · rw [List.countP_append]
      exact htoEnd
    · rw [reports_concat, hsleeps]
      exact (by simp [reports, sleeps] : _ = _).trans hevents
    · rw [hsleeps]
      exact fun m hm => hpieces m (by simpa [sleeps] using hm)
  | thread net =>
    obtain ⟨hstop', htoEnd', hevents', hpieces'⟩ := runLoop_stopped hstop hs
    refine ⟨hstop', ?_, ?_, fun m hm => ?_⟩
    · rw [List.countP_append, show [LoopAction.thread net].countP LoopAction.ofThread = 1 from rfl]
      omega
    · rw [reports_concat, hsleeps, List.length_append, List.length_append]
      omega
    · rw [hsleeps] at hm
      obtain hm | hm := List.mem_append.mp hm
      · exact hpieces m hm
      · exact hpieces' m hm

/-- **Stopping.** After `stop` the thread takes four steps at most, and one of them at most is a
check or a sleep, which is then of 50 milliseconds or less. Before it has ended it is blocked only
in a check that does not return. -/
theorem stop_returns {intervalMs maxMissedPings : Int} {s s' : HealthChecker}
    {acts : List LoopAction} {outs : List (Option LoopEvent)}
    (hrun : (loopMachine intervalMs maxMissedPings).run s (.stop :: acts) = some (s', outs)) :
    acts.countP LoopAction.ofThread ≤ 4 ∧
      (reports outs).length + (sleeps outs).length ≤ 1 ∧
      (∀ milliseconds ∈ sleeps outs, milliseconds ≤ 50) ∧
      (s'.phase = .ended ∨
        ∀ net, (∀ id ids, s'.phase = .checking id ids → net.returns id = true) →
          ((loopMachine intervalMs maxMissedPings).step s' (.thread net)).isSome = true) := by
  obtain ⟨_, _, outs, hs, hrest, rfl⟩ := Machine.run_cons.mp hrun
  cases hs
  have h : Stopping s.phase s' acts outs := by
    refine Machine.run_history (C := fun _ _ => True) (I := Stopping s.phase)
      (fun s acts outs a s' o _ h _ hs => stopping_step h hs) (Machine.along_true _ _) hrest ?_
    exact ⟨rfl, Nat.zero_add _, Nat.zero_add _, fun _ h => nomatch h⟩
  have htoEnd : s.phase.toEnd ≤ 4 := by
    cases s.phase <;> simp [LoopPhase.toEnd]
  have hevents : s.phase.events ≤ 1 := by
    cases s.phase <;> simp [LoopPhase.events]
  have htaken := h.toEnd
  have hseen := h.events
  refine ⟨by omega, ?_, h.pieces, ?_⟩
  · show (reports outs).length + (sleeps outs).length ≤ 1
    omega
  · refine or_iff_not_imp_left.mpr fun hended net hreturns => ?_
    show (s'.runLoop intervalMs maxMissedPings net).isSome = true
    unfold HealthChecker.runLoop
    split
    case h_4 id ids hphase =>
      rw [if_pos (hreturns id ids hphase)]
      rfl
    case h_7 hphase => exact absurd hphase hended
    all_goals rfl

/-- The thread is told to stop during a check. -/
theorem stop_returns_lostNetwork :
    ∃ s outs,
      (loopMachine 120 3).run ⟨parseShards replicatedConfig, true, .checking (ascii "s1") []⟩
          (.stop :: List.replicate 4 (.thread lostNetwork)) = some (s, outs) ∧
      (reports outs).length + (sleeps outs).length ≤ 1 := by
  have hsome : ((loopMachine 120 3).run
      ⟨parseShards replicatedConfig, true, .checking (ascii "s1") []⟩
      (.stop :: List.replicate 4 (.thread lostNetwork))).isSome = true := by decide +kernel
  obtain ⟨⟨s, outs⟩, hrun⟩ := Option.isSome_iff_exists.mp hsome
  exact ⟨s, outs, hrun, (stop_returns hrun).2.1⟩

end TinyKV

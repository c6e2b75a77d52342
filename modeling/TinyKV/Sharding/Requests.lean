import TinyKV.Sharding.Backend
import TinyKV.Sharding.Failover

/-!
# Requests during a failover

`Router::handleConnection` runs in one thread for each client, and `forward` is not one step: it
reads the active address of the shard, waits for the mutex of the backend, drops a connection to
another address, connects, sends and receives. `requestMachine` interleaves these steps of any
number of threads with the calls that change the topology. Between two steps of a thread the
active node may change, and threads with an older address may point the shared connection back.

* `RouterState.Inv`: an open connection goes to `backend.address`, and a thread that holds the
  mutex and has pointed the backend finds it as it left it (`inv_step`).
* `Origin`: where in a run the call of a thread began.
* `request_follows_failover`: a line is sent to the address that was active when its call read it.
-/

namespace TinyKV

open Cpp

/-- How far a call of `forward` is. -/
inductive Phase where
  /-- It has the address and waits for the mutex. -/
  | waiting
  | locked
  /-- The backend is at the call's address. -/
  | pointed
  | connected
  | sent
  deriving DecidableEq

/-- The local variables of a call of `forward`. -/
structure Forwarding where
  shardId : Bytes
  line : Bytes
  /-- What `activeAddressFor` returned. -/
  address : Bytes
  phase : Phase

/-- The router with its threads. -/
structure RouterState where
  topology : ShardTopology
  ring : ConsistentHashRing
  backends : Bytes → Backend := fun _ => {}
  /-- The thread that holds `backend.mutex`. -/
  owner : Bytes → Option Nat := fun _ => none
  /-- The call that a thread is in. -/
  threads : Nat → Option Forwarding := fun _ => none

/-- `Router::Router` -/
def RouterState.start (topology : ShardTopology) : RouterState where
  topology := topology
  ring := topology.shardIds.foldl ConsistentHashRing.addNode {}

inductive RequestAction where
  /-- A thread handles a line of its client, as far as the call of `activeAddressFor`. -/
  | begin (thread : Nat) (line : Bytes)
  | lock (thread : Nat)
  | repoint (thread : Nat)
  | connect (thread : Nat) (connects : Bool)
  | send (thread : Nat) (sends : Bool)
  | receive (thread : Nat) (chunks : List Bytes)
  | change (a : TopologyAction)

/-- A line that is written to a connection, as a whole or in part. -/
structure SendEvent where
  thread : Nat
  shardId : Bytes
  line : Bytes
  /-- The address that the connection was opened to. -/
  peer : Bytes
  deriving DecidableEq

/-- The shard that a command is forwarded to, as `Cluster.route` has it. -/
def shardOf (ring : ConsistentHashRing) (cmd : Command) : Option Bytes :=
  if cmd.type = .ROUTE ∨ cmd.type = .NODES then none else cmd.args.head?.map ring.getNode

namespace RouterState

/-- The call of a thread, if it is at a phase. -/
def callAt (c : RouterState) (thread : Nat) (phase : Phase) : Option Forwarding :=
  (c.threads thread).filter fun call => call.phase = phase

/-- A step of a thread on the backend of its call. -/
def move (c : RouterState) (thread : Nat) (shardId : Bytes) (b : Backend) (owner : Option Nat)
    (call : Option Forwarding) : RouterState :=
  { c with
    backends := Function.update c.backends shardId b
    owner := Function.update c.owner shardId owner
    threads := Function.update c.threads thread call }

/-- The step of `handleConnection` up to the read of the address. A line that is not forwarded, and
one whose shard has no address, leaves the thread ready for the next line. -/
def beginCall (c : RouterState) (thread : Nat) (line : Bytes) : RouterState :=
  match parse line with
  | .error _ => c
  | .ok cmd =>
    match shardOf c.ring cmd with
    | none => c
    | some shardId =>
      let address := c.topology.activeAddressFor shardId
      if address.isEmpty then c
      else
        { c with threads := Function.update c.threads thread (some ⟨shardId, line, address, .waiting⟩) }

def step (c : RouterState) : RequestAction → Option (RouterState × Option SendEvent)
  | .begin t line => if (c.threads t).isNone then some (c.beginCall t line, none) else none
  | .lock t => (c.callAt t .waiting).bind fun call =>
    if (c.owner call.shardId).isNone then
      some (c.move t call.shardId (c.backends call.shardId) (some t)
        (some { call with phase := .locked }), none)
    else none
  | .repoint t => (c.callAt t .locked).bind fun call =>
    some (c.move t call.shardId ((c.backends call.shardId).repoint call.address) (some t)
      (some { call with phase := .pointed }), none)
  | .connect t connects => (c.callAt t .pointed).bind fun call =>
    let b := (c.backends call.shardId).open call.address connects
    if b.client.isConnected then
      some (c.move t call.shardId b (some t) (some { call with phase := .connected }), none)
    else some (c.move t call.shardId b none none, none)
  | .send t sends => (c.callAt t .connected).bind fun call =>
    let b := c.backends call.shardId
    let event := b.client.peer.map fun peer => ⟨t, call.shardId, call.line, peer⟩
    if sends && event.isSome then
      some (c.move t call.shardId b (some t) (some { call with phase := .sent }), event)
    else
      some (c.move t call.shardId { b with client := b.client.close } none none, event)
  | .receive t chunks => (c.callAt t .sent).bind fun call =>
    some (c.move t call.shardId ((c.backends call.shardId).receive chunks {}).1 none none, none)
  | .change a => some ({ c with topology := a.apply c.topology }, none)

end RouterState

/-- The router's threads, one step of one of them at a time. -/
def requestMachine : Machine RouterState RequestAction (Option SendEvent) where
  step c a := c.step a

/-! ## The invariant -/

/-- What a thread that is in a call may rely on. -/
def Forwarding.Holds (call : Forwarding) (owner : Option Nat) (b : Backend) (thread : Nat) : Prop :=
  match call.phase with
  | .waiting => True
  | .locked => owner = some thread
  | .pointed => owner = some thread ∧ b.address = call.address
  | .connected | .sent =>
    owner = some thread ∧ b.address = call.address ∧ b.client.peer = some call.address

/-- An open connection goes to the address of the backend. -/
def Backend.AtPeer (b : Backend) : Prop := ∀ p, b.client.peer = some p → p = b.address

structure RouterState.Inv (c : RouterState) : Prop where
  peer : ∀ id, (c.backends id).AtPeer
  call : ∀ t call, c.threads t = some call →
    call.Holds (c.owner call.shardId) (c.backends call.shardId) t

/-- Two stages of one call. -/
structure Forwarding.SameRequest (call call' : Forwarding) : Prop where
  shardId : call'.shardId = call.shardId
  line : call'.line = call.line
  address : call'.address = call.address

/-- Without the mutex a call relies on nothing. -/
theorem Forwarding.Holds.frame {call : Forwarding} {o o' : Option Nat} {b b' : Backend} {t : Nat}
    (h : call.Holds o b t) (ho : o ≠ some t) : call.Holds o' b' t := by
  unfold Forwarding.Holds at *
  split at h
  · trivial
  · exact absurd h ho
  · exact absurd h.1 ho
  · exact absurd h.1 ho
  · exact absurd h.1 ho

/-- A step on a backend whose mutex is free or held by the thread. -/
theorem RouterState.Inv.move {c : RouterState} (h : c.Inv) {t : Nat} {id : Bytes} {b : Backend}
    {o : Option Nat} {call : Option Forwarding} (ho : c.owner id = none ∨ c.owner id = some t)
    (hb : b.AtPeer) (hcall : ∀ x, call = some x → x.shardId = id ∧ x.Holds o b t) :
    (c.move t id b o call).Inv := by
  refine ⟨fun id' => ?_, fun t' x hx => ?_⟩
  · by_cases hid : id' = id
    · subst hid
      simpa [RouterState.move] using hb
    · simpa [RouterState.move, hid] using h.peer id'
  · by_cases ht : t' = t
    · subst ht
      simp only [RouterState.move, Function.update_self] at hx
      obtain ⟨rfl, hholds⟩ := hcall x hx
      simpa [RouterState.move] using hholds
    · simp only [RouterState.move, Function.update_of_ne ht] at hx
      have hold := h.call t' x hx
      by_cases hid : x.shardId = id
      · -- The mutex is not with the other thread.
        refine hold.frame ?_
        rw [hid]
        rintro hne
        obtain ho | ho := ho
        · rw [ho] at hne
          cases hne
        · rw [ho] at hne
          exact ht (Option.some.inj hne).symm
      · simpa [RouterState.move, hid] using hold

theorem callAt_eq_some {c : RouterState} {t : Nat} {phase : Phase} {call : Forwarding}
    (h : c.callAt t phase = some call) : c.threads t = some call ∧ call.phase = phase := by
  obtain ⟨hcall, hphase⟩ := Option.filter_eq_some_iff.mp h
  exact ⟨hcall, by simpa using hphase⟩

theorem Backend.AtPeer.repoint {b : Backend} (h : b.AtPeer) (address : Bytes) :
    (b.repoint address).AtPeer ∧ (b.repoint address).address = address := by
  unfold Backend.repoint
  split
  · exact ⟨fun p hp => (by cases hp), rfl⟩
  · rename_i he
    exact ⟨h, not_not.mp he⟩

theorem Backend.AtPeer.open {b : Backend} (h : b.AtPeer) {address : Bytes}
    (ha : b.address = address) (connects : Bool) :
    (b.open address connects).AtPeer ∧ (b.open address connects).address = address := by
  unfold Backend.open TcpClient.connect
  split
  · exact ⟨h, ha⟩
  · refine ⟨fun p hp => ?_, ha⟩
    split at hp
    · cases hp
      exact ha.symm
    · cases hp

theorem Backend.AtPeer.close {b : Backend} : { b with client := b.client.close }.AtPeer :=
  fun p hp => by cases hp

theorem Backend.AtPeer.receive {b : Backend} (h : b.AtPeer) (chunks : List Bytes)
    (report : ForwardReport) : (b.receive chunks report).1.AtPeer := by
  unfold Backend.receive
  split
  · exact h
  · exact fun p hp => by cases hp
  · exact fun p hp => by cases hp

/-! ## One step -/

/-- What a step does: it changes the topology, begins a call, or moves one on. -/
inductive Stepped (c : RouterState) : RequestAction → RouterState → Prop where
  | change (a : TopologyAction) : Stepped c (.change a) { c with topology := a.apply c.topology }
  | skip (t : Nat) (line : Bytes) : Stepped c (.begin t line) c
  | begin {t : Nat} {line : Bytes} {cmd : Command} {id : Bytes} (hidle : c.threads t = none)
      (hparse : parse line = .ok cmd) (hid : shardOf c.ring cmd = some id) :
      Stepped c (.begin t line)
        { c with
          threads := Function.update c.threads t
            (some ⟨id, line, c.topology.activeAddressFor id, .waiting⟩) }
  | move {i : RequestAction} {t : Nat} {call : Forwarding} {b : Backend} {o : Option Nat}
      {call' : Option Forwarding} (hi : ∀ t line, i ≠ .begin t line) (hcall : c.threads t = some call)
      (ho : c.owner call.shardId = none ∨ c.owner call.shardId = some t) (hb : b.AtPeer)
      (hnext : ∀ x, call' = some x → call.SameRequest x ∧ x.Holds o b t) :
      Stepped c i (c.move t call.shardId b o call')

theorem stepped_begin {c : RouterState} {t : Nat} {line : Bytes} (hidle : c.threads t = none) :
    Stepped c (.begin t line) (c.beginCall t line) := by
  unfold RouterState.beginCall
  split
  · exact .skip t line
  · rename_i cmd hparse
    split
    · exact .skip t line
    · rename_i id hid
      dsimp only
      split
      · exact .skip t line
      · exact .begin hidle hparse hid

theorem stepped_of_step {c c' : RouterState} (h : c.Inv) {i : RequestAction}
    {e : Option SendEvent} (hs : c.step i = some (c', e)) : Stepped c i c' := by
  cases i with
  | begin t line =>
    simp only [RouterState.step] at hs
    split at hs
    · rename_i hidle
      cases hs
      exact stepped_begin (Option.isNone_iff_eq_none.mp hidle)
    · cases hs
  | lock t =>
    obtain ⟨call, hat, hs⟩ := Option.bind_eq_some_iff.mp hs
    obtain ⟨hcall, -⟩ := callAt_eq_some hat
    split at hs
    · rename_i hfree
      cases hs
      refine .move (by simp) hcall (.inl (Option.isNone_iff_eq_none.mp hfree)) (h.peer _) ?_
      rintro _ ⟨⟩
      exact ⟨⟨rfl, rfl, rfl⟩, rfl⟩
    · cases hs
  | repoint t =>
    obtain ⟨call, hat, hs⟩ := Option.bind_eq_some_iff.mp hs
    obtain ⟨hcall, hphase⟩ := callAt_eq_some hat
    have hold := h.call t call hcall
    rw [Forwarding.Holds, hphase] at hold
    obtain ⟨hpeer, haddr⟩ := (h.peer call.shardId).repoint call.address
    cases hs
    refine .move (by simp) hcall (.inr hold) hpeer ?_
    rintro _ ⟨⟩
    exact ⟨⟨rfl, rfl, rfl⟩, rfl, haddr⟩
  | connect t connects =>
    obtain ⟨call, hat, hs⟩ := Option.bind_eq_some_iff.mp hs
    obtain ⟨hcall, hphase⟩ := callAt_eq_some hat
    have hold := h.call t call hcall
    rw [Forwarding.Holds, hphase] at hold
    obtain ⟨hpeer, haddr⟩ := (h.peer call.shardId).open hold.2 connects
    dsimp only at hs
    split at hs
    · rename_i hconn
      cases hs
      refine .move (by simp) hcall (.inr hold.1) hpeer ?_
      rintro _ ⟨⟩
      refine ⟨⟨rfl, rfl, rfl⟩, rfl, haddr, ?_⟩
      obtain ⟨p, hp⟩ := Option.isSome_iff_exists.mp hconn
      rw [hp, hpeer p hp, haddr]
    · cases hs
      exact .move (by simp) hcall (.inr hold.1) hpeer fun _ hx => by cases hx
  | send t sends =>
    obtain ⟨call, hat, hs⟩ := Option.bind_eq_some_iff.mp hs
    obtain ⟨hcall, hphase⟩ := callAt_eq_some hat
    have hold := h.call t call hcall
    rw [Forwarding.Holds, hphase] at hold
    dsimp only at hs
    split at hs
    · cases hs
      refine .move (by simp) hcall (.inr hold.1) (h.peer _) ?_
      rintro _ ⟨⟩
      exact ⟨⟨rfl, rfl, rfl⟩, rfl, hold.2⟩
    · cases hs
      exact .move (by simp) hcall (.inr hold.1) .close fun _ hx => by cases hx
  | receive t chunks =>
    obtain ⟨call, hat, hs⟩ := Option.bind_eq_some_iff.mp hs
    obtain ⟨hcall, hphase⟩ := callAt_eq_some hat
    have hold := h.call t call hcall
    rw [Forwarding.Holds, hphase] at hold
    cases hs
    exact .move (by simp) hcall (.inr hold.1) ((h.peer _).receive chunks {}) fun _ hx => by cases hx
  | change a =>
    cases hs
    exact .change a

theorem Stepped.inv {c c' : RouterState} {i : RequestAction} (hs : Stepped c i c') (h : c.Inv) :
    c'.Inv := by
  cases hs with
  | change a => exact ⟨h.peer, h.call⟩
  | skip t line => exact h
  | @begin t line cmd id hidle hparse hid =>
    refine ⟨h.peer, fun t' x hx => ?_⟩
    by_cases ht : t' = t
    · subst ht
      simp only [Function.update_self] at hx
      cases hx
      trivial
    · simp only [Function.update_of_ne ht] at hx
      exact h.call t' x hx
  | move hi hcall ho hb hnext =>
    refine h.move ho hb fun x hx => ?_
    obtain ⟨hsame, hholds⟩ := hnext x hx
    exact ⟨hsame.shardId, hholds⟩

/-- The line goes to the address of the call. -/
theorem sendEvent_of_step {c c' : RouterState} (h : c.Inv) {i : RequestAction} {e : SendEvent}
    (hs : c.step i = some (c', some e)) :
    ∃ call, c.threads e.thread = some call ∧ e.shardId = call.shardId ∧ e.line = call.line ∧
      e.peer = call.address := by
  cases i with
  | send t sends =>
    obtain ⟨call, hat, hs⟩ := Option.bind_eq_some_iff.mp hs
    obtain ⟨hcall, hphase⟩ := callAt_eq_some hat
    have hold := h.call t call hcall
    rw [Forwarding.Holds, hphase] at hold
    dsimp only at hs
    rw [hold.2.2] at hs
    split at hs <;> cases hs <;> exact ⟨call, hcall, rfl, rfl, rfl⟩
  | begin t line =>
    simp only [RouterState.step] at hs
    split at hs <;> cases hs
  | lock t =>
    obtain ⟨call, -, hs⟩ := Option.bind_eq_some_iff.mp hs
    split at hs <;> cases hs
  | repoint t =>
    obtain ⟨call, -, hs⟩ := Option.bind_eq_some_iff.mp hs
    cases hs
  | connect t connects =>
    obtain ⟨call, -, hs⟩ := Option.bind_eq_some_iff.mp hs
    dsimp only at hs
    split at hs <;> cases hs
  | receive t chunks =>
    obtain ⟨call, -, hs⟩ := Option.bind_eq_some_iff.mp hs
    cases hs
  | change a => cases hs

/-! ## Whole runs -/

/-- What a run keeps: the ring is that of the start, and the topology is a later one. -/
structure RouterState.Valid (t₀ : ShardTopology) (c : RouterState) : Prop where
  inv : c.Inv
  ring : c.ring = (RouterState.start t₀).ring
  later : List.Forall₂ Shard.Later t₀ c.topology
  latch : ∀ s ∈ c.topology, s.Latch

theorem valid_start {t₀ : ShardTopology} (h : ∀ s ∈ t₀, s.Initial) :
    (RouterState.start t₀).Valid t₀ where
  inv := ⟨fun _ _ hp => (by cases hp), fun _ _ hx => (by cases hx)⟩
  ring := rfl
  later := List.forall₂_same.mpr fun _ _ => .rfl
  latch s hs := (h s hs).latch

theorem Stepped.valid {t₀ : ShardTopology} {c c' : RouterState} {i : RequestAction}
    (hs : Stepped c i c') (h : c.Valid t₀) : c'.Valid t₀ := by
  have hinv := hs.inv h.inv
  cases hs with
  | change a =>
    refine ⟨hinv, h.ring, later_next h.later (apply_next _ a), fun s' hs' => ?_⟩
    obtain ⟨s, hs, hnext⟩ := exists_next (apply_next _ a) hs'
    exact hnext.latch (h.latch s hs)
  | skip t line => exact h
  | begin hidle hparse hid => exact ⟨hinv, h.ring, h.later, h.latch⟩
  | move hi hcall ho hb hnext => exact ⟨hinv, h.ring, h.later, h.latch⟩

/-- The call of a thread began in a state of the run, and the thread has begun no other since. -/
structure BeganAt (t₀ : ShardTopology) (acts : List RequestAction) (thread : Nat)
    (line shardId address : Bytes) (c : RouterState) : Prop where
  run : ∃ before mid outs, acts = before ++ .begin thread line :: mid ∧
    (∀ l, RequestAction.begin thread l ∉ mid) ∧
    requestMachine.run (.start t₀) before = some (c, outs)
  shard : ∃ cmd, parse line = .ok cmd ∧ shardOf c.ring cmd = some shardId
  address : address = c.topology.activeAddressFor shardId

theorem BeganAt.snoc {t₀ : ShardTopology} {acts : List RequestAction} {t : Nat}
    {line id address : Bytes} {c : RouterState} (h : BeganAt t₀ acts t line id address c)
    {i : RequestAction} (hi : ∀ l, i ≠ .begin t l) :
    BeganAt t₀ (acts ++ [i]) t line id address c := by
  obtain ⟨before, mid, outs, rfl, hmid, hrun⟩ := h.run
  refine ⟨⟨before, mid ++ [i], outs, by simp, fun l hm => ?_, hrun⟩, h.shard, h.address⟩
  obtain hm | hm := List.mem_append.mp hm
  · exact hmid l hm
  · exact hi l (List.mem_singleton.mp hm).symm

/-- Every call that a thread is in began somewhere in the run. -/
def AllBegan (t₀ : ShardTopology) (c : RouterState) (acts : List RequestAction) : Prop :=
  ∀ t call, c.threads t = some call →
    ∃ c₁, BeganAt t₀ acts t call.line call.shardId call.address c₁

theorem Stepped.allBegan {t₀ : ShardTopology} {c c' : RouterState} {i : RequestAction}
    {acts : List RequestAction} {outs : List (Option SendEvent)} (hs : Stepped c i c')
    (hrun : requestMachine.run (.start t₀) acts = some (c, outs)) (h : AllBegan t₀ c acts)
    (hidle : ∀ t l, i = .begin t l → c.threads t = none) : AllBegan t₀ c' (acts ++ [i]) := by
  intro t call' hcall'
  cases hs with
  | change a =>
    obtain ⟨c₁, hc₁⟩ := h t call' hcall'
    exact ⟨c₁, hc₁.snoc (by simp)⟩
  | skip t' line =>
    obtain ⟨c₁, hc₁⟩ := h t call' hcall'
    refine ⟨c₁, hc₁.snoc fun l he => ?_⟩
    rw [hidle t l he] at hcall'
    cases hcall'
  | @begin t' line cmd id hnone hparse hid =>
    by_cases ht : t = t'
    · subst ht
      simp only [Function.update_self] at hcall'
      cases hcall'
      exact ⟨c, ⟨acts, [], outs, rfl, by simp, hrun⟩, ⟨cmd, hparse, hid⟩, rfl⟩
    · simp only [Function.update_of_ne ht] at hcall'
      obtain ⟨c₁, hc₁⟩ := h t call' hcall'
      exact ⟨c₁, hc₁.snoc fun l he => ht (RequestAction.begin.inj he).1.symm⟩
  | @move _ t' call b o next hi hcall ho hb hnext =>
    by_cases ht : t = t'
    · subst ht
      simp only [RouterState.move, Function.update_self] at hcall'
      obtain ⟨hsame, -⟩ := hnext call' hcall'
      obtain ⟨c₁, hc₁⟩ := h t call hcall
      rw [hsame.line, hsame.shardId, hsame.address]
      exact ⟨c₁, hc₁.snoc (hi t)⟩
    · simp only [RouterState.move, Function.update_of_ne ht] at hcall'
      obtain ⟨c₁, hc₁⟩ := h t call' hcall'
      exact ⟨c₁, hc₁.snoc (hi t)⟩

theorem idle_of_begin {c c' : RouterState} {i : RequestAction} {e : Option SendEvent}
    (hs : c.step i = some (c', e)) (t : Nat) (line : Bytes) (hi : i = .begin t line) :
    c.threads t = none := by
  subst hi
  simp only [RouterState.step] at hs
  split at hs
  · rename_i hidle
    exact Option.isNone_iff_eq_none.mp hidle
  · cases hs

theorem valid_of_run {t₀ : ShardTopology} (h : ∀ s ∈ t₀, s.Initial) {acts : List RequestAction}
    {c : RouterState} {outs : List (Option SendEvent)}
    (hrun : requestMachine.run (.start t₀) acts = some (c, outs)) :
    c.Valid t₀ ∧ AllBegan t₀ c acts := by
  refine Machine.run_history (I := fun c acts _ => c.Valid t₀ ∧ AllBegan t₀ c acts)
    (fun c acts outs i c' o hbefore hI _ hs => ?_) (Machine.along_true _ _) hrun
    ⟨valid_start h, fun _ _ hx => by cases hx⟩
  have hstepped := stepped_of_step hI.1.inv hs
  exact ⟨hstepped.valid hI.1, hstepped.allBegan hbefore hI.2 (idle_of_begin hs)⟩

/-- A shard that has failed over is served by its replica. -/
theorem RouterState.Valid.active_of_failedOver {t₀ : ShardTopology} {c : RouterState}
    (h : c.Valid t₀) {id : Bytes} (hf : c.topology.alreadyFailedOver id = true) :
    c.topology.activeAddressFor id = t₀.replicaAddress id := by
  unfold ShardTopology.alreadyFailedOver at hf
  split at hf
  · rename_i s hs
    obtain ⟨s₀, hs₀, hlater⟩ := findShard_of_later h.later hs
    have hactive := (h.latch s (List.mem_of_find?_eq_some hs)).active
    rw [hf, if_pos rfl] at hactive
    rw [ShardTopology.activeAddressFor, ShardTopology.replicaAddress, hs, hs₀]
    exact hactive.trans hlater.layout.replica
  · cases hf

/-- **Requests follow the failover.** In every interleaving of the threads' steps with changes of
the topology, a line that is sent belongs to the last call that its thread began: it goes to the
shard of its key, on a connection to the address that `activeAddressFor` returned when the call
began. If the shard had failed over by then, this is the replica's address and not the primary's. -/
theorem request_follows_failover {t₀ : ShardTopology} (hinit : ∀ s ∈ t₀, s.Initial)
    (acts : List RequestAction) {c : RouterState} {outs : List (Option SendEvent)}
    (hrun : requestMachine.run (.start t₀) acts = some (c, outs)) (i : RequestAction)
    {c' : RouterState} {e : SendEvent} (hsend : requestMachine.step c i = some (c', some e)) :
    ∃ c₁ before mid outs₁, acts = before ++ .begin e.thread e.line :: mid ∧
      (∀ line, RequestAction.begin e.thread line ∉ mid) ∧
      requestMachine.run (.start t₀) before = some (c₁, outs₁) ∧
      (∃ cmd, parse e.line = .ok cmd ∧ shardOf (RouterState.start t₀).ring cmd = some e.shardId) ∧
      e.peer = c₁.topology.activeAddressFor e.shardId ∧
      (c₁.topology.alreadyFailedOver e.shardId = true →
        t₀.replicaAddress e.shardId ≠ t₀.primaryAddress e.shardId →
        e.peer = t₀.replicaAddress e.shardId ∧ e.peer ≠ t₀.primaryAddress e.shardId) := by
  obtain ⟨hvalid, hbegan⟩ := valid_of_run hinit hrun
  obtain ⟨call, hcall, hid, hline, hpeer⟩ := sendEvent_of_step hvalid.inv hsend
  obtain ⟨c₁, hrun₁, hshard, haddress⟩ := hbegan e.thread call hcall
  obtain ⟨before, mid, outs₁, hacts, hmid, hbefore⟩ := hrun₁
  rw [← hline] at hacts hshard
  rw [← hpeer, ← hid] at haddress
  rw [← hid] at hshard
  have hvalid₁ := (valid_of_run hinit hbefore).1
  refine ⟨c₁, before, mid, outs₁, hacts, hmid, hbefore, ?_, haddress, fun hf hne => ?_⟩
  · rw [← hvalid₁.ring]
    exact hshard
  · have hreplica := haddress.trans (hvalid₁.active_of_failedOver hf)
    exact ⟨hreplica, fun hp => hne (hreplica.symm.trans hp)⟩

/-- Thread 0 reads the primary's address, the shard fails over, thread 1 reads the replica's, and
thread 0 points the backend at the primary before thread 1 has its turn. -/
def slowThread : List RequestAction :=
  [.begin 0 (ascii "GET k"), .change (.promote (ascii "s1")), .begin 1 (ascii "GET k"), .lock 0,
    .repoint 0, .connect 0 true, .send 0 true, .receive 0 [ascii "$1\n"], .lock 1, .repoint 1,
    .connect 1 true]

theorem request_follows_failover_slowThread :
    ∃ c outs c', ∃ e : SendEvent, e.peer = ascii "127.0.0.1:7002" ∧
      requestMachine.run (.start (parseShards replicatedConfig)) slowThread = some (c, outs) ∧
      requestMachine.step c (.send 1 true) = some (c', some e) ∧
      ∃ c₁ : RouterState, e.peer = c₁.topology.activeAddressFor e.shardId := by
  have h : ((requestMachine.run (.start (parseShards replicatedConfig)) slowThread).bind fun r =>
      (requestMachine.step r.1 (.send 1 true)).bind fun x => x.2) =
      some ⟨1, ascii "s1", ascii "GET k", ascii "127.0.0.1:7002"⟩ := by decide +kernel
  obtain ⟨⟨c, outs⟩, hrun, h⟩ := Option.bind_eq_some_iff.mp h
  obtain ⟨⟨c', e⟩, hstep, rfl⟩ := Option.bind_eq_some_iff.mp h
  obtain ⟨c₁, -, -, -, -, -, -, -, hpeer, -⟩ := request_follows_failover (parseShards_initial _)
    slowThread hrun (.send 1 true) hstep
  exact ⟨c, outs, c', _, rfl, hrun, hstep, c₁, hpeer⟩

end TinyKV

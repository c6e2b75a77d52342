import TinyKV.Steps
import TinyKV.ReadOnly

/-!
# The role of a server and its link

`ReplicationManager::replicaOf` and `replicaOfNoOne` in `src/replication/replication_manager.cpp`
hold `mutex_` while they stop the old link, set the role and start the new link. The thread of a
link (`ReplicaLink::runLoop` in `replica_link.cpp`) does not take that mutex.

* `roleMachine`: any number of clients in calls of the manager, the thread of every link that they
  have created, and the other lines of the clients, a step at a time. Whether a connection succeeds
  and what comes over it is up to the other side, so a socket that `stop` closes needs no state.
* `RoleInv`: a thread that is alive belongs to `replicaLink_`, and a primary has no link.
  `roleInv_step`: every step keeps this.
* `Former n`: the first `n` links are over for good. `CutOff`: no link, and no call of `replicaOf`
  that has the mutex.
* `promoted_cut_off`: at most one thread is alive, none at a primary, and after `replicaOfNoOne`
  has returned no former link takes another step.
-/

namespace TinyKV

open Cpp

/-! ## The thread of a link -/

/-- Where the thread is in `runLoop`. -/
inductive LinkPhase where
  /-- `while (running_)` -/
  | loop
  /-- `connect` and `sendLine("SYNC")` -/
  | connecting
  /-- `while (running_ && ..)` -/
  | streaming
  /-- `receiveLine` -/
  | receiving
  /-- The calls of `execute` in the apply callback. -/
  | executing (line : Bytes) (cmd : Command) (rest : CommandProg)
  | recording (line : Bytes)
  | propagating (line : Bytes)
  | ended

structure ReplicaLink where
  host : Bytes
  port : Int
  running : Bool
  /-- `thread_`, from `start` on. -/
  thread : Option LinkPhase

/-- The thread has been started and has not ended. -/
def ReplicaLink.alive (link : ReplicaLink) : Bool :=
  match link.thread with
  | none | some .ended => false
  | some _ => true

/-- A step of a thread, with what the other side of its connection does. -/
inductive LinkEvent where
  | step
  | connected (ok : Bool)
  /-- `none`: the connection is lost. -/
  | received (now : Now) (line : Option Bytes)

/-- The next step of `runLoop`. A primary sends write commands. -/
def runLoop (running : Bool) (server : Server) : LinkPhase → LinkEvent → Option (Server × LinkPhase)
  | .loop, .step => some (server, if running then .connecting else .ended)
  | .connecting, .connected ok => some (server, if ok then .streaming else .loop)
  | .streaming, .step => some (server, if running then .receiving else .loop)
  | .receiving, .received _ none => some (server, .loop)
  | .receiving, .received now (some line) =>
    match parse line with
    | .error _ => some (server, .streaming) -- A malformed line is skipped.
    | .ok cmd =>
      if isWriteCommand cmd.type then
        some (server, .executing line cmd (executeSteps serverWiring now cmd))
      else none
  | .executing line cmd (.step act next), .step =>
    some ({ server with db := act server.db }, .executing line cmd (next server.db))
  | .executing line cmd (.done (response, _)), .step =>
    some (server, if logged cmd response then .recording line else .streaming)
  | .recording line, .step => some (server.recordWrite line, .propagating line)
  | .propagating line, .step => some (server.propagate line, .streaming)
  | _, _ => none

theorem runLoop_role {running : Bool} {server server' : Server} {phase phase' : LinkPhase}
    {e : LinkEvent} (h : runLoop running server phase e = some (server', phase')) :
    server'.role = server.role := by
  unfold runLoop at h
  repeat' split at h
  all_goals cases h
  all_goals rfl

theorem runLoop_ended {running : Bool} {server : Server} {e : LinkEvent} :
    runLoop running server .ended e = none := by
  cases e <;> rfl

/-! ## The calls of the manager -/

inductive RoleCall where
  | replicaOf (host : Bytes) (port : Int)
  | replicaOfNoOne

/-- The role that the call sets. -/
def RoleCall.role : RoleCall → ServerRole
  | .replicaOf _ _ => .REPLICA
  | .replicaOfNoOne => .PRIMARY

/-- Where a call is. A link is named by the number of links created before it. -/
inductive CallerStage where
  /-- It waits for `mutex_`. -/
  | entered
  /-- `if (replicaLink_)` -/
  | locked
  /-- `stop`: `running_ = false` and `close`. -/
  | stopping (link : Nat)
  /-- `stop`: `thread_.join()`. -/
  | joining (link : Nat)
  /-- `replicaLink_.reset()` -/
  | joined
  /-- `role_ = ..` -/
  | unlinked
  /-- `make_unique`, in `replicaOf`. -/
  | roleSet
  /-- `start`: `running_ = true`. -/
  | created (link : Nat)
  /-- `start`: `thread_ = std::thread(..)`. -/
  | starting (link : Nat)
  | returning

/-- The manager with its callers and with all links so far, on a server that has the role. -/
structure RoleState where
  server : Server
  /-- The client that holds `mutex_`. -/
  mutex : Option Nat
  /-- `replicaLink_` -/
  replicaLink : Option Nat
  links : Nat → Option ReplicaLink
  /-- How many links have been created. -/
  created : Nat
  callers : Nat → Option (RoleCall × CallerStage)

def RoleState.start (server : Server) : RoleState :=
  ⟨server, none, none, fun _ => none, 0, fun _ => none⟩

namespace RoleState

variable (s : RoleState)

/-- The thread of the link is alive. -/
def Alive (i : Nat) : Prop := ∃ link, s.links i = some link ∧ link.alive = true

/-- The call of the client goes on at `stage`. -/
def goto (client : Nat) (call : RoleCall) (stage : CallerStage) : RoleState :=
  { s with callers := Function.update s.callers client (some (call, stage)) }

/-- Change a link. -/
def modifyLink (i : Nat) (f : ReplicaLink → ReplicaLink) : RoleState :=
  { s with links := Function.update s.links i ((s.links i).map f) }

/-- The next step of a call. -/
def callerStep (client : Nat) (call : RoleCall) : CallerStage → Option RoleState
  | .entered =>
    if s.mutex = none then some ({ s with mutex := some client }.goto client call .locked) else none
  | .locked =>
    match s.replicaLink with
    | some i => some (s.goto client call (.stopping i))
    | none => some (s.goto client call .unlinked)
  | .stopping i =>
    some ((s.modifyLink i ({ · with running := false })).goto client call (.joining i))
  | .joining i =>
    if (s.links i).any ReplicaLink.alive then none else some (s.goto client call .joined)
  | .joined => some ({ s with replicaLink := none }.goto client call .unlinked)
  | .unlinked =>
    some ({ s with server := { s.server with role := call.role } }.goto client call .roleSet)
  | .roleSet =>
    match call with
    | .replicaOf host port =>
      some ({ s with
        replicaLink := some s.created
        links := Function.update s.links s.created (some ⟨host, port, false, none⟩)
        created := s.created + 1 }.goto client call (.created s.created))
    | .replicaOfNoOne => some (s.goto client call .returning)
  | .created i =>
    some ((s.modifyLink i ({ · with running := true })).goto client call (.starting i))
  | .starting i =>
    some ((s.modifyLink i ({ · with thread := some .loop })).goto client call .returning)
  | .returning => some { s with mutex := none, callers := Function.update s.callers client none }

end RoleState

inductive RoleAction where
  /-- A client calls the manager. -/
  | enter (client : Nat) (call : RoleCall)
  /-- The call of the client takes its next step. -/
  | caller (client : Nat)
  /-- The thread of the link takes its next step. -/
  | link (i : Nat) (e : LinkEvent)
  /-- A line of a client that is not `REPLICAOF`. -/
  | line (fd : Nat) (now : Now) (line : Bytes)

/-- The manager. The output is a call that returns. -/
def roleMachine : Machine RoleState RoleAction (Option (Nat × RoleCall)) where
  step s
    | .enter client call =>
      match s.callers client with
      | none => some (s.goto client call .entered, none)
      | some _ => none
    | .caller client =>
      match s.callers client with
      | some (call, .returning) =>
        (s.callerStep client call .returning).map fun s' => (s', some (client, call))
      | some (call, stage) => (s.callerStep client call stage).map fun s' => (s', none)
      | none => none
    | .link i e =>
      match s.links i with
      | some ⟨host, port, running, some phase⟩ =>
        (runLoop running s.server phase e).map fun x =>
          ({ s with
            server := x.1
            links := Function.update s.links i (some ⟨host, port, running, some x.2⟩) }, none)
      | _ => none
    | .line fd now line =>
      match parse line with
      | .ok ⟨.REPLICAOF, _, _⟩ => none
      | _ => some ({ s with server := (s.server.handleLine fd now line).1 }, none)

/-- A call of `replicaOf` takes the mutex. -/
def StartsReplicaOf (s : RoleState) : RoleAction → Prop
  | .caller client => ∃ host port, s.callers client = some (.replicaOf host port, .entered)
  | _ => False

/-! ## What a step can do -/

section

variable {s s' : RoleState} {a : RoleAction} {o : Option (Nat × RoleCall)}

/-- A step is one of a call, of a thread that is alive, or of a client with another line. -/
theorem role_step_cases (hs : roleMachine.step s a = some (s', o)) :
    match a with
    | .enter client call => s.callers client = none ∧ o = none ∧ s' = s.goto client call .entered
    | .caller client => ∃ call stage, s.callers client = some (call, stage) ∧
        s.callerStep client call stage = some s' ∧
        (∀ x, o = some x → x = (client, call) ∧ stage = .returning)
    | .link i _ => s.Alive i ∧ o = none ∧ ∃ server link, server.role = s.server.role ∧
        s' = { s with server := server, links := Function.update s.links i (some link) }
    | .line fd now line => o = none ∧ (∀ cmd, parse line = .ok cmd → cmd.type ≠ .REPLICAOF) ∧
        s' = { s with server := (s.server.handleLine fd now line).1 } := by
  cases a with
  | enter client call =>
    simp only [roleMachine] at hs
    split at hs
    · rename_i hc
      cases hs
      exact ⟨hc, rfl, rfl⟩
    · cases hs
  | caller client =>
    simp only [roleMachine] at hs
    split at hs
    · rename_i call hc
      obtain ⟨t, ht, heq⟩ := Option.map_eq_some_iff.mp hs
      cases heq
      refine ⟨call, .returning, hc, ht, ?_⟩
      rintro _ ⟨⟩
      exact ⟨rfl, rfl⟩
    · rename_i call stage _ hc
      obtain ⟨t, ht, heq⟩ := Option.map_eq_some_iff.mp hs
      cases heq
      exact ⟨call, stage, hc, ht, by rintro _ ⟨⟩⟩
    · cases hs
  | link i e =>
    simp only [roleMachine] at hs
    split at hs
    · rename_i host port running phase hl
      obtain ⟨⟨server, phase'⟩, hx, heq⟩ := Option.map_eq_some_iff.mp hs
      cases heq
      refine ⟨⟨_, hl, ?_⟩, rfl, server, _, runLoop_role hx, rfl⟩
      cases phase with
      | ended =>
        rw [runLoop_ended] at hx
        cases hx
      | loop | connecting | streaming | receiving | executing | recording | propagating => rfl
    · cases hs
  | line fd now line =>
    simp only [roleMachine] at hs
    split at hs
    · cases hs
    · rename_i hno
      cases hs
      refine ⟨rfl, fun cmd hp htype => ?_, rfl⟩
      obtain ⟨type, name, args⟩ := cmd
      obtain rfl : type = .REPLICAOF := htype
      exact hno name args hp

/-- A line that is not `REPLICAOF` leaves the role. -/
theorem handleLine_role {s : Server} {line : Bytes}
    (h : ∀ cmd, parse line = .ok cmd → cmd.type ≠ .REPLICAOF) (fd : Nat) (now : Now) :
    (s.handleLine fd now line).1.role = s.role := by
  rcases s.handleLine_inv fd now line with ⟨-, heq | heq⟩ | ⟨cmd, hp, -, heq⟩
  · rw [heq]
  · rw [heq]
    rfl
  · rw [heq]
    exact (s.executeCommand now cmd).1.recordAndPropagateIfWrite_role _ _ _ |>.trans
      (executeCommand_frame _ _ (h cmd hp)).1

end

/-! ## The invariant -/

/-- What holds while a call is at a stage. -/
def StageOk (s : RoleState) (call : RoleCall) : CallerStage → Prop
  | .entered | .locked => True
  | .stopping i | .joining i => s.replicaLink = some i
  | .joined => ∀ i, ¬ s.Alive i
  | .unlinked => s.replicaLink = none
  | .roleSet => s.replicaLink = none ∧ s.server.role = call.role
  | .created i | .starting i =>
    s.replicaLink = some i ∧ s.server.role = call.role ∧ call.role = .REPLICA
  | .returning => s.server.role = call.role

structure RoleInv (s : RoleState) : Prop where
  /-- A thread that is alive is that of `replicaLink_`. -/
  linked : ∀ i, s.Alive i → s.replicaLink = some i
  /-- A primary has no link. -/
  primary : s.server.role = .PRIMARY → s.replicaLink = none
  /-- Only the client that holds the mutex is past its first stage. -/
  holder : ∀ c call stage, s.callers c = some (call, stage) → stage ≠ .entered → s.mutex = some c
  stage : ∀ c call stage, s.callers c = some (call, stage) → StageOk s call stage
  fresh : ∀ i, s.created ≤ i → s.links i = none

theorem roleInv_start {server : Server} : RoleInv (.start server) where
  linked := by rintro i ⟨link, hl, -⟩; cases hl
  primary _ := rfl
  holder c call stage hc := by cases hc
  stage c call stage hc := by cases hc
  fresh i _ := rfl

section

variable {s s' : RoleState}

/-- A stage speaks of the link, of the role and of the threads. -/
theorem StageOk.congr {call : RoleCall} {stage : CallerStage} (h : StageOk s call stage)
    (hlink : s'.replicaLink = s.replicaLink) (hrole : s'.server.role = s.server.role)
    (halive : ∀ i, s'.Alive i → s.Alive i) : StageOk s' call stage := by
  cases stage with
  | entered | locked => trivial
  | stopping | joining | unlinked => exact hlink.trans h
  | joined => exact fun i hi => h i (halive i hi)
  | roleSet => exact ⟨hlink.trans h.1, hrole.trans h.2⟩
  | created | starting => exact ⟨hlink.trans h.1, hrole.trans h.2.1, h.2.2⟩
  | returning => exact hrole.trans h

/-- The holder of the mutex goes on, and everybody else still waits for it. -/
theorem RoleInv.caller (h : RoleInv s) {c : Nat} {call : RoleCall} {stage : CallerStage}
    (stage' : CallerStage) (hc : s.callers c = some (call, stage)) (hstage : stage ≠ .entered)
    (hmutex : s'.mutex = s.mutex)
    (hcallers : s'.callers = Function.update s.callers c (some (call, stage')))
    (hok : StageOk s' call stage') (hlinked : ∀ i, s'.Alive i → s'.replicaLink = some i)
    (hprimary : s'.server.role = .PRIMARY → s'.replicaLink = none)
    (hfresh : ∀ i, s'.created ≤ i → s'.links i = none) : RoleInv s' := by
  have hheld := h.holder c call stage hc hstage
  refine ⟨hlinked, hprimary, fun c' call' stage₁ hc' hne => ?_, fun c' call' stage₁ hc' => ?_,
    hfresh⟩
  · rw [hcallers, Function.update_apply] at hc'
    split at hc'
    · rename_i heq
      rw [hmutex, hheld, heq]
    · rw [hmutex]
      exact h.holder c' call' stage₁ hc' hne
  · rw [hcallers, Function.update_apply] at hc'
    split at hc'
    · cases hc'
      exact hok
    · rename_i hne
      have hentered : stage₁ = .entered := by
        by_contra hentered
        rw [h.holder c' call' stage₁ hc' hentered] at hheld
        exact hne (Option.some.inj hheld)
      rw [hentered]
      trivial

section

variable {i : Nat} {f : ReplicaLink → ReplicaLink}

/-- A change of a link that leaves its thread. -/
theorem alive_modifyLink (hf : ∀ link, (f link).alive = link.alive) {j : Nat}
    (h : (s.modifyLink i f).Alive j) : s.Alive j := by
  obtain ⟨link, hl, halive⟩ := h
  simp only [RoleState.modifyLink, Function.update_apply] at hl
  split at hl
  · rename_i hj
    obtain ⟨link', hl', rfl⟩ := Option.map_eq_some_iff.mp hl
    exact ⟨link', hj ▸ hl', (hf link').symm.trans halive⟩
  · exact ⟨link, hl, halive⟩

theorem alive_modifyLink_of_ne {j : Nat} (hj : j ≠ i) (h : (s.modifyLink i f).Alive j) :
    s.Alive j := by
  obtain ⟨link, hl, halive⟩ := h
  simp only [RoleState.modifyLink, Function.update_of_ne hj] at hl
  exact ⟨link, hl, halive⟩

theorem RoleInv.fresh_modifyLink (h : RoleInv s) (j : Nat) (hj : s.created ≤ j) :
    (s.modifyLink i f).links j = none := by
  simp only [RoleState.modifyLink, Function.update_apply]
  split
  · rename_i heq
    rw [← heq, h.fresh j hj]
    rfl
  · exact h.fresh j hj

end

theorem roleInv_enter (h : RoleInv s) (c : Nat) (call : RoleCall) :
    RoleInv (s.goto c call .entered) where
  linked := h.linked
  primary := h.primary
  holder c' call' stage hc' hne := by
    simp only [RoleState.goto, Function.update_apply] at hc'
    split at hc'
    · cases hc'
      exact absurd rfl hne
    · exact h.holder c' call' stage hc' hne
  stage c' call' stage hc' := by
    simp only [RoleState.goto, Function.update_apply] at hc'
    split at hc'
    · cases hc'
      trivial
    · exact (h.stage c' call' stage hc').congr rfl rfl fun _ hi => hi
  fresh := h.fresh

/-- The call takes the mutex, which nobody has. -/
theorem roleInv_lock (h : RoleInv s) (hfree : s.mutex = none) (c : Nat) (call : RoleCall) :
    RoleInv ({ s with mutex := some c }.goto c call .locked) where
  linked := h.linked
  primary := h.primary
  holder c' call' stage hc' hne := by
    simp only [RoleState.goto, Function.update_apply] at hc'
    split at hc'
    · rename_i heq
      rw [heq]
      rfl
    · have hheld := h.holder c' call' stage hc' hne
      rw [hfree] at hheld
      cases hheld
  stage c' call' stage hc' := by
    simp only [RoleState.goto, Function.update_apply] at hc'
    split at hc'
    · cases hc'
      trivial
    · exact (h.stage c' call' stage hc').congr rfl rfl fun _ hi => hi
  fresh := h.fresh

/-- The call lets the mutex go. -/
theorem roleInv_return (h : RoleInv s) {c : Nat} {call : RoleCall}
    (hc : s.callers c = some (call, .returning)) :
    RoleInv { s with mutex := none, callers := Function.update s.callers c none } where
  linked := h.linked
  primary := h.primary
  holder c' call' stage hc' hne := by
    simp only [Function.update_apply] at hc'
    split at hc'
    · cases hc'
    · rename_i hcc
      have hheld := h.holder c call _ hc (by simp)
      rw [h.holder c' call' stage hc' hne] at hheld
      exact absurd (Option.some.inj hheld) hcc
  stage c' call' stage hc' := by
    simp only [Function.update_apply] at hc'
    split at hc'
    · cases hc'
    · exact (h.stage c' call' stage hc').congr rfl rfl fun _ hi => hi
  fresh := h.fresh

/-- A step of a call. -/
theorem roleInv_caller (h : RoleInv s) {c : Nat} {call : RoleCall} {stage : CallerStage}
    (hc : s.callers c = some (call, stage)) (hs : s.callerStep c call stage = some s') :
    RoleInv s' := by
  have hok := h.stage c call stage hc
  cases stage with
  | entered =>
    simp only [RoleState.callerStep] at hs
    split at hs
    · rename_i hfree
      cases hs
      exact roleInv_lock h hfree c call
    · cases hs
  | locked =>
    simp only [RoleState.callerStep] at hs
    split at hs
    · rename_i i hlink
      cases hs
      exact h.caller (.stopping i) hc (by simp) rfl rfl hlink h.linked h.primary h.fresh
    · rename_i hlink
      cases hs
      exact h.caller .unlinked hc (by simp) rfl rfl hlink h.linked h.primary h.fresh
  | stopping i =>
    cases hs
    refine h.caller (.joining i) hc (by simp) rfl rfl hok (fun j hj => h.linked j ?_)
      h.primary h.fresh_modifyLink
    exact alive_modifyLink (f := ({ · with running := false })) (fun _ => rfl) hj
  | joining i =>
    simp only [RoleState.callerStep] at hs
    split at hs
    · cases hs
    · rename_i hended
      cases hs
      have hnone : ∀ j, ¬ s.Alive j := by
        rintro j ⟨link, hl, halive⟩
        have hj := h.linked j ⟨link, hl, halive⟩
        rw [show s.replicaLink = some i from hok] at hj
        cases hj
        rw [hl, Option.any_some, halive] at hended
        exact hended rfl
      exact h.caller .joined hc (by simp) rfl rfl hnone h.linked h.primary h.fresh
  | joined =>
    cases hs
    exact h.caller .unlinked hc (by simp) rfl rfl rfl (fun j hj => absurd hj (hok j))
      (fun _ => rfl) h.fresh
  | unlinked =>
    cases hs
    exact h.caller .roleSet hc (by simp) rfl rfl ⟨hok, rfl⟩ h.linked (fun _ => hok)
      h.fresh
  | roleSet =>
    obtain ⟨hlink, hrole⟩ := hok
    cases call with
    | replicaOfNoOne =>
      cases hs
      exact h.caller .returning hc (by simp) rfl rfl hrole h.linked h.primary h.fresh
    | replicaOf host port =>
      cases hs
      refine h.caller (.created s.created) hc (by simp) rfl rfl ⟨rfl, hrole, rfl⟩ ?_ ?_ ?_
      · -- There was no link, so no thread is alive, and the new one has not been started.
        rintro j ⟨link, hl, halive⟩
        simp only [RoleState.goto, Function.update_apply] at hl
        split at hl
        · cases hl
          cases halive
        · have hj := h.linked j ⟨link, hl, halive⟩
          rw [hlink] at hj
          cases hj
      · intro hprimary
        rw [show s.server.role = .PRIMARY from hprimary] at hrole
        cases hrole
      · intro j hj
        have hj : s.created + 1 ≤ j := hj
        exact (Function.update_of_ne (by omega) _ _).trans (h.fresh j (by omega))
  | created i =>
    cases hs
    refine h.caller (.starting i) hc (by simp) rfl rfl hok (fun j hj => h.linked j ?_)
      h.primary h.fresh_modifyLink
    exact alive_modifyLink (f := ({ · with running := true })) (fun _ => rfl) hj
  | starting i =>
    cases hs
    obtain ⟨hlink, hrole, -⟩ := hok
    refine h.caller .returning hc (by simp) rfl rfl hrole (fun j hj => ?_) h.primary
      h.fresh_modifyLink
    by_cases hji : j = i
    · rw [hji]
      exact hlink
    · exact h.linked j (alive_modifyLink_of_ne hji hj)
  | returning =>
    cases hs
    exact roleInv_return h hc

/-- **Step.** Every step keeps the invariant. -/
theorem roleInv_step {a : RoleAction} {o : Option (Nat × RoleCall)} (h : RoleInv s)
    (hs : roleMachine.step s a = some (s', o)) : RoleInv s' := by
  have hstep := role_step_cases hs
  cases a with
  | enter c call =>
    obtain ⟨-, -, rfl⟩ := hstep
    exact roleInv_enter h c call
  | caller c =>
    obtain ⟨call, stage, hc, hcaller, -⟩ := hstep
    exact roleInv_caller h hc hcaller
  | link i e =>
    obtain ⟨hi, -, server, link, hrole, rfl⟩ := hstep
    have halive : ∀ j, RoleState.Alive { s with
        server := server
        links := Function.update s.links i (some link) } j → s.Alive j := by
      rintro j ⟨link', hl, halive⟩
      by_cases hj : j = i
      · rw [hj]
        exact hi
      · exact ⟨link', (Function.update_of_ne hj _ _).symm.trans hl, halive⟩
    refine ⟨fun j hj => h.linked j (halive j hj), fun hp => h.primary (hrole.symm.trans hp),
      h.holder, fun c call stage hc => (h.stage c call stage hc).congr rfl hrole halive,
      fun j hj => ?_⟩
    -- A thread that is alive is not the one of a link that is still to come.
    refine (Function.update_of_ne ?_ _ _).trans (h.fresh j hj)
    rintro rfl
    obtain ⟨link', hl, -⟩ := hi
    rw [h.fresh j hj] at hl
    cases hl
  | line fd now line =>
    obtain ⟨-, hno, rfl⟩ := hstep
    have hrole := handleLine_role (s := s.server) hno fd now
    exact ⟨h.linked, fun hp => h.primary (hrole.symm.trans hp), h.holder,
      fun c call stage hc => (h.stage c call stage hc).congr rfl hrole fun _ hi => hi, h.fresh⟩

end

/-! ## After a promotion -/

/-- The first `n` links are over: no thread of them is alive, and none will be started. -/
structure Former (n : Nat) (s : RoleState) : Prop where
  created : n ≤ s.created
  dead : ∀ i, s.Alive i → n ≤ i
  unstarted : ∀ c call i,
    s.callers c = some (call, .created i) ∨ s.callers c = some (call, .starting i) → n ≤ i

/-- There is no link, and every call of `replicaOf` waits for the mutex. -/
structure CutOff (s : RoleState) : Prop where
  unlinked : s.replicaLink = none
  waiting : ∀ c host port stage, s.callers c = some (.replicaOf host port, stage) → stage = .entered

section

variable {s s' t : RoleState} {a : RoleAction} {o : Option (Nat × RoleCall)} {n : Nat}
  {acts : List RoleAction} {outs : List (Option (Nat × RoleCall))}

/-- No call is under way and there is no link. -/
theorem former_of_free (h : RoleInv s) (hfree : s.mutex = none) (hlink : s.replicaLink = none) :
    Former s.created s ∧ CutOff s := by
  have hentered : ∀ c call stage, s.callers c = some (call, stage) → stage = .entered := by
    intro c call stage hc
    by_contra hne
    rw [h.holder c call stage hc hne] at hfree
    cases hfree
  have hdead : ∀ i, ¬ s.Alive i := fun i hi => by
    rw [h.linked i hi] at hlink
    cases hlink
  refine ⟨⟨le_rfl, fun i hi => absurd hi (hdead i), ?_⟩, hlink,
    fun c host port stage => hentered c _ stage⟩
  rintro c call i (hc | hc)
  · cases hentered c call _ hc
  · cases hentered c call _ hc

/-- A call that goes on without a new link. -/
theorem Former.goto (h : Former n s) {c : Nat} {call : RoleCall} (stage : CallerStage)
    (hcreated : s.created ≤ s'.created) (halive : ∀ i, s'.Alive i → s.Alive i ∨ n ≤ i)
    (hcallers : s'.callers = Function.update s.callers c (some (call, stage)))
    (hstage : ∀ i, stage = .created i ∨ stage = .starting i → n ≤ i) : Former n s' := by
  refine ⟨h.created.trans hcreated, fun i hi => (halive i hi).elim (h.dead i) id, ?_⟩
  intro c' call' i hc'
  rw [hcallers, Function.update_apply] at hc'
  split at hc'
  · simp only [Option.some.injEq, Prod.mk.injEq] at hc'
    exact hstage i (hc'.imp And.right And.right)
  · exact h.unstarted c' call' i hc'

/-- A step of a call. -/
theorem former_caller (h : Former n s) {c : Nat} {call : RoleCall} {stage : CallerStage}
    (hc : s.callers c = some (call, stage)) (hs : s.callerStep c call stage = some s') :
    Former n s' := by
  cases stage with
  | entered =>
    simp only [RoleState.callerStep] at hs
    split at hs
    · cases hs
      exact h.goto .locked le_rfl (fun _ hi => .inl hi) rfl (by simp)
    · cases hs
  | locked =>
    simp only [RoleState.callerStep] at hs
    split at hs
    · rename_i i _
      cases hs
      exact h.goto (.stopping i) le_rfl (fun _ hi => .inl hi) rfl (by simp)
    · cases hs
      exact h.goto .unlinked le_rfl (fun _ hi => .inl hi) rfl (by simp)
  | stopping i =>
    cases hs
    refine h.goto (.joining i) le_rfl (fun j hj => .inl ?_) rfl (by simp)
    exact alive_modifyLink (f := ({ · with running := false })) (fun _ => rfl) hj
  | joining i =>
    simp only [RoleState.callerStep] at hs
    split at hs
    · cases hs
    · cases hs
      exact h.goto .joined le_rfl (fun _ hi => .inl hi) rfl (by simp)
  | joined =>
    cases hs
    exact h.goto .unlinked le_rfl (fun _ hi => .inl hi) rfl (by simp)
  | unlinked =>
    cases hs
    exact h.goto .roleSet le_rfl (fun _ hi => .inl hi) rfl (by simp)
  | roleSet =>
    cases call with
    | replicaOfNoOne =>
      cases hs
      exact h.goto .returning le_rfl (fun _ hi => .inl hi) rfl (by simp)
    | replicaOf host port =>
      cases hs
      refine h.goto (.created s.created) (Nat.le_succ _) (fun j hj => ?_) rfl ?_
      · obtain ⟨link, hl, halive⟩ := hj
        simp only [RoleState.goto, Function.update_apply] at hl
        split at hl
        · rename_i hj
          exact .inr (hj ▸ h.created)
        · exact .inl ⟨link, hl, halive⟩
      · rintro i (⟨⟨⟩⟩ | ⟨⟨⟩⟩)
        exact h.created
  | created i =>
    cases hs
    have hi := h.unstarted c call i (.inl hc)
    refine h.goto (.starting i) le_rfl (fun j hj => .inl ?_) rfl ?_
    · exact alive_modifyLink (f := ({ · with running := true })) (fun _ => rfl) hj
    · rintro i' (⟨⟨⟩⟩ | ⟨⟨⟩⟩)
      exact hi
  | starting i =>
    cases hs
    have hi := h.unstarted c call i (.inr hc)
    refine h.goto .returning le_rfl (fun j hj => ?_) rfl (by simp)
    by_cases hji : j = i
    · exact .inr (hji ▸ hi)
    · exact .inl (alive_modifyLink_of_ne hji hj)
  | returning =>
    cases hs
    refine ⟨h.created, h.dead, fun c' call' i hc' => ?_⟩
    simp only [Function.update_apply] at hc'
    split at hc'
    · rcases hc' with hc' | hc' <;> cases hc'
    · exact h.unstarted c' call' i hc'

/-- Links that are over stay so, and take no step. -/
theorem former_step (h : Former n s) (hs : roleMachine.step s a = some (s', o)) :
    Former n s' ∧ ∀ i e, a = .link i e → n ≤ i := by
  have hstep := role_step_cases hs
  cases a with
  | enter c call =>
    obtain ⟨-, -, rfl⟩ := hstep
    exact ⟨h.goto .entered le_rfl (fun _ hi => .inl hi) rfl (by simp), by simp⟩
  | caller c =>
    obtain ⟨call, stage, hc, hcaller, -⟩ := hstep
    exact ⟨former_caller h hc hcaller, by simp⟩
  | link i e =>
    obtain ⟨hi, -, server, link, -, rfl⟩ := hstep
    refine ⟨⟨h.created, ?_, h.unstarted⟩, ?_⟩
    · rintro j ⟨link', hl, halive⟩
      by_cases hj : j = i
      · rw [hj]
        exact h.dead i hi
      · exact h.dead j ⟨link', (Function.update_of_ne hj _ _).symm.trans hl, halive⟩
    · rintro _ _ ⟨⟩
      exact h.dead i hi
  | line fd now line =>
    obtain ⟨-, -, rfl⟩ := hstep
    exact ⟨⟨h.created, h.dead, h.unstarted⟩, by simp⟩

/-- A step of a call while there is no link: the call is `replicaOfNoOne`, or takes the mutex. -/
theorem cutOff_caller (hinv : RoleInv s) (h : CutOff s) {c : Nat} {call : RoleCall}
    {stage : CallerStage} (hc : s.callers c = some (call, stage))
    (hno : ¬ StartsReplicaOf s (.caller c)) (hs : s.callerStep c call stage = some s') :
    CutOff s' := by
  have hok := hinv.stage c call stage hc
  cases call with
  | replicaOf host port =>
    rw [h.waiting c host port stage hc] at hc
    exact absurd ⟨host, port, hc⟩ hno
  | replicaOfNoOne =>
    have hgoto : ∀ stage', s'.replicaLink = none →
        s'.callers = Function.update s.callers c (some (.replicaOfNoOne, stage')) → CutOff s' := by
      intro stage' hlink hcallers
      refine ⟨hlink, fun c' host port stage₁ hc' => ?_⟩
      rw [hcallers, Function.update_apply] at hc'
      split at hc'
      · cases hc'
      · exact h.waiting c' host port stage₁ hc'
    cases stage with
    | entered =>
      simp only [RoleState.callerStep] at hs
      split at hs
      · cases hs
        exact hgoto .locked h.unlinked rfl
      · cases hs
    | locked =>
      simp only [RoleState.callerStep, h.unlinked] at hs
      cases hs
      exact hgoto .unlinked h.unlinked rfl
    | stopping i | joining i =>
      have hlink : s.replicaLink = some i := hok
      rw [h.unlinked] at hlink
      cases hlink
    | joined =>
      cases hs
      exact hgoto .unlinked rfl rfl
    | unlinked =>
      cases hs
      exact hgoto .roleSet h.unlinked rfl
    | roleSet =>
      cases hs
      exact hgoto .returning h.unlinked rfl
    | created i | starting i => cases hok.2.2
    | returning =>
      cases hs
      refine ⟨h.unlinked, fun c' host port stage₁ hc' => ?_⟩
      simp only [Function.update_apply] at hc'
      split at hc'
      · cases hc'
      · exact h.waiting c' host port stage₁ hc'

/-- Without a call of `replicaOf` that takes the mutex, no link takes a step. -/
theorem cutOff_step (hinv : RoleInv s) (h : CutOff s) (hno : ¬ StartsReplicaOf s a)
    (hs : roleMachine.step s a = some (s', o)) : CutOff s' ∧ ∀ i e, a ≠ .link i e := by
  have hstep := role_step_cases hs
  cases a with
  | enter c call =>
    obtain ⟨-, -, rfl⟩ := hstep
    refine ⟨⟨h.unlinked, fun c' host port stage hc' => ?_⟩, by simp⟩
    simp only [RoleState.goto, Function.update_apply] at hc'
    split at hc'
    · cases hc'
      rfl
    · exact h.waiting c' host port stage hc'
  | caller c =>
    obtain ⟨call, stage, hc, hcaller, -⟩ := hstep
    exact ⟨cutOff_caller hinv h hc hno hcaller, by simp⟩
  | link i e =>
    obtain ⟨hi, -⟩ := hstep
    have hlink := hinv.linked i hi
    rw [h.unlinked] at hlink
    cases hlink
  | line fd now line =>
    obtain ⟨-, -, rfl⟩ := hstep
    exact ⟨⟨h.unlinked, h.waiting⟩, by simp⟩

theorem former_run (h : Former n s) (hrun : roleMachine.run s acts = some (t, outs)) :
    ∀ i e, RoleAction.link i e ∈ acts → n ≤ i := by
  induction acts generalizing s outs with
  | nil => simp
  | cons a acts ih =>
    obtain ⟨s₁, o, outs', hs, hrest, rfl⟩ := Machine.run_cons.mp hrun
    obtain ⟨h₁, hlink⟩ := former_step h hs
    intro i e hmem
    rcases List.mem_cons.mp hmem with heq | hmem
    · exact hlink i e heq.symm
    · exact ih h₁ hrest i e hmem

theorem cutOff_run (hinv : RoleInv s) (h : CutOff s)
    (hno : roleMachine.Along (fun s a => ¬ StartsReplicaOf s a) s acts)
    (hrun : roleMachine.run s acts = some (t, outs)) : ∀ i e, RoleAction.link i e ∉ acts := by
  induction acts generalizing s outs with
  | nil => simp
  | cons a acts ih =>
    obtain ⟨s₁, o, outs', hs, hrest, rfl⟩ := Machine.run_cons.mp hrun
    obtain ⟨h₁, hlink⟩ := cutOff_step hinv h hno.1 hs
    intro i e hmem
    rcases List.mem_cons.mp hmem with heq | hmem
    · exact hlink i e heq.symm
    · exact ih (roleInv_step hinv hs) h₁ (hno.2 s₁ o hs) hrest i e hmem

/-- What a return of `replicaOfNoOne` leaves. -/
theorem return_of_noOne (hinv : RoleInv s) {c : Nat}
    (hs : roleMachine.step s (.caller c) = some (s', some (c, .replicaOfNoOne))) :
    s'.mutex = none ∧ s'.replicaLink = none ∧ s'.server.role = .PRIMARY := by
  obtain ⟨call, stage, hc, hcaller, hout⟩ := role_step_cases hs
  obtain ⟨heq, rfl⟩ := hout _ rfl
  cases heq
  cases hcaller
  have hrole : s.server.role = .PRIMARY := hinv.stage c _ _ hc
  exact ⟨rfl, hinv.primary hrole, hrole⟩

end

/-- **A promoted node is cut off.** In every state at most one link thread is alive, and none at a
primary. After `replicaOfNoOne` has returned no link that was created before takes a step any more,
and no link at all until a call of `replicaOf` takes the mutex. -/
theorem promoted_cut_off {server : Server} {acts : List RoleAction} {t : RoleState}
    {outs : List (Option (Nat × RoleCall))}
    (hrun : roleMachine.run (.start server) acts = some (t, outs)) :
    (∀ i j, t.Alive i → t.Alive j → i = j) ∧
    (t.server.role = .PRIMARY → ∀ i, ¬ t.Alive i) ∧
    ∀ pre c post, acts = pre ++ .caller c :: post →
      outs[pre.length]? = some (some (c, .replicaOfNoOne)) →
      ∃ u os, roleMachine.run (.start server) (pre ++ [.caller c]) = some (u, os) ∧
        u.server.role = .PRIMARY ∧
        (∀ i e, RoleAction.link i e ∈ post → u.created ≤ i) ∧
        ∀ mid rest, post = mid ++ rest →
          roleMachine.Along (fun s a => ¬ StartsReplicaOf s a) u mid →
          ∀ i e, RoleAction.link i e ∉ mid := by
  have hinv : ∀ {acts t outs}, roleMachine.run (.start server) acts = some (t, outs) → RoleInv t :=
    fun hrun => Machine.run_invariant (fun _ _ _ _ h _ hs => roleInv_step h hs)
      (Machine.along_true _ _) hrun roleInv_start
  have ht := hinv hrun
  refine ⟨fun i j hi hj => ?_, fun hp i hi => ?_, ?_⟩
  · exact Option.some.inj ((ht.linked i hi).symm.trans (ht.linked j hj))
  · have hlink := ht.linked i hi
    rw [ht.primary hp] at hlink
    cases hlink
  · rintro pre c post rfl hout
    obtain ⟨s, os, u, o, os', hpre, hs, ho, hpost⟩ := Machine.run_at hrun
    rw [hout] at ho
    cases ho
    obtain ⟨hfree, hlink, hprimary⟩ := return_of_noOne (hinv hpre) hs
    have hu : roleMachine.run (.start server) (pre ++ [.caller c]) =
        some (u, os ++ [some (c, .replicaOfNoOne)]) :=
      Machine.run_append.mpr ⟨s, os, _, hpre, Machine.run_cons.mpr ⟨u, _, [], hs, rfl, rfl⟩, rfl⟩
    obtain ⟨hformer, hcut⟩ := former_of_free (hinv hu) hfree hlink
    refine ⟨u, _, hu, hprimary, former_run hformer hpost, ?_⟩
    rintro mid rest rfl hno
    obtain ⟨v, osMid, -, hmid, -, -⟩ := Machine.run_append.mp hpost
    exact cutOff_run (hinv hu) hcut hno hmid

/-- A replica that is promoted while its link applies a line. -/
def promotedInLine : List RoleAction :=
  .enter 1 (.replicaOf (ascii "h") 1) :: List.replicate 7 (.caller 1) ++
    [.link 0 .step, .link 0 (.connected true), .link 0 .step,
      .link 0 (.received .epoch (some (ascii "SET k v"))), .enter 2 .replicaOfNoOne] ++
    List.replicate 3 (.caller 2) ++ List.replicate 7 (.link 0 .step) ++
    List.replicate 5 (.caller 2)

theorem promoted_cut_off_promotedInLine :
    ∃ t outs, roleMachine.run (.start freshServer) promotedInLine = some (t, outs) ∧
      t.server.db.store.lookup (ascii "k") = some (ascii "v") ∧ t.server.role = .PRIMARY ∧
      ∀ i, ¬ t.Alive i := by
  have hend : ((roleMachine.run (.start freshServer) promotedInLine).map fun x =>
      (x.1.server.db.store.lookup (ascii "k"), x.1.server.role)) =
        some (some (ascii "v"), .PRIMARY) := by
    decide +kernel
  obtain ⟨⟨t, outs⟩, hrun, heq⟩ := Option.map_eq_some_iff.mp hend
  obtain ⟨hlookup, hrole⟩ := Prod.mk.inj heq
  obtain ⟨-, hprimary, -⟩ := promoted_cut_off hrun
  exact ⟨t, outs, hrun, hlookup, hrole, hprimary hrole⟩

end TinyKV

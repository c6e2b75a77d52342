import TinyKV.LogOrder
import TinyKV.ConcurrentSave

/-!
# The `SYNC` handshake beside a writing client

`handleSyncConnection` registers the connection, dumps the store into a buffer and sends the buffer.
From the registration on, `propagate` writes to the same connection, so a line that executes after
the dump can be on the wire before the dump is. The replica then applies the older value last.

* `SyncRun`, `syncMachine`: the steps of the handshake and of lines that are processed one at a
  time, in any order.
* `SyncStepSafe`: no line is propagated between the dump and its sending if the dump has another
  value for the key of the line.
* `SyncInv`: what the replica will have, by the phase of the handshake; `syncInv_step`.
* `sync_handshake`: the replica has the live map after any run of safe steps.
-/

namespace TinyKV

open Cpp Recency Text SnapshotManager

/-! ## The machine -/

/-- How far `handleSyncConnection` is. -/
inductive SyncPhase where
  | idle
  | registered
  | dumped (buffer : List (Bytes × Bytes))
  | sent

/-- The dump that waits to be sent. -/
def SyncPhase.buffer : SyncPhase → Option (List (Bytes × Bytes))
  | .dumped es => some es
  | _ => none

def SyncPhase.isSent : SyncPhase → Bool
  | .sent => true
  | _ => false

theorem SyncPhase.isSent_iff {p : SyncPhase} : p.isSent = true ↔ p = .sent := by
  cases p <;> simp [isSent]

/-- A primary, the line that is executed and not yet propagated, and the handshake. -/
structure SyncRun where
  server : Server
  pending : Option Line
  phase : SyncPhase

inductive SyncAction where
  | exec (now : Now) (line : Line)
  /-- `recordAndPropagateIfWrite` for the line. -/
  | propagate
  | register
  | dump
  | send

/-- `SET key value` or `DEL key`. -/
def isPlainWrite (cmd : Command) : Bool :=
  (cmd.type = .SET && cmd.args.length = 2) || (cmd.type = .DEL && cmd.args.length = 1)

/-- The machine of the handshake on connection `fd` and of plain writes, one at a time. -/
def syncMachine (fd : Nat) : Machine SyncRun SyncAction Unit where
  step r
    | .exec now line =>
      if r.pending.isSome then none
      else match parse line.1 with
        | .error _ => none
        | .ok cmd =>
          if isPlainWrite cmd then
            some ({ r with
              server := { r.server with db := (execute serverWiring r.server.db now cmd).db }
              pending := some line }, ())
          else none
    | .propagate =>
      r.pending.map fun line =>
        ({ r with server := (r.server.recordWrite line.1).propagate line.1, pending := none }, ())
    | .register =>
      match r.phase with
      | .idle => some ({ r with server := r.server.register fd, phase := .registered }, ())
      | _ => none
    | .dump =>
      match r.phase with
      | .registered => some ({ r with phase := .dumped r.server.db.store.forEach }, ())
      | _ => none
    | .send =>
      match r.phase with
      | .dumped es => some ({ r with server := r.server.send fd (dumpLines es), phase := .sent }, ())
      | _ => none

/-- The dumped lines are not too long. -/
def DumpFits (r : SyncRun) : SyncAction → Prop
  | .dump => FitEntries r.server.db.store.entries
  | _ => True

/-- While the dump waits to be sent, no line is propagated that gives a dumped key another value
than the dump has. -/
def SyncStepSafe (r : SyncRun) : SyncAction → Prop
  | .propagate => ∀ es ∈ r.phase.buffer, ∀ line ∈ r.pending, ∀ u ∈ lineEffects line.1,
      find u.1 es = none ∨ u.2 = .assign (find u.1 es)
  | _ => True

instance (r : SyncRun) : ∀ a, Decidable (DumpFits r a)
  | .dump => inferInstanceAs (Decidable (FitEntries _))
  | .exec _ _ | .propagate | .register | .send => isTrue trivial

instance (r : SyncRun) : ∀ a, Decidable (SyncStepSafe r a)
  | .propagate => inferInstanceAs (Decidable (∀ es ∈ r.phase.buffer, _))
  | .exec _ _ | .dump | .register | .send => isTrue trivial

/-! ## The invariant -/

/-- The effects of the pending line. -/
def SyncRun.owed (r : SyncRun) : List (Bytes × KeyOp) :=
  match r.pending with
  | none => []
  | some line => lineEffects line.1

/-- The map that the lines on the connection give. -/
def Server.streamMap (s : Server) (fd : Nat) : KvMap :=
  applyAll (fun _ => none) ((s.sent fd).flatMap lineEffects)

/-- What the connection will have given to the replica when the handshake is done. -/
def PhaseInv (fd : Nat) (r : SyncRun) : Prop :=
  let m := r.server.streamMap fd
  let live := r.server.db.store.lookup
  match r.phase with
  | .idle => r.server.replicaFds.count fd = 0 ∧ r.server.sent fd = []
  | .registered => r.server.replicaFds.count fd = 1 ∧
      ∀ x, applyAll m r.owed x = live x ∨ applyAll m r.owed x = none
  | .dumped es => r.server.replicaFds.count fd = 1 ∧ UniqueKeys es ∧ WordEntries es ∧
      FitEntries es ∧ applyAll (fun x => (find x es).or (m x)) r.owed = live
  | .sent => r.server.replicaFds.count fd = 1 ∧ applyAll m r.owed = live

structure SyncInv (fd : Nat) (r : SyncRun) : Prop where
  unbounded : r.server.db.store.capacity = 0
  words : WordEntries r.server.db.store.entries
  /-- The pending line gave its key the value that it has. -/
  last : ∀ u ∈ r.owed, u.2 = .assign (r.server.db.store.lookup u.1)
  phase : PhaseInv fd r

/-- The effect of a plain write is an assignment. -/
theorem effect_plainWrite {cmd : Command} (h : isPlainWrite cmd = true) :
    ∃ k v, cmd.effect = some (k, .assign v) := by
  obtain ⟨type, name, args⟩ := cmd
  simp only [isPlainWrite, Bool.or_eq_true, Bool.and_eq_true, decide_eq_true_eq] at h
  rcases h with ⟨rfl, hl⟩ | ⟨rfl, hl⟩
  · obtain ⟨k, v, rfl⟩ := List.length_eq_two.mp hl
    exact ⟨k, some v, rfl⟩
  · obtain ⟨k, rfl⟩ := List.length_eq_one_iff.mp hl
    exact ⟨k, none, rfl⟩

theorem applyAll_assign (m : KvMap) (k : Bytes) (v : Option Bytes) :
    applyAll m [(k, .assign v)] = Function.update m k v := rfl

/-- What the pending line can be. -/
theorem SyncInv.owed_cases {fd : Nat} {r : SyncRun} (h : SyncInv fd r) :
    r.owed = [] ∨ ∃ k, r.owed = [(k, .assign (r.server.db.store.lookup k))] := by
  have hlast := h.last
  unfold SyncRun.owed at hlast ⊢
  cases hp : r.pending with
  | none => exact .inl rfl
  | some line =>
    rw [hp] at hlast
    rcases lineEffects_cases line.1 with he | ⟨k, op, he⟩
    · exact .inl he
    · refine .inr ⟨k, ?_⟩
      have hop : op = .assign (r.server.db.store.lookup k) := hlast (k, op) (by simp [he])
      rw [← hop]
      exact he

/-! ## The steps -/

theorem syncInv_exec {fd : Nat} {r : SyncRun} {now : Now} {line : Line} {cmd : Command}
    (h : SyncInv fd r) (hnone : r.pending = none) (hp : parse line.1 = .ok cmd)
    (hplain : isPlainWrite cmd = true) :
    SyncInv fd { r with
      server := { r.server with db := (execute serverWiring r.server.db now cmd).db }
      pending := some line } := by
  obtain ⟨k, v, heff⟩ := effect_plainWrite hplain
  have hlive : (execute serverWiring r.server.db now cmd).db.store.lookup =
      Function.update r.server.db.store.lookup k v := by
    rw [execute_lookup h.unbounded, Command.apply, heff]
    rfl
  have howed : lineEffects line.1 = [(k, .assign v)] := by
    rw [lineEffects_of_parse hp, heff]
    rfl
  have hempty : r.owed = [] := by rw [SyncRun.owed, hnone]
  refine ⟨by rw [execute_capacity, h.unbounded], ?_, ?_, ?_⟩
  · rw [execute_entries]
    exact onEntries_words (fun a ha => args_isWord hp ha) _ h.words
  · intro u hu
    have hmem : u ∈ lineEffects line.1 := hu
    rw [howed] at hmem
    rw [List.mem_singleton.mp hmem, hlive]
    simp
  · have hphase := h.phase
    simp only [PhaseInv, hempty, Keyed.run_nil] at hphase
    simp only [PhaseInv, SyncRun.owed, howed, hlive, applyAll_assign]
    cases hph : r.phase with
    | idle => rw [hph] at hphase; exact hphase
    | registered =>
      rw [hph] at hphase
      refine ⟨hphase.1, fun x => ?_⟩
      by_cases hx : x = k
      · subst hx; simp
      · simp only [Function.update_of_ne hx]
        exact hphase.2 x
    | dumped es =>
      rw [hph] at hphase
      obtain ⟨h1, h2, h3, h4, h5⟩ := hphase
      refine ⟨h1, h2, h3, h4, ?_⟩
      rw [← h5]
      rfl
    | sent =>
      rw [hph] at hphase
      refine ⟨hphase.1, ?_⟩
      rw [← hphase.2]
      rfl

/-- A propagated line joins the stream of a registered connection. -/
theorem streamMap_propagate {s : Server} {fd : Nat} (h : s.replicaFds.count fd = 1)
    (line : Bytes) :
    ((s.recordWrite line).propagate line).streamMap fd =
      applyAll (s.streamMap fd) (lineEffects line) := by
  have hsent : ((s.recordWrite line).propagate line).sent fd = s.sent fd ++ [line] := by
    rw [Server.propagate_sent]
    show s.sent fd ++ List.replicate (s.replicaFds.count fd) line = _
    rw [h]
    rfl
  unfold Server.streamMap
  rw [hsent, List.flatMap_append, List.flatMap_singleton]
  exact Keyed.run_append _ _ _ _

theorem syncInv_propagate {fd : Nat} {r : SyncRun} {line : Line} (h : SyncInv fd r)
    (hp : r.pending = some line) (hsafe : SyncStepSafe r .propagate) :
    SyncInv fd { r with server := (r.server.recordWrite line.1).propagate line.1
                        pending := none } := by
  refine ⟨h.unbounded, h.words, fun u hu => (by cases hu), ?_⟩
  have hphase := h.phase
  have howed : r.owed = lineEffects line.1 := by rw [SyncRun.owed, hp]
  simp only [PhaseInv, howed] at hphase
  simp only [PhaseInv, SyncRun.owed]
  cases hph : r.phase with
  | idle =>
    rw [hph] at hphase
    refine ⟨hphase.1, ?_⟩
    show ((r.server.recordWrite line.1).propagate line.1).sent fd = []
    rw [Server.propagate_sent]
    show r.server.sent fd ++ List.replicate (r.server.replicaFds.count fd) line.1 = []
    rw [hphase.1, hphase.2]
    rfl
  | registered =>
    rw [hph] at hphase
    refine ⟨hphase.1, ?_⟩
    show ∀ x, Server.streamMap _ fd x = r.server.db.store.lookup x ∨ Server.streamMap _ fd x = none
    rw [streamMap_propagate hphase.1]
    exact hphase.2
  | sent =>
    rw [hph] at hphase
    refine ⟨hphase.1, ?_⟩
    show Server.streamMap _ fd = r.server.db.store.lookup
    rw [streamMap_propagate hphase.1]
    exact hphase.2
  | dumped es =>
    rw [hph] at hphase
    obtain ⟨h1, h2, h3, h4, h5⟩ := hphase
    refine ⟨h1, h2, h3, h4, ?_⟩
    show (fun x => (find x es).or (Server.streamMap _ fd x)) = r.server.db.store.lookup
    rw [streamMap_propagate h1]
    rcases h.owed_cases with he | ⟨k, he⟩
    · rw [howed] at he
      rw [he] at h5 ⊢
      exact h5
    · rw [howed] at he
      rw [he, applyAll_assign] at h5 ⊢
      funext x
      by_cases hx : x = k
      · -- The dump has no value for the key, or the one that the line gave it.
        subst hx
        rw [Function.update_self]
        have hbuf : es ∈ r.phase.buffer := by rw [hph]; rfl
        rcases hsafe es hbuf line hp _ (by rw [he]; exact List.mem_cons_self) with hn | hv
        · rw [show find x es = none from hn]; rfl
        · rw [KeyOp.assign.injEq] at hv
          rw [hv]
          cases find x es <;> rfl
      · rw [Function.update_of_ne hx, ← h5, Function.update_of_ne hx]

theorem syncInv_register {fd : Nat} {r : SyncRun} (h : SyncInv fd r) (hph : r.phase = .idle) :
    SyncInv fd { r with server := r.server.register fd, phase := .registered } := by
  refine ⟨h.unbounded, h.words, h.last, ?_⟩
  have hphase := h.phase
  simp only [PhaseInv, hph] at hphase
  simp only [PhaseInv]
  refine ⟨?_, fun x => ?_⟩
  · show (r.server.replicaFds ++ [fd]).count fd = 1
    rw [List.count_append, hphase.1]
    simp
  · have hm : (r.server.register fd).streamMap fd = fun _ => none := by
      show applyAll _ ((r.server.sent fd).flatMap lineEffects) = _
      rw [hphase.2]
      rfl
    rw [hm]
    show applyAll _ r.owed x = _ ∨ applyAll _ r.owed x = none
    rcases h.owed_cases with he | ⟨k, he⟩
    · rw [he]
      exact .inr rfl
    · rw [he, applyAll_assign]
      by_cases hx : x = k
      · subst hx
        exact .inl (Function.update_self _ _ _)
      · exact .inr (Function.update_of_ne hx _ _)

theorem syncInv_dump {fd : Nat} {r : SyncRun} (h : SyncInv fd r) (hph : r.phase = .registered)
    (hfit : FitEntries r.server.db.store.entries) :
    SyncInv fd { r with phase := .dumped r.server.db.store.forEach } := by
  refine ⟨h.unbounded, h.words, h.last, ?_⟩
  have hphase := h.phase
  simp only [PhaseInv, hph] at hphase
  obtain ⟨hcount, hmap⟩ := hphase
  refine ⟨hcount, r.server.db.store.unique, h.words, hfit, ?_⟩
  show applyAll (fun x => (r.server.db.store.lookup x).or (r.server.streamMap fd x)) r.owed = _
  -- A key that the dump lacks is one that the stream dropped, or never had.
  have hor : ∀ x, applyAll (r.server.streamMap fd) r.owed x = r.server.streamMap fd x →
      (r.server.db.store.lookup x).or (r.server.streamMap fd x) = r.server.db.store.lookup x := by
    intro x hx
    have hx' := hmap x
    rw [hx] at hx'
    cases hl : r.server.db.store.lookup x with
    | some v => rfl
    | none =>
      rw [hl, or_self] at hx'
      rw [hx']
      rfl
  rcases h.owed_cases with he | ⟨k, he⟩
  · rw [he] at hor ⊢
    funext x
    exact hor x rfl
  · rw [he] at hor ⊢
    simp only [applyAll_assign] at hor ⊢
    funext x
    by_cases hx : x = k
    · subst hx
      rw [Function.update_self]
    · rw [Function.update_of_ne hx]
      exact hor x (Function.update_of_ne hx _ _)

theorem syncInv_send {fd : Nat} {r : SyncRun} {es : List (Bytes × Bytes)} (h : SyncInv fd r)
    (hph : r.phase = .dumped es) :
    SyncInv fd { r with server := r.server.send fd (dumpLines es), phase := .sent } := by
  refine ⟨h.unbounded, h.words, h.last, ?_⟩
  have hphase := h.phase
  simp only [PhaseInv, hph] at hphase
  obtain ⟨hcount, hu, hw, hfit, hmap⟩ := hphase
  refine ⟨hcount, ?_⟩
  have hm : (r.server.send fd (dumpLines es)).streamMap fd =
      fun x => (find x es).or (r.server.streamMap fd x) := by
    unfold Server.streamMap Server.send
    simp only [Function.update_self, List.flatMap_append]
    funext x
    rw [applyAll, Keyed.run_append]
    exact applyAll_dumpLines_of_fit hu hw hfit _ x
  rw [hm]
  exact hmap

/-- A safe step keeps the invariant. -/
theorem syncInv_step {fd : Nat} {r t : SyncRun} {a : SyncAction} {o : Unit} (h : SyncInv fd r)
    (hfit : DumpFits r a) (hsafe : SyncStepSafe r a)
    (hs : (syncMachine fd).step r a = some (t, o)) : SyncInv fd t := by
  cases a with
  | exec now line =>
    simp only [syncMachine] at hs
    split at hs
    · cases hs
    rename_i hpend
    split at hs
    · cases hs
    rename_i cmd hp
    split at hs
    · rename_i hplain
      cases hs
      exact syncInv_exec h (by simpa using hpend) hp hplain
    · cases hs
  | propagate =>
    obtain ⟨line, hp, he⟩ := Option.map_eq_some_iff.mp hs
    cases he
    exact syncInv_propagate h hp hsafe
  | register =>
    simp only [syncMachine] at hs
    split at hs
    · rename_i hph
      cases hs
      exact syncInv_register h hph
    · cases hs
  | dump =>
    simp only [syncMachine] at hs
    split at hs
    · rename_i hph
      cases hs
      exact syncInv_dump h hph hfit
    · cases hs
  | send =>
    simp only [syncMachine] at hs
    split at hs
    · rename_i hph
      cases hs
      exact syncInv_send h hph
    · cases hs

/-! ## Whole runs -/

/-- **The `SYNC` handshake.** In every run of safe steps, when the buffer is sent and no line is
under way, a fresh replica that has applied all lines of the connection has the live map. -/
theorem sync_handshake {s : Server} (hc : s.db.store.capacity = 0)
    (hw : WordEntries s.db.store.entries) {fd : Nat} (hfd : s.replicaFds.count fd = 0)
    (hsent : s.sent fd = []) (clock clock' : Nat → Now) (acts : List SyncAction) (r : SyncRun)
    (outs : List Unit)
    (hsafe : (syncMachine fd).Along (fun r a => DumpFits r a ∧ SyncStepSafe r a)
      ⟨s, none, .idle⟩ acts)
    (hrun : (syncMachine fd).run ⟨s, none, .idle⟩ acts = some (r, outs))
    (hpending : r.pending = none) (hdone : r.phase = .sent) :
    ((freshReplica clock).applyLines clock' (r.server.sent fd)).db.store.lookup =
      r.server.db.store.lookup := by
  have hstart : SyncInv fd ⟨s, none, .idle⟩ := ⟨hc, hw, fun u hu => (by cases hu), hfd, hsent⟩
  have hr : SyncInv fd r :=
    Machine.run_invariant (fun _ _ _ _ h hc hs => syncInv_step h hc.1 hc.2 hs) hsafe hrun hstart
  have hphase := hr.phase
  simp only [PhaseInv, hdone, SyncRun.owed, hpending] at hphase
  rw [Server.applyLines_lookup rfl, ← hphase.2]
  rfl

/-- A server that holds `k`, and a line that is propagated between the dump and its sending. -/
def writeDuringDump (line : Line) : List SyncAction :=
  [.exec .epoch (.ofText "SET k 1"), .propagate, .register, .dump,
    .exec .epoch line, .propagate, .send]

/-- A new key may reach the replica before the dump does. -/
theorem sync_handshake_newKey :
    ∃ r outs, (syncMachine 7).run ⟨freshServer, none, .idle⟩
        (writeDuringDump (.ofText "SET j 2")) = some (r, outs) ∧
      r.server.sent 7 = [ascii "SET j 2", ascii "SET k 1"] ∧
      ((freshReplica fun _ => .epoch).applyLines (fun _ => .epoch)
        (r.server.sent 7)).db.store.lookup = r.server.db.store.lookup := by
  refine ⟨_, _, rfl, by decide +kernel, ?_⟩
  exact sync_handshake rfl (wordEntries_empty 0) rfl rfl _ _
    (writeDuringDump (.ofText "SET j 2")) _ _ (by decide +kernel) rfl rfl rfl

/-- A new value of a dumped key that is propagated before the dump is sent is lost. -/
theorem sync_handshake_overwritten :
    ¬ ∀ (clock clock' : Nat → Now) (fd : Nat) (acts : List SyncAction) (r : SyncRun)
      (outs : List Unit), (syncMachine fd).Along DumpFits ⟨freshServer, none, .idle⟩ acts →
      (syncMachine fd).run ⟨freshServer, none, .idle⟩ acts = some (r, outs) →
      r.pending = none → r.phase = .sent →
      ((freshReplica clock).applyLines clock' (r.server.sent fd)).db.store.lookup =
        r.server.db.store.lookup := by
  intro h
  have hrun : ((syncMachine 7).run ⟨freshServer, none, .idle⟩
      (writeDuringDump (.ofText "SET k 2"))).map (fun x =>
        (x.1.pending.isNone, x.1.phase.isSent, x.1.server.streamMap 7 (ascii "k"),
          x.1.server.db.store.lookup (ascii "k"))) =
      some (true, true, some (ascii "1"), some (ascii "2")) := by decide +kernel
  obtain ⟨⟨r, outs⟩, hr, hfacts⟩ := Option.map_eq_some_iff.mp hrun
  simp only [Prod.mk.injEq, Option.isNone_iff_eq_none, SyncPhase.isSent_iff] at hfacts
  obtain ⟨hpending, hsent, hstream, hlive⟩ := hfacts
  have hlost := congrFun (h (fun _ => .epoch) (fun _ => .epoch) 7 _ r outs
    (by decide +kernel) hr hpending hsent) (ascii "k")
  rw [Server.applyLines_lookup rfl, hlive] at hlost
  have hone : some (ascii "1") = some (ascii "2") := hstream.symm.trans hlost
  revert hone
  decide

end TinyKV

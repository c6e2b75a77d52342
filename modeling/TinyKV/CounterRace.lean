import TinyKV.SweepRace
import TinyKV.Counter

/-!
# Counters under many clients

`KVStore::incrementBy` reads, adds and writes under one lock, so an `INCR` or `DECR` is a single
call. Any number of clients count one key, with every interleaving of their calls, of the commands
on other keys and of the sweeper.

* `CountersOnly`: every write of the key that is under way is an `INCR` or `DECR`; `counters_step`:
  a step keeps this, and the key changes by `Cell.bump` at a call of one of them and not otherwise.
* `deltas`: what the calls of a run add to the key, in order. `cell_deltas`: while the running total
  is a 64-bit integer, the key holds it.
* `Race.waiting`: the counter commands that have not made their call; `perm_waiting`: with the calls
  that were made, these are the commands that were issued.
* `counters_lose_no_update`: every reply is the total after its call, and at the end the key holds
  what it held plus the number of `INCR` commands less that of `DECR` commands.
-/

namespace TinyKV

open Cpp
open KVStore (counter)

/-! ## The counter commands of a key -/

section

variable (key : Bytes)

/-- By how much the command counts `key`. -/
def Command.counts (cmd : Command) : Option Int :=
  if cmd.args = [key] then counterDelta cmd.type else none

/-- The client that issues a command which counts `key`, and by how much. -/
def RaceAction.counts : RaceAction → Option (Nat × Int)
  | .issue c _ cmd => (cmd.counts key).map (c, ·)
  | _ => none

/-- If the action issues a write of `key`, then `INCR` or `DECR`. -/
def RaceAction.OnlyCounts : RaceAction → Prop
  | .issue _ _ cmd => cmd.writes key = true → (counterDelta cmd.type).isSome = true
  | _ => True

instance : ∀ a, Decidable (RaceAction.OnlyCounts key a)
  | .issue _ _ cmd => inferInstanceAs (Decidable (cmd.writes key = true → _))
  | .call _ | .reply _ | .pop _ _ | .expire => inferInstanceAs (Decidable True)

/-- By how much the command of the client `c` counts `key`, if its call is still to come. -/
def Race.waiting (s : Race) (c : Nat) : Option Int :=
  (s.clients c).bind fun r => if r.calls = 0 then r.cmd.counts key else none

/-- The client whose call counts `key`, and by how much. -/
def Race.delta (s : Race) : RaceAction → Option (Nat × Int)
  | .call c => (s.waiting key c).map (c, ·)
  | _ => none

/-- The calls of a run that count `key`, in order. -/
def deltas (w : Wiring) : Race → List RaceAction → List (Nat × Int) :=
  (raceMachine w).collect (Race.delta key)

/-- What they add up to. -/
def total (ds : List (Nat × Int)) : Int := (ds.map Prod.snd).sum

/-- Where a write of `key` is: before its call, or at its reply. -/
def CounterStage (r : Running) : Prop :=
  (∃ δ, r.cmd.counts key = some δ ∧ r.calls = 0 ∧ r.rest = incrementSteps key δ) ∨
    ∃ x, r.rest = .done x ∧ (r.calls = 0 → r.cmd.counts key = none)

/-- Every write of `key` under way is an `INCR` or `DECR`, and the sweeper is not about to delete
`key`. -/
structure CountersOnly (s : Race) : Prop where
  framed : Framed s
  stage : ∀ c r, s.clients c = some r → r.cmd.writes key = true → CounterStage key r
  quiet : s.expiring ≠ some key

end

section

variable {w : Wiring} {key : Bytes} {cmd : Command} {δ : Int}

theorem writes_of_counts (h : cmd.counts key = some δ) : cmd.writes key = true := by
  obtain ⟨type, name, args⟩ := cmd
  unfold Command.counts at h
  split at h
  · rename_i hargs
    obtain rfl : args = [key] := hargs
    cases type with
    | INCR | DECR => simp [Command.writes, isWriteCommand]
    | SET | GET | DEL | PING | TTL | EXPIRE | PERSIST | SAVE | REPLICAOF | SYNC | ROUTE | NODES
    | UNKNOWN => cases h
  · cases h

theorem counts_eq_one_or (h : cmd.counts key = some δ) : δ = 1 ∨ δ = -1 := by
  unfold Command.counts at h
  split at h
  · unfold counterDelta at h
    split at h
    · exact .inl (Option.some.inj h).symm
    · exact .inr (Option.some.inj h).symm
    · cases h
  · cases h

theorem executeSteps_of_counts (w : Wiring) (now : Now) (h : cmd.counts key = some δ) :
    executeSteps w now cmd = incrementSteps key δ := by
  obtain ⟨type, name, args⟩ := cmd
  unfold Command.counts at h
  split at h
  · rename_i hargs
    obtain rfl : args = [key] := hargs
    cases type with
    | INCR | DECR =>
      cases h
      rfl
    | SET | GET | DEL | PING | TTL | EXPIRE | PERSIST | SAVE | REPLICAOF | SYNC | ROUTE | NODES
    | UNKNOWN => cases h
  · cases h

/-- A counter command is before its call, or the number of its arguments is wrong. -/
theorem counterStage_issue (w : Wiring) (now : Now) (hw : cmd.writes key = true)
    (hc : (counterDelta cmd.type).isSome = true) :
    CounterStage key ⟨cmd, 0, executeSteps w now cmd⟩ := by
  cases h : cmd.counts key with
  | some δ => exact .inl ⟨δ, h, rfl, executeSteps_of_counts w now h⟩
  | none =>
    refine .inr ?_
    obtain ⟨type, name, args⟩ := cmd
    cases type with
    | INCR | DECR =>
      obtain _ | ⟨x, _ | ⟨_, _⟩⟩ := args
      · exact ⟨_, rfl, fun _ => h⟩
      · obtain rfl : x = key := by simpa [Command.writes, isWriteCommand] using hw
        simp [Command.counts, counterDelta] at h
      · exact ⟨_, rfl, fun _ => h⟩
    | SET | GET | DEL | PING | TTL | EXPIRE | PERSIST | SAVE | REPLICAOF | SYNC | ROUTE | NODES
    | UNKNOWN => cases hc

end

/-! ## One step -/

section

variable {w : Wiring} {key : Bytes} {s s' : Race} {a : RaceAction} {o : Option (Nat × Bytes)}
  {c : Nat} {cmd : Command} {n : Nat} {act : Db → Db} {next : Db → CommandProg} {δ : Int}

/-- A client that can make a call of a write of `key` is before the call that counts. -/
theorem CountersOnly.of_call (h : CountersOnly key s)
    (hc : s.clients c = some ⟨cmd, n, .step act next⟩) (hw : cmd.writes key = true) :
    ∃ δ, cmd.counts key = some δ ∧ n = 0 ∧ Prog.step act next = incrementSteps key δ := by
  rcases h.stage c _ hc hw with h | ⟨x, hx, -⟩
  · exact h
  · cases hx

theorem CountersOnly.of_waiting (h : CountersOnly key s) (hδ : s.waiting key c = some δ) :
    ∃ cmd, cmd.counts key = some δ ∧ s.clients c = some ⟨cmd, 0, incrementSteps key δ⟩ := by
  obtain ⟨⟨cmd, n, rest⟩, hr, hif⟩ := Option.bind_eq_some_iff.mp hδ
  split at hif
  · rename_i hn
    obtain rfl : n = 0 := hn
    refine ⟨cmd, hif, hr.trans ?_⟩
    rcases h.stage c _ hr (writes_of_counts hif) with ⟨δ', hδ', -, hrest⟩ | ⟨x, -, hx⟩
    · rw [hif] at hδ'
      cases hδ'
      rw [show rest = _ from hrest]
    · rw [hx rfl] at hif
      cases hif
  · cases hif

/-- A client that makes a call counts, or does not write `key`. -/
theorem CountersOnly.waiting_call (h : CountersOnly key s)
    (hc : s.clients c = some ⟨cmd, n, .step act next⟩) :
    s.waiting key c = cmd.counts key := by
  simp only [Race.waiting, hc, Option.bind_some]
  split
  · rfl
  · rename_i hn
    cases hcounts : cmd.counts key with
    | none => rfl
    | some δ =>
      obtain ⟨-, -, h0, -⟩ := h.of_call hc (writes_of_counts hcounts)
      exact absurd h0 hn

/-- The call that counts. -/
theorem act_incrementSteps {db : Db} (hdb : Unbounded db)
    (hp : Prog.step act next = incrementSteps key δ) :
    (act db).cell key = ((db.cell key).bump δ).1 ∧ next db = answer ((db.cell key).bump δ).2 := by
  cases hp
  refine ⟨(congrFun (worksOn_incrementBy key δ db hdb).2 key).trans
    (Function.update_self _ _ _), ?_⟩
  simp only [db.store.incrementBy_eq, Cell.bump]
  rw [show (db.cell key).value = db.store.lookup key from rfl]
  cases counter (db.store.lookup key) <;> rfl

/-- One client has changed. -/
theorem CountersOnly.update (h : CountersOnly key s) {db : Db} {r : Option Running}
    (hframed : Framed ⟨db, Function.update s.clients c r, s.expiring⟩)
    (hr : ∀ r', r = some r' → r'.cmd.writes key = true → CounterStage key r') :
    CountersOnly key ⟨db, Function.update s.clients c r, s.expiring⟩ where
  framed := hframed
  stage c' r' hc' := by
    simp only [Function.update_apply] at hc'
    split at hc'
    · exact hr r' hc'
    · exact h.stage c' r' hc'
  quiet := h.quiet

/-- What a step does to a key that is counted and has no TTL. -/
theorem counters_step (h : CountersOnly key s) (ha : a.OnlyCounts key)
    (hd : (s.db.cell key).deadline = none) (hs : (raceMachine w).step s a = some (s', o)) :
    CountersOnly key s' ∧ s'.db.cell key =
      match s.delta key a with
      | none => s.db.cell key
      | some (_, δ) => ((s.db.cell key).bump δ).1 := by
  have hframed := framed_step h.framed hs
  have hstep := race_step hs
  cases a with
  | issue c now cmd =>
    obtain ⟨-, -, rfl⟩ := hstep
    refine ⟨h.update hframed ?_, rfl⟩
    rintro _ ⟨⟩ hw
    exact counterStage_issue w now hw (ha hw)
  | call c =>
    obtain ⟨cmd, n, act, next, hc, -, rfl⟩ := hstep
    rw [Race.delta, h.waiting_call hc]
    by_cases hw : cmd.writes key = true
    · obtain ⟨δ, hδ, rfl, hp⟩ := h.of_call hc hw
      obtain ⟨hcell, hr⟩ := act_incrementSteps h.framed.unbounded hp
      rw [hδ]
      refine ⟨h.update hframed ?_, hcell⟩
      rintro _ ⟨⟩ -
      exact .inr ⟨_, hr, fun h0 => by cases h0⟩
    · have hcounts : cmd.counts key = none := by
        cases hδ : cmd.counts key with
        | none => rfl
        | some δ => exact absurd (writes_of_counts hδ) hw
      rw [hcounts]
      refine ⟨h.update hframed ?_, ?_⟩
      · rintro _ ⟨⟩ hw'
        exact absurd hw' hw
      · exact (h.framed.keeps c _ key hc (by simpa using hw) s.db h.framed.unbounded).2.1
  | reply c =>
    obtain ⟨cmd, n, r, call, -, -, rfl⟩ := hstep
    exact ⟨h.update hframed (by rintro _ ⟨⟩), rfl⟩
  | pop now e =>
    obtain ⟨-, -, -, -, rfl⟩ := hstep
    obtain ⟨hkey, hexp⟩ := s.db.expiry.popTop_spec e
    have hno : s.db.expiry.expiryOf key = none := hd
    refine ⟨⟨hframed, h.stage, fun hpop => ?_⟩, Cell.ext rfl ?_⟩
    · rw [show (s.db.expiry.popTop e).2 = some key from hpop] at hkey
      split at hkey
      · rename_i hlive
        cases hkey
        rw [hno] at hlive
        cases hlive
      · cases hkey
    · refine (hexp key).trans (if_neg ?_)
      rintro ⟨hlive, rfl⟩
      rw [hno] at hlive
      cases hlive
  | expire =>
    obtain ⟨x, hx, -, rfl⟩ := hstep
    have hne : key ≠ x := by
      rintro rfl
      exact h.quiet hx
    refine ⟨⟨hframed, h.stage, by simp⟩, ?_⟩
    exact (congrFun (worksOn_del x s.db h.framed.unbounded).2 key).trans
      (Function.update_of_ne hne _ _)

end

/-! ## The total -/

/-- Every running total is a 64-bit integer. -/
def InRange (n : Int) (ds : List (Nat × Int)) : Prop := ∀ pre, pre <+: ds → IsInt64 (n + total pre)

instance (n : Int) (ds : List (Nat × Int)) : Decidable (InRange n ds) :=
  decidable_of_iff (∀ pre ∈ ds.inits, IsInt64 (n + total pre))
    (forall_congr' fun pre => by rw [List.mem_inits])

/-- The value of a key that was `v`, the number `n`, before the calls `ds`. -/
def held (v : Option Bytes) (n : Int) (ds : List (Nat × Int)) : Option Bytes :=
  if ds = [] then v else some (to_string (n + total ds))

theorem total_append (ds es : List (Nat × Int)) : total (ds ++ es) = total ds + total es := by
  simp only [total, List.map_append, List.sum_append]

theorem total_perm {ds es : List (Nat × Int)} (h : ds.Perm es) : total ds = total es :=
  (h.map Prod.snd).sum_eq

theorem InRange.mono {n : Int} {ds es : List (Nat × Int)} (h : InRange n es) (hp : ds <+: es) :
    InRange n ds := fun pre hpre => h pre (hpre.trans hp)

section

variable {v : Option Bytes} {n δ : Int} {ds : List (Nat × Int)} {c : Nat}

theorem counter_held (hv : counter v = some n) (h : InRange n ds) :
    counter (held v n ds) = some (n + total ds) := by
  unfold held
  split
  · rename_i hds
    rw [hv, hds]
    exact congrArg some (add_zero n).symm
  · exact stoll_to_string (h ds List.prefix_rfl)

/-- A call on the value gives the next total. -/
theorem bump_held (hv : counter v = some n) (h : InRange n (ds ++ [(c, δ)])) {x : Cell}
    (hx : x.value = held v n ds) :
    x.bump δ = ({ x with value := held v n (ds ++ [(c, δ)]) },
      Reply.integer (n + total (ds ++ [(c, δ)]))) := by
  have hsum : n + total ds + δ = n + total (ds ++ [(c, δ)]) := by
    rw [total_append, add_assoc]
    simp [total]
  have hrange : IsInt64 (n + total (ds ++ [(c, δ)])) := h _ List.prefix_rfl
  have hnew : held v n (ds ++ [(c, δ)]) = some (to_string (n + total (ds ++ [(c, δ)]))) :=
    if_neg (by simp)
  simp only [Cell.bump, hx, counter_held hv (h.mono (List.prefix_append _ _)), hsum, hnew,
    wrap64_of_isInt64 hrange]

end

/-- The deadline stays. -/
@[simp] theorem deadline_bump (x : Cell) (δ : Int) : (x.bump δ).1.deadline = x.deadline := by
  unfold Cell.bump
  split <;> rfl

section

variable {w : Wiring} {key : Bytes} {s t : Race} {acts : List RaceAction}
  {outs : List (Option (Nat × Bytes))}

theorem deltas_concat {a : RaceAction} {t' : Race} {o : Option (Nat × Bytes)}
    (hrun : (raceMachine w).run s acts = some (t, outs))
    (hs : (raceMachine w).step t a = some (t', o)) :
    deltas key w s (acts ++ [a]) = deltas key w s acts ++ (t.delta key a).toList :=
  Machine.collect_concat hrun hs

theorem deltas_mono {pre : List RaceAction} {u : Race} {outs' : List (Option (Nat × Bytes))}
    (hrun : (raceMachine w).run s pre = some (u, outs')) (hp : pre <+: acts) :
    deltas key w s pre <+: deltas key w s acts := by
  obtain ⟨post, rfl⟩ := hp
  exact ⟨_, (Machine.collect_append hrun post).symm⟩

end

/-! ## Issued commands and calls -/

section

variable {w : Wiring} {key : Bytes} {s s' t : Race} {a : RaceAction} {o : Option (Nat × Bytes)}
  {acts : List RaceAction} {outs : List (Option (Nat × Bytes))}

/-- What a step does to the commands whose call is still to come. -/
theorem waiting_step (h : CountersOnly key s) (hs : (raceMachine w).step s a = some (s', o)) :
    match a with
    | .issue c _ cmd =>
      s.waiting key c = none ∧ s'.waiting key = Function.update (s.waiting key) c (cmd.counts key)
    | .call c => s'.waiting key = Function.update (s.waiting key) c none
    | _ => s'.waiting key = s.waiting key := by
  have hupdate : ∀ (db : Db) (c : Nat) (r : Option Running),
      Race.waiting key ⟨db, Function.update s.clients c r, s.expiring⟩ =
        Function.update (s.waiting key) c
          (r.bind fun r => if r.calls = 0 then r.cmd.counts key else none) := by
    intro db c r
    funext c'
    simp only [Race.waiting, Function.update_apply]
    split <;> rfl
  have hstep := race_step hs
  cases a with
  | issue c now cmd =>
    obtain ⟨hc, -, rfl⟩ := hstep
    exact ⟨by rw [Race.waiting, hc, Option.bind_none], hupdate _ _ _⟩
  | call c =>
    obtain ⟨cmd, n, act, next, -, -, rfl⟩ := hstep
    exact hupdate _ _ _
  | reply c =>
    obtain ⟨cmd, n, r, call, hc, -, rfl⟩ := hstep
    have hnone : s.waiting key c = none := by
      by_contra hne
      obtain ⟨δ, hδ⟩ := Option.ne_none_iff_exists'.mp hne
      obtain ⟨cmd', -, hc'⟩ := h.of_waiting hδ
      rw [hc] at hc'
      cases hc'
    refine (hupdate _ _ _).trans ?_
    rw [Option.bind_none, ← hnone, Function.update_eq_self]
  | pop now e =>
    obtain ⟨-, -, -, -, rfl⟩ := hstep
    rfl
  | expire =>
    obtain ⟨x, -, -, rfl⟩ := hstep
    rfl

/-- The counter commands of a list, with their clients. -/
def issued (key : Bytes) (acts : List RaceAction) : List (Nat × Int) :=
  acts.filterMap (RaceAction.counts key)

/-- What a run from `s₀` keeps of a key that is counted, what the key holds, and where the commands
are that were issued. -/
structure Counted (w : Wiring) (key : Bytes) (v : Option Bytes) (n : Int) (s₀ : Race)
    (acts : List RaceAction) (s : Race) : Prop where
  only : CountersOnly key s
  noTtl : (s.db.cell key).deadline = none
  value : InRange n (deltas key w s₀ acts) → (s.db.cell key).value = held v n (deltas key w s₀ acts)
  issued : ∀ x : Nat × Int, (issued key acts).count x =
    (deltas key w s₀ acts).count x + if s.waiting key x.1 = some x.2 then 1 else 0

/-- The commands and their calls, one step later. -/
theorem count_step (h : CountersOnly key s) (hs : (raceMachine w).step s a = some (s', o))
    (x : Nat × Int) :
    (a.counts key).toList.count x + (if s.waiting key x.1 = some x.2 then 1 else 0) =
      (s.delta key a).toList.count x + if s'.waiting key x.1 = some x.2 then 1 else 0 := by
  obtain ⟨c', δ⟩ := x
  have hwaiting := waiting_step h hs
  cases a with
  | issue c now cmd =>
    obtain ⟨hnone, hwaiting⟩ := hwaiting
    simp only [RaceAction.counts, Race.delta, hwaiting, Function.update_apply]
    by_cases hc : c' = c
    · subst hc
      cases cmd.counts key <;> simp [hnone, List.count_singleton]
    · cases cmd.counts key <;> simp [hc, Ne.symm hc]
  | call c =>
    simp only [RaceAction.counts, Race.delta, hwaiting, Function.update_apply]
    by_cases hc : c' = c
    · subst hc
      cases s.waiting key c' <;> simp [List.count_singleton]
    · cases s.waiting key c <;> simp [hc, Ne.symm hc]
  | reply c | pop now e | expire =>
    rw [show s'.waiting key = s.waiting key from hwaiting]
    rfl

/-- **Run.** While the running total is a 64-bit integer, the key holds it, and every command that
was issued has made its call, or waits for it. -/
theorem counted_run {s₀ : Race} {v : Option Bytes} {n : Int} (hv : counter v = some n)
    (h : Counted w key v n s₀ [] s₀) (hacts : ∀ a ∈ acts, a.OnlyCounts key)
    (hrun : (raceMachine w).run s₀ acts = some (t, outs)) : Counted w key v n s₀ acts t := by
  refine Machine.run_history (C := fun _ a => a.OnlyCounts key)
    (I := fun t acts _ => Counted w key v n s₀ acts t) ?_ (Machine.along_of_forall hacts s₀) hrun h
  intro t acts outs a t' o hrun ht ha hs
  obtain ⟨honly, hcell⟩ := counters_step ht.only ha ht.noTtl hs
  have hcount : ∀ x : Nat × Int, (issued key (acts ++ [a])).count x =
      (deltas key w s₀ acts ++ (t.delta key a).toList).count x +
        if t'.waiting key x.1 = some x.2 then 1 else 0 := fun x => by
    have hstep := count_step ht.only hs x
    have hbefore := ht.issued x
    have hone : issued key [a] = (a.counts key).toList := by
      cases hc : a.counts key <;> simp [issued, hc]
    rw [show issued key (acts ++ [a]) = issued key acts ++ issued key [a] from
      List.filterMap_append, hone, List.count_append, List.count_append]
    omega
  cases hδ : t.delta key a with
  | none =>
    rw [hδ] at hcell hcount
    have hdeltas : deltas key w s₀ (acts ++ [a]) = deltas key w s₀ acts := by
      rw [deltas_concat hrun hs, hδ, Option.toList_none, List.append_nil]
    rw [Option.toList_none, List.append_nil] at hcount
    refine ⟨honly, by rw [hcell]; exact ht.noTtl, ?_, ?_⟩
    · rw [hdeltas, hcell]
      exact ht.value
    · rw [hdeltas]
      exact hcount
  | some x =>
    rw [hδ] at hcell hcount
    have hdeltas : deltas key w s₀ (acts ++ [a]) = deltas key w s₀ acts ++ [x] := by
      rw [deltas_concat hrun hs, hδ, Option.toList_some]
    refine ⟨honly, by rw [hcell, deadline_bump]; exact ht.noTtl, ?_, ?_⟩
    · rw [hdeltas]
      intro hr
      have hbump := bump_held hv hr (ht.value (hr.mono (List.prefix_append _ _)))
      exact (congrArg Cell.value hcell).trans (congrArg (fun y => y.1.value) hbump)
    · rw [hdeltas]
      exact hcount

end

/-! ## Replies -/

section

variable {w : Wiring} {key : Bytes} {s s' t : Race} {a : RaceAction} {o : Option (Nat × Bytes)}
  {acts : List RaceAction} {outs : List (Option (Nat × Bytes))} {c : Nat} {r : Running}

/-- The steps of the others leave the command of a client alone. -/
theorem client_step (hc : s.clients c = some r) (hcall : a ≠ .call c) (hreply : a ≠ .reply c)
    (hs : (raceMachine w).step s a = some (s', o)) : s'.clients c = some r := by
  have hstep := race_step hs
  cases a with
  | issue c' now cmd =>
    obtain ⟨hidle, -, rfl⟩ := hstep
    refine (Function.update_of_ne ?_ _ _).trans hc
    rintro rfl
    rw [hc] at hidle
    cases hidle
  | call c' =>
    obtain ⟨cmd, n, act, next, -, -, rfl⟩ := hstep
    exact (Function.update_of_ne (fun h => hcall (by rw [h])) _ _).trans hc
  | reply c' =>
    obtain ⟨cmd, n, x, call, -, -, rfl⟩ := hstep
    exact (Function.update_of_ne (fun h => hreply (by rw [h])) _ _).trans hc
  | pop now e =>
    obtain ⟨-, -, -, -, rfl⟩ := hstep
    exact hc
  | expire =>
    obtain ⟨x, -, -, rfl⟩ := hstep
    exact hc

theorem client_run (hc : s.clients c = some r) (hcall : RaceAction.call c ∉ acts)
    (hreply : RaceAction.reply c ∉ acts)
    (hrun : (raceMachine w).run s acts = some (t, outs)) : t.clients c = some r := by
  refine Machine.run_invariant (C := fun _ a => a ≠ .call c ∧ a ≠ .reply c)
    (I := fun s => s.clients c = some r) (fun s a s' o hs hne hstep => ?_)
    (Machine.along_of_forall (fun a ha => ⟨?_, ?_⟩) s) hrun hc
  · exact client_step hs hne.1 hne.2 hstep
  · exact fun h => hcall (h ▸ ha)
  · exact fun h => hreply (h ▸ ha)

/-- A client that gets its reply has made its calls. -/
theorem call_before_reply {t' : Race} {cmd : Command} {n : Nat} {act : Db → Db}
    {next : Db → CommandProg} (hc : s.clients c = some ⟨cmd, n, .step act next⟩)
    (hreply : RaceAction.reply c ∉ acts) (hrun : (raceMachine w).run s acts = some (t, outs))
    (hs : (raceMachine w).step t (.reply c) = some (t', o)) :
    ∃ first rest, acts = first ++ .call c :: rest ∧ RaceAction.call c ∉ first := by
  refine List.eq_append_cons_of_mem ?_
  by_contra hcall
  obtain ⟨cmd', n', r, call, hc', -⟩ := race_step hs
  rw [client_run hc hcall hreply hrun] at hc'
  cases hc'

/-- A client without calls left makes none. -/
theorem no_call_of_done {cmd : Command} {n : Nat} {x : Bytes × Option Call}
    (hc : s.clients c = some ⟨cmd, n, .done x⟩) (hreply : RaceAction.reply c ∉ acts)
    (hrun : (raceMachine w).run s acts = some (t, outs)) : RaceAction.call c ∉ acts := by
  intro hmem
  obtain ⟨as, bs, rfl, hfirst⟩ := List.eq_append_cons_of_mem hmem
  obtain ⟨u, os₁, u', o, os₂, hrun', hstep, -⟩ := Machine.run_at hrun
  obtain ⟨cmd', n', act, next, hc', -⟩ := race_step hstep
  rw [client_run hc hfirst (fun h => hreply (List.mem_append_left _ h)) hrun'] at hc'
  cases hc'

/-- The call of a counter command fixes its reply: the total after the call. -/
theorem reply_of_call {s₀ : Race} {v : Option Bytes} {n : Int} (hv : counter v = some n)
    (h : Counted w key v n s₀ acts s) (hrun : (raceMachine w).run s₀ acts = some (s, outs))
    {cmd : Command} {δ : Int} (hδ : cmd.counts key = some δ)
    (hc : s.clients c = some ⟨cmd, 0, incrementSteps key δ⟩)
    (hs : (raceMachine w).step s (.call c) = some (s', o))
    (hrange : InRange n (deltas key w s₀ (acts ++ [.call c]))) :
    s'.clients c = some ⟨cmd, 1,
      answer (Reply.integer (n + total (deltas key w s₀ (acts ++ [.call c]))))⟩ := by
  have hdelta : s.delta key (.call c) = some (c, δ) := by
    simp only [Race.delta, Race.waiting, hc, Option.bind_some, if_true, hδ, Option.map_some]
  rw [deltas_concat hrun hs, hdelta, Option.toList_some] at hrange ⊢
  obtain ⟨cmd', m, act, next, hc', -, rfl⟩ := race_step hs
  rw [hc] at hc'
  obtain ⟨rfl, rfl, hp⟩ : cmd = cmd' ∧ 0 = m ∧ incrementSteps key δ = .step act next := by
    simpa using hc'
  have hvalue := h.value (hrange.mono (List.prefix_append _ _))
  have hnext := (act_incrementSteps h.only.framed.unbounded hp.symm).2
  rw [bump_held hv hrange hvalue] at hnext
  rw [← hnext]
  exact Function.update_self _ _ _

/-- The reply of a counter command is the total after its call. -/
theorem reply_eq_total {s₀ : Race} {v : Option Bytes} {n : Int} (hv : counter v = some n)
    (h : Counted w key v n s₀ [] s₀) (hacts : ∀ a ∈ acts, a.OnlyCounts key)
    (hrun : (raceMachine w).run s₀ acts = some (t, outs))
    (hrange : InRange n (deltas key w s₀ acts)) {pre mid post : List RaceAction} {now : Now}
    {cmd : Command} {δ : Int} (hsplit : acts = pre ++ .issue c now cmd :: (mid ++ .reply c :: post))
    (hδ : cmd.counts key = some δ) (hmid : RaceAction.reply c ∉ mid) :
    ∃ mid₁ mid₂, mid = mid₁ ++ .call c :: mid₂ ∧ RaceAction.call c ∉ mid₁ ++ mid₂ ∧
      outs[(pre ++ .issue c now cmd :: mid).length]? = some (some (c, Reply.integer
        (n + total (deltas key w s₀ (pre ++ .issue c now cmd :: (mid₁ ++ [.call c])))))) := by
  obtain ⟨u₃, os₃, u₄, o, os₄, hbefore, hreply, hout, -⟩ :=
    Machine.run_at (show (raceMachine w).run s₀ ((pre ++ .issue c now cmd :: mid) ++
      .reply c :: post) = some (t, outs) by
        rw [List.append_assoc, List.cons_append, ← hsplit]
        exact hrun)
  obtain ⟨u₀, os₀, osMid, hpre, hfrom, -⟩ := Machine.run_append.mp hbefore
  obtain ⟨u, o₀, os, hissue, hmidrun, -⟩ := Machine.run_cons.mp hfrom
  have hwaits : u.clients c = some ⟨cmd, 0, incrementSteps key δ⟩ := by
    obtain ⟨-, -, rfl⟩ := race_step hissue
    rw [← executeSteps_of_counts w now hδ]
    exact Function.update_self _ _ _
  -- The client waits for its call, so it makes one before its reply.
  obtain ⟨mid₁, mid₂, rfl, hfirst⟩ := call_before_reply hwaits hmid hmidrun hreply
  obtain ⟨hmid₁, hmid₂⟩ : RaceAction.reply c ∉ mid₁ ∧ RaceAction.reply c ∉ mid₂ := by
    simpa using hmid
  obtain ⟨u₁, os₁, osRest, hrun₁, hrest, -⟩ := Machine.run_append.mp hmidrun
  obtain ⟨u₂, o₂, os₂, hcall, hrun₂, -⟩ := Machine.run_cons.mp hrest
  have hbeforeCall : (raceMachine w).run s₀ (pre ++ .issue c now cmd :: mid₁) =
      some (u₁, os₀ ++ (o₀ :: os₁)) :=
    Machine.run_append.mpr ⟨u₀, os₀, _, hpre,
      Machine.run_cons.mpr ⟨u, o₀, os₁, hissue, hrun₁, rfl⟩, rfl⟩
  have hafterCall : (raceMachine w).run s₀ ((pre ++ .issue c now cmd :: mid₁) ++ [.call c]) =
      some (u₂, (os₀ ++ (o₀ :: os₁)) ++ [o₂]) :=
    Machine.run_append.mpr ⟨u₁, _, [o₂], hbeforeCall,
      Machine.run_cons.mpr ⟨u₂, o₂, [], hcall, rfl, rfl⟩, rfl⟩
  have hacts₁ : ∀ a ∈ pre ++ .issue c now cmd :: mid₁, a.OnlyCounts key := fun a ha =>
    hacts a (by rw [hsplit]; simp only [List.mem_append, List.mem_cons] at ha ⊢; tauto)
  have hdone := reply_of_call hv (counted_run hv h hacts₁ hbeforeCall) hbeforeCall hδ
    (client_run hwaits hfirst hmid₁ hrun₁) hcall
    (hrange.mono (deltas_mono hafterCall ⟨mid₂ ++ .reply c :: post, by rw [hsplit]; simp⟩))
  have hnone := no_call_of_done hdone hmid₂ hrun₂
  refine ⟨mid₁, mid₂, rfl, by simp [hfirst, hnone], ?_⟩
  obtain ⟨cmd', m, r, call, hc₃, rfl, -⟩ := race_step hreply
  rw [client_run hdone hnone hmid₂ hrun₂] at hc₃
  cases hc₃
  rw [hout, List.append_assoc, List.cons_append]

/-- How many of the actions issue an `INCR` of `key`. -/
def incrs (key : Bytes) (acts : List RaceAction) : Nat :=
  acts.countP fun a => (a.counts key).any fun x => x.2 == 1

/-- How many of the actions issue a `DECR` of `key`. -/
def decrs (key : Bytes) (acts : List RaceAction) : Nat :=
  acts.countP fun a => (a.counts key).any fun x => x.2 == -1

theorem total_issued (key : Bytes) (acts : List RaceAction) :
    total (issued key acts) = incrs key acts - decrs key acts := by
  induction acts with
  | nil => rfl
  | cons a acts ih =>
    have hcons : issued key (a :: acts) = (a.counts key).toList ++ issued key acts := by
      cases hc : a.counts key <;> simp [issued, hc]
    rw [hcons, total_append, ih]
    simp only [incrs, decrs, List.countP_cons]
    cases hc : a.counts key with
    | none => simp [total]
    | some x =>
      obtain ⟨c, δ⟩ := x
      have hδ : δ = 1 ∨ δ = -1 := by
        cases a with
        | issue c' now cmd =>
          obtain ⟨δ', hδ', heq⟩ := Option.map_eq_some_iff.mp hc
          cases heq
          exact counts_eq_one_or hδ'
        | call | reply | pop | expire => cases hc
      rcases hδ with rfl | rfl
      · simp [total]
        omega
      · simp [total]
        omega

end

/-- `key` has no TTL; it holds the decimal text of `n`, or is not there and `n` is 0. -/
def HoldsNumber (key : Bytes) (n : Int) (db : Db) : Prop :=
  db.cell key = ⟨none, none⟩ ∧ n = 0 ∨ db.cell key = ⟨some (to_string n), none⟩

/-- No command has been issued yet. -/
theorem counted_idle {w : Wiring} {key : Bytes} {n : Int} {s : Race} (hunbounded : Unbounded s.db)
    (hidle : ∀ c, s.clients c = none) (hquiet : s.expiring ≠ some key)
    (hkey : HoldsNumber key n s.db) : Counted w key (s.db.store.lookup key) n s [] s where
  only :=
    { framed := ⟨hunbounded, fun c r x hr => by rw [hidle c] at hr; cases hr⟩
      stage := fun c r hr => by rw [hidle c] at hr; cases hr
      quiet := hquiet }
  noTtl := by rcases hkey with ⟨h, -⟩ | h <;> rw [h]
  value _ := rfl
  issued x := by simp [issued, deltas, Machine.collect, Race.waiting, hidle]

/-- **Counters lose no update.** Idle clients of an unbounded store start any commands, of which
only `INCR` and `DECR` write `key`, and no running total of these leaves the 64-bit range. Then the
reply of each is the total after its call; and once all of them have made their calls, `key` holds
the number from before plus the number of `INCR` less that of `DECR` commands. -/
theorem counters_lose_no_update (w : Wiring) (key : Bytes) (n : Int) (s t : Race)
    (acts : List RaceAction) (outs : List (Option (Nat × Bytes))) (hunbounded : Unbounded s.db)
    (hidle : ∀ c, s.clients c = none) (hquiet : s.expiring ≠ some key)
    (hkey : HoldsNumber key n s.db) (hacts : ∀ a ∈ acts, a.OnlyCounts key)
    (hrun : (raceMachine w).run s acts = some (t, outs))
    (hrange : InRange n (deltas key w s acts)) :
    (∀ pre c now cmd δ mid post,
      acts = pre ++ .issue c now cmd :: (mid ++ .reply c :: post) → cmd.counts key = some δ →
      RaceAction.reply c ∉ mid →
      ∃ mid₁ mid₂, mid = mid₁ ++ .call c :: mid₂ ∧ RaceAction.call c ∉ mid₁ ++ mid₂ ∧
        outs[(pre ++ .issue c now cmd :: mid).length]? = some (some (c, Reply.integer
          (n + total (deltas key w s (pre ++ .issue c now cmd :: (mid₁ ++ [.call c]))))))) ∧
    ((∀ c, t.waiting key c = none) → t.db.store.lookup key =
      if issued key acts = [] then s.db.store.lookup key
      else some (to_string (n + (incrs key acts - decrs key acts)))) := by
  have hn : IsInt64 n := by simpa [total] using hrange [] List.nil_prefix
  have hv : counter (s.db.store.lookup key) = some n := by
    rcases hkey with ⟨h, rfl⟩ | h
    · rw [show s.db.store.lookup key = none from congrArg Cell.value h]
      rfl
    · rw [show s.db.store.lookup key = some (to_string n) from congrArg Cell.value h]
      exact stoll_to_string hn
  have hstart := counted_idle (w := w) hunbounded hidle hquiet hkey
  refine ⟨fun pre c now cmd δ mid post hsplit hδ hmid =>
    reply_eq_total hv hstart hacts hrun hrange hsplit hδ hmid, fun hdone => ?_⟩
  have hend := counted_run hv hstart hacts hrun
  have hperm : (issued key acts).Perm (deltas key w s acts) := by
    refine List.perm_iff_count.mpr fun x => ?_
    rw [hend.issued x, hdone, if_neg (by simp), Nat.add_zero]
  have hvalue := hend.value hrange
  rw [held, ← total_perm hperm, total_issued] at hvalue
  rw [show t.db.store.lookup key = _ from hvalue]
  by_cases hnil : issued key acts = []
  · rw [hnil] at hperm
    rw [if_pos hnil, if_pos (List.nil_perm.mp hperm)]
  · have hmade : deltas key w s acts ≠ [] := fun h => by
      rw [h] at hperm
      exact hnil (List.perm_nil.mp hperm)
    rw [if_neg hnil, if_neg hmade]

/-- Two clients count `n` up and a third one down, next to a `SET` with a TTL. -/
def threeCounters : List RaceAction :=
  [.issue 1 .epoch ⟨.INCR, ascii "INCR", [ascii "n"]⟩,
    .issue 2 .epoch ⟨.INCR, ascii "INCR", [ascii "n"]⟩,
    .issue 4 .epoch ⟨.SET, ascii "SET", [ascii "k", ascii "v", ascii "EX", ascii "10"]⟩,
    .call 2, .call 4, .issue 3 .epoch ⟨.DECR, ascii "DECR", [ascii "n"]⟩, .call 1, .reply 1,
    .call 4, .call 3, .reply 3, .reply 2, .reply 4]

/-- Every command has its reply then. -/
theorem idle_threeCounters {t : Race} {outs : List (Option (Nat × Bytes))}
    (h : (raceMachine ⟨true, true⟩).run .start threeCounters = some (t, outs)) (c : Nat) :
    t.clients c = none := by
  cases h
  by_cases hc : c = 1 ∨ c = 2 ∨ c = 3 ∨ c = 4
  · rcases hc with rfl | rfl | rfl | rfl <;> rfl
  · simp only [not_or] at hc
    simp [Function.update_of_ne hc.1, Function.update_of_ne hc.2.1, Function.update_of_ne hc.2.2.1,
      Function.update_of_ne hc.2.2.2, Race.start]

theorem counters_lose_no_update_threeCounters :
    ∃ t outs, (raceMachine ⟨true, true⟩).run .start threeCounters = some (t, outs) ∧
      outs[7]? = some (some (1, Reply.integer 2)) ∧ outs[10]? = some (some (3, Reply.integer 1)) ∧
      t.db.store.lookup (ascii "n") = some (to_string 1) := by
  have hout : ((raceMachine ⟨true, true⟩).run .start threeCounters).map Prod.snd =
      some [none, none, none, none, none, none, none, some (1, Reply.integer 2), none, none,
        some (3, Reply.integer 1), some (2, Reply.integer 1), some (4, Reply.ok)] := by
    decide +kernel
  obtain ⟨⟨t, outs⟩, hrun, rfl⟩ := Option.map_eq_some_iff.mp hout
  refine ⟨t, _, hrun, rfl, rfl, ?_⟩
  obtain ⟨-, hvalue⟩ := counters_lose_no_update ⟨true, true⟩ (ascii "n") 0 .start t threeCounters _
    rfl (fun _ => rfl) (by simp [Race.start]) (.inl ⟨rfl, rfl⟩) (by decide +kernel) hrun
    (by decide +kernel)
  rw [hvalue fun c => by rw [Race.waiting, idle_threeCounters hrun, Option.bind_none]]
  decide +kernel

end TinyKV

import TinyKV.Cell
import TinyKV.Sharding.Lockstep

/-!
# Shards against one server

Behind the router the keys are split over several servers. Commands on a key work on the cell of
that key (`execute_cell`) and the ring always sends a key to the same shard, so a client cannot
tell the shards from one server that holds all the keys.

* `directMachine`: the same lines, sent to one server.
* `Sharded`: the cells of the one server are split over the servers of the shards.
* `sharding_transparent`: the router relays the replies of the one server.

No deadline is reached: the sweepers of the servers take no steps here.
-/

namespace TinyKV

open Cpp Text

/-! ## One server -/

/-- A primary whose store is unbounded. -/
structure Server.Plain (s : Server) : Prop where
  role : s.role = .PRIMARY
  unbounded : s.db.store.capacity = 0

/-- A plain server without keys. -/
structure Server.Empty (s : Server) : Prop extends s.Plain where
  cell : ∀ key, s.db.cell key = ⟨none, none⟩

/-- A server that starts without files is empty. -/
theorem empty_start (appendOnly : Bool) (clock : Nat → Now) :
    (Server.start appendOnly 0 clock .empty).Empty := by
  cases appendOnly <;> exact ⟨⟨rfl, rfl⟩, fun _ => rfl⟩

/-- The line is a command on a key. -/
def keyLine (line : Bytes) : Bool :=
  match parse line with
  | .error _ => false
  | .ok cmd => IsKeyCommand cmd.type && !cmd.args.isEmpty

theorem keyLine_spec {line : Bytes} (h : keyLine line = true) :
    ∃ cmd key, parse line = .ok cmd ∧ IsKeyCommand cmd.type = true ∧ cmd.args.head? = some key := by
  unfold keyLine at h
  split at h
  · cases h
  · rename_i cmd hp
    rw [Bool.and_eq_true] at h
    obtain ⟨key, hkey⟩ : ∃ key, cmd.args.head? = some key := by
      cases hargs : cmd.args with
      | nil => simp [hargs] at h
      | cons key args => exact ⟨key, rfl⟩
    exact ⟨cmd, key, hp, h.1, hkey⟩

/-- A line with a command on a key, at a plain server. -/
theorem handleLine_key {s : Server} (hs : s.Plain) {line key : Bytes} {cmd : Command}
    (hp : parse line = .ok cmd) (hk : IsKeyCommand cmd.type = true)
    (hkey : cmd.args.head? = some key) (fd : Nat) (now : Now) :
    ∃ s', s.handleLine fd now line = (s', .reply ((s.db.cell key).exec now cmd).2) ∧ s'.Plain ∧
      s'.db.cell = Function.update s.db.cell key ((s.db.cell key).exec now cmd).1 := by
  have hacts : ActsOn key serverWiring s.db now cmd := execute_cell hs.unbounded hk hkey
  have hcall : (execute serverWiring s.db now cmd).call = none :=
    execute_call_eq_none (fun he => by rw [he] at hk; cases hk)
      (fun he => by rw [he] at hk; cases hk)
  rcases s.handleLine_inv fd now line with ⟨hskip, -⟩ | ⟨cmd', hp', -, hs'⟩
  · rcases hskip cmd hp with hsync | ⟨-, hro⟩
    · rw [hsync] at hk
      cases hk
    · rw [hs.role] at hro
      cases hro
  · rw [hp] at hp'
    cases hp'
    rw [s.executeCommand_of_no_call hcall, hacts.reply] at hs'
    refine ⟨_, hs', ⟨?_, ?_⟩, ?_⟩
    · rw [Server.recordAndPropagateIfWrite_role]
      exact hs.role
    · simp [hs.unbounded]
    · rw [Server.recordAndPropagateIfWrite_db]
      exact hacts.cell

/-- The lines of the clients, sent to one server over the connection `fd`. -/
def directMachine (fd : Nat) : Machine Server RouterAction (Option Bytes) where
  step s a :=
    match s.handleLine fd a.now a.line.1 with
    | (s, .skip) => some (s, none)
    | (s, .reply r) => some (s.send fd [r], some r)
    | (_, .stream) => none

/-! ## The simulation -/

/-- What the server at an address holds for a key. -/
def Cluster.cells (c : Cluster) (address key : Bytes) : Option Cell :=
  (c.servers address).map fun s => s.db.cell key

/-- The keys of `s` are split over the servers of the shards. -/
structure Sharded (c : Cluster) (s : Server) : Prop where
  lockstep : Lockstep c
  live : c.Live
  shards : ∀ id ∈ c.topology.shardIds, ∀ t,
    c.servers (c.topology.activeAddressFor id) = some t → t.Plain
  single : s.Plain
  split : Keyed.Split c.addressForKey c.cells fun key => some (s.db.cell key)

theorem lockstepLine_of_keyCommand {line : Bytes} {cmd : Command} (hp : parse line = .ok cmd)
    (hk : IsKeyCommand cmd.type = true) : lockstepLine line = true := by
  have hsync : cmd.type ≠ .SYNC := fun he => by rw [he] at hk; cases hk
  have hunknown : cmd.type ≠ .UNKNOWN := fun he => by rw [he] at hk; cases hk
  simp [lockstepLine, hp, hsync, hunknown]

/-- Commands on keys stop no link. -/
theorem keepsLockstep_of_keyCommand (c : Cluster) {a : RouterAction} {cmd : Command}
    (hp : parse a.line.1 = .ok cmd) (hk : IsKeyCommand cmd.type = true) : c.KeepsLockstep a := by
  have hcall : ∀ s : Server, (execute serverWiring s.db a.now cmd).call = none := fun s =>
    execute_call_eq_none (fun he => by rw [he] at hk; cases hk)
      (fun he => by rw [he] at hk; cases hk)
  refine ⟨lockstepLine_of_keyCommand hp hk, fun hstops => ?_⟩
  simp [Cluster.stopsLink, Server.stopsLink, hp, hcall] at hstops

theorem route_key (c : Cluster) {cmd : Command} {key : Bytes} (hk : IsKeyCommand cmd.type = true)
    (hkey : cmd.args.head? = some key) : c.route cmd = some (c.ring.getNode key) := by
  have hroute : cmd.type ≠ .ROUTE := fun he => by rw [he] at hk; cases hk
  have hnodes : cmd.type ≠ .NODES := fun he => by rw [he] at hk; cases hk
  simp [Cluster.route, hroute, hnodes, hkey]

/-- A server took a command on `key`: the cells of its address change at `key`. -/
theorem cells_update {c c' : Cluster} {address key : Bytes} {t t' : Server} {x : Cell}
    (ht : c.servers address = some t)
    (hc' : c'.servers = Function.update c.servers address (some t'))
    (hx : t'.db.cell = Function.update t.db.cell key x) :
    c'.cells =
      Function.update c.cells address (Function.update (c.cells address) key (some x)) := by
  funext a k
  unfold Cluster.cells
  rw [hc']
  by_cases ha : a = address
  · subst ha
    simp only [Function.update_self, ht, Option.map_some, hx, Function.update_apply]
    split <;> rfl
  · simp only [Function.update_of_ne ha]

/-- A command on a key gets the same reply from its shard and from the one server, and the keys
stay split. -/
theorem sharded_step {c : Cluster} {s : Server} (h : Sharded c s) (a : RouterAction)
    (hline : keyLine a.line.1 = true) (fd : Nat) :
    ∃ c' s' out, routerMachine.step c a = some (c', out) ∧
      (directMachine fd).step s a = some (s', out) ∧ Sharded c' s' := by
  obtain ⟨cmd, key, hp, hk, hkey⟩ := keyLine_spec hline
  obtain ⟨c', out, hstep, hlock, hlive, htop, hring, hans⟩ :=
    lockstep_step h.lockstep h.live a (keepsLockstep_of_keyCommand c hp hk)
  have hroute := route_key c hk hkey
  obtain ⟨t, t₁, fd', rep, ht, hreply, hservers, rfl, -⟩ := (hans cmd _ hp hroute).exists_reply
  have hid := (route_eq_some h.live hroute).2
  have hsame : t.db.cell key = s.db.cell key := by
    have := h.split key
    simpa only [Cluster.cells, Cluster.addressForKey, ht, Option.map_some, Option.some.injEq]
      using this
  -- The server's `LineReader` can drop a `\r` that the router's has left: the command is the same.
  obtain ⟨t', ht', hplain, hcell⟩ :=
    handleLine_key (h.shards _ hid t ht) (parse_stripCr hp) hk hkey fd' a.now
  rw [ht', hsame] at hreply
  rw [hsame] at hcell
  obtain ⟨rfl, hrep⟩ := Prod.mk.inj hreply
  cases hrep
  obtain ⟨s', hs', hplain', hcell'⟩ := handleLine_key h.single hp hk hkey fd a.now
  generalize (s.db.cell key).exec a.now cmd = r at *
  refine ⟨c', s'.send fd [r.2], some r.2, hstep, ?_, hlock, hlive, ?_,
    ⟨hplain'.role, hplain'.unbounded⟩, ?_⟩
  · simp only [directMachine, hs']
  · rw [htop, hservers]
    intro id hid' u hu
    rw [Function.update_apply] at hu
    split at hu
    · cases hu
      exact ⟨hplain.role, hplain.unbounded⟩
    · exact h.shards id hid' u hu
  · have hplace : c'.addressForKey = c.addressForKey := by
      funext k
      rw [Cluster.addressForKey, Cluster.addressForKey, htop, hring]
    have hparts : c'.cells = Function.update c.cells (c.addressForKey key)
        (Function.update (c.cells (c.addressForKey key)) key (some r.1)) :=
      cells_update ht hservers hcell
    have hwhole : (fun k => some ((s'.send fd [r.2]).db.cell k)) =
        Function.update (fun k => some (s.db.cell k)) key (some r.1) := by
      funext k
      show some (s'.db.cell k) = _
      rw [hcell', Function.update_apply, Function.update_apply]
      split <;> rfl
    rw [hplace, hparts, hwhole]
    exact h.split.update key (some r.1)

theorem ne_nil_of_splitAddress {address : Bytes} (h : (splitAddress address).isSome = true) :
    address ≠ [] := by
  rintro rfl
  cases h

/-- **Sharding transparency.** Each shard is served by an empty unbounded server at its active
address. For every list of lines with commands on keys, the router relays, line by line, the
replies that one empty unbounded server gives at the same clock readings. -/
theorem sharding_transparent {topology : ShardTopology} {servers : Bytes → Option Server} {n : Nat}
    (hne : topology ≠ [])
    (hserved : ∀ id ∈ topology.shardIds,
      (splitAddress (topology.activeAddressFor id)).isSome = true ∧
      ∃ t, servers (topology.activeAddressFor id) = some t ∧ t.Empty)
    (hfresh : FreshFor servers n) {single : Server} (hsingle : single.Empty) (fd : Nat)
    (acts : List RouterAction) (hacts : ∀ a ∈ acts, keyLine a.line.1 = true) :
    ∃ c s replies,
      routerMachine.run (Cluster.start topology servers n) acts = some (c, replies) ∧
      (directMachine fd).run single acts = some (s, replies) := by
  have hlive : (Cluster.start topology servers n).Live := by
    refine ⟨hne, rfl, fun id hid => ?_⟩
    obtain ⟨hsplit, t, ht, -⟩ := hserved id hid
    exact ⟨ne_nil_of_splitAddress hsplit, hsplit, Option.isSome_iff_exists.mpr ⟨t, ht⟩⟩
  have hstart : Sharded (Cluster.start topology servers n) single := by
    refine ⟨lockstep_start hfresh, hlive, fun id hid t ht => ?_, hsingle.toPlain, fun key => ?_⟩
    · obtain ⟨-, t', ht', hempty⟩ := hserved id hid
      rw [show servers (topology.activeAddressFor id) = some t from ht] at ht'
      cases ht'
      exact hempty.toPlain
    · have hid : (Cluster.start topology servers n).ring.getNode key ∈ topology.shardIds :=
        ConsistentHashRing.getNode_foldl_addNode (fun he => hne (List.map_eq_nil_iff.mp he)) key
      obtain ⟨-, t, ht, hempty⟩ := hserved _ hid
      show (servers (topology.activeAddressFor _)).map _ = some (single.db.cell key)
      rw [ht, Option.map_some, hempty.cell key, hsingle.cell key]
  have hprogress : ∀ c a, (∃ s, Sharded c s) → keyLine a.line.1 = true →
      ∃ c' out, routerMachine.step c a = some (c', out) ∧ ∃ s', Sharded c' s' := by
    rintro c a ⟨s, h⟩ ha
    obtain ⟨c', s', out, hc, -, h'⟩ := sharded_step h a ha fd
    exact ⟨c', out, hc, s', h'⟩
  have hsim : ∀ c s a c' out, Sharded c s → keyLine a.line.1 = true →
      routerMachine.step c a = some (c', out) →
      ∃ s', (directMachine fd).step s a = some (s', out) ∧ Sharded c' s' := by
    intro c s a c' out h ha hc
    obtain ⟨c₁, s', out₁, hc₁, hs', h'⟩ := sharded_step h a ha fd
    rw [hc] at hc₁
    cases hc₁
    exact ⟨s', hs', h'⟩
  obtain ⟨c, replies, hrun, -⟩ :=
    Machine.run_progress hprogress (Machine.along_of_forall hacts _) ⟨single, hstart⟩
  obtain ⟨s, hs, -⟩ := Machine.run_simulates hsim (Machine.along_of_forall hacts single) hrun hstart
  exact ⟨c, s, replies, hrun, hs⟩

/-- Two shards with a fresh server each. -/
def pairTopology : ShardTopology :=
  soloTopology ++
    [{ id := ascii "s2"
       primary := { address := ascii "127.0.0.1:7002" }
       replica := { address := [] }
       activeAddress := ascii "127.0.0.1:7002" }]

def pairServers (address : Bytes) : Option Server :=
  if address = ascii "127.0.0.1:7001" ∨ address = ascii "127.0.0.1:7002" then some freshServer
  else none

/-- Commands on two keys, one of them with a wrong number of arguments. -/
def pairRequests : List RouterAction :=
  [setRequest, request (.ofText "expire k 7"), request (.ofText "TTL k"),
    request (.ofText "INCR n"), request (.ofText "GET k x")]

theorem sharding_transparent_pair :
    (routerMachine.run (Cluster.start pairTopology pairServers 5) pairRequests).map Prod.snd =
      some [some (ascii "+OK"), some (ascii ":1"), some (ascii ":7"), some (ascii ":1"),
        some (ascii "-ERR wrong number of arguments for 'GET'")] := by
  have hempty : freshServer.Empty := empty_start _ _
  have hserved : ∀ id ∈ pairTopology.shardIds,
      (splitAddress (pairTopology.activeAddressFor id)).isSome = true ∧
      ∃ t, pairServers (pairTopology.activeAddressFor id) = some t ∧ t.Empty := by
    intro id hid
    rcases List.mem_pair.mp hid with rfl | rfl <;>
      exact ⟨by decide, freshServer, by rfl, hempty⟩
  have hfresh : FreshFor pairServers 5 := by
    refine freshFor_of_freshServer 5 fun a s hs => ?_
    unfold pairServers at hs
    split at hs
    · exact (Option.some.inj hs).symm
    · cases hs
  obtain ⟨c, s, replies, hrun, hdirect⟩ :=
    sharding_transparent (by decide) hserved hfresh hempty 7 pairRequests (by decide +kernel)
  -- The replies are those of the one server, which runs here without the ring.
  have hreplies : ((directMachine 7).run freshServer pairRequests).map Prod.snd =
      some [some (ascii "+OK"), some (ascii ":1"), some (ascii ":7"), some (ascii ":1"),
        some (ascii "-ERR wrong number of arguments for 'GET'")] := by decide +kernel
  rw [hdirect] at hreplies
  rw [hrun]
  exact hreplies

end TinyKV

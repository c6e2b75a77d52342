import TinyKV.Sharding.Router
import TinyKV.Lib.Machine

/-!
# One backend of the router, on a network that breaks

`Router::forward` of `src/sharding/router.cpp` with `TcpClient` of `src/net/tcp_client.cpp`, for one
shard. Here the other end of a connection is not a server but the network: it may refuse a
connection, fail a send, deliver any bytes in any chunks and break at any point. What it does in a
call is an argument of the call (`Turn`).

* `Backend.forward`: one request, with a report of what happened on the connection.
* `unreadAfter`: the bytes that the current connection has delivered and no response has used, as
  the reports tell it. A new connection starts with none.
* `Clean`: the response is the first line of these bytes, and a request that was sent fails only if
  they have none.
* `forward_clean`: every response of a run is clean if the reader's buffer is empty wherever a
  connection is opened. `close` leaves the buffer, so this is a condition.
-/

namespace TinyKV

open Cpp

/-- `TcpClient` -/
structure TcpClient where
  /-- The address that `fd_` is connected to; `none` if `fd_` is -1. -/
  peer : Option Bytes := none
  /-- `reader_` -/
  buffer : Bytes := []
  deriving DecidableEq

namespace TcpClient

def isConnected (c : TcpClient) : Bool := c.peer.isSome

/-- `close` closes the descriptor; the reader keeps its bytes. -/
def close (c : TcpClient) : TcpClient := { c with peer := none }

/-- `splitAddress` and `connect`; `connects` says if the network lets it happen. -/
def connect (c : TcpClient) (address : Bytes) (connects : Bool) : TcpClient :=
  if (splitAddress address).isSome && connects then { c with peer := some address }
  else { c with peer := none }

end TcpClient

/-- `BackendConnection` -/
structure Backend where
  client : TcpClient := {}
  address : Bytes := []
  deriving DecidableEq

/-- The shard's active node changed: drop the connection to the old one. -/
def Backend.repoint (b : Backend) (address : Bytes) : Backend :=
  if b.address ≠ address then { client := b.client.close, address := address } else b

/-- Open a connection if there is none. -/
def Backend.open (b : Backend) (address : Bytes) (connects : Bool) : Backend :=
  if b.client.isConnected then b else { b with client := b.client.connect address connects }

/-- One call of `forward`, and what the network does in it. -/
structure Turn where
  /-- What `activeAddressFor` returns. -/
  address : Bytes
  line : Bytes
  connects : Bool
  sends : Bool
  /-- What the calls of `recv` give, one after the other; then `recv` fails. -/
  chunks : List Bytes
  size : ∀ c ∈ chunks, c ≠ [] ∧ c.length ≤ 4096

/-- What happened in a call of `forward`. -/
structure ForwardReport where
  /-- A connection was opened. -/
  opened : Bool := false
  /-- The address that the line was sent to. -/
  sentTo : Option Bytes := none
  /-- The bytes that were received. -/
  received : Bytes := []
  /-- `recv` failed. -/
  broke : Bool := false
  /-- `outResponse`; `none` if `forward` returns false. -/
  response : Option Bytes := none
  deriving DecidableEq

/-- `receiveLine`, and `close` if it fails. -/
def Backend.receive (b : Backend) (chunks : List Bytes) (report : ForwardReport) :
    Backend × ForwardReport :=
  match readLine b.client.buffer chunks with
  | .line l buffer rest =>
    ({ b with client := { b.client with buffer := buffer } },
      { report with
        received := (chunks.take (chunks.length - rest.length)).flatten
        response := some l })
  | .tooLong buffer rest =>
    ({ b with client := { b.client with buffer := buffer }.close },
      { report with received := (chunks.take (chunks.length - rest.length)).flatten })
  | .wait buffer =>
    ({ b with client := { b.client with buffer := buffer }.close },
      { report with received := chunks.flatten, broke := true })

/-- `Router::forward` -/
def Backend.forward (b : Backend) (t : Turn) : Backend × ForwardReport :=
  if t.address.isEmpty then (b, {})
  else
    let b := b.repoint t.address
    let opened := !b.client.isConnected
    let b := b.open t.address t.connects
    match b.client.peer with
    | none => (b, {})
    | some peer =>
      if t.sends then b.receive t.chunks { opened := opened, sentTo := some peer }
      else ({ b with client := b.client.close }, { opened := opened })

/-- The calls on one backend: its mutex puts them in a row. -/
def backendMachine : Machine Backend Turn ForwardReport where
  step b t := some (b.forward t)

/-! ## What a clean reader gives -/

/-- The bytes of the current connection that a response may use, `before` being those that were
left when the call began. -/
def ForwardReport.own (before : Bytes) (r : ForwardReport) : Bytes :=
  (if r.opened then [] else before) ++ r.received

/-- The bytes of the current connection that are left after a call. -/
def unreadAfter (before : Bytes) (r : ForwardReport) : Bytes :=
  match r.response, cutLine (r.own before) with
  | some _, some (_, rest) => rest
  | _, _ => r.own before

/-- What a call gives is due to the connection that the line was sent on. -/
structure Clean (before : Bytes) (r : ForwardReport) : Prop where
  response : ∀ l, r.response = some l → r.sentTo.isSome ∧
    ∃ first rest, cutLine (r.own before) = some (first, rest) ∧ l = stripCr first
  failure : r.sentTo.isSome → r.response = none → cutLine (r.own before) = none ∧
    (r.broke = true ∨ kMaxLineLength < (r.own before).length)

/-- Every call of a run is clean. -/
def CleanFrom : Bytes → List ForwardReport → Prop
  | _, [] => True
  | before, r :: rs => Clean before r ∧ CleanFrom (unreadAfter before r) rs

/-- The call opens a connection. -/
def Backend.opens (b : Backend) (t : Turn) : Bool :=
  !t.address.isEmpty && !(b.repoint t.address).client.isConnected &&
    (splitAddress t.address).isSome && t.connects

/-- Where the call opens a connection, the reader's buffer is empty. -/
def Backend.OpensFresh (b : Backend) (t : Turn) : Prop :=
  b.opens t = true → b.client.buffer = []

instance (b : Backend) (t : Turn) : Decidable (b.OpensFresh t) :=
  inferInstanceAs (Decidable (_ → _))

/-! ## One call -/

@[simp] theorem Backend.repoint_buffer (b : Backend) (address : Bytes) :
    (b.repoint address).client.buffer = b.client.buffer := by
  unfold repoint
  split <;> rfl

@[simp] theorem Backend.open_buffer (b : Backend) (address : Bytes) (connects : Bool) :
    (b.open address connects).client.buffer = b.client.buffer := by
  unfold Backend.open TcpClient.connect
  split
  · rfl
  · split <;> rfl

/-- The bytes that a read has taken, from the chunks that it has left. -/
theorem take_taken {taken rest : List Bytes} :
    (taken ++ rest).take ((taken ++ rest).length - rest.length) = taken := by
  rw [List.length_append, Nat.add_sub_cancel, List.take_left]

/-- A read from a buffer that has what the connection delivered, and nothing else. -/
theorem Backend.receive_clean {b : Backend} {before : Bytes} {opened : Bool} {peer : Bytes}
    (hb : b.client.buffer = if opened then [] else before) (chunks : List Bytes) :
    let r := b.receive chunks { opened := opened, sentTo := some peer }
    Clean before r.2 ∧ (r.1.client.isConnected = true →
      r.1.client.buffer = unreadAfter before r.2) := by
  intro r
  have hr : r = b.receive chunks { opened := opened, sentTo := some peer } := rfl
  have hread := readLine_spec b.client.buffer chunks
  unfold Backend.receive at hr
  split at hr
  · rename_i l buffer rest he
    rw [he] at hread
    obtain ⟨taken, first, rfl, hl, hcut⟩ := hread
    rw [hb] at hcut
    rw [take_taken] at hr
    rw [hr]
    refine ⟨⟨?_, fun _ h => by cases h⟩, fun _ => ?_⟩
    · rintro _ ⟨⟩
      exact ⟨rfl, first, buffer, hcut, hl⟩
    · simp only [unreadAfter, ForwardReport.own, hcut]
  · rename_i buffer rest he
    rw [he] at hread
    obtain ⟨taken, rfl, hbuf, hnone, hlen⟩ := hread
    rw [hb] at hbuf
    rw [take_taken] at hr
    rw [hr]
    refine ⟨⟨fun _ h => (by cases h), fun _ _ => ?_⟩, fun h => (by cases h)⟩
    rw [ForwardReport.own, ← hbuf]
    exact ⟨hnone, .inr hlen⟩
  · rename_i buffer he
    rw [he] at hread
    obtain ⟨hbuf, hnone⟩ := hread
    rw [hb] at hbuf
    rw [hr]
    refine ⟨⟨fun _ h => (by cases h), fun _ _ => ?_⟩, fun h => (by cases h)⟩
    rw [ForwardReport.own, ← hbuf]
    exact ⟨hnone, .inl rfl⟩

/-- A call in which nothing is sent. -/
theorem clean_of_not_sent {before : Bytes} {r : ForwardReport} (hs : r.sentTo = none)
    (hr : r.response = none) : Clean before r where
  response l h := by
    rw [hr] at h
    cases h
  failure h := by
    rw [hs] at h
    cases h

/-- The reader's buffer has what the connection delivered; a call that opens a connection with an
empty buffer keeps it so. -/
theorem Backend.forward_clean_step {b : Backend} {before : Bytes}
    (hb : b.client.isConnected = true → b.client.buffer = before) {t : Turn}
    (hfresh : b.OpensFresh t) :
    Clean before (b.forward t).2 ∧ ((b.forward t).1.client.isConnected = true →
      (b.forward t).1.client.buffer = unreadAfter before (b.forward t).2) := by
  unfold Backend.forward
  split
  · exact ⟨clean_of_not_sent rfl rfl, fun h => (hb h).trans (by simp [unreadAfter, ForwardReport.own])⟩
  · rename_i haddr
    dsimp only
    split
    · rename_i hnone
      refine ⟨clean_of_not_sent rfl rfl, fun h => ?_⟩
      rw [TcpClient.isConnected, hnone] at h
      cases h
    · rename_i peer hpeer
      split
      · refine Backend.receive_clean ?_ _
        rw [Backend.open_buffer, Backend.repoint_buffer]
        by_cases hconn : (b.repoint t.address).client.isConnected = true
        · -- The connection that is open is the one of the call before.
          rw [hconn]
          have hrep : b.repoint t.address = b := by
            unfold Backend.repoint at hconn ⊢
            split
            · rename_i hne
              rw [if_pos hne] at hconn
              cases hconn
            · rfl
          rw [hrep] at hconn
          exact hb hconn
        · -- A connection is opened.
          rw [Bool.not_eq_true] at hconn
          rw [hconn]
          refine hfresh ?_
          rw [Backend.open, hconn] at hpeer
          have hok : ((splitAddress t.address).isSome && t.connects) = true := by
            by_contra hno
            simp [TcpClient.connect, hno] at hpeer
          unfold Backend.opens
          rw [Bool.and_assoc, hok, hconn]
          simpa using haddr
      · exact ⟨clean_of_not_sent rfl rfl, fun h => (by cases h)⟩

/-! ## Whole runs -/

theorem cleanFrom_of_run {acts : List Turn} {b b' : Backend} {before : Bytes}
    {outs : List ForwardReport} (hb : b.client.isConnected = true → b.client.buffer = before)
    (hfresh : backendMachine.Along Backend.OpensFresh b acts)
    (hrun : backendMachine.run b acts = some (b', outs)) : CleanFrom before outs := by
  induction acts generalizing b before outs with
  | nil =>
    cases hrun
    trivial
  | cons t acts ih =>
    obtain ⟨b₁, r, rs, hstep, hrest, rfl⟩ := Machine.run_cons.mp hrun
    have he : b.forward t = (b₁, r) := Option.some.inj hstep
    have hclean := Backend.forward_clean_step hb hfresh.1
    rw [he] at hclean
    exact ⟨hclean.1, ih hclean.2 (hfresh.2 b₁ r hstep) hrest⟩

/-- **A reconnect starts clean** in every run of calls on one backend that opens each connection
with an empty buffer: every response is the first line of what its own connection delivered, and a
request that was sent fails only for what its own connection did. -/
theorem forward_clean (acts : List Turn) {b : Backend} {outs : List ForwardReport}
    (hfresh : backendMachine.Along Backend.OpensFresh {} acts)
    (hrun : backendMachine.run {} acts = some (b, outs)) : CleanFrom [] outs :=
  cleanFrom_of_run (fun h => by cases h) hfresh hrun

/-- A call to a node that answers; the chunks are what it delivers before it breaks. -/
def Turn.answered (address : Bytes) (chunks : List Bytes) : Turn where
  address := address
  line := ascii "GET k"
  connects := true
  sends := true
  chunks := chunks.filter fun c => c ≠ [] ∧ c.length ≤ 4096
  size _ hc := of_decide_eq_true (List.mem_filter.mp hc).2

/-- A whole reply, a break before the next one, and the promoted replica's reply. -/
def breaksBetween : List Turn :=
  [.answered (ascii "127.0.0.1:7001") [ascii "+a\r\n"],
    .answered (ascii "127.0.0.1:7001") [],
    .answered (ascii "127.0.0.1:7002") [ascii "+", ascii "b\n"]]

theorem forward_clean_breaksBetween :
    ∃ b outs, backendMachine.run {} breaksBetween = some (b, outs) ∧
      outs.map (·.response) = [some (ascii "+a"), none, some (ascii "+b")] ∧
      CleanFrom [] outs := by
  refine ⟨_, _, rfl, by decide +kernel, forward_clean breaksBetween (by decide +kernel) rfl⟩

/-- A break in the middle of a reply, and the promoted replica's reply. -/
def breaksWithin : List Turn :=
  [.answered (ascii "127.0.0.1:7001") [ascii "+O"],
    .answered (ascii "127.0.0.1:7002") [ascii "+OK\n"]]

/-- The response on the new connection starts with the bytes of the old one. -/
theorem not_forward_clean_breaksWithin :
    ∃ b outs, backendMachine.run {} breaksWithin = some (b, outs) ∧
      outs.map (·.response) = [none, some (ascii "+O+OK")] ∧ ¬ CleanFrom [] outs := by
  refine ⟨_, _, rfl, by decide +kernel, ?_⟩
  rintro ⟨-, hclean, -⟩
  obtain ⟨-, first, rest, hcut, hl⟩ := hclean.response (ascii "+O+OK") (by decide +kernel)
  rw [show cutLine _ = some (ascii "+OK", []) by decide +kernel] at hcut
  cases hcut
  revert hl
  decide +kernel

end TinyKV

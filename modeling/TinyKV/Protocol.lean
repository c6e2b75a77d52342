import TinyKV.Lib.Cpp

/-!
# The wire protocol: commands, the parser, replies

`include/tinykv/protocol/command.hpp`, `src/protocol/parser.cpp` and `src/protocol/reply.cpp`.
A request line is cut into whitespace-free tokens; the first is the command word, the others are
its arguments. One format serves clients, the append-only file, the snapshot and replication, so
the lemmas here are used by all of them:

* `parse_eq_ok`: when a line parses, and to what.
* `args_isWord`: an argument is one word, so it is never empty and has no blank or line end.
* `length_args_le`: the arguments of a line fit in it.
* `parse_setLine`: a line built as `SET key value` from two words parses to that command.
-/

namespace TinyKV

open Cpp Text

/-! ## Commands -/

inductive CommandType where
  | SET | GET | DEL | PING | INCR | DECR | TTL | EXPIRE | PERSIST
  | SAVE | REPLICAOF | SYNC | ROUTE | NODES | UNKNOWN
  deriving DecidableEq, Repr

structure Command where
  type : CommandType
  /-- The command word as received, for error messages. -/
  name : Bytes
  /-- Everything after the command word. -/
  args : List Bytes
  deriving DecidableEq, Repr

/-- The commands that change stored data or its expiry. -/
def isWriteCommand : CommandType → Bool
  | .SET | .DEL | .INCR | .DECR | .EXPIRE | .PERSIST => true
  | _ => false

/-! ## Replies -/

namespace Reply

def ok : Bytes := ascii "+OK"

def bulk (value : Bytes) : Bytes := ascii "+" ++ value

def nil : Bytes := ascii "$-1"

def error (message : Bytes) : Bytes := ascii "-ERR " ++ message

def readOnlyError : Bytes := ascii "-READONLY You can't write against a replica."

def integer (value : Int) : Bytes := ascii ":" ++ to_string value

end Reply

/-! ## The parser -/

/-- The limit on a request line, in bytes. -/
def kMaxLineLength : Nat := 8192

/-- `ProtocolError`, with its message. -/
structure ProtocolError where
  what : Bytes
  deriving DecidableEq, Repr

/-- The loop `while (iss >> token)`. -/
def tokenize (line : Bytes) : List Bytes := words isspace line

def toUpper (s : Bytes) : Bytes := s.map toupper

def commandTypeFromName (name : Bytes) : CommandType :=
  let upper := toUpper name
  if upper = ascii "SET" then .SET
  else if upper = ascii "GET" then .GET
  else if upper = ascii "DEL" then .DEL
  else if upper = ascii "PING" then .PING
  else if upper = ascii "INCR" then .INCR
  else if upper = ascii "DECR" then .DECR
  else if upper = ascii "TTL" then .TTL
  else if upper = ascii "EXPIRE" then .EXPIRE
  else if upper = ascii "PERSIST" then .PERSIST
  else if upper = ascii "SAVE" then .SAVE
  else if upper = ascii "REPLICAOF" then .REPLICAOF
  else if upper = ascii "SYNC" then .SYNC
  else if upper = ascii "ROUTE" then .ROUTE
  else if upper = ascii "NODES" then .NODES
  else .UNKNOWN

def parse (line : Bytes) : Except ProtocolError Command :=
  if line.length > kMaxLineLength then
    .error ⟨ascii "line too long (max " ++ to_string kMaxLineLength ++ ascii " bytes)"⟩
  else match tokenize line with
    | [] => .error ⟨ascii "empty command"⟩
    | name :: args => .ok ⟨commandTypeFromName name, name, args⟩

/-- A line parses exactly when it is short enough and has a token. -/
theorem parse_eq_ok {line : Bytes} {cmd : Command} :
    parse line = .ok cmd ↔ line.length ≤ kMaxLineLength ∧
      ∃ name args, tokenize line = name :: args ∧ cmd = ⟨commandTypeFromName name, name, args⟩ := by
  unfold parse
  split
  · simp only [reduceCtorEq, false_iff, not_and]
    omega
  · rename_i hlen
    split
    · rename_i ht; simp [ht]
    · rename_i name args ht
      simp only [Except.ok.injEq, ht, List.cons.injEq]
      constructor
      · rintro rfl; exact ⟨by omega, name, args, ⟨rfl, rfl⟩, rfl⟩
      · rintro ⟨-, _, _, ⟨rfl, rfl⟩, rfl⟩; rfl

/-- An argument is one word. -/
theorem args_isWord {line : Bytes} {cmd : Command} (h : parse line = .ok cmd) {a : Bytes}
    (ha : a ∈ cmd.args) : IsWord isspace a := by
  obtain ⟨-, name, args, ht, rfl⟩ := parse_eq_ok.mp h
  have hmem : a ∈ tokenize line := by rw [ht]; exact List.mem_cons_of_mem _ ha
  exact isWord_of_mem_words hmem

/-- The command word and the arguments fit in the line, with a blank between two of them. -/
theorem length_args_le {line : Bytes} {cmd : Command} (h : parse line = .ok cmd) :
    cmd.name.length + cmd.args.flatten.length + cmd.args.length ≤ kMaxLineLength := by
  obtain ⟨hlen, name, args, ht, rfl⟩ := parse_eq_ok.mp h
  have hw : _ ≤ line.length + 1 := length_words_le isspace line
  rw [show words isspace line = name :: args from ht] at hw
  simp only [List.flatten_cons, List.length_append, List.length_cons] at hw ⊢
  omega

theorem commandTypeFromName_type {line : Bytes} {cmd : Command} (h : parse line = .ok cmd) :
    cmd.type = commandTypeFromName cmd.name := by
  obtain ⟨-, name, args, -, rfl⟩ := parse_eq_ok.mp h
  rfl

/-! ## Lines the program itself writes -/

/-- The line end. -/
def newline : UInt8 := 10

/-- The carriage return, which line readers strip. -/
def cr : UInt8 := 13

theorem newline_not_mem_of_isWord {w : Bytes} (h : IsWord isspace w) : newline ∉ w := fun hm => by
  have := h.2 _ hm
  simp [newline, isspace] at this

/-- The snapshot line of a pair, without its line end. -/
def setLine (key value : Bytes) : Bytes := ascii "SET " ++ key ++ ascii " " ++ value

theorem length_setLine (key value : Bytes) :
    (setLine key value).length = key.length + value.length + 5 := by
  simp only [setLine, List.length_append]
  have h1 : (ascii "SET ").length = 4 := by decide
  have h2 : (ascii " ").length = 1 := by decide
  omega

theorem newline_not_mem_setLine {key value : Bytes} (hk : IsWord isspace key)
    (hv : IsWord isspace value) : newline ∉ setLine key value := by
  simp only [setLine, List.mem_append, not_or]
  exact ⟨⟨⟨by decide, newline_not_mem_of_isWord hk⟩, by decide⟩, newline_not_mem_of_isWord hv⟩

theorem tokenize_setLine {key value : Bytes} (hk : IsWord isspace key)
    (hv : IsWord isspace value) : tokenize (setLine key value) = [ascii "SET", key, value] := by
  have hset : IsWord isspace (ascii "SET") := by decide
  have hb : isspace 32 = true := by decide
  have e : setLine key value = ascii "SET" ++ 32 :: (key ++ 32 :: value) := by
    simp [setLine, show ascii "SET " = ascii "SET" ++ [32] by decide,
      show ascii " " = [32] by decide]
  rw [e, tokenize, hset.words_append hb, hk.words_append hb, hv.words_eq]

/-- The line of a pair of words parses to `SET key value`, if it is not too long. -/
theorem parse_setLine {key value : Bytes} (hk : IsWord isspace key) (hv : IsWord isspace value)
    (hlen : key.length + value.length + 5 ≤ kMaxLineLength) :
    parse (setLine key value) = .ok ⟨.SET, ascii "SET", [key, value]⟩ := by
  refine parse_eq_ok.mpr ⟨by rw [length_setLine]; exact hlen, _, _, tokenize_setLine hk hv, ?_⟩
  rfl

end TinyKV

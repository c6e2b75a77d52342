import TinyKV.Steps
import Mathlib.Algebra.Order.BigOperators.Group.List

/-!
# Replies are lines

Every reply that `execute` gives is one line of the protocol: it has no line end in it, it starts
with the byte of its kind, and a line reader takes it as it is. The one exception is the error for
an unknown command: it repeats the command word, which may be almost as long as a line, so the
reply may be longer than one.

* `IsPayload`: what a reply is without the limit on its length. `IsReply`: with it.
* `Db.WordValues`: the values are words, and shorter than a line.
* `EndsWell`: the calls of a command keep the values words, whatever other clients do in between,
  and the command ends with a reply; a rule for each call. `endsWell_executeSteps`: every command
  does. `execute_isReply`: the calls one after the other.
* `ShortValues`: values that came in a request line, or are counters, are short (`onEntries_short`).
-/

namespace TinyKV

open Cpp Recency Text

/-- One reply line: `LineReader` gives it back as it was written, however it is cut. -/
structure IsReply (r : Bytes) : Prop where
  oneLine : newline ∉ r
  noCr : cr ∉ r
  short : r.length ≤ kMaxLineLength
  /-- It starts with `+`, `-`, `:` or `$`. -/
  kind : r.head? ∈ [some 43, some 45, some 58, some 36]

/-- What `writeLine` may put on a connection as one reply. -/
structure IsPayload (r : Bytes) : Prop where
  oneLine : newline ∉ r
  noCr : cr ∉ r
  /-- It starts with `+`, `-`, `:` or `$`. -/
  kind : r.head? ∈ [some 43, some 45, some 58, some 36]

theorem IsReply.isPayload {r : Bytes} (h : IsReply r) : IsPayload r := ⟨h.oneLine, h.noCr, h.kind⟩

theorem IsPayload.isReply {r : Bytes} (h : IsPayload r) (hlen : r.length ≤ kMaxLineLength) :
    IsReply r := ⟨h.oneLine, h.noCr, hlen, h.kind⟩

theorem cr_not_mem_of_isWord {w : Bytes} (h : IsWord isspace w) : cr ∉ w := fun hm => by
  have := h.2 _ hm
  simp [cr, isspace] at this

/-! ## Kinds of replies -/

/-- A reply is the mark of its kind and a body. -/
theorem isPayload_append {mark body : Bytes} (hmark : newline ∉ mark ∧ cr ∉ mark)
    (hkind : mark.head? ∈ [some 43, some 45, some 58, some 36])
    (hbody : newline ∉ body ∧ cr ∉ body) : IsPayload (mark ++ body) := by
  refine ⟨?_, ?_, ?_⟩
  · rw [List.mem_append, not_or]
    exact ⟨hmark.1, hbody.1⟩
  · rw [List.mem_append, not_or]
    exact ⟨hmark.2, hbody.2⟩
  · cases mark with
    | nil => simp at hkind
    | cons c cs => exact hkind

theorem isReply_append {mark body : Bytes} (hmark : newline ∉ mark ∧ cr ∉ mark)
    (hkind : mark.head? ∈ [some 43, some 45, some 58, some 36])
    (hbody : newline ∉ body ∧ cr ∉ body) (hlen : mark.length + body.length ≤ kMaxLineLength) :
    IsReply (mark ++ body) :=
  (isPayload_append hmark hkind hbody).isReply (by rwa [List.length_append])

theorem isPayload_error {m : Bytes} (hm : newline ∉ m ∧ cr ∉ m) : IsPayload (Reply.error m) :=
  isPayload_append (by decide) (by decide) hm

theorem length_error (m : Bytes) : (Reply.error m).length = m.length + 5 := by
  have h5 : (ascii "-ERR ").length = 5 := by decide
  rw [Reply.error, List.length_append]
  omega

theorem isReply_error {m : Bytes} (h : newline ∉ m ∧ cr ∉ m ∧ m.length + 5 ≤ kMaxLineLength) :
    IsReply (Reply.error m) :=
  (isPayload_error ⟨h.1, h.2.1⟩).isReply (by rw [length_error]; exact h.2.2)

theorem not_mem_of_isWord {w : Bytes} (h : IsWord isspace w) : newline ∉ w ∧ cr ∉ w :=
  ⟨newline_not_mem_of_isWord h, cr_not_mem_of_isWord h⟩

/-- An error that quotes a word. -/
theorem isPayload_error_quote {before after w : Bytes} (hw : IsWord isspace w)
    (hb : newline ∉ before ∧ cr ∉ before) (ha : newline ∉ after ∧ cr ∉ after) :
    IsPayload (Reply.error (before ++ w ++ after)) := by
  have hw' := not_mem_of_isWord hw
  refine isPayload_error ⟨?_, ?_⟩
  · simp only [List.mem_append, not_or]
    exact ⟨⟨hb.1, hw'.1⟩, ha.1⟩
  · simp only [List.mem_append, not_or]
    exact ⟨⟨hb.2, hw'.2⟩, ha.2⟩

theorem isReply_integer {n : Int} (h : IsInt64 n) : IsReply (Reply.integer n) := by
  have hlen := length_to_string_le h
  have h1 : (ascii ":").length = 1 := by decide
  have hmax : kMaxLineLength = 8192 := rfl
  exact isReply_append (by decide) (by decide) (not_mem_of_isWord (isWord_to_string n)) (by omega)

theorem isReply_bulk {v : Bytes} (hw : IsWord isspace v) (hlen : v.length < kMaxLineLength) :
    IsReply (Reply.bulk v) := by
  have h1 : (ascii "+").length = 1 := by decide
  exact isReply_append (by decide) (by decide) (not_mem_of_isWord hw) (by omega)

theorem isReply_ok : IsReply Reply.ok := ⟨by decide, by decide, by decide, by decide⟩

theorem isReply_nil : IsReply Reply.nil := ⟨by decide, by decide, by decide, by decide⟩

theorem isReply_readOnlyError : IsReply Reply.readOnlyError :=
  ⟨by decide, by decide, by decide, by decide⟩

theorem isReply_arityError {cmd : Command} (hw : IsWord isspace cmd.name)
    (hlen : cmd.name.length ≤ 9) : IsReply (arityError cmd) := by
  have h1 : (ascii "wrong number of arguments for '").length = 31 := by decide
  have h2 : (ascii "'").length = 1 := by decide
  have hmax : kMaxLineLength = 8192 := rfl
  refine (isPayload_error_quote hw (by decide) (by decide)).isReply ?_
  rw [length_error, List.length_append, List.length_append]
  omega

/-- The reply to an unknown command. -/
def unknownError (name : Bytes) : Bytes :=
  Reply.error (ascii "unknown command '" ++ name ++ ascii "'")

theorem length_unknownError (name : Bytes) : (unknownError name).length = name.length + 23 := by
  have h1 : (ascii "unknown command '").length = 17 := by decide
  have h2 : (ascii "'").length = 1 := by decide
  rw [unknownError, length_error, List.length_append, List.length_append]
  omega

theorem isPayload_unknownError {name : Bytes} (hw : IsWord isspace name) :
    IsPayload (unknownError name) :=
  isPayload_error_quote hw (by decide) (by decide)

/-- The reply to a line that does not parse. -/
theorem isPayload_parseError {line : Bytes} {e : ProtocolError} (h : parse line = .error e) :
    IsPayload (Reply.error e.what) := by
  unfold parse at h
  split at h
  · cases h
    exact ⟨by decide +kernel, by decide +kernel, by decide +kernel⟩
  · split at h
    · cases h
      exact ⟨by decide +kernel, by decide +kernel, by decide +kernel⟩
    · cases h

theorem isInt64_remaining (expiresAt : Int) (now : Now) : IsInt64 (remaining expiresAt now) := by
  have hw := isInt64_wrap64 (expiresAt - now.ns)
  unfold remaining
  generalize wrap64 (expiresAt - now.ns) = x at hw
  unfold IsInt64 at hw ⊢
  dsimp only
  split
  · rename_i hpos
    rcases Int.le_total 0 x with hx | hx
    · rw [Int.tdiv_eq_ediv_of_nonneg hx] at hpos ⊢
      omega
    · have hneg : (-x).tdiv (10 ^ 9) = -x.tdiv (10 ^ 9) := Int.neg_tdiv _ _
      have hnn : 0 ≤ (-x).tdiv (10 ^ 9) := Int.tdiv_nonneg (by omega) (by decide)
      omega
  · omega

/-! ## The replies of `execute` -/

/-- Every value is shorter than a line. -/
def ShortValues (es : List (Bytes × Bytes)) : Prop := ∀ k v, (k, v) ∈ es → v.length < kMaxLineLength

/-- The word of a known command is short. -/
theorem length_name_le {name : Bytes} (h : commandTypeFromName name ≠ .UNKNOWN) :
    name.length ≤ 9 := by
  have hlen : (toUpper name).length = name.length := List.length_map _
  by_contra hlong
  have hne : ∀ w : Bytes, w.length ≤ 9 → toUpper name ≠ w := by
    rintro w hw rfl
    omega
  refine h ?_
  unfold commandTypeFromName
  dsimp only
  repeat rw [if_neg (hne _ (by decide))]

/-- The command word of a line. -/
theorem name_isWord {line : Bytes} {cmd : Command} (h : parse line = .ok cmd) :
    IsWord isspace cmd.name := by
  obtain ⟨-, name, args, ht, rfl⟩ := parse_eq_ok.mp h
  have hmem : name ∈ tokenize line := by rw [ht]; exact List.mem_cons_self
  exact isWord_of_mem_words hmem

/-- Its error reply quotes no word that is too long. -/
def Command.Quotable (cmd : Command) : Prop := cmd.type = .UNKNOWN → cmd.name.length ≤ 8169

/-- An argument of a line is shorter than the line. -/
theorem length_arg_lt {line : Bytes} {cmd : Command} (hp : parse line = .ok cmd) {a : Bytes}
    (ha : a ∈ cmd.args) : a.length < kMaxLineLength := by
  have hlen := length_args_le hp
  have hle : a.length ≤ cmd.args.flatten.length := (List.sublist_flatten_of_mem ha).length_le
  have hpos : 0 < cmd.args.length := List.length_pos_of_mem ha
  omega

/-- Every value is a word, and shorter than a line. -/
def Db.WordValues (db : Db) : Prop :=
  ∀ k v, db.store.lookup k = some v → IsWord isspace v ∧ v.length < kMaxLineLength

theorem wordValues_of_entries {db : Db} (hw : WordEntries db.store.entries)
    (hs : ShortValues db.store.entries) : db.WordValues := fun k v h =>
  ⟨(hw k v (Store.mem_entries.mpr h)).2, hs k v (Store.mem_entries.mpr h)⟩

section

variable {db : Db} {key value : Bytes}

/-- A value of the kind is set; another key may give way. -/
theorem Db.WordValues.set (h : db.WordValues)
    (hv : IsWord isspace value ∧ value.length < kMaxLineLength) :
    Db.WordValues { db with store := db.store.set key value } := by
  intro k v hk
  rw [Store.lookup_set_apply] at hk
  split at hk
  · cases hk
    exact hv
  · split at hk
    · cases hk
    · exact h k v hk

theorem Db.WordValues.get (h : db.WordValues) :
    Db.WordValues { db with store := (db.store.get key).2 } := fun k v hk =>
  h k v (by rwa [Store.lookup_get] at hk)

theorem Db.WordValues.del (h : db.WordValues) :
    Db.WordValues { db with store := (db.store.del key).2 } := by
  intro k v hk
  rw [Store.lookup_del, Function.update_apply] at hk
  split at hk
  · cases hk
  · exact h k v hk

end

/-! ## The calls of a command -/

/-- Whatever comes between the calls of `cmd`, as long as it keeps the values words, they keep them
words and end with a reply; with one that is short enough if it quotes no long word. -/
def EndsWell (cmd : Command) : CommandProg → Prop :=
  Prog.Ends Db.WordValues fun x =>
    IsPayload x.1 ∧ (x.1.length ≤ kMaxLineLength ↔ cmd.Quotable)

section

variable {cmd : Command} {key value : Bytes} {next : CommandProg}

/-- The reply to a known command. -/
theorem endsWell_done (hk : cmd.type ≠ .UNKNOWN) {r : Bytes} (hr : IsReply r)
    (call : Option Call) : EndsWell cmd (.done (r, call)) :=
  ⟨hr.isPayload, iff_of_true hr.short fun h => absurd h hk⟩

/-- The error for an unknown command. -/
theorem endsWell_unknown (hk : cmd.type = .UNKNOWN) (hname : IsWord isspace cmd.name) :
    EndsWell cmd (answer (unknownError cmd.name)) := by
  have hquote : (unknownError cmd.name).length ≤ kMaxLineLength ↔ cmd.name.length ≤ 8169 := by
    rw [length_unknownError, kMaxLineLength]
    omega
  exact ⟨isPayload_unknownError hname, hquote.trans ⟨fun h _ => h, fun h => h hk⟩⟩

theorem endsWell_set (hv : IsWord isspace value ∧ value.length < kMaxLineLength)
    (h : EndsWell cmd next) : EndsWell cmd (Locked.set key value next) :=
  fun _ hdb => ⟨hdb.set hv, h⟩

theorem endsWell_get {next : Option Bytes → CommandProg} (hnone : EndsWell cmd (next none))
    (hsome : ∀ v, IsWord isspace v ∧ v.length < kMaxLineLength → EndsWell cmd (next (some v))) :
    EndsWell cmd (Locked.get key next) := by
  refine fun db hdb => ⟨hdb.get, ?_⟩
  dsimp only
  rw [Store.get_fst]
  cases hv : db.store.lookup key with
  | none => exact hnone
  | some v => exact hsome v (hdb key v hv)

theorem endsWell_del {next : Bool → CommandProg} (h : ∀ b, EndsWell cmd (next b)) :
    EndsWell cmd (Locked.del key next) := fun _ hdb => ⟨hdb.del, h _⟩

theorem endsWell_exists {next : Bool → CommandProg} (hfalse : EndsWell cmd (next false))
    (htrue : EndsWell cmd (next true)) : EndsWell cmd (Locked.exists key next) := by
  refine fun db hdb => ⟨hdb, ?_⟩
  dsimp only
  cases db.store.exists key with
  | false => exact hfalse
  | true => exact htrue

theorem endsWell_schedule (t : Int) (h : EndsWell cmd next) :
    EndsWell cmd (Locked.schedule key t next) := fun _ hdb => ⟨hdb, h⟩

theorem endsWell_cancel (h : EndsWell cmd next) : EndsWell cmd (Locked.cancel key next) :=
  fun _ hdb => ⟨hdb, h⟩

theorem endsWell_expiryOf {next : Option Int → CommandProg} (h : ∀ t, EndsWell cmd (next t)) :
    EndsWell cmd (Locked.expiryOf key next) := fun _ hdb => ⟨hdb, h _⟩

/-- `INCR` and `DECR` write numbers. -/
theorem endsWell_incrementSteps (hk : cmd.type ≠ .UNKNOWN) (key : Bytes) (delta : Int) :
    EndsWell cmd (incrementSteps key delta) := by
  intro db hdb
  simp only [db.store.incrementBy_eq]
  cases KVStore.counter (db.store.lookup key) with
  | none => exact ⟨hdb, endsWell_done hk (isReply_error (by decide +kernel)) none⟩
  | some c =>
    have hw := isInt64_wrap64 (c + delta)
    refine ⟨hdb.set ⟨isWord_to_string _, ?_⟩, endsWell_done hk (isReply_integer hw) none⟩
    have hlen := length_to_string_le hw
    have hmax : kMaxLineLength = 8192 := rfl
    omega

end

/-- The calls of a command that came in a line. -/
theorem endsWell_executeSteps {line : Bytes} {cmd : Command} (hp : parse line = .ok cmd)
    (w : Wiring) (now : Now) : EndsWell cmd (executeSteps w now cmd) := by
  have hname := name_isWord hp
  have harg : ∀ a ∈ cmd.args, IsWord isspace a ∧ a.length < kMaxLineLength := fun a ha =>
    ⟨args_isWord hp ha, length_arg_lt hp ha⟩
  by_cases hk : cmd.type = .UNKNOWN
  · obtain ⟨type, name, args⟩ := cmd
    obtain rfl : type = .UNKNOWN := hk
    exact endsWell_unknown rfl hname
  have hlen := length_name_le (commandTypeFromName_type hp ▸ hk)
  have hfail : EndsWell cmd (answer (arityError cmd)) :=
    endsWell_done hk (isReply_arityError hname hlen) none
  obtain ⟨type, name, args⟩ := cmd
  cases type with
  | SET =>
    obtain _ | ⟨key, _ | ⟨value, _ | ⟨opt, _ | ⟨secs, _ | ⟨_, _⟩⟩⟩⟩⟩ := args
    · exact hfail
    · exact hfail
    · exact endsWell_set (harg value (by simp)) (endsWell_cancel (endsWell_done hk isReply_ok none))
    · exact hfail
    · simp only [executeSteps]
      split
      · cases parsePositiveSeconds secs with
        | none => exact endsWell_done hk (isReply_error (by decide +kernel)) none
        | some n =>
          exact endsWell_set (harg value (by simp))
            (endsWell_schedule _ (endsWell_done hk isReply_ok none))
      · exact hfail
    · exact hfail
  | GET =>
    obtain _ | ⟨key, _ | ⟨_, _⟩⟩ := args
    · exact hfail
    · rw [executeSteps]
      refine endsWell_get (endsWell_done hk isReply_nil none) fun v hv => ?_
      exact endsWell_done hk (isReply_bulk hv.1 hv.2) none
    · exact hfail
  | DEL =>
    obtain _ | ⟨key, _ | ⟨_, _⟩⟩ := args
    · exact hfail
    · rw [executeSteps]
      refine endsWell_del fun existed => ?_
      refine endsWell_cancel (endsWell_done hk ?_ none)
      split <;> exact isReply_integer (by decide)
    · exact hfail
  | INCR | DECR =>
    obtain _ | ⟨key, _ | ⟨_, _⟩⟩ := args
    · exact hfail
    · exact endsWell_incrementSteps hk key _
    · exact hfail
  | TTL =>
    obtain _ | ⟨key, _ | ⟨_, _⟩⟩ := args
    · exact hfail
    · rw [executeSteps]
      refine endsWell_exists (endsWell_done hk (isReply_integer (by decide)) none)
        (endsWell_expiryOf fun t => ?_)
      cases t with
      | none => exact endsWell_done hk (isReply_integer (by decide)) none
      | some t => exact endsWell_done hk (isReply_integer (isInt64_remaining t now)) none
    · exact hfail
  | EXPIRE =>
    obtain _ | ⟨key, _ | ⟨secs, _ | ⟨_, _⟩⟩⟩ := args
    · exact hfail
    · exact hfail
    · rw [executeSteps]
      refine endsWell_exists (endsWell_done hk (isReply_integer (by decide)) none) ?_
      dsimp only
      cases parsePositiveSeconds secs with
      | none => exact endsWell_done hk (isReply_error (by decide +kernel)) none
      | some n =>
        exact endsWell_schedule _ (endsWell_done hk (isReply_integer (by decide)) none)
    · exact hfail
  | PERSIST =>
    obtain _ | ⟨key, _ | ⟨_, _⟩⟩ := args
    · exact hfail
    · rw [executeSteps]
      refine endsWell_exists (endsWell_done hk (isReply_integer (by decide)) none)
        (endsWell_expiryOf fun t => endsWell_cancel (endsWell_done hk ?_ none))
      split <;> exact isReply_integer (by decide)
    · exact hfail
  | PING =>
    cases args with
    | nil => exact endsWell_done hk isReply_ok none
    | cons => exact hfail
  | SAVE | REPLICAOF =>
    simp only [executeSteps]
    repeat' split
    all_goals first
      | exact endsWell_done hk isReply_ok _
      | exact hfail
      | exact endsWell_done hk (isReply_error (by decide +kernel)) none
  | SYNC | ROUTE | NODES => exact endsWell_done hk (isReply_error (by decide +kernel)) none
  | UNKNOWN => exact absurd rfl hk

/-- `execute` gives one reply line, if the command word is not too long to be quoted. -/
theorem execute_isReply {db : Db} (hdb : db.WordValues) {line : Bytes} {cmd : Command}
    (hp : parse line = .ok cmd) (hq : cmd.Quotable) (w : Wiring) (now : Now) :
    IsReply (execute w db now cmd).reply := by
  have hends := ((endsWell_executeSteps hp w now).run hdb).2
  rw [run_executeSteps] at hends
  exact hends.1.isReply (hends.2.mpr hq)

theorem wordValues_execute {db : Db} (hdb : db.WordValues) {line : Bytes} {cmd : Command}
    (hp : parse line = .ok cmd) (w : Wiring) (now : Now) :
    (execute w db now cmd).db.WordValues := by
  have hkept := ((endsWell_executeSteps hp w now).run hdb).1
  rwa [run_executeSteps] at hkept

/-- A command that came in a line keeps the values short. -/
theorem onEntries_short {line : Bytes} {cmd : Command} (hp : parse line = .ok cmd) (c : Nat)
    {es : List (Bytes × Bytes)} (h : ShortValues es) : ShortValues (cmd.onEntries c es) := by
  have hmax : kMaxLineLength = 8192 := rfl
  refine onEntries_forall (fun k v he => ?_) (fun k d n he => ?_) c h
  · exact length_arg_lt hp ((effect_args he).2 v rfl)
  · have := length_to_string_le (isInt64_wrap64 n)
    omega

end TinyKV

import TinyKV.Effect

/-!
# What `INCR` and `DECR` read and write

`KVStore::incrementBy` in `src/storage/kv_store.cpp`, as `INCR` and `DECR` call it. It reads the
value with `std::stoll`, adds without a check, and writes the sum.

* `Store.sum`: the sum as an integer; `incrementBy_of_sum`: `incrementBy` stores what a 64-bit
  register keeps of it.
* `CountsExactly`: the sum stays inside the type, and the reply and the new value are the sum; or
  the command says that it is out of range and changes nothing. `counts_exactly_iff`: this is so
  except at the end of the range that the command counts towards.
* `IsIntegerText`: the whole value is a 64-bit integer in decimal. `std::stoll` reads the longest
  number that a value starts with (`stoll_word`), so it also takes a number with more after it
  (`NumberThenMore`). `accepts_integers_iff`: these are the values that are taken by mistake.
-/

namespace TinyKV

open Cpp Text
open KVStore (counter)

/-- `current + delta` in `incrementBy`, as an integer; `none` if the value is no number. -/
def Store.sum (s : Store) (key : Bytes) (delta : Int) : Option Int :=
  (counter (s.lookup key)).map fun current => current + delta

theorem incrementBy_of_sum (s : Store) (key : Bytes) (delta : Int) :
    s.incrementBy key delta =
      (s.sum key delta).map fun n => (wrap64 n, s.set key (to_string (wrap64 n))) := by
  rw [s.incrementBy_eq, Store.sum, Option.map_map]
  rfl

theorem lookup_set_self (s : Store) (key value : Bytes) :
    (s.set key value).lookup key = some value := by
  rw [Store.lookup_set_apply, if_pos rfl]

/-- The reply of `INCR` and `DECR` if they fail. -/
def notAnInteger : Bytes := Reply.error (ascii "value is not an integer or out of range")

/-- `INCR` and `DECR`: the step that they count. -/
def counterDelta : CommandType → Option Int
  | .INCR => some 1
  | .DECR => some (-1)
  | _ => none

section

variable {w : Wiring} {db : Db} {now : Now} {type : CommandType} {name key : Bytes} {delta : Int}

theorem execute_counter (hd : counterDelta type = some delta) :
    execute w db now ⟨type, name, [key]⟩ = incrementReply db key delta := by
  cases type with
  | INCR | DECR =>
    cases hd
    rfl
  | SET | GET | DEL | PING | TTL | EXPIRE | PERSIST | SAVE | REPLICAOF | SYNC | ROUTE | NODES
  | UNKNOWN => cases hd

/-- A value that reads as a number. -/
theorem execute_counter_some (w : Wiring) (now : Now) (name : Bytes)
    (hd : counterDelta type = some delta) {v : Int} (hv : counter (db.store.lookup key) = some v) :
    execute w db now ⟨type, name, [key]⟩ =
      { db := { db with store := db.store.set key (to_string (wrap64 (v + delta))) }
        reply := Reply.integer (wrap64 (v + delta)) } := by
  rw [execute_counter hd, incrementReply, db.store.incrementBy_eq, hv]
  rfl

/-- A value that does not. -/
theorem execute_counter_none (w : Wiring) (now : Now) (name : Bytes)
    (hd : counterDelta type = some delta) (hv : counter (db.store.lookup key) = none) :
    execute w db now ⟨type, name, [key]⟩ = { db := db, reply := notAnInteger } := by
  rw [execute_counter hd, incrementReply, db.store.incrementBy_eq, hv]
  rfl

end

/-! ## Overflow -/

/-- The command counts the number `v` of the key by `delta` as integers count, or not at all. -/
structure CountsExactly (w : Wiring) (db : Db) (now : Now) (cmd : Command) (key : Bytes)
    (v delta : Int) : Prop where
  noOverflow : ∀ n, db.store.sum key delta = some n → IsInt64 n
  outcome :
    ((execute w db now cmd).reply = Reply.integer (v + delta) ∧
      (execute w db now cmd).db.store.lookup key = some (to_string (v + delta))) ∨
    ((execute w db now cmd).reply = notAnInteger ∧ (execute w db now cmd).db.store = db.store)

section

variable {w : Wiring} {db : Db} {now : Now} {type : CommandType} {name key x : Bytes}
  {v delta : Int}

/-- The reply and the value are exact where the sum is inside the type, and only there. -/
theorem exact_outcome_iff (w : Wiring) (now : Now) (name : Bytes)
    (hd : counterDelta type = some delta) (hx : db.store.lookup key = some x)
    (hv : stoll x = some v) :
    ((execute w db now ⟨type, name, [key]⟩).reply = Reply.integer (v + delta) ∧
        (execute w db now ⟨type, name, [key]⟩).db.store.lookup key =
          some (to_string (v + delta))) ∨
      ((execute w db now ⟨type, name, [key]⟩).reply = notAnInteger ∧
        (execute w db now ⟨type, name, [key]⟩).db.store = db.store) ↔
    IsInt64 (v + delta) := by
  have hcounter : counter (db.store.lookup key) = some v := by rw [hx]; exact hv
  rw [execute_counter_some w now name hd hcounter]
  dsimp only
  rw [lookup_set_self]
  constructor
  · rintro (⟨-, hstored⟩ | ⟨hreply, -⟩)
    · -- The register kept the sum, so the sum was inside the type.
      rw [← to_string_injective (Option.some.inj hstored)]
      exact isInt64_wrap64 _
    · cases hreply
  · intro h
    rw [wrap64_of_isInt64 h]
    exact .inl ⟨rfl, rfl⟩

theorem countsExactly_iff (hd : counterDelta type = some delta)
    (hx : db.store.lookup key = some x) (hv : stoll x = some v) :
    CountsExactly w db now ⟨type, name, [key]⟩ key v delta ↔ IsInt64 (v + delta) := by
  rw [← exact_outcome_iff w now name hd hx hv]
  refine ⟨fun h => h.outcome, fun h => ⟨fun n hn => ?_, h⟩⟩
  rw [Store.sum, hx, show counter (some x) = some v from hv] at hn
  cases hn
  exact (exact_outcome_iff w now name hd hx hv).mp h

end

/-- **Counter arithmetic.** `INCR` counts a number exactly, or refuses to, unless it is the greatest
`long long`; and `DECR` unless it is the least one. -/
theorem counts_exactly_iff (w : Wiring) (db : Db) (now : Now) (name key x : Bytes) (v : Int)
    (hx : db.store.lookup key = some x) (hv : stoll x = some v) :
    (CountsExactly w db now ⟨.INCR, name, [key]⟩ key v 1 ↔ v ≠ 2 ^ 63 - 1) ∧
    (CountsExactly w db now ⟨.DECR, name, [key]⟩ key v (-1) ↔ v ≠ -2 ^ 63) := by
  have hr := isInt64_of_stoll hv
  rw [countsExactly_iff rfl hx hv, countsExactly_iff rfl hx hv]
  unfold IsInt64 at hr ⊢
  omega

/-- The key `n` with a value. -/
def counterDb (value : String) : Db := ⟨(Store.empty 0).set (ascii "n") (ascii value), .empty⟩

theorem lookup_counterDb (value : String) :
    (counterDb value).store.lookup (ascii "n") = some (ascii value) := lookup_set_self _ _ _

theorem counts_exactly_iff_nextToGreatest :
    CountsExactly ⟨true, true⟩ (counterDb "9223372036854775806") .epoch
      ⟨.INCR, ascii "INCR", [ascii "n"]⟩ (ascii "n") (2 ^ 63 - 2) 1 :=
  (counts_exactly_iff _ _ _ _ _ _ _ (lookup_counterDb _) (by decide +kernel)).1.mpr (by decide)

/-- `INCR` on the greatest `long long` overflows. -/
theorem not_counts_exactly_greatest :
    ¬ ∀ (w : Wiring) (db : Db) (now : Now) (name key x : Bytes) (v : Int),
      db.store.lookup key = some x → stoll x = some v →
      CountsExactly w db now ⟨.INCR, name, [key]⟩ key v 1 ∧
        CountsExactly w db now ⟨.DECR, name, [key]⟩ key v (-1) := by
  intro h
  have hread : stoll (ascii "9223372036854775807") = some (2 ^ 63 - 1) := by decide +kernel
  have hexact := (h ⟨true, true⟩ (counterDb "9223372036854775807") .epoch (ascii "INCR")
    (ascii "n") _ _ (lookup_counterDb _) hread).1
  exact absurd ((countsExactly_iff rfl (lookup_counterDb _) hread).mp hexact) (by decide)

/-! ## Values that are no integers -/

/-- The whole text is a 64-bit integer in decimal, with a sign or without one. -/
def IsIntegerText (x : Bytes) : Prop := ∃ n, IsNumeral x n ∧ IsInt64 n

/-- A 64-bit integer in decimal, and then something that is no digit. -/
def NumberThenMore (x : Bytes) : Prop :=
  ∃ t c cs, x = t ++ c :: cs ∧ IsIntegerText t ∧ isdigit c = false

/-- What `std::stoll` reads of a word. -/
theorem stoll_word {x : Bytes} (hx : IsWord isspace x) {n : Int} :
    stoll x = some n ↔
      ∃ t rest, x = t ++ rest ∧ IsNumeral t n ∧ NoDigitFirst rest ∧ IsInt64 n := by
  have hdrop : x.dropWhile isspace = x := by
    obtain ⟨c, cs, rfl⟩ := List.exists_cons_of_ne_nil hx.1
    exact List.dropWhile_cons_of_neg (by simp [hx.2 c List.mem_cons_self])
  rw [stoll, strtol_eq_some, hdrop]
  rfl

/-- A value reads as a number if it is one, or starts with one. -/
theorem isSome_stoll_iff {x : Bytes} (hx : IsWord isspace x) :
    (stoll x).isSome = true ↔ IsIntegerText x ∨ NumberThenMore x := by
  rw [Option.isSome_iff_exists]
  constructor
  · rintro ⟨n, hn⟩
    obtain ⟨t, rest, rfl, ht, hrest, hr⟩ := (stoll_word hx).mp hn
    cases rest with
    | nil => exact .inl ⟨n, by rwa [List.append_nil], hr⟩
    | cons c cs => exact .inr ⟨t, c, cs, rfl, ⟨n, ht, hr⟩, hrest c rfl⟩
  · rintro (⟨n, hn, hr⟩ | ⟨t, c, cs, rfl, ⟨n, hn, hr⟩, hc⟩)
    · exact ⟨n, (stoll_word hx).mpr ⟨x, [], by simp, hn, noDigitFirst_nil, hr⟩⟩
    · refine ⟨n, (stoll_word hx).mpr ⟨t, c :: cs, rfl, hn, fun d hd => ?_, hr⟩⟩
      cases hd
      exact hc

/-- A number with more after it is not itself a number. -/
theorem NumberThenMore.not_integer {x : Bytes} (h : NumberThenMore x) : ¬ IsIntegerText x := by
  obtain ⟨t, c, cs, rfl, ⟨n, ht, -⟩, hc⟩ := h
  rintro ⟨m, hm, -⟩
  obtain ⟨d, ds, rfl⟩ := List.exists_cons_of_ne_nil ht.ne_nil
  have hdigit := hm.digit_of_mem_tail (c := c) (by simp)
  rw [hc] at hdigit
  cases hdigit

/-- The command succeeds on the value `x` of the key only if `x` is an integer, and on any other
value it is refused and the value stays. -/
structure AcceptsIntegersOnly (w : Wiring) (db : Db) (now : Now) (cmd : Command)
    (key x : Bytes) : Prop where
  accepts : succeeded (execute w db now cmd).reply = true → IsIntegerText x
  refuses : ¬ IsIntegerText x → (execute w db now cmd).reply = notAnInteger ∧
    (execute w db now cmd).db.store.lookup key = some x

theorem acceptsIntegersOnly_iff {w : Wiring} {db : Db} {now : Now} {type : CommandType}
    {name key x : Bytes} {delta : Int} (hd : counterDelta type = some delta)
    (hx : db.store.lookup key = some x) (hword : IsWord isspace x) :
    AcceptsIntegersOnly w db now ⟨type, name, [key]⟩ key x ↔ ¬ NumberThenMore x := by
  have hcounter : counter (db.store.lookup key) = stoll x := by rw [hx]; rfl
  cases hv : stoll x with
  | none =>
    have hout := execute_counter_none w now name hd (hcounter.trans hv)
    have hneither := mt (isSome_stoll_iff hword).mpr (by simp [hv])
    refine iff_of_true ⟨?_, fun _ => ?_⟩ fun h => hneither (.inr h)
    · rw [hout]
      rintro ⟨⟩
    · rw [hout]
      exact ⟨rfl, hx⟩
  | some v =>
    have hout := execute_counter_some w now name hd (hcounter.trans hv)
    constructor
    · intro h hmore
      exact hmore.not_integer (h.accepts (by rw [hout]; rfl))
    · intro hno
      have hint : IsIntegerText x :=
        ((isSome_stoll_iff hword).mp (by simp [hv])).resolve_right hno
      exact ⟨fun _ => hint, fun hn => absurd hint hn⟩

/-- **Integers.** `INCR` and `DECR` accept 64-bit integers in decimal and refuse any other value,
unless it is a number with more after it. -/
theorem accepts_integers_iff (w : Wiring) (db : Db) (now : Now) (name key x : Bytes)
    (hx : db.store.lookup key = some x) (hword : IsWord isspace x) :
    (AcceptsIntegersOnly w db now ⟨.INCR, name, [key]⟩ key x ∧
      AcceptsIntegersOnly w db now ⟨.DECR, name, [key]⟩ key x) ↔ ¬ NumberThenMore x := by
  rw [acceptsIntegersOnly_iff rfl hx hword, acceptsIntegersOnly_iff rfl hx hword, and_self]

theorem accepts_integers_iff_word :
    AcceptsIntegersOnly ⟨true, true⟩ (counterDb "abc") .epoch ⟨.INCR, ascii "INCR", [ascii "n"]⟩
      (ascii "n") (ascii "abc") := by
  refine ((accepts_integers_iff _ _ _ _ _ _ (lookup_counterDb "abc") (by decide)).mpr ?_).1
  intro h
  have hread := (isSome_stoll_iff (by decide)).mpr (.inr h)
  revert hread
  decide

/-- `INCR` takes `12abc` for `12`. -/
theorem not_accepts_integers_suffix :
    ¬ ∀ (w : Wiring) (db : Db) (now : Now) (name key x : Bytes),
      db.store.lookup key = some x → IsWord isspace x →
      AcceptsIntegersOnly w db now ⟨.INCR, name, [key]⟩ key x ∧
        AcceptsIntegersOnly w db now ⟨.DECR, name, [key]⟩ key x := by
  intro h
  have haccepts := (h ⟨true, true⟩ (counterDb "12abc") .epoch (ascii "INCR") (ascii "n") _
    (lookup_counterDb _) (by decide)).1
  refine (acceptsIntegersOnly_iff rfl (lookup_counterDb _) (by decide)).mp haccepts ?_
  refine ⟨ascii "12", 97, ascii "bc", by decide, ⟨12, ⟨ascii "12", ?_⟩, by decide⟩, by decide⟩
  exact ⟨by decide, List.all_eq_true.mp (by decide), .inl ⟨rfl, by decide⟩⟩

end TinyKV

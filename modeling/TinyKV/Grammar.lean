import TinyKV.Protocol
import Mathlib.Data.List.Forall2

/-!
# The grammar of request lines

`src/protocol/parser.cpp`. The parser takes a line of at most `kMaxLineLength` bytes that has a byte
which is no blank. The tokens are the maximal runs without a blank (`Text.Runs`): the first is the
command word, the others are the arguments.

* `parse_eq_error`: when it throws. `parse_runs`: what it returns, by the runs of the line.
* `parse_joinTokens`: tokens written with one blank between two of them come back.
* `parse_recased`: the letter case of the command word shows in `cmd.name` only.
-/

namespace TinyKV

open Cpp Text

/-- The parser throws on a long line, and on one of blanks. -/
theorem parse_eq_error {line : Bytes} :
    (∃ e, parse line = .error e) ↔ kMaxLineLength < line.length ∨ ∀ c ∈ line, isspace c = true := by
  rw [← words_eq_nil_iff]
  unfold parse tokenize
  split
  · rename_i hlong
    exact iff_of_true ⟨_, rfl⟩ (.inl hlong)
  · rename_i hshort
    cases words isspace line with
    | nil => exact iff_of_true ⟨_, rfl⟩ (.inr rfl)
    | cons name args =>
      refine iff_of_false (fun ⟨e, he⟩ => nomatch he) ?_
      rintro (hlong | hnil)
      · exact hshort hlong
      · cases hnil

/-- The command word and the arguments are the runs of the line. -/
theorem parse_runs {line : Bytes} {cmd : Command} (h : parse line = .ok cmd) (ws : List Bytes) :
    Runs isspace line ws ↔ ws = cmd.name :: cmd.args := by
  obtain ⟨-, name, args, ht, rfl⟩ := parse_eq_ok.mp h
  rw [runs_iff, show words isspace line = name :: args from ht, eq_comm]

/-- What a line with these runs parses to. -/
theorem parse_of_runs {line name : Bytes} {args : List Bytes} (h : Runs isspace line (name :: args))
    (hlen : line.length ≤ kMaxLineLength) :
    parse line = .ok ⟨commandTypeFromName name, name, args⟩ :=
  parse_eq_ok.mpr ⟨hlen, name, args, h.words_eq, rfl⟩

/-- Lines with the same runs parse to the same. -/
theorem parse_congr {line line' : Bytes} {ws : List Bytes} (h : Runs isspace line ws)
    (h' : Runs isspace line' ws) (hlen : line.length ≤ kMaxLineLength)
    (hlen' : line'.length ≤ kMaxLineLength) : parse line = parse line' := by
  cases ws with
  | nil =>
    have hnil : tokenize line = [] := h.words_eq
    have hnil' : tokenize line' = [] := h'.words_eq
    rw [parse, parse, if_neg (Nat.not_lt.mpr hlen), if_neg (Nat.not_lt.mpr hlen'), hnil, hnil']
  | cons name args => rw [parse_of_runs h hlen, parse_of_runs h' hlen']

/-- `t0 + ' ' + t1 + ... + ' ' + tn`. -/
def joinTokens (t0 : Bytes) (ts : List Bytes) : Bytes := t0 ++ ts.flatMap fun t => 32 :: t

theorem parse_joinTokens {t0 : Bytes} {ts : List Bytes} (h : ∀ t ∈ t0 :: ts, IsWord isspace t)
    (hlen : (joinTokens t0 ts).length ≤ kMaxLineLength) :
    parse (joinTokens t0 ts) = .ok ⟨commandTypeFromName t0, t0, ts⟩ :=
  parse_of_runs (runs_iff.mpr (words_join (by decide) h)) hlen

/-! ## Letter case -/

/-- The same byte, or the same letter in another case. -/
def SameLetter (c c' : UInt8) : Prop := c' = c ∨ c' = toupper c ∨ c' = tolower c

theorem SameLetter.toupper_eq {c c' : UInt8} (h : SameLetter c c') : toupper c' = toupper c := by
  rcases h with rfl | rfl | rfl
  · rfl
  · exact toupper_toupper c
  · exact toupper_tolower c

theorem SameLetter.isspace_eq {c c' : UInt8} (h : SameLetter c c') : isspace c' = isspace c := by
  rcases h with rfl | rfl | rfl
  · rfl
  · exact isspace_toupper c
  · exact isspace_tolower c

/-- The word with some letters in another case. -/
def Recased (w w' : Bytes) : Prop := List.Forall₂ SameLetter w w'

variable {w w' : Bytes}

theorem Recased.toUpper_eq (h : Recased w w') : toUpper w' = toUpper w := by
  induction h with
  | nil => rfl
  | cons hc _ ih => exact congrArg₂ List.cons hc.toupper_eq ih

theorem Recased.isWord (h : Recased w w') (hw : IsWord isspace w) : IsWord isspace w' := by
  have hsep : ∀ c ∈ w', isspace c = false := by
    have hw := hw.2
    clear * - h hw
    induction h with
    | nil => simp
    | cons hc _ ih =>
      obtain ⟨hw, hws⟩ := List.forall_mem_cons.mp hw
      exact List.forall_mem_cons.mpr ⟨hc.isspace_eq.trans hw, ih hws⟩
  refine ⟨fun hnil => hw.1 ?_, hsep⟩
  rw [← List.length_eq_zero_iff, List.Forall₂.length_eq h, hnil, List.length_nil]

theorem Recased.commandTypeFromName_eq (h : Recased w w') :
    commandTypeFromName w' = commandTypeFromName w := by
  unfold commandTypeFromName
  rw [h.toUpper_eq]

/-- The command word in another letter case: only `cmd.name` is another. -/
theorem parse_recased {s rest : Bytes} (hs : ∀ c ∈ s, isspace c = true) (hw : IsWord isspace w)
    (hrest : ∀ c ∈ rest.head?, isspace c = true) (h : Recased w w') {cmd : Command}
    (hp : parse (s ++ w ++ rest) = .ok cmd) :
    cmd.name = w ∧ parse (s ++ w' ++ rest) = .ok { cmd with name := w' } := by
  have hruns : Runs isspace (s ++ w ++ rest) (w :: words isspace rest) :=
    .run hs hw hrest (runs_iff.mpr rfl)
  have hruns' : Runs isspace (s ++ w' ++ rest) (w' :: words isspace rest) :=
    .run hs (h.isWord hw) hrest (runs_iff.mpr rfl)
  have hlen : (s ++ w ++ rest).length ≤ kMaxLineLength := (parse_eq_ok.mp hp).1
  have hlen' : (s ++ w' ++ rest).length = (s ++ w ++ rest).length := by
    simp only [List.length_append, List.Forall₂.length_eq h]
  rw [parse_of_runs hruns hlen] at hp
  cases hp
  refine ⟨rfl, ?_⟩
  rw [parse_of_runs hruns' (hlen'.trans_le hlen), h.commandTypeFromName_eq]

/-- **The grammar.** The parser throws exactly on a line that is over 8192 bytes or has only blanks.
Else name and arguments are the runs of the line. Joined tokens come back, blanks between the tokens
do not matter, and the letter case of the command word shows in the name only. -/
theorem parse_grammar :
    (∀ line, (∃ e, parse line = .error e) ↔ 8192 < line.length ∨ ∀ c ∈ line, isspace c = true) ∧
    (∀ line cmd, parse line = .ok cmd →
      cmd.type = commandTypeFromName cmd.name ∧
        ∀ ws, Runs isspace line ws ↔ ws = cmd.name :: cmd.args) ∧
    (∀ t0 ts, (∀ t ∈ t0 :: ts, IsWord isspace t) → (joinTokens t0 ts).length ≤ 8192 →
      parse (joinTokens t0 ts) = .ok ⟨commandTypeFromName t0, t0, ts⟩) ∧
    (∀ line line' ws, Runs isspace line ws → Runs isspace line' ws → line.length ≤ 8192 →
      line'.length ≤ 8192 → parse line = parse line') ∧
    ∀ s w w' rest cmd, (∀ c ∈ s, isspace c = true) → IsWord isspace w →
      (∀ c ∈ rest.head?, isspace c = true) → Recased w w' → parse (s ++ w ++ rest) = .ok cmd →
      cmd.name = w ∧ parse (s ++ w' ++ rest) = .ok { cmd with name := w' } :=
  ⟨fun _ => parse_eq_error, fun _ _ h => ⟨commandTypeFromName_type h, parse_runs h⟩,
    fun _ _ => parse_joinTokens, fun _ _ _ => parse_congr,
    fun _ _ _ _ _ hs hw hrest h hp => parse_recased hs hw hrest h hp⟩

/-- `GET k` with other blanks and in lower case. -/
theorem parse_grammar_getKey :
    parse (ascii " \tget k\r") = .ok ⟨.GET, ascii "get", [ascii "k"]⟩ := by
  obtain ⟨-, -, hjoin, hblanks, hcase⟩ := parse_grammar
  have htokens : ∀ t ∈ [ascii "GET", ascii "k"], IsWord isspace t := by
    simp only [List.forall_mem_cons, List.not_mem_nil, false_implies, implies_true, and_true]
    exact ⟨by decide, by decide⟩
  have hget := hjoin (ascii "GET") [ascii "k"] htokens (by decide)
  have hother := hblanks (joinTokens (ascii "GET") [ascii "k"]) (ascii " \tGET k\r")
    [ascii "GET", ascii "k"] (runs_iff.mpr (by decide)) (runs_iff.mpr (by decide)) (by decide)
    (by decide)
  rw [hget] at hother
  have hlower : Recased (ascii "GET") (ascii "get") :=
    .cons (.inr (.inr rfl)) (.cons (.inr (.inr rfl)) (.cons (.inr (.inr rfl)) .nil))
  have hback := hcase (ascii " \t") (ascii "GET") (ascii "get") (ascii " k\r") _
    (List.all_eq_true.mp (by decide)) (htokens _ List.mem_cons_self)
    (fun c hc => by cases hc; rfl) hlower hother.symm
  exact hback.2

end TinyKV

import Mathlib.Data.List.Basic
import Mathlib.Data.List.DropRight

/-!
# Words and lines of a text

Ways to cut a text (a list over any alphabet) into pieces, as stream readers do it:

* `words p l`: the maximal nonempty runs of `l` without a separator (a character with `p`). This
  is what a loop of formatted reads (`in >> token`) gives.
* `strip p l`: without the separators at the ends. `cutAt c l`: cut at the first `c`.
* `getlines nl l`: the lines of `l`, each ended by `nl`; a last line without `nl` counts if it is
  nonempty. This is what a loop of `getline` gives. `unlines nl ls` writes lines, each with its
  `nl`. `finished nl l`, `unfinished nl l`: up to the last `nl`, and after it.

A text written with separators between words, or with `nl` after each line, reads back
(`words_append_sep`, `words_join`, `getlines_unlines`); the words of a text fit in it with the
separators between them (`length_words_le`). `runs_iff`: `words` gives the one list of maximal runs.
-/

namespace Text

variable {α : Type*}

/-! ## Words -/

/-- The maximal nonempty runs of `l` without a separator. -/
def words (p : α → Bool) (l : List α) : List (List α) :=
  (l.splitOnP p).filter fun w => !w.isEmpty

/-- `w` is one word: nonempty, without a separator. -/
def IsWord (p : α → Bool) (w : List α) : Prop := w ≠ [] ∧ ∀ c ∈ w, p c = false

instance (p : α → Bool) (w : List α) : Decidable (IsWord p w) :=
  decidable_of_iff (w.isEmpty = false ∧ w.all (fun c => !p c) = true)
    (and_congr (by cases w <;> simp) (by simp))

@[simp] theorem words_nil (p : α → Bool) : words p [] = [] := rfl

/-- A separator ends a word: what is before it and what is after it are read on their own. -/
theorem words_append_sep {p : α → Bool} {c : α} (hc : p c = true) (a b : List α) :
    words p (a ++ c :: b) = words p a ++ words p b := by
  simp [words, List.splitOnP_append_cons a b hc]

theorem words_snoc_sep {p : α → Bool} {c : α} (hc : p c = true) (l : List α) :
    words p (l ++ [c]) = words p l := by
  simpa using words_append_sep hc l []

/-- One word reads back as itself. -/
theorem IsWord.words_eq {p : α → Bool} {w : List α} (h : IsWord p w) : words p w = [w] := by
  have hs : w.splitOnP p = [w] := List.splitOnP_eq_singleton h.2
  have hne : w.isEmpty = false := by simpa using h.1
  simp [words, hs, hne]

/-- A word in front of a separator is the first word. -/
theorem IsWord.words_append {p : α → Bool} {w : List α} (h : IsWord p w) {c : α}
    (hc : p c = true) (l : List α) : words p (w ++ c :: l) = w :: words p l := by
  rw [words_append_sep hc, h.words_eq]
  rfl

theorem not_sep_of_mem_splitOnP (p : α → Bool) (l : List α) :
    ∀ w ∈ l.splitOnP p, ∀ c ∈ w, p c = false := by
  induction l with
  | nil => simp
  | cons a l ih =>
    rw [List.splitOnP_cons_eq_if_modifyHead]
    by_cases ha : p a = true
    · simp only [ha, ↓reduceIte, List.mem_cons, forall_eq_or_imp, List.not_mem_nil,
        false_implies, implies_true, true_and]
      exact ih
    · -- `a` goes to the front of the first piece.
      obtain ⟨x, xs, hx⟩ := List.exists_cons_of_ne_nil (List.splitOnP_ne_nil p l)
      rw [hx] at ih ⊢
      simp only [ha, Bool.false_eq_true, ↓reduceIte, List.modifyHead_cons, List.mem_cons,
        forall_eq_or_imp] at ih ⊢
      exact ⟨⟨by simp, ih.1⟩, ih.2⟩

/-- What `words` returns are words. -/
theorem isWord_of_mem_words {p : α → Bool} {l w : List α} (h : w ∈ words p l) : IsWord p w := by
  obtain ⟨hm, hne⟩ := List.mem_filter.mp h
  exact ⟨by simpa using hne, not_sep_of_mem_splitOnP p l w hm⟩

/-- The pieces between separators, with the separators, make up the text. -/
theorem length_splitOnP (p : α → Bool) (l : List α) :
    (l.splitOnP p).flatten.length + (l.splitOnP p).length = l.length + 1 := by
  induction l with
  | nil => simp
  | cons a l ih =>
    rw [List.splitOnP_cons_eq_if_modifyHead]
    obtain ⟨x, xs, hx⟩ := List.exists_cons_of_ne_nil (List.splitOnP_ne_nil p l)
    rw [hx] at ih ⊢
    split
    · simp only [List.flatten_cons, List.length_append, List.length_cons, List.length_nil] at ih ⊢
      omega
    · simp only [List.modifyHead_cons, List.flatten_cons, List.length_append,
        List.length_cons] at ih ⊢
      omega

theorem length_filter_nonempty_le (ls : List (List α)) :
    (ls.filter fun w => !w.isEmpty).flatten.length + (ls.filter fun w => !w.isEmpty).length ≤
      ls.flatten.length + ls.length := by
  induction ls with
  | nil => simp
  | cons l ls ih =>
    by_cases hl : l.isEmpty = true
    · rw [List.filter_cons_of_neg (by simp [hl])]
      simp only [List.flatten_cons, List.length_append, List.length_cons]
      omega
    · rw [List.filter_cons_of_pos (by simp [hl])]
      simp only [List.flatten_cons, List.length_append, List.length_cons]
      omega

/-- The words of a text fit in it, with one separator between two of them. -/
theorem length_words_le (p : α → Bool) (l : List α) :
    (words p l).flatten.length + (words p l).length ≤ l.length + 1 := by
  calc (words p l).flatten.length + (words p l).length
      ≤ (l.splitOnP p).flatten.length + (l.splitOnP p).length := length_filter_nonempty_le _
    _ = l.length + 1 := length_splitOnP p l

/-! ## Runs -/

/-- `ws` are the maximal runs of `l` without a separator, in order: each has separators (or nothing,
at the ends) on both sides. -/
inductive Runs (p : α → Bool) : List α → List (List α) → Prop where
  | blank {s : List α} (hs : ∀ c ∈ s, p c = true) : Runs p s []
  | run {s w l : List α} {ws : List (List α)} (hs : ∀ c ∈ s, p c = true) (hw : IsWord p w)
      (hl : ∀ c ∈ l.head?, p c = true) (h : Runs p l ws) : Runs p (s ++ w ++ l) (w :: ws)

/-- Separators in front are skipped. -/
theorem words_seps_append {p : α → Bool} {s : List α} (hs : ∀ c ∈ s, p c = true) (l : List α) :
    words p (s ++ l) = words p l := by
  induction s with
  | nil => rfl
  | cons c s ih =>
    obtain ⟨hc, hs⟩ := List.forall_mem_cons.mp hs
    exact (words_append_sep hc [] (s ++ l)).trans (ih hs)

/-- A word that ends at a separator, or with the text, is the first word. -/
theorem IsWord.words_append_of_head {p : α → Bool} {w : List α} (h : IsWord p w) {l : List α}
    (hl : ∀ c ∈ l.head?, p c = true) : words p (w ++ l) = w :: words p l := by
  cases l with
  | nil => rw [List.append_nil, h.words_eq, words_nil]
  | cons c l =>
    have hc : p c = true := hl c rfl
    have hskip : words p (c :: l) = words p l := words_append_sep hc [] l
    rw [h.words_append hc, hskip]

/-- A text of separators has no words. -/
theorem words_eq_nil_iff {p : α → Bool} {l : List α} : words p l = [] ↔ ∀ c ∈ l, p c = true := by
  constructor
  · intro h
    induction l with
    | nil => simp
    | cons a l ih =>
      by_cases ha : p a = true
      · have hskip : words p (a :: l) = words p l := words_append_sep ha [] l
        exact List.forall_mem_cons.mpr ⟨ha, ih (hskip.symm.trans h)⟩
      · -- The first piece is not empty.
        obtain ⟨x, xs, hx⟩ := List.exists_cons_of_ne_nil (List.splitOnP_ne_nil p l)
        rw [words, List.splitOnP_cons_eq_if_modifyHead, if_neg ha, hx] at h
        simp at h
  · intro h
    have hskip := words_seps_append h []
    rwa [List.append_nil, words_nil] at hskip

theorem Runs.words_eq {p : α → Bool} {l : List α} {ws : List (List α)} (h : Runs p l ws) :
    words p l = ws := by
  induction h with
  | blank hs => exact words_eq_nil_iff.mpr hs
  | run hs hw hl _ ih =>
    rw [List.append_assoc, words_seps_append hs, hw.words_append_of_head hl, ih]

theorem Runs.cons_sep {p : α → Bool} {a : α} (ha : p a = true) {l : List α} {ws : List (List α)}
    (h : Runs p l ws) : Runs p (a :: l) ws := by
  cases h with
  | blank hs => exact .blank (List.forall_mem_cons.mpr ⟨ha, hs⟩)
  | run hs hw hl h => exact .run (List.forall_mem_cons.mpr ⟨ha, hs⟩) hw hl h

/-- A character in front of a run makes it longer, or is a run of its own. -/
theorem Runs.cons_word {p : α → Bool} {a : α} (ha : p a = false) {l : List α} {ws : List (List α)}
    (h : Runs p l ws) : ∃ ws', Runs p (a :: l) ws' := by
  by_cases hl : ∀ c ∈ l.head?, p c = true
  · have hword : IsWord p [a] := ⟨List.cons_ne_nil a [], List.forall_mem_singleton.mpr ha⟩
    have hrun : Runs p ([] ++ [a] ++ l) ([a] :: ws) := .run (by simp) hword hl h
    exact ⟨[a] :: ws, hrun⟩
  · cases h with
    | blank hs => exact absurd (fun c hc => hs c (List.mem_of_head? hc)) hl
    | @run s w l ws hs hw hend h =>
      cases s with
      | nil =>
        have hword : IsWord p (a :: w) :=
          ⟨List.cons_ne_nil a w, List.forall_mem_cons.mpr ⟨ha, hw.2⟩⟩
        have hrun : Runs p ([] ++ (a :: w) ++ l) ((a :: w) :: ws) := .run (by simp) hword hend h
        exact ⟨(a :: w) :: ws, hrun⟩
      | cons b s => exact absurd (by simpa using hs b List.mem_cons_self) hl

/-- Every text has runs. -/
theorem exists_runs (p : α → Bool) (l : List α) : ∃ ws, Runs p l ws := by
  induction l with
  | nil => exact ⟨[], .blank (by simp)⟩
  | cons a l ih =>
    obtain ⟨ws, h⟩ := ih
    cases ha : p a with
    | true => exact ⟨ws, h.cons_sep ha⟩
    | false => exact h.cons_word ha

/-- The words of a text are its runs. -/
theorem runs_iff {p : α → Bool} {l : List α} {ws : List (List α)} :
    Runs p l ws ↔ words p l = ws := by
  refine ⟨Runs.words_eq, ?_⟩
  rintro rfl
  obtain ⟨ws, h⟩ := exists_runs p l
  rwa [h.words_eq]

/-- Words with a separator between two of them read back. -/
theorem words_join {p : α → Bool} {c : α} (hc : p c = true) {w : List α} {ws : List (List α)}
    (hws : ∀ v ∈ w :: ws, IsWord p v) : words p (w ++ ws.flatMap fun v => c :: v) = w :: ws := by
  induction ws generalizing w with
  | nil => simpa using (hws w List.mem_cons_self).words_eq
  | cons v ws ih =>
    obtain ⟨hw, hws⟩ := List.forall_mem_cons.mp hws
    rw [List.flatMap_cons, List.cons_append, hw.words_append hc, ih hws]

/-! ## Stripping -/

section Strip

variable {p : α → Bool} {s b : List α}

/-- The text without the separators at its ends. -/
def strip (p : α → Bool) (s : List α) : List α := (s.dropWhile p).rdropWhile p

theorem rdropWhile_append_seps (hb : ∀ c ∈ b, p c = true) (s : List α) :
    (s ++ b).rdropWhile p = s.rdropWhile p := by
  rw [List.rdropWhile, List.rdropWhile, List.reverse_append,
    List.dropWhile_append_of_pos fun c hc => hb c (List.mem_reverse.mp hc)]

/-- What is not a separator stays, with what is before it. -/
theorem rdropWhile_append_cons {c : α} (hc : p c = false) (s t : List α) :
    (s ++ c :: t).rdropWhile p = s ++ c :: t.rdropWhile p := by
  induction t using List.reverseRecOn with
  | nil =>
    rw [List.rdropWhile_nil]
    exact List.rdropWhile_concat_neg p s c (by simp [hc])
  | append_singleton t d ih =>
    have hassoc : s ++ c :: (t ++ [d]) = (s ++ c :: t) ++ [d] := by simp
    cases hd : p d with
    | true =>
      rw [hassoc, List.rdropWhile_concat_pos p _ d hd, ih, List.rdropWhile_concat_pos p _ d hd]
    | false =>
      rw [hassoc, List.rdropWhile_concat_neg p _ d (by simp [hd]),
        List.rdropWhile_concat_neg p _ d (by simp [hd]), hassoc]

theorem strip_seps_append (hb : ∀ c ∈ b, p c = true) (s : List α) :
    strip p (b ++ s) = strip p s := by
  rw [strip, List.dropWhile_append_of_pos hb, strip]

theorem strip_append_seps (hb : ∀ c ∈ b, p c = true) (s : List α) :
    strip p (s ++ b) = strip p s := by
  unfold strip
  rw [List.dropWhile_append]
  split
  · rename_i hnil
    rw [List.isEmpty_iff.mp hnil, List.dropWhile_eq_nil_iff.mpr hb]
  · exact rdropWhile_append_seps hb _

/-- Separators at the end are stripped once only. -/
theorem strip_rdropWhile (p : α → Bool) (s : List α) : strip p (s.rdropWhile p) = strip p s := by
  have hsplit : s.rdropWhile p ++ s.rtakeWhile p = s := List.rdropWhile_append_rtakeWhile
  conv_rhs => rw [← hsplit]
  exact (strip_append_seps (fun c hc => List.mem_rtakeWhile_imp hc) _).symm

/-- A text that is stripped does not start with a separator. -/
theorem head_of_strip_eq (h : strip p s = s) : ∀ c ∈ s.head?, p c = false := by
  intro c hc
  cases s with
  | nil => cases hc
  | cons d s =>
    cases hc
    by_contra hd
    have hlen := congrArg List.length h
    rw [strip, List.dropWhile_cons_of_pos (by simpa using hd)] at hlen
    have hr := (List.rdropWhile_prefix p (l := s.dropWhile p)).length_le
    have hl := (List.dropWhile_suffix p (l := s)).length_le
    rw [List.length_cons] at hlen
    omega

/-- The stripped text of a line `k c rest` with separators in front. -/
theorem strip_keyed {k : List α} (hk : strip p k = k) (hne : k ≠ []) (hs : ∀ c ∈ s, p c = true)
    {c : α} (hc : p c = false) (rest : List α) :
    strip p (s ++ (k ++ b ++ c :: rest)) = k ++ b ++ c :: rest.rdropWhile p := by
  obtain ⟨d, k, rfl⟩ := List.exists_cons_of_ne_nil hne
  have hd : p d = false := head_of_strip_eq hk d rfl
  rw [strip_seps_append hs, strip, List.cons_append, List.cons_append,
    List.dropWhile_cons_of_neg (by simp [hd]), ← List.cons_append, ← List.cons_append]
  exact rdropWhile_append_cons hc _ rest

end Strip

/-! ## Cutting -/

/-- What is before the first `c` and what is after it. -/
def cutAt [DecidableEq α] (c : α) (l : List α) : Option (List α × List α) :=
  if c ∈ l then some (l.takeWhile fun d => d ≠ c, (l.dropWhile fun d => d ≠ c).tail) else none

theorem cutAt_append [DecidableEq α] {c : α} {l : List α} (h : c ∉ l) (rest : List α) :
    cutAt c (l ++ c :: rest) = some (l, rest) := by
  have hne : ∀ d ∈ l, decide (d ≠ c) = true := fun d hd => by
    simpa using fun he : d = c => h (he ▸ hd)
  unfold cutAt
  rw [if_pos (by simp), List.takeWhile_append_of_pos hne, List.dropWhile_append_of_pos hne]
  simp

/-! ## Lines -/

/-- The lines of a text (module doc). -/
def getlines [DecidableEq α] (nl : α) : List α → List (List α)
  | [] => []
  | c :: cs =>
    if c = nl then [] :: getlines nl cs
    else match getlines nl cs with
      | [] => [[c]]
      | l :: ls => (c :: l) :: ls

/-- Write each line with its `nl`. -/
def unlines (nl : α) (ls : List (List α)) : List α := ls.flatMap fun l => l ++ [nl]

@[simp] theorem getlines_nil [DecidableEq α] (nl : α) : getlines nl [] = [] := rfl

@[simp] theorem unlines_nil (nl : α) : unlines nl [] = [] := rfl

@[simp] theorem unlines_cons (nl : α) (l : List α) (ls : List (List α)) :
    unlines nl (l :: ls) = l ++ nl :: unlines nl ls := by
  simp [unlines]

@[simp] theorem unlines_append (nl : α) (ls ms : List (List α)) :
    unlines nl (ls ++ ms) = unlines nl ls ++ unlines nl ms := by
  simp [unlines]

variable [DecidableEq α]

/-- A complete line at the front is the first line. -/
theorem getlines_append_line {nl : α} {l : List α} (h : nl ∉ l) (rest : List α) :
    getlines nl (l ++ nl :: rest) = l :: getlines nl rest := by
  induction l with
  | nil => simp [getlines]
  | cons c l ih =>
    simp only [List.mem_cons, not_or] at h
    simp [getlines, ih h.2, Ne.symm h.1]

/-- Complete lines in front of a text are its first lines. -/
theorem getlines_unlines_append {nl : α} {ls : List (List α)} (h : ∀ l ∈ ls, nl ∉ l)
    (rest : List α) : getlines nl (unlines nl ls ++ rest) = ls ++ getlines nl rest := by
  induction ls with
  | nil => simp
  | cons l ls ih =>
    have hl : nl ∉ l := h l (by simp)
    have hls : ∀ m ∈ ls, nl ∉ m := fun m hm => h m (by simp [hm])
    rw [unlines_cons, List.append_assoc, List.cons_append, getlines_append_line hl, ih hls]
    rfl

/-- Lines that were written read back. -/
theorem getlines_unlines {nl : α} {ls : List (List α)} (h : ∀ l ∈ ls, nl ∉ l) :
    getlines nl (unlines nl ls) = ls := by
  simpa using getlines_unlines_append h []

/-- A text is its complete lines and a rest without `nl`. -/
theorem exists_unlines_append (nl : α) (text : List α) :
    ∃ ls rest, text = unlines nl ls ++ rest ∧ (∀ l ∈ ls, nl ∉ l) ∧ nl ∉ rest := by
  induction text with
  | nil => exact ⟨[], [], rfl, by simp, by simp⟩
  | cons c text ih =>
    obtain ⟨ls, rest, rfl, hls, hrest⟩ := ih
    by_cases hc : nl = c
    · exact ⟨[] :: ls, rest, by simp [hc], by simpa using hls, hrest⟩
    · cases ls with
      | nil => exact ⟨[], c :: rest, rfl, by simp, by simpa [hc] using hrest⟩
      | cons l ls =>
        refine ⟨(c :: l) :: ls, rest, by simp, fun m hm => ?_, hrest⟩
        obtain rfl | hm := List.mem_cons.mp hm
        · simpa [hc] using hls l List.mem_cons_self
        · exact hls m (List.mem_cons_of_mem _ hm)

/-- Complete lines in front of written lines are the first of them. -/
theorem exists_of_unlines_eq {nl : α} {ls ms : List (List α)} {rest : List α}
    (hls : ∀ l ∈ ls, nl ∉ l) (hms : ∀ l ∈ ms, nl ∉ l)
    (h : unlines nl ls = unlines nl ms ++ rest) : ∃ ks, ls = ms ++ ks ∧ rest = unlines nl ks := by
  have hlines : ls = ms ++ getlines nl rest := by
    rw [← getlines_unlines hls, h, getlines_unlines_append hms]
  refine ⟨getlines nl rest, hlines, ?_⟩
  rw [hlines, unlines_append] at h
  exact (List.append_cancel_left h).symm

/-- The complete lines at the front of a text. -/
def finished (nl : α) (text : List α) : List α := text.rdropWhile fun c => c ≠ nl

/-- What follows the last `nl`. -/
def unfinished (nl : α) (text : List α) : List α := text.rtakeWhile fun c => c ≠ nl

omit [DecidableEq α] in
theorem unlines_eq_nil_or_concat (nl : α) (ls : List (List α)) :
    unlines nl ls = [] ∨ ∃ text, unlines nl ls = text ++ [nl] := by
  induction ls using List.reverseRecOn with
  | nil => exact .inl rfl
  | append_singleton ls l _ => exact .inr ⟨unlines nl ls ++ l, by simp⟩

theorem finished_unlines_append (nl : α) (ls : List (List α)) {rest : List α} (h : nl ∉ rest) :
    finished nl (unlines nl ls ++ rest) = unlines nl ls := by
  unfold finished
  induction rest using List.reverseRecOn with
  | nil =>
    rw [List.append_nil]
    obtain hnil | ⟨text, htext⟩ := unlines_eq_nil_or_concat nl ls
    · rw [hnil, List.rdropWhile_nil]
    · rw [htext, List.rdropWhile_concat_neg _ _ _ (by simp)]
  | append_singleton rest c ih =>
    simp only [List.mem_append, List.mem_singleton, not_or] at h
    rw [← List.append_assoc, List.rdropWhile_concat_pos _ _ _ (by simpa using Ne.symm h.2), ih h.1]

theorem unfinished_unlines_append (nl : α) (ls : List (List α)) {rest : List α} (h : nl ∉ rest) :
    unfinished nl (unlines nl ls ++ rest) = rest := by
  unfold unfinished
  induction rest using List.reverseRecOn with
  | nil =>
    rw [List.append_nil]
    obtain hnil | ⟨text, htext⟩ := unlines_eq_nil_or_concat nl ls
    · rw [hnil, List.rtakeWhile_nil]
    · rw [htext, List.rtakeWhile_concat_neg _ _ _ (by simp)]
  | append_singleton rest c ih =>
    simp only [List.mem_append, List.mem_singleton, not_or] at h
    rw [← List.append_assoc, List.rtakeWhile_concat_pos _ _ _ (by simpa using Ne.symm h.2), ih h.1]

/-- The lines of a text that is continued. -/
theorem getlines_finished_append (nl : α) (text rest : List α) :
    getlines nl (text ++ rest) =
      getlines nl (finished nl text) ++ getlines nl (unfinished nl text ++ rest) := by
  obtain ⟨ls, part, rfl, hls, hpart⟩ := exists_unlines_append nl text
  rw [finished_unlines_append nl ls hpart, unfinished_unlines_append nl ls hpart,
    getlines_unlines hls, List.append_assoc, getlines_unlines_append hls]

theorem getlines_of_notMem {nl : α} {part : List α} (h : nl ∉ part) (hne : part ≠ []) :
    getlines nl part = [part] := by
  induction part with
  | nil => exact absurd rfl hne
  | cons c part ih =>
    simp only [List.mem_cons, not_or] at h
    cases part with
    | nil => simp [getlines, Ne.symm h.1]
    | cons d part => rw [getlines, if_neg (Ne.symm h.1), ih h.2 (List.cons_ne_nil _ _)]

theorem notMem_unfinished (nl : α) (text : List α) : nl ∉ unfinished nl text := by
  intro h
  simpa using List.mem_rtakeWhile_imp h

end Text

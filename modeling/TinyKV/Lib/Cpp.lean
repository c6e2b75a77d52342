import TinyKV.Lib.Text
import Mathlib.Data.Int.Basic
import Mathlib.Tactic.Ring

/-!
# Strings and integers of C++

The parts of the C++ language and its standard library that text servers use: byte strings, the
character classes of the C locale, 64-bit integers, `std::to_string` and `std::stoll`.

* A string is a list of bytes (`Bytes`); `ascii` is a string literal.
* `wrap64` is what a 64-bit two's complement register keeps of an integer. Signed overflow is
  undefined in C++; the model takes what the hardware does.
* `stoll s` reads as `strtoll` does in base 10: blanks, a sign, then the longest run of digits; the
  rest of `s` is not read. `none` is a throw: no digit (`std::invalid_argument`) or a value outside
  the type (`std::out_of_range`).
* `stoll_to_string`: a 64-bit integer that was written reads back.
* `strtol_eq_some`: what is read, as a relation between a text and a number.
-/

/-- A C++ string. -/
abbrev Bytes := List UInt8

/-- A string literal. -/
def ascii (s : String) : Bytes := s.toList.map Char.toUInt8

namespace Cpp

/-! ## Characters (C locale) -/

/-- `std::isspace`: blank, `\t`, `\n`, `\v`, `\f`, `\r`. -/
def isspace (c : UInt8) : Bool := c == 32 || (9 ≤ c && c ≤ 13)

def isdigit (c : UInt8) : Bool := 48 ≤ c && c ≤ 57

def toupper (c : UInt8) : UInt8 := if 97 ≤ c && c ≤ 122 then c - 32 else c

def tolower (c : UInt8) : UInt8 := if 65 ≤ c && c ≤ 90 then c + 32 else c

theorem isspace_of_isdigit {c : UInt8} (h : isdigit c = true) : isspace c = false := by
  simp only [isdigit, Bool.and_eq_true, decide_eq_true_eq, UInt8.le_iff_toNat_le] at h
  have h48 : 48 ≤ c.toNat := h.1
  have hne : c ≠ 32 := by rintro rfl; revert h48; decide
  simp only [isspace, Bool.or_eq_false_iff, beq_eq_false_iff_ne, Bool.and_eq_false_iff,
    decide_eq_false_iff_not, UInt8.le_iff_toNat_le]
  exact ⟨hne, .inr fun h13 => absurd (Nat.le_trans h48 h13) (by decide)⟩

/-- The letter case does not matter to `toupper`. -/
@[simp] theorem toupper_toupper (c : UInt8) : toupper (toupper c) = toupper c := by
  unfold toupper
  grind

@[simp] theorem toupper_tolower (c : UInt8) : toupper (tolower c) = toupper c := by
  unfold toupper tolower
  grind

@[simp] theorem isspace_toupper (c : UInt8) : isspace (toupper c) = isspace c := by
  unfold toupper isspace
  grind

@[simp] theorem isspace_tolower (c : UInt8) : isspace (tolower c) = isspace c := by
  unfold tolower isspace
  grind

/-! ## 64-bit integers -/

/-- A 64-bit register after the arithmetic result `n`. -/
def wrap64 (n : Int) : Int := n.bmod (2 ^ 64)

/-- `n` is a `long long`. -/
def IsInt64 (n : Int) : Prop := -2 ^ 63 ≤ n ∧ n < 2 ^ 63

instance (n : Int) : Decidable (IsInt64 n) := inferInstanceAs (Decidable (_ ∧ _))

theorem isInt64_wrap64 (n : Int) : IsInt64 (wrap64 n) := by
  unfold IsInt64 wrap64
  have h1 := Int.le_bmod (x := n) (m := 2 ^ 64) (by decide)
  have h2 := Int.bmod_lt (x := n) (m := 2 ^ 64) (by decide)
  omega

/-- A result inside the type is kept. -/
theorem wrap64_of_isInt64 {n : Int} (h : IsInt64 n) : wrap64 n = n := by
  unfold IsInt64 at h
  exact Int.bmod_eq_of_le (by omega) (by omega)

theorem wrap64_add_wrap64 (m n : Int) : wrap64 (m + wrap64 n) = wrap64 (m + n) := by
  simp [wrap64]

theorem wrap64_wrap64_add (m n : Int) : wrap64 (wrap64 m + n) = wrap64 (m + n) := by
  simp [wrap64]

/-- An addition that leaves a 64-bit value as it is adds a multiple of `2 ^ 64`. -/
theorem wrap64_add_eq_self {n d : Int} (h : IsInt64 n) : wrap64 (n + d) = n ↔ wrap64 d = 0 := by
  have e : wrap64 (n + d) = n ↔ wrap64 (n + d) = wrap64 n := by rw [wrap64_of_isInt64 h]
  rw [e, wrap64, wrap64, Int.bmod_eq_bmod_iff_bmod_sub_eq_zero, show n + d - n = d by omega]
  rfl

/-! ## Integers as text -/

/-- The decimal digits of `n`. -/
def digits (n : Nat) : Bytes := (Nat.toDigits 10 n).map Char.toUInt8

/-- The value of a run of digits. -/
def digitsValue (ds : Bytes) : Nat := ds.foldl (fun v d => 10 * v + (d.toNat - 48)) 0

/-- `std::to_string`. -/
def to_string : Int → Bytes
  | .ofNat n => digits n
  | .negSucc n => 45 :: digits (n + 1)

/-- The sign and the text after it. -/
def sign : Bytes → Bool × Bytes
  | 45 :: r => (true, r)
  | 43 :: r => (false, r)
  | s => (false, s)

/-- `strtol` in base 10 for a type that holds `lo ≤ n < hi`, as `std::stoi` and `std::stoll` use
it (module doc). -/
def strtol (lo hi : Int) (s : Bytes) : Option Int :=
  let (neg, r) := sign (s.dropWhile isspace)
  let ds := r.takeWhile isdigit
  if ds.isEmpty then none
  else
    let n : Int := if neg then -(digitsValue ds : Int) else digitsValue ds
    if lo ≤ n ∧ n < hi then some n else none

/-- `std::stoll`. -/
def stoll : Bytes → Option Int := strtol (-2 ^ 63) (2 ^ 63)

/-- `std::stoi`. -/
def stoi : Bytes → Option Int := strtol (-2 ^ 31) (2 ^ 31)

/-- What `std::stoll` returns is a `long long`. -/
theorem isInt64_of_stoll {s : Bytes} {n : Int} (h : stoll s = some n) : IsInt64 n := by
  simp only [stoll, strtol, Option.ite_none_left_eq_some, Option.ite_none_right_eq_some,
    Option.some.injEq] at h
  obtain ⟨-, hr, rfl⟩ := h
  exact hr

/-! ### Written integers read back -/

theorem toNat_toUInt8_of_isDigit {c : Char} (h : c.isDigit = true) :
    c.toUInt8.toNat = c.toNat := by
  simp only [Char.isDigit, Bool.and_eq_true, decide_eq_true_eq] at h
  have h2 : c.val.toNat ≤ 57 := h.2
  show c.val.toUInt8.toNat = c.val.toNat
  rw [UInt32.toNat_toUInt8]
  omega

theorem isdigit_toUInt8 {c : Char} (h : c.isDigit = true) : isdigit c.toUInt8 = true := by
  have hc := toNat_toUInt8_of_isDigit h
  simp only [Char.isDigit, Bool.and_eq_true, decide_eq_true_eq] at h
  simp only [isdigit, Bool.and_eq_true, decide_eq_true_eq, UInt8.le_iff_toNat_le, hc]
  exact h

theorem isdigit_of_mem_digits {n : Nat} {c : UInt8} (h : c ∈ digits n) : isdigit c = true := by
  obtain ⟨d, hd, rfl⟩ := List.mem_map.mp h
  exact isdigit_toUInt8 (Nat.isDigit_of_mem_toDigits (by decide) (by decide) hd)

theorem digits_ne_nil (n : Nat) : digits n ≠ [] := by
  simp [digits, Nat.toDigits_ne_nil]

theorem foldl_toUInt8 {cs : List Char} (h : ∀ c ∈ cs, c.isDigit = true) (v : Nat) :
    (cs.map Char.toUInt8).foldl (fun v d => 10 * v + (d.toNat - 48)) v =
      Nat.ofDigitChars 10 cs v := by
  induction cs generalizing v with
  | nil => simp
  | cons c cs ih =>
    have hc : c.toUInt8.toNat = c.toNat := toNat_toUInt8_of_isDigit (h c (by simp))
    rw [List.map_cons, List.foldl_cons, Nat.ofDigitChars_cons, hc,
      ih fun d hd => h d (by simp [hd])]
    rfl

theorem digitsValue_digits (n : Nat) : digitsValue (digits n) = n := by
  unfold digitsValue digits
  rw [foldl_toUInt8 fun c hc => Nat.isDigit_of_mem_toDigits (by decide) (by decide) hc]
  exact Nat.ofDigitChars_ten_toDigits

theorem takeWhile_digits (n : Nat) : (digits n).takeWhile isdigit = digits n := by
  have hpos : ∀ c ∈ digits n, isdigit c = true := fun _ hc => isdigit_of_mem_digits hc
  have h : (digits n ++ []).takeWhile isdigit = digits n ++ [].takeWhile isdigit :=
    List.takeWhile_append_of_pos hpos
  simpa using h

/-- The first byte of `digits n` is a digit. -/
theorem digits_eq_cons (n : Nat) : ∃ d ds, digits n = d :: ds ∧ isdigit d = true := by
  obtain ⟨d, ds, h⟩ := List.exists_cons_of_ne_nil (digits_ne_nil n)
  exact ⟨d, ds, h, isdigit_of_mem_digits (by rw [h]; simp)⟩

theorem sign_of_isdigit {d : UInt8} (hd : isdigit d = true) (ds : Bytes) :
    sign (d :: ds) = (false, d :: ds) := by
  have h45 : d ≠ 45 := by rintro rfl; simp [isdigit] at hd
  have h43 : d ≠ 43 := by rintro rfl; simp [isdigit] at hd
  unfold sign
  split <;> simp_all

theorem strtol_digits {lo hi : Int} (n : Nat) (h : lo ≤ (n : Int) ∧ (n : Int) < hi) :
    strtol lo hi (digits n) = some (n : Int) := by
  obtain ⟨d, ds, hn, hd⟩ := digits_eq_cons n
  have hdrop : (digits n).dropWhile isspace = digits n := by
    rw [hn, List.dropWhile_cons_of_neg (by simp [isspace_of_isdigit hd])]
  have hsign : sign (digits n) = (false, digits n) := by rw [hn]; exact sign_of_isdigit hd ds
  simp [strtol, hdrop, hsign, takeWhile_digits, digitsValue_digits, digits_ne_nil, h.1, h.2]

theorem strtol_neg_digits {lo hi : Int} (n : Nat) (h : lo ≤ -(n : Int) ∧ -(n : Int) < hi) :
    strtol lo hi (45 :: digits n) = some (-(n : Int)) := by
  have hdrop : (45 :: digits n).dropWhile isspace = 45 :: digits n :=
    List.dropWhile_cons_of_neg (by decide)
  simp [strtol, hdrop, sign, takeWhile_digits, digitsValue_digits, digits_ne_nil, h.1, h.2]

/-- A `long long` that was written reads back. -/
theorem stoll_to_string {n : Int} (h : IsInt64 n) : stoll (to_string n) = some n := by
  cases n with
  | ofNat n => exact strtol_digits n h
  | negSucc n =>
    rw [Int.negSucc_eq] at h ⊢
    exact strtol_neg_digits (n + 1) (by exact_mod_cast h)

theorem digits_injective : Function.Injective digits := fun m n h => by
  rw [← digitsValue_digits m, h, digitsValue_digits]

/-- Different integers have different texts. -/
theorem to_string_injective : Function.Injective to_string := by
  have hsign : ∀ m n : Nat, digits m ≠ 45 :: digits n := fun m n h => by
    obtain ⟨d, ds, hm, hd⟩ := digits_eq_cons m
    rw [hm] at h
    cases h
    cases hd
  intro m n h
  cases m with
  | ofNat m =>
    cases n with
    | ofNat n => rw [digits_injective h]
    | negSucc n => exact absurd h (hsign m (n + 1))
  | negSucc m =>
    cases n with
    | ofNat n => exact absurd h.symm (hsign n (m + 1))
    | negSucc n =>
      have hn := digits_injective (List.cons.inj h).2
      rw [Nat.succ.inj hn]

/-- The text of an integer is one word. -/
theorem isWord_to_string (n : Int) : Text.IsWord isspace (to_string n) := by
  cases n with
  | ofNat n =>
    exact ⟨digits_ne_nil n, fun c hc => isspace_of_isdigit (isdigit_of_mem_digits hc)⟩
  | negSucc n =>
    refine ⟨by simp [to_string], fun c hc => ?_⟩
    rcases List.mem_cons.mp hc with rfl | hc
    · decide
    · exact isspace_of_isdigit (isdigit_of_mem_digits hc)

/-- The text of a `long long` has at most 20 bytes. -/
theorem length_to_string_le {n : Int} (h : IsInt64 n) : (to_string n).length ≤ 20 := by
  have hd : ∀ k : Nat, k < 10 ^ 19 → (digits k).length ≤ 19 := by
    intro k hk
    simpa [digits] using (Nat.length_toDigits_le_iff (b := 10) (by decide) (by decide)).mpr hk
  unfold IsInt64 at h
  cases n with
  | ofNat n =>
    have h2 : (n : Int) < 2 ^ 63 := h.2
    have := hd n (by omega)
    simp only [to_string]
    omega
  | negSucc n =>
    have h1 : -2 ^ 63 ≤ Int.negSucc n := h.1
    have := hd (n + 1) (by omega)
    simp only [to_string, List.length_cons]
    omega

/-! ### What is read -/

/-- `t` is the number `n` in decimal: digits, with a sign or without one. -/
def IsNumeral (t : Bytes) (n : Int) : Prop :=
  ∃ ds : Bytes, ds ≠ [] ∧ (∀ d ∈ ds, isdigit d = true) ∧
    ((t = ds ∧ n = digitsValue ds) ∨ (t = 43 :: ds ∧ n = digitsValue ds) ∨
      (t = 45 :: ds ∧ n = -(digitsValue ds : Int)))

/-- After the first byte a numeral has digits only. -/
theorem IsNumeral.digit_of_mem_tail {t : Bytes} {n : Int} (h : IsNumeral t n) {c : UInt8}
    (hc : c ∈ t.tail) : isdigit c = true := by
  obtain ⟨ds, -, hds, ⟨rfl, -⟩ | ⟨rfl, -⟩ | ⟨rfl, -⟩⟩ := h
  · exact hds c (List.mem_of_mem_tail hc)
  · exact hds c hc
  · exact hds c hc

theorem IsNumeral.ne_nil {t : Bytes} {n : Int} (h : IsNumeral t n) : t ≠ [] := by
  obtain ⟨ds, hne, -, ⟨rfl, -⟩ | ⟨rfl, -⟩ | ⟨rfl, -⟩⟩ := h
  · exact hne
  · simp
  · simp

/-- No digit comes first. -/
def NoDigitFirst (rest : Bytes) : Prop := ∀ d ∈ rest.head?, isdigit d = false

theorem noDigitFirst_nil : NoDigitFirst [] := fun d hd => by cases hd

theorem takeWhile_digits_append {ds rest : Bytes} (hds : ∀ d ∈ ds, isdigit d = true)
    (hrest : NoDigitFirst rest) : (ds ++ rest).takeWhile isdigit = ds := by
  rw [List.takeWhile_append_of_pos hds]
  cases rest with
  | nil => simp
  | cons c cs => rw [List.takeWhile_cons_of_neg (by simp [hrest c rfl]), List.append_nil]

theorem noDigitFirst_dropWhile (s : Bytes) : NoDigitFirst (s.dropWhile isdigit) := by
  intro d hd
  have := List.head?_dropWhile_not isdigit s
  rw [Option.mem_def] at hd
  rw [hd] at this
  simpa using this

/-- The sign and the text after it make up the text. -/
theorem sign_spec (s : Bytes) :
    (∃ r, s = 45 :: r ∧ sign s = (true, r)) ∨ (∃ r, s = 43 :: r ∧ sign s = (false, r)) ∨
      sign s = (false, s) := by
  unfold sign
  split
  · exact .inl ⟨_, rfl, rfl⟩
  · exact .inr (.inl ⟨_, rfl, rfl⟩)
  · exact .inr (.inr rfl)

/-- **What `strtol` reads.** It skips the blanks and reads the longest numeral that comes then, if
there is one and its number is inside the type. -/
theorem strtol_eq_some {lo hi : Int} {s : Bytes} {n : Int} :
    strtol lo hi s = some n ↔ ∃ t rest, s.dropWhile isspace = t ++ rest ∧ IsNumeral t n ∧
      NoDigitFirst rest ∧ lo ≤ n ∧ n < hi := by
  unfold strtol
  generalize s.dropWhile isspace = x
  constructor
  · intro h
    have hsplit : ∀ r : Bytes, r = r.takeWhile isdigit ++ r.dropWhile isdigit := fun r =>
      (List.takeWhile_append_dropWhile).symm
    have hall : ∀ r : Bytes, ∀ d ∈ r.takeWhile isdigit, isdigit d = true := fun r d hd =>
      List.all_eq_true.mp List.all_takeWhile d hd
    obtain ⟨r, rfl, hs⟩ | ⟨r, rfl, hs⟩ | hs := sign_spec x
    all_goals
      simp only [hs, Option.ite_none_left_eq_some, Option.ite_none_right_eq_some,
        Option.some.injEq, List.isEmpty_iff] at h
      obtain ⟨hne, hr, rfl⟩ := h
    · refine ⟨45 :: r.takeWhile isdigit, r.dropWhile isdigit, ?_, ?_, noDigitFirst_dropWhile r, hr⟩
      · rw [List.cons_append, ← hsplit]
      · exact ⟨_, hne, hall r, .inr (.inr ⟨rfl, rfl⟩)⟩
    · refine ⟨43 :: r.takeWhile isdigit, r.dropWhile isdigit, ?_, ?_, noDigitFirst_dropWhile r, hr⟩
      · rw [List.cons_append, ← hsplit]
      · exact ⟨_, hne, hall r, .inr (.inl ⟨rfl, rfl⟩)⟩
    · exact ⟨x.takeWhile isdigit, x.dropWhile isdigit, hsplit x,
        ⟨_, hne, hall x, .inl ⟨rfl, rfl⟩⟩, noDigitFirst_dropWhile x, hr⟩
  · rintro ⟨t, rest, rfl, ⟨ds, hne, hds, hcase⟩, hrest, hr⟩
    have htake := takeWhile_digits_append hds hrest
    obtain ⟨rfl, rfl⟩ | ⟨rfl, rfl⟩ | ⟨rfl, rfl⟩ := hcase
    · obtain ⟨d, ds, rfl⟩ := List.exists_cons_of_ne_nil hne
      rw [List.cons_append] at htake ⊢
      simp [sign_of_isdigit (hds d List.mem_cons_self), htake, hr.1, hr.2]
    · simp [sign, htake, hne, hr.1, hr.2]
    · simp [sign, htake, hne, hr.1, hr.2]

end Cpp

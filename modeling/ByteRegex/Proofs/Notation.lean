import ByteRegex.Byte
import ByteRegex.Cursor
import ByteRegex.Proofs.Extent

/-!
What the constructs of the notation are made of, and where they stand. A construct is read by a
cursor behind the byte that opens it, and its errors are at indices of all the bytes. Numbers are
written in digits, and mean their exact value however long they are.
-/

namespace ByteRegex

namespace Cursor

/-- A cursor behind the byte `opening`, which has the index `before.length`. -/
def past (before : List UInt8) (opening : UInt8) (rest : List UInt8) : Cursor :=
  (start (before ++ opening :: rest)).advance (before.length + 1)

def outcome {α : Type} (c : Cursor) (reader : List UInt8 → Reading α) :
    Except PatternError α × Nat :=
  ((c.read reader).1, (c.read reader).2.index)

theorem advance_append (behind passed rest : List UInt8) :
    (Cursor.mk behind (passed ++ rest)).advance passed.length =
      ⟨passed.reverse ++ behind, rest⟩ := by
  induction passed generalizing behind with
  | nil => rfl
  | cons b passed ih =>
    have later := ih (b :: behind)
    rw [List.reverse_cons, List.append_assoc]
    exact later

theorem past_eq (before : List UInt8) (opening : UInt8) (rest : List UInt8) :
    past before opening rest = ⟨opening :: before.reverse, rest⟩ := by
  have passed := advance_append [] (before ++ [opening]) rest
  rw [List.length_append, List.length_singleton, List.append_assoc, List.singleton_append] at passed
  rw [past, start, passed, List.append_nil, List.reverse_append]
  rfl

end Cursor

/-- The outcome of a reader as seen from all the bytes, when the opening one has the index `i`. -/
def Reading.placed {α : Type} (i : Nat) : Reading α → Except PatternError α × Nat
  | .ok (value, used) => (.ok value, i + 1 + used)
  | .error f => (.error ⟨f.kind, (i + f.offset : Nat)⟩, i + 1 + f.used)

theorem Reading.placed_ok {α : Type} {r : Reading α} {value : α} {used i stop : Nat}
    (read : r = .ok (value, used)) (left : i + 1 + used = stop) :
    r.placed i = (.ok value, stop) := by
  rw [read, ← left]
  rfl

theorem Reading.placed_error {α : Type} {r : Reading α} {kind : ErrorKind}
    {offset used i index stop : Nat} (failed : r = .error ⟨kind, offset, used⟩)
    (there : i + offset = index) (left : i + 1 + used = stop) :
    r.placed i = (.error ⟨kind, index⟩, stop) := by
  rw [failed, ← there, ← left]
  rfl

theorem Reading.of_placed_ok {α : Type} {r : Reading α} {value : α} {i stop : Nat}
    (placed : r.placed i = (.ok value, stop)) :
    ∃ used, r = .ok (value, used) ∧ stop = i + 1 + used := by
  cases r with
  | ok pair =>
    obtain ⟨found, used⟩ := pair
    cases placed
    exact ⟨used, rfl, rfl⟩
  | error f => cases placed

theorem Reading.placed_iff {α : Type} {r : Reading α} {i : Nat}
    {Meaning : Except PatternError α → Nat → Prop} (total : ∃ outcome stop, Meaning outcome stop)
    (agrees : ∀ {outcome stop}, Meaning outcome stop → r.placed i = (outcome, stop))
    {outcome : Except PatternError α} {stop : Nat} :
    r.placed i = (outcome, stop) ↔ Meaning outcome stop := by
  constructor
  · intro found
    obtain ⟨expected, place, meaning⟩ := total
    have same := (agrees meaning).symm.trans found
    obtain ⟨rfl, rfl⟩ := Prod.mk.inj same
    exact meaning
  · exact agrees

theorem Cursor.outcome_past {α : Type} {reader : List UInt8 → Reading α} {rest : List UInt8}
    (within : (reader rest).used ≤ rest.length) (before : List UInt8) (opening : UInt8) :
    (past before opening rest).outcome reader = (reader rest).placed before.length := by
  have ahead : (past before opening rest).ahead = rest := by rw [past_eq]
  have index : (past before opening rest).index = before.length + 1 := by
    rw [past_eq, Cursor.index, List.length_cons, List.length_reverse]
  have stop (n : Nat) (le : n ≤ rest.length) :
      ((past before opening rest).advance n).index = before.length + 1 + n := by
    rw [index_passed (by rwa [ahead]), index]
  unfold outcome Cursor.read
  rw [ahead, index]
  cases read : reader rest with
  | ok pair =>
    obtain ⟨value, used⟩ := pair
    rw [read] at within
    simp only [Reading.placed, stop used within]
  | error f =>
    rw [read] at within
    simp only [Reading.placed, stop f.used within, Prod.mk.injEq, Except.error.injEq,
      PatternError.mk.injEq, and_true, true_and]
    omega

section Runs

variable {test : UInt8 → Bool} {run rest : List UInt8}

theorem takeWhile_run (each : ∀ b ∈ run, test b) (ends : ∀ b ∈ rest.head?, test b = false) :
    (run ++ rest).takeWhile test = run := by
  have none : rest.takeWhile test = [] := by
    cases rest with
    | nil => rfl
    | cons b rest => simp [ends b rfl]
  rw [List.takeWhile_append_of_pos each, none, List.append_nil]

theorem runLength_run (each : ∀ b ∈ run, test b) (ends : ∀ b ∈ rest.head?, test b = false) :
    runLength test (run ++ rest) = run.length :=
  congrArg List.length (takeWhile_run each ends)

theorem exists_run (test : UInt8 → Bool) (s : List UInt8) :
    ∃ run rest, s = run ++ rest ∧ (∀ b ∈ run, test b) ∧ ∀ b ∈ rest.head?, test b = false := by
  refine ⟨s.takeWhile test, s.drop (runLength test s), ?_, ?_, head_skip test s⟩
  · have whole := List.prefix_iff_eq_append.mp (List.takeWhile_prefix (l := s) test)
    exact whole.symm
  · intro b member
    exact List.all_eq_true.mp List.all_takeWhile b member

end Runs

namespace Numeral

def Digit (base : Nat) (b : UInt8) (v : Nat) : Prop :=
  v < base ∧ (b.toNat = digitCode v ∨ 10 ≤ v ∧ b.toNat + 32 = digitCode v)

instance (base : Nat) (b : UInt8) (v : Nat) : Decidable (Digit base b v) :=
  inferInstanceAs (Decidable (_ ∧ _))

inductive Writes (base : Nat) : List UInt8 → Nat → Prop where
  | one {b : UInt8} {v : Nat} (digit : Digit base b v) : Writes base [b] v
  | more {digits : List UInt8} {n v : Nat} {b : UInt8} (earlier : Writes base digits n)
      (digit : Digit base b v) : Writes base (digits ++ [b]) (n * base + v)

def NoDigit (base : Nat) (s : List UInt8) : Prop := ∀ b ∈ s.head?, ∀ v, ¬ Digit base b v

theorem digit_iff {base : Nat} (small : base ≤ 16) {b : UInt8} {v : Nat} :
    Digit base b v ↔ Byte.hexValue b = some v ∧ v < base := by
  unfold Digit Byte.hexValue Byte.isDigit digitCode
  simp only [Bool.and_eq_true, decide_eq_true_eq, UInt8.le_iff_toNat_le, UInt8.reduceToNat]
  repeat' split
  all_goals
    simp only [Option.some.injEq, reduceCtorEq, false_and, iff_false]
    omega

theorem digitValue_of_digit {base : Nat} (small : base ≤ 10) {b : UInt8} {v : Nat}
    (digit : Digit base b v) : Byte.digitValue b = v := by
  obtain ⟨below, code | letter⟩ := digit
  · rw [digitCode, if_pos (by omega)] at code
    rw [Byte.digitValue, code]
    omega
  · omega

def Tells (base : Nat) (test : UInt8 → Bool) : Prop := ∀ b, test b = true ↔ ∃ v, Digit base b v

theorem tells_of_value {base : Nat} (small : base ≤ 16) {test : UInt8 → Bool}
    (same : ∀ b, test b = (Byte.hexValue b).any (· < base)) : Tells base test := by
  intro b
  simp only [same, Option.any_eq_true, decide_eq_true_eq, digit_iff small]

theorem hex_tells : Tells 16 Byte.isHex :=
  tells_of_value (by omega) (Byte.forall_of_codes (by decide +kernel))

theorem decimal_tells : Tells 10 Byte.isDigit :=
  tells_of_value (by omega) (Byte.forall_of_codes (by decide +kernel))

theorem octal_tells : Tells 8 Byte.isOctal :=
  tells_of_value (by omega) (Byte.forall_of_codes (by decide +kernel))

section Tests

variable {base : Nat} {test : UInt8 → Bool} (tells : Tells base test)

include tells

theorem test_false_iff {b : UInt8} : test b = false ↔ ∀ v, ¬ Digit base b v := by
  rw [← Bool.not_eq_true, tells b, not_exists]

theorem noDigit_iff {s : List UInt8} : NoDigit base s ↔ ∀ b ∈ s.head?, test b = false := by
  unfold NoDigit
  simp only [test_false_iff tells]

theorem writes_each {digits : List UInt8} {n : Nat} (writes : Writes base digits n) :
    ∀ b ∈ digits, test b := by
  induction writes with
  | one digit =>
    intro b member
    rw [List.mem_singleton.mp member]
    exact (tells _).mpr ⟨_, digit⟩
  | more earlier digit ih =>
    intro b member
    rcases List.mem_append.mp member with before | last
    · exact ih b before
    · rw [List.mem_singleton.mp last]
      exact (tells _).mpr ⟨_, digit⟩

theorem writes_append {digits more : List UInt8} {n : Nat} (writes : Writes base digits n)
    (each : ∀ b ∈ more, test b) : ∃ m, Writes base (digits ++ more) m := by
  induction more generalizing digits n with
  | nil =>
    rw [List.append_nil]
    exact ⟨n, writes⟩
  | cons b more ih =>
    obtain ⟨first, others⟩ := List.forall_mem_cons.mp each
    obtain ⟨v, digit⟩ := (tells b).mp first
    have longer := ih (.more writes digit) others
    rwa [List.append_assoc] at longer

theorem takeWhile_writes {digits rest : List UInt8} {n : Nat} (writes : Writes base digits n)
    (ends : NoDigit base rest) : (digits ++ rest).takeWhile test = digits :=
  takeWhile_run (writes_each tells writes) ((noDigit_iff tells).mp ends)

end Tests

theorem writes_value {base n : Nat} (small : base ≤ 10) {digits : List UInt8}
    (writes : Writes base digits n) : value base (digits.map Byte.digitValue) = n := by
  induction writes with
  | one digit => simp [value, digitValue_of_digit small digit]
  | more earlier digit ih =>
    rw [List.map_append, List.map_singleton, value_append, ih, digitValue_of_digit small digit]

theorem writes_nonempty {base n : Nat} {digits : List UInt8} (writes : Writes base digits n) :
    digits ≠ [] := by
  cases writes <;> simp

end Numeral

end ByteRegex

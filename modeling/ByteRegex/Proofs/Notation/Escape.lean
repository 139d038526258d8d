import ByteRegex.Proofs.Extent.Escape
import ByteRegex.Proofs.Notation

namespace ByteRegex

namespace Escape

open Numeral (Digit NoDigit Writes)

def controls : List (UInt8 × UInt8) :=
  [(97, 7), (102, 12), (116, 9), (110, 10), (114, 13), (118, 11)]

def Punctuation (b : UInt8) : Prop :=
  33 ≤ b.toNat ∧ b.toNat ≤ 126 ∧ (Char.ofNat b.toNat).isAlphanum = false

instance (b : UInt8) : Decidable (Punctuation b) := inferInstanceAs (Decidable (_ ∧ _))

/-- The longest run of octal digits, but of no more than three. -/
def OctalRun (digits rest : List UInt8) : Prop :=
  digits.length ≤ 3 ∧ (digits.length < 3 → NoDigit 8 rest)

/-- What comes of a backslash at the index `i` with the given bytes behind it, and the index of the
first byte that is left. -/
inductive Meaning (i : Nat) : List UInt8 → Except PatternError UInt8 → Nat → Prop where
  | nothing : Meaning i [] (.error ⟨.openEscapeCode, i⟩) (i + 1)
  | control {letter c : UInt8} (named : (letter, c) ∈ controls) (rest : List UInt8) :
      Meaning i (letter :: rest) (.ok c) (i + 2)
  | punctuation {b : UInt8} (mark : Punctuation b) (rest : List UInt8) :
      Meaning i (b :: rest) (.ok b) (i + 2)
  | octal {digits rest : List UInt8} {c : UInt8} (run : OctalRun digits rest)
      (value : Writes 8 digits c.toNat) :
      Meaning i (digits ++ rest) (.ok c) (i + 1 + digits.length)
  | octalTooLarge {digits rest : List UInt8} {n : Nat} (run : OctalRun digits rest)
      (value : Writes 8 digits n) (large : 255 < n) :
      Meaning i (digits ++ rest) (.error ⟨.characterCodeOutOfRange, i⟩) (i + 1 + digits.length)
  | bracedNothing {rest : List UInt8} (absent : NoDigit 16 rest) :
      Meaning i (Byte.letterX :: Byte.leftBrace :: rest)
        (.error ⟨.invalidHexDigit, (i + 3 : Nat)⟩) (i + 3)
  | bracedUnclosed {digits rest : List UInt8} {n : Nat} (value : Writes 16 digits n)
      (run : NoDigit 16 rest) (unclosed : rest.head? ≠ some Byte.rightBrace) :
      Meaning i (Byte.letterX :: Byte.leftBrace :: (digits ++ rest))
        (.error ⟨.unclosedHexCharacterCode, (i + 3 + digits.length : Nat)⟩)
        (i + 3 + digits.length)
  | braced {digits : List UInt8} {c : UInt8} (value : Writes 16 digits c.toNat)
      (rest : List UInt8) :
      Meaning i (Byte.letterX :: Byte.leftBrace :: (digits ++ Byte.rightBrace :: rest)) (.ok c)
        (i + 4 + digits.length)
  | bracedNoScalar {digits : List UInt8} {n : Nat} (value : Writes 16 digits n)
      (outside : ¬ n.isValidChar) (rest : List UInt8) :
      Meaning i (Byte.letterX :: Byte.leftBrace :: (digits ++ Byte.rightBrace :: rest))
        (.error ⟨.invalidHexDigit, i⟩) (i + 4 + digits.length)
  | bracedTooLarge {digits : List UInt8} {n : Nat} (value : Writes 16 digits n)
      (scalar : n.isValidChar) (large : 255 < n) (rest : List UInt8) :
      Meaning i (Byte.letterX :: Byte.leftBrace :: (digits ++ Byte.rightBrace :: rest))
        (.error ⟨.characterCodeOutOfRange, i⟩) (i + 4 + digits.length)
  | pair {b d c : UInt8} {v w : Nat} (first : Digit 16 b v) (second : Digit 16 d w)
      (value : c.toNat = v * 16 + w) (rest : List UInt8) :
      Meaning i (Byte.letterX :: b :: d :: rest) (.ok c) (i + 4)
  | pairNothing {rest : List UInt8} (plain : rest.head? ≠ some Byte.leftBrace)
      (absent : NoDigit 16 rest) :
      Meaning i (Byte.letterX :: rest) (.error ⟨.invalidHexDigit, (i + 2 : Nat)⟩) (i + 2)
  | pairHalf {b : UInt8} {v : Nat} {rest : List UInt8} (digit : Digit 16 b v)
      (absent : NoDigit 16 rest) :
      Meaning i (Byte.letterX :: b :: rest) (.error ⟨.invalidHexDigit, (i + 3 : Nat)⟩) (i + 3)
  | unrecognized {b : UInt8} (noControl : ∀ c, (b, c) ∉ controls) (noMark : ¬ Punctuation b)
      (noDigit : ∀ v, ¬ Digit 8 b v) (noHex : b ≠ Byte.letterX) (rest : List UInt8) :
      Meaning i (b :: rest) (.error ⟨.unrecognizedEscapeCode, i⟩) (i + 2)

theorem octalValue_writes {digits : List UInt8} {n : Nat} (writes : Writes 8 digits n) :
    octalValue digits = n := by
  rw [← Numeral.writes_value (by omega) writes, Numeral.value, List.foldl_map]
  rfl

/-- The value that was counted is exact, or both are beyond the scalar values. -/
theorem scalarValue_writes {digits : List UInt8} {n : Nat} (writes : Writes 16 digits n) :
    scalarValue digits = n ∨ maxScalar < scalarValue digits ∧ maxScalar < n := by
  induction writes with
  | one digit =>
    have value := (Numeral.digit_iff (Nat.le_refl 16)).mp digit
    left
    simp [scalarValue, value.1]
  | @more digits n v b earlier digit ih =>
    have value := (Numeral.digit_iff (Nat.le_refl 16)).mp digit
    have step : scalarValue (digits ++ [b]) =
        if scalarValue digits ≤ maxScalar then scalarValue digits * 16 + v
        else scalarValue digits := by
      unfold scalarValue
      rw [List.foldl_append, List.foldl_cons, List.foldl_nil, value.1]
      rfl
    rw [step]
    split
    · rename_i small
      rcases ih with exact | ⟨large, _⟩
      · left
        rw [exact]
      · omega
    · rename_i large
      right
      rcases ih with exact | ⟨_, beyond⟩ <;> omega

theorem outside_iff {digits : List UInt8} {n : Nat} (writes : Writes 16 digits n) :
    (maxScalar < scalarValue digits || isSurrogate (scalarValue digits)) = true ↔
      ¬ n.isValidChar := by
  rw [Bool.or_eq_true, decide_eq_true_eq]
  rcases scalarValue_writes writes with exact | ⟨large, beyond⟩
  · simp only [exact, isSurrogate, Bool.and_eq_true, decide_eq_true_eq, maxScalar]
    omega
  · simp only [maxScalar] at *
    omega

theorem fit_of_byte {n used : Nat} {c : UInt8} (value : c.toNat = n) :
    fit n used = .ok (c, used) := by
  have small := c.toNat_lt
  rw [fit, if_pos (by omega), ← value, UInt8.ofNat_toNat]

theorem fit_of_large {n : Nat} (large : 255 < n) (used : Nat) :
    fit n used = .error ⟨.characterCodeOutOfRange, 0, used⟩ := by
  rw [fit, if_neg (by omega)]

theorem control_iff {b c : UInt8} : control? b = some c ↔ (b, c) ∈ controls := by
  constructor
  · intro named
    unfold control? at named
    split at named <;> cases named <;> decide
  · have each : controls.all (fun pair => control? pair.1 == some pair.2) = true := by decide
    intro named
    exact eq_of_beq (List.all_eq_true.mp each (b, c) named)

theorem punctuation_iff {b : UInt8} : Byte.isPunctuation b = true ↔ Punctuation b := by
  have codes : ∀ c : UInt8, Byte.isPunctuation c = true ↔ Punctuation c :=
    Byte.forall_of_codes (by decide +kernel)
  exact codes b

theorem punctuation_plain {b : UInt8} (mark : Byte.isPunctuation b = true) :
    control? b = none := by
  have codes : ∀ c : UInt8, Byte.isPunctuation c = true → control? c = none :=
    Byte.forall_of_codes (by decide +kernel)
  exact codes b mark

theorem octal_run {digits rest : List UInt8} {n : Nat} (run : OctalRun digits rest)
    (value : Writes 8 digits n) : read (digits ++ rest) = fit n digits.length := by
  have each := Numeral.writes_each Numeral.octal_tells value
  cases digits with
  | nil => exact absurd rfl (Numeral.writes_nonempty value)
  | cons b more =>
    obtain ⟨first, each⟩ := List.forall_mem_cons.mp each
    obtain ⟨short, longest⟩ := run
    rw [List.length_cons] at short longest
    have ends : ∀ c ∈ (rest.take (2 - more.length)).head?, Byte.isOctal c = false := by
      intro c head
      rw [List.head?_take] at head
      split at head
      · cases head
      · exact (Numeral.noDigit_iff Numeral.octal_tells).mp (longest (by omega)) c head
    have taken : ((more ++ rest).take 2).takeWhile Byte.isOctal = more := by
      rw [List.take_append, List.take_of_length_le (by omega)]
      exact takeWhile_run each ends
    rw [List.cons_append, read_octal first, Escape.octal]
    simp only [taken, octalValue_writes value]

theorem braced_run {digits rest : List UInt8} {n : Nat} (value : Writes 16 digits n)
    (ends : NoDigit 16 rest) :
    braced (digits ++ rest) =
      if rest.head? = some Byte.rightBrace then
        if n.isValidChar then fit n (digits.length + 3)
        else .error ⟨.invalidHexDigit, 0, digits.length + 3⟩
      else .error ⟨.unclosedHexCharacterCode, digits.length + 3, digits.length + 2⟩ := by
  have taken := Numeral.takeWhile_writes Numeral.hex_tells value ends
  have length : runLength Byte.isHex (digits ++ rest) = digits.length := by rw [runLength, taken]
  have some : digits.length ≠ 0 := by simpa using Numeral.writes_nonempty value
  rw [braced_eq]
  simp only [taken, length, some, List.drop_left, if_false, outside_iff value]
  split
  · by_cases scalar : n.isValidChar
    · rw [if_pos scalar, if_neg (fun outside => outside scalar)]
      rcases scalarValue_writes value with exact | ⟨_, beyond⟩
      · rw [exact]
      · simp only [maxScalar] at beyond
        omega
    · rw [if_neg scalar, if_pos scalar]
  · rfl

theorem brace_noDigit (rest : List UInt8) : NoDigit 16 (Byte.rightBrace :: rest) := by
  rw [Numeral.noDigit_iff Numeral.hex_tells]
  intro b head
  cases head
  rfl

theorem braced_closed {digits : List UInt8} {n : Nat} (value : Writes 16 digits n)
    (rest : List UInt8) :
    braced (digits ++ Byte.rightBrace :: rest) =
      if n.isValidChar then fit n (digits.length + 3)
      else .error ⟨.invalidHexDigit, 0, digits.length + 3⟩ := by
  rw [braced_run value (brace_noDigit rest)]
  exact if_pos rfl

theorem braced_nothing {rest : List UInt8} (absent : NoDigit 16 rest) :
    braced rest = .error ⟨.invalidHexDigit, 3, 2⟩ := by
  have each : ∀ b ∈ ([] : List UInt8), Byte.isHex b := by simp
  have length : runLength Byte.isHex rest = 0 :=
    runLength_run each ((Numeral.noDigit_iff Numeral.hex_tells).mp absent)
  rw [braced_eq]
  simp only [length, if_true]

theorem hexValue_of_digit {b : UInt8} {v : Nat} (digit : Digit 16 b v) :
    Byte.hexValue b = some v :=
  ((Numeral.digit_iff (Nat.le_refl 16)).mp digit).1

theorem hexValue_none {s : List UInt8} (absent : NoDigit 16 s) :
    s.head?.bind Byte.hexValue = none := by
  cases s with
  | nil => rfl
  | cons b s =>
    have other := (Numeral.noDigit_iff Numeral.hex_tells).mp absent b rfl
    simpa [Byte.isHex] using other

theorem digit_not_brace {b : UInt8} {v : Nat} (digit : Digit 16 b v) : b ≠ Byte.leftBrace := by
  intro brace
  have value := hexValue_of_digit digit
  rw [brace] at value
  cases value

theorem read_of_meaning {i : Nat} {s : List UInt8} {outcome : Except PatternError UInt8}
    {stop : Nat} (meaning : Meaning i s outcome stop) : (read s).placed i = (outcome, stop) := by
  cases meaning with
  | nothing => rfl
  | control named rest =>
    simp only [read, control_iff.mpr named]
    rfl
  | punctuation mark rest =>
    have mark := punctuation_iff.mpr mark
    simp only [read, punctuation_plain mark, mark, if_true]
    rfl
  | octal run value =>
    exact Reading.placed_ok ((octal_run run value).trans (fit_of_byte rfl)) rfl
  | octalTooLarge run value large =>
    exact Reading.placed_error ((octal_run run value).trans (fit_of_large large _)) rfl rfl
  | bracedNothing absent =>
    exact Reading.placed_error (braced_nothing absent) rfl rfl
  | bracedUnclosed value run unclosed =>
    have read := (braced_run value run).trans (if_neg unclosed)
    exact Reading.placed_error read (by omega) (by omega)
  | @braced digits c value rest =>
    have byte := c.toNat_lt
    have read := (braced_closed value rest).trans (if_pos (by omega))
    exact Reading.placed_ok (read.trans (fit_of_byte rfl)) (by omega)
  | bracedNoScalar value outside rest =>
    have read := (braced_closed value rest).trans (if_neg outside)
    exact Reading.placed_error read rfl (by omega)
  | bracedTooLarge value scalar large rest =>
    have read := (braced_closed value rest).trans (if_pos scalar)
    exact Reading.placed_error (read.trans (fit_of_large large _)) rfl (by omega)
  | @pair b d c v w first second value rest =>
    have plain : (b :: d :: rest).head? ≠ some Byte.leftBrace := by
      simpa using digit_not_brace first
    rw [read_pair plain]
    simp only [Escape.pair, List.head?_cons, List.tail_cons, Option.bind_some,
      hexValue_of_digit first, hexValue_of_digit second, ← value, UInt8.ofNat_toNat]
    rfl
  | pairNothing plain absent =>
    rw [read_pair plain]
    simp only [Escape.pair, hexValue_none absent]
    rfl
  | @pairHalf b v rest digit absent =>
    have plain : (b :: rest).head? ≠ some Byte.leftBrace := by simpa using digit_not_brace digit
    rw [read_pair plain]
    simp only [Escape.pair, List.head?_cons, List.tail_cons, Option.bind_some,
      hexValue_of_digit digit, hexValue_none absent]
    rfl
  | @unrecognized b noControl noMark noDigit noHex rest =>
    have control : control? b = none := by
      apply Option.eq_none_iff_forall_ne_some.mpr
      intro c named
      exact noControl c (control_iff.mp named)
    have mark : ¬ Byte.isPunctuation b = true := fun mark => noMark (punctuation_iff.mp mark)
    have octal := (Numeral.test_false_iff Numeral.octal_tells).mpr noDigit
    simp only [read, control, mark, octal, noHex, Bool.false_eq_true, if_false]
    rfl

theorem exists_byte {n : Nat} (small : n ≤ 255) : ∃ c : UInt8, c.toNat = n :=
  ⟨UInt8.ofNat n, UInt8.toNat_ofNat_of_lt (Nat.lt_succ_of_le small)⟩

theorem exists_octal (i : Nat) {b : UInt8} (first : Byte.isOctal b) (s : List UInt8) :
    ∃ outcome stop, Meaning i (b :: s) outcome stop := by
  obtain ⟨run, rest, rfl, each, ends⟩ := exists_run Byte.isOctal s
  obtain ⟨v, digit⟩ := (Numeral.octal_tells b).mp first
  obtain ⟨n, value⟩ := Numeral.writes_append Numeral.octal_tells (.one digit)
    fun c member => each c (List.mem_of_mem_take (i := 2) member)
  have longest : OctalRun ([b] ++ run.take 2) (run.drop 2 ++ rest) := by
    have length : ([b] ++ run.take 2).length = min 2 run.length + 1 := by
      rw [List.singleton_append, List.length_cons, List.length_take]
    refine ⟨by omega, ?_⟩
    intro short
    have few : run.length ≤ 2 := by omega
    rw [List.drop_of_length_le few, List.nil_append]
    exact (Numeral.noDigit_iff Numeral.octal_tells).mpr ends
  have whole : b :: (run ++ rest) = [b] ++ run.take 2 ++ (run.drop 2 ++ rest) := by
    rw [List.append_assoc, ← List.append_assoc (run.take 2), List.take_append_drop]
    rfl
  rw [whole]
  by_cases small : n ≤ 255
  · obtain ⟨c, rfl⟩ := exists_byte small
    exact ⟨_, _, .octal longest value⟩
  · exact ⟨_, _, .octalTooLarge longest value (by omega)⟩

theorem exists_braced (i : Nat) (s : List UInt8) :
    ∃ outcome stop, Meaning i (Byte.letterX :: Byte.leftBrace :: s) outcome stop := by
  obtain ⟨run, rest, rfl, each, ends⟩ := exists_run Byte.isHex s
  have ends := (Numeral.noDigit_iff Numeral.hex_tells).mpr ends
  cases run with
  | nil => exact ⟨_, _, .bracedNothing ends⟩
  | cons b run =>
    obtain ⟨first, each⟩ := List.forall_mem_cons.mp each
    obtain ⟨v, digit⟩ := (Numeral.hex_tells b).mp first
    obtain ⟨n, value⟩ := Numeral.writes_append Numeral.hex_tells (.one digit) each
    by_cases closed : rest.head? = some Byte.rightBrace
    · obtain ⟨t, rfl⟩ := List.head?_eq_some_iff.mp closed
      by_cases scalar : n.isValidChar
      · by_cases small : n ≤ 255
        · obtain ⟨c, rfl⟩ := exists_byte small
          exact ⟨_, _, .braced value t⟩
        · exact ⟨_, _, .bracedTooLarge value scalar (by omega) t⟩
      · exact ⟨_, _, .bracedNoScalar value scalar t⟩
    · exact ⟨_, _, .bracedUnclosed value ends closed⟩

theorem exists_pair (i : Nat) {s : List UInt8} (plain : s.head? ≠ some Byte.leftBrace) :
    ∃ outcome stop, Meaning i (Byte.letterX :: s) outcome stop := by
  by_cases absent : NoDigit 16 s
  · exact ⟨_, _, .pairNothing plain absent⟩
  · cases s with
    | nil => exact absurd (fun b head => by cases head) absent
    | cons b s =>
      obtain ⟨v, first⟩ : ∃ v, Digit 16 b v := by simpa [NoDigit] using absent
      by_cases half : NoDigit 16 s
      · exact ⟨_, _, .pairHalf first half⟩
      · cases s with
        | nil => exact absurd (fun b head => by cases head) half
        | cons d s =>
          obtain ⟨w, second⟩ : ∃ w, Digit 16 d w := by simpa [NoDigit] using half
          have high := first.1
          have low := second.1
          obtain ⟨c, value⟩ := exists_byte (n := v * 16 + w) (by omega)
          exact ⟨_, _, .pair first second value s⟩

theorem exists_meaning (i : Nat) (s : List UInt8) : ∃ outcome stop, Meaning i s outcome stop := by
  cases s with
  | nil => exact ⟨_, _, .nothing⟩
  | cons b s =>
    by_cases named : ∃ c, (b, c) ∈ controls
    · obtain ⟨c, named⟩ := named
      exact ⟨_, _, .control named s⟩
    · by_cases mark : Punctuation b
      · exact ⟨_, _, .punctuation mark s⟩
      · by_cases digit : Byte.isOctal b
        · exact exists_octal i digit s
        · by_cases hex : b = Byte.letterX
          · subst hex
            by_cases brace : s.head? = some Byte.leftBrace
            · obtain ⟨t, rfl⟩ := List.head?_eq_some_iff.mp brace
              exact exists_braced i t
            · exact exists_pair i brace
          · have noDigit := (Numeral.test_false_iff Numeral.octal_tells).mp (by simpa using digit)
            exact ⟨_, _, .unrecognized (not_exists.mp named) mark noDigit hex s⟩

theorem placed_iff {i : Nat} {s : List UInt8} {outcome : Except PatternError UInt8} {stop : Nat} :
    (read s).placed i = (outcome, stop) ↔ Meaning i s outcome stop :=
  Reading.placed_iff (exists_meaning i s) read_of_meaning

/-- An escape anywhere in the bytes is read as what it means. -/
theorem outcome_iff_meaning (before rest : List UInt8) (outcome : Except PatternError UInt8)
    (stop : Nat) :
    (Cursor.past before Byte.backslash rest).outcome read = (outcome, stop) ↔
      Meaning before.length rest outcome stop := by
  rw [Cursor.outcome_past (read_within rest)]
  exact placed_iff

end Escape

end ByteRegex

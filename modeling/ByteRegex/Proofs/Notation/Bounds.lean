import ByteRegex.Proofs.Blame.Bounds
import ByteRegex.Proofs.Notation

/-!
The meaning of repeat counts. Their spelling is looked at first, whatever the numbers are, and then
the numbers are judged by their exact values. The reader stops counting at the largest count, which
makes no difference under a ceiling below it.
-/

namespace ByteRegex

open Numeral (Digit NoDigit Writes)

def Number.AtLeast : Number → Nat → Prop
  | .finite x, n => (n : Rat) ≤ x
  | .negativeZero, n => n = 0
  | .infinite negative, _ => negative = false

def Count.shift (distance : Nat) (n : Count) : Count := ⟨n.value, distance + n.offset⟩

namespace Counts

def Blank (b : UInt8) : Prop := b = 32 ∨ b = 9

instance (b : UInt8) : Decidable (Blank b) := inferInstanceAs (Decidable (_ ∨ _))

def Blanks (s : List UInt8) : Prop := ∀ b ∈ s, Blank b

inductive Padded : List UInt8 → Count → Prop where
  | number {gap digits trail : List UInt8} {n : Nat} (before : Blanks gap)
      (value : Writes 10 digits n) (after : Blanks trail) :
      Padded (gap ++ digits ++ trail) ⟨n, gap.length⟩

/-- The bytes after an opening brace are counts, up to and with the closing brace. Offsets are
counted from the opening one. -/
inductive Spelled : List UInt8 → Counts → Nat → Prop where
  | exactly {text rest : List UInt8} {n : Count} (count : Padded text n) :
      Spelled (text ++ Byte.rightBrace :: rest) (.exactly (n.shift 1)) (text.length + 1)
  | atLeast {text gap rest : List UInt8} {n : Count} (count : Padded text n)
      (blanks : Blanks gap) :
      Spelled (text ++ Byte.comma :: (gap ++ Byte.rightBrace :: rest)) (.atLeast (n.shift 1))
        (text.length + 1 + gap.length + 1)
  | between {text other rest : List UInt8} {low high : Count} (first : Padded text low)
      (second : Padded other high) :
      Spelled (text ++ Byte.comma :: (other ++ Byte.rightBrace :: rest))
        (.between (low.shift 1) (high.shift (text.length + 2)))
        (text.length + 1 + other.length + 1)

inductive Unfinished : List UInt8 → Prop where
  | blanks {s : List UInt8} (blanks : Blanks s) : Unfinished s
  | count {s : List UInt8} {n : Count} (count : Padded s n) : Unfinished s
  | comma {text gap : List UInt8} {n : Count} (count : Padded text n) (blanks : Blanks gap) :
      Unfinished (text ++ Byte.comma :: gap)
  | upper {text other : List UInt8} {low high : Count} (first : Padded text low)
      (second : Padded other high) : Unfinished (text ++ Byte.comma :: other)

def Stops (text rest : List UInt8) : Prop := ∀ b ∈ rest.head?, ∀ n, ¬ Padded (text ++ [b]) n

/-- What is wrong with the spelling of counts, at which offset from the opening brace, and how many
bytes behind it stand before the byte in the way. -/
inductive Misspelled : List UInt8 → ErrorKind → Nat → Nat → Prop where
  | noCount {gap rest : List UInt8} {b : UInt8} (blanks : Blanks gap) (noBlank : ¬ Blank b)
      (noDigit : ∀ v, ¬ Digit 10 b v) :
      Misspelled (gap ++ b :: rest) .invalidRepeatArgument (gap.length + 1) gap.length
  | noUpper {text gap rest : List UInt8} {b : UInt8} {n : Count} (count : Padded text n)
      (blanks : Blanks gap) (noBlank : ¬ Blank b) (noDigit : ∀ v, ¬ Digit 10 b v)
      (noBrace : b ≠ Byte.rightBrace) :
      Misspelled (text ++ Byte.comma :: (gap ++ b :: rest)) .invalidRepeatArgument
        (text.length + 1 + gap.length + 1) (text.length + 1 + gap.length)
  | ended {s : List UInt8} (unfinished : Unfinished s) : Misspelled s .unclosedRepeat 0 s.length
  | unexpected {text rest : List UInt8} {b : UInt8} {n : Count} (count : Padded text n)
      (stops : Stops text (b :: rest)) (noComma : b ≠ Byte.comma) (noBrace : b ≠ Byte.rightBrace) :
      Misspelled (text ++ b :: rest) .unclosedRepeat (text.length + 1) text.length
  | unexpectedUpper {text other rest : List UInt8} {b : UInt8} {low high : Count}
      (first : Padded text low) (second : Padded other high) (stops : Stops other (b :: rest))
      (noBrace : b ≠ Byte.rightBrace) :
      Misspelled (text ++ Byte.comma :: (other ++ b :: rest)) .unclosedRepeat
        (text.length + 1 + other.length + 1) (text.length + 1 + other.length)

def Ordered : Counts → Prop
  | .between low high => low.value ≤ high.value
  | _ => True

def exact : Counts → Bounds
  | .exactly n => ⟨n.value, some n.value⟩
  | .atLeast n => ⟨n.value, none⟩
  | .between low high => ⟨low.value, some high.value⟩

end Counts

/-- What comes of a brace at the index `i` with the given bytes behind it, and the index of the
first byte that is left. Not all counts fit under the ceiling. -/
inductive Bounds.Meaning (fits : Nat → Prop) (i : Nat) :
    List UInt8 → Except PatternError Bounds → Nat → Prop where
  | misspelled {s : List UInt8} {kind : ErrorKind} {offset taken : Nat}
      (wrong : Counts.Misspelled s kind offset taken) :
      Meaning fits i s (.error ⟨kind, (i + offset : Nat)⟩) (i + 1 + taken)
  | allowed {s : List UInt8} {counts : Counts} {used : Nat} (spelled : counts.Spelled s used)
      (fit : ∀ n ∈ counts.list, fits n.value) (ordered : counts.Ordered) :
      Meaning fits i s (.ok counts.exact) (i + 1 + used)
  | excessive {s : List UInt8} {counts : Counts} {used : Nat} {n : Count}
      {earlier later : List Count} (spelled : counts.Spelled s used)
      (first : counts.list = earlier ++ n :: later) (fit : ∀ m ∈ earlier, fits m.value)
      (large : ¬ fits n.value) :
      Meaning fits i s (.error ⟨.excessiveRepeatCount, (i + n.offset : Nat)⟩) (i + 1 + used)
  | reversed {s : List UInt8} {low high : Count} {used : Nat}
      (spelled : (Counts.between low high).Spelled s used) (fit : fits low.value)
      (fit_high : fits high.value) (wrong : high.value < low.value) :
      Meaning fits i s (.error ⟨.invalidRepeatArgument, i⟩) (i + 1 + used)

def Count.capped (n : Count) : Count := ⟨Nat.min n.value maxCount, n.offset⟩

namespace Counts

def capped : Counts → Counts
  | .exactly n => .exactly n.capped
  | .atLeast n => .atLeast n.capped
  | .between low high => .between low.capped high.capped

/-! ### Padded numbers -/

theorem blank_iff {b : UInt8} : Byte.isBlank b = true ↔ Blank b := by
  simp [Byte.isBlank, Blank]

theorem blank_no_digit {b : UInt8} (blank : Blank b) : ∀ v, ¬ Digit 10 b v := by
  rw [← Numeral.test_false_iff Numeral.decimal_tells]
  rcases blank with rfl | rfl <;> rfl

theorem blanks_each {s : List UInt8} (blanks : Blanks s) : ∀ b ∈ s, Byte.isBlank b :=
  fun b member => blank_iff.mpr (blanks b member)

theorem padded_each {text : List UInt8} {n : Count} (padded : Padded text n) :
    ∀ b ∈ text, Blank b ∨ Byte.isDigit b := by
  cases padded with
  | number before value after =>
    intro b member
    rcases List.mem_append.mp member with front | last
    · rcases List.mem_append.mp front with first | digit
      · exact Or.inl (before b first)
      · exact Or.inr (Numeral.writes_each Numeral.decimal_tells value b digit)
    · exact Or.inl (after b last)

theorem stops_of_other {b : UInt8} (noBlank : ¬ Blank b) (noDigit : ¬ Byte.isDigit b)
    (text rest : List UInt8) : Stops text (b :: rest) := by
  intro c head n padded
  cases head
  rcases padded_each padded b (by simp) with blank | digit
  · exact noBlank blank
  · exact noDigit digit

theorem stops_nil (text : List UInt8) : Stops text [] := by
  intro b head
  cases head

theorem stops_comma (text rest : List UInt8) : Stops text (Byte.comma :: rest) :=
  stops_of_other (by decide) (by decide) text rest

theorem stops_brace (text rest : List UInt8) : Stops text (Byte.rightBrace :: rest) :=
  stops_of_other (by decide) (by decide) text rest

theorem exists_longest {text : List UInt8} {n : Count} (padded : Padded text n)
    (rest : List UInt8) :
    ∃ more m tail, rest = more ++ tail ∧ Padded (text ++ more) m ∧ Stops (text ++ more) tail := by
  induction rest generalizing text n with
  | nil =>
    refine ⟨[], n, [], rfl, ?_, stops_nil _⟩
    rwa [List.append_nil]
  | cons b rest ih =>
    by_cases longer : ∃ m, Padded (text ++ [b]) m
    · obtain ⟨m, longer⟩ := longer
      obtain ⟨more, l, tail, rfl, longest, stops⟩ := ih longer
      rw [List.append_assoc] at longest stops
      exact ⟨b :: more, l, tail, rfl, longest, stops⟩
    · refine ⟨[], n, b :: rest, rfl, ?_, ?_⟩
      · rwa [List.append_nil]
      · rw [List.append_nil]
        intro c head
        cases head
        exact not_exists.mp longer

theorem exists_padded {gap : List UInt8} {b : UInt8} (blanks : Blanks gap) (digit : Byte.isDigit b)
    (s : List UInt8) :
    ∃ text n rest, gap ++ b :: s = text ++ rest ∧ Padded text n ∧ Stops text rest := by
  obtain ⟨v, digit⟩ := (Numeral.decimal_tells b).mp digit
  have start : Padded (gap ++ [b] ++ []) ⟨v, gap.length⟩ :=
    .number blanks (.one digit) (by intro c member; cases member)
  rw [List.append_nil] at start
  obtain ⟨more, n, rest, rfl, padded, stops⟩ := exists_longest start s
  refine ⟨_, n, rest, ?_, padded, stops⟩
  simp

theorem countValue_writes {digits : List UInt8} {n : Nat} (writes : Writes 10 digits n) :
    countValue digits = Nat.min n maxCount := by
  rw [Expr.countValue_eq, Numeral.writes_value (Nat.le_refl 10) writes]

theorem noBlank_iff {s : List UInt8} :
    (∀ b ∈ s.head?, ¬ Blank b) ↔ ∀ b ∈ s.head?, Byte.isBlank b = false := by
  simp only [← blank_iff, Bool.not_eq_true]

theorem runLength_blanks {gap rest : List UInt8} (blanks : Blanks gap)
    (noBlank : ∀ b ∈ rest.head?, ¬ Blank b) :
    runLength Byte.isBlank (gap ++ rest) = gap.length :=
  runLength_run (blanks_each blanks) (noBlank_iff.mp noBlank)

theorem runLength_blanks_only {s : List UInt8} (blanks : Blanks s) :
    runLength Byte.isBlank s = s.length := by
  have whole : runLength Byte.isBlank (s ++ []) = s.length := runLength_blanks blanks (by simp)
  rwa [List.append_nil] at whole

theorem blanks_snoc {s : List UInt8} {b : UInt8} (blanks : Blanks s) (blank : Blank b) :
    Blanks (s ++ [b]) :=
  List.forall_mem_append.mpr ⟨blanks, List.forall_mem_singleton.mpr blank⟩

theorem stops_parts {gap digits trail rest : List UInt8} {n : Nat} (before : Blanks gap)
    (value : Writes 10 digits n) (after : Blanks trail)
    (stops : Stops (gap ++ digits ++ trail) rest) :
    NoDigit 10 (trail ++ rest) ∧ ∀ b ∈ rest.head?, ¬ Blank b := by
  constructor
  · intro b head v digit
    cases trail with
    | nil =>
      have longer := Padded.number before (.more value digit) after
      simp only [List.append_nil, ← List.append_assoc] at longer stops
      exact stops b head _ longer
    | cons c trail =>
      cases head
      exact blank_no_digit (after _ List.mem_cons_self) v digit
  · intro b head blank
    have longer := Padded.number before value (blanks_snoc after blank)
    rw [← List.append_assoc] at longer
    exact stops b head _ longer

theorem count_number {digits trail rest : List UInt8} {n : Nat} (value : Writes 10 digits n)
    (after : Blanks trail) (noDigit : NoDigit 10 (trail ++ rest))
    (noBlank : ∀ b ∈ rest.head?, ¬ Blank b) (k : Nat) :
    count k (digits ++ (trail ++ rest)) =
      (⟨Nat.min n maxCount, k + 1⟩, k + digits.length + trail.length) := by
  have blanks := runLength_blanks after noBlank
  unfold count
  simp only [Numeral.takeWhile_writes Numeral.decimal_tells value noDigit,
    countValue_writes value, List.drop_left, blanks]

theorem count_padded {text rest : List UInt8} {n : Count} (padded : Padded text n)
    (stops : Stops text rest) :
    runLength Byte.isBlank (text ++ rest) = n.offset ∧
      ∃ b t, (text ++ rest).drop n.offset = b :: t ∧ Byte.isDigit b ∧
        ∀ k, count (k + n.offset) (b :: t) = (n.capped.shift (k + 1), k + text.length) := by
  cases padded with
  | @number gap digits trail n before value after =>
    obtain ⟨noDigit, noBlank⟩ := stops_parts before value after stops
    obtain ⟨b, more, rfl⟩ := List.exists_cons_of_ne_nil (Numeral.writes_nonempty value)
    have digit := Numeral.writes_each Numeral.decimal_tells value b List.mem_cons_self
    have whole : gap ++ b :: more ++ trail ++ rest = gap ++ (b :: more ++ (trail ++ rest)) := by
      simp only [List.append_assoc]
    rw [whole]
    constructor
    · apply runLength_run (blanks_each before)
      intro c head
      cases head
      exact Expr.digit_not_blank digit
    · refine ⟨b, more ++ (trail ++ rest), List.drop_left, digit, ?_⟩
      intro k
      have counted := count_number value after noDigit noBlank (k + gap.length)
      rw [List.cons_append] at counted
      rw [counted]
      simp only [Count.shift, Count.capped, List.length_append, Prod.mk.injEq, Count.mk.injEq,
        true_and]
      omega

/-! ### Spelling -/

theorem read_padded {text rest : List UInt8} {n : Count} (padded : Padded text n)
    (stops : Stops text rest) :
    read (text ++ rest) =
      if rest.head? = some Byte.comma then upper (n.capped.shift 1) (text.length + 1) (text ++ rest)
      else close (.exactly (n.capped.shift 1)) text.length rest := by
  obtain ⟨blanks, b, t, start, digit, counted⟩ := count_padded padded stops
  have counted := counted 0
  rw [Nat.zero_add, Nat.zero_add, Nat.zero_add] at counted
  rw [← blanks] at start counted
  rw [read_cons start]
  simp only [counted, digit, if_true, List.drop_left]

theorem upper_padded {before text rest : List UInt8} {low n : Count} (padded : Padded text n)
    (stops : Stops text rest) :
    upper low before.length (before ++ (text ++ rest)) =
      close (.between low (n.capped.shift (before.length + 1))) (before.length + text.length)
        rest := by
  obtain ⟨blanks, b, t, start, digit, counted⟩ := count_padded padded stops
  have place : before.length + runLength Byte.isBlank
      ((before ++ (text ++ rest)).drop before.length) = before.length + n.offset := by
    rw [List.drop_left, blanks]
  have here : (before ++ (text ++ rest)).drop (before.length + n.offset) = b :: t := by
    rw [← List.drop_drop, List.drop_left, start]
  rw [← place] at here
  rw [upper_cons here, place]
  simp only [counted, digit, if_true]
  rw [← List.drop_drop, List.drop_left, List.drop_left]

theorem upper_other {before gap rest : List UInt8} {b : UInt8} {low : Count} (blanks : Blanks gap)
    (noBlank : ¬ Blank b) (noDigit : ∀ v, ¬ Digit 10 b v) :
    upper low before.length (before ++ (gap ++ b :: rest)) =
      if b = Byte.rightBrace then .ok (.atLeast low, before.length + gap.length + 1)
      else .error ⟨.invalidRepeatArgument, before.length + gap.length + 1,
        before.length + gap.length⟩ := by
  have length : runLength Byte.isBlank (gap ++ b :: rest) = gap.length :=
    runLength_blanks blanks (by simpa using noBlank)
  have place : before.length + runLength Byte.isBlank
      ((before ++ (gap ++ b :: rest)).drop before.length) = before.length + gap.length := by
    rw [List.drop_left, length]
  have here : (before ++ (gap ++ b :: rest)).drop (before.length + gap.length) = b :: rest := by
    rw [← List.drop_drop, List.drop_left, List.drop_left]
  have other := (Numeral.test_false_iff Numeral.decimal_tells).mpr noDigit
  rw [← place] at here
  rw [upper_cons here, place]
  simp only [other, Bool.false_eq_true, if_false]

theorem upper_ended {before gap : List UInt8} {low : Count} (blanks : Blanks gap) :
    upper low before.length (before ++ gap) =
      .error ⟨.unclosedRepeat, 0, before.length + gap.length⟩ := by
  have ended : (before ++ gap).drop (before.length + gap.length) = [] := by
    rw [← List.drop_drop, List.drop_left, List.drop_length]
  unfold upper
  simp only [List.drop_left, runLength_blanks_only blanks, ended]

theorem read_comma {text : List UInt8} {n : Count} (padded : Padded text n) (rest : List UInt8) :
    read (text ++ Byte.comma :: rest) =
      upper (n.capped.shift 1) (text ++ [Byte.comma]).length ((text ++ [Byte.comma]) ++ rest) := by
  rw [read_padded padded (stops_comma text rest), List.length_append, List.append_assoc]
  exact if_pos rfl

theorem close_other {b : UInt8} (noBrace : b ≠ Byte.rightBrace) (counts : Counts) (taken : Nat)
    (rest : List UInt8) :
    close counts taken (b :: rest) = .error ⟨.unclosedRepeat, taken + 1, taken⟩ := by
  unfold close
  split
  · rename_i same
    cases same
  · rename_i same
    exact absurd (List.cons.inj same).1 noBrace
  · rfl

theorem read_of_spelled {s : List UInt8} {counts : Counts} {used : Nat}
    (spelled : Spelled s counts used) : read s = .ok (counts.capped, used) := by
  cases spelled with
  | exactly count =>
    rw [read_padded count (stops_brace _ _)]
    rfl
  | atLeast count blanks =>
    have noDigit := (Numeral.test_false_iff Numeral.decimal_tells (b := Byte.rightBrace)).mp rfl
    rw [read_comma count, upper_other blanks (by decide) noDigit, if_pos rfl, List.length_append]
    rfl
  | between first second =>
    rw [read_comma first, upper_padded second (stops_brace _ _), List.length_append]
    rfl

theorem read_of_unfinished {s : List UInt8} (unfinished : Unfinished s) :
    read s = .error ⟨.unclosedRepeat, 0, s.length⟩ := by
  cases unfinished with
  | blanks blanks => simp only [read, runLength_blanks_only blanks, List.drop_length]
  | count count =>
    have whole := read_padded count (stops_nil s)
    rw [List.append_nil] at whole
    rw [whole]
    rfl
  | @comma text gap n count blanks =>
    rw [read_comma count, upper_ended blanks, List.append_cons text _ gap, ← List.length_append]
  | @upper text other low high first second =>
    have whole := @upper_padded (text ++ [Byte.comma]) other [] (low.capped.shift 1) high second
      (stops_nil _)
    rw [List.append_nil] at whole
    rw [read_comma first, whole, List.append_cons text _ other, ← List.length_append]
    rfl

theorem read_of_misspelled {s : List UInt8} {kind : ErrorKind} {offset taken : Nat}
    (wrong : Misspelled s kind offset taken) : read s = .error ⟨kind, offset, taken⟩ := by
  cases wrong with
  | @noCount gap rest b blanks noBlank noDigit =>
    have length : runLength Byte.isBlank (gap ++ b :: rest) = gap.length :=
      runLength_blanks blanks (by simpa using noBlank)
    have here : (gap ++ b :: rest).drop (runLength Byte.isBlank (gap ++ b :: rest)) =
        b :: rest := by
      rw [length, List.drop_left]
    have other := (Numeral.test_false_iff Numeral.decimal_tells).mpr noDigit
    rw [read_cons here]
    simp only [other, length, Bool.false_eq_true, if_false]
  | noUpper count blanks noBlank noDigit noBrace =>
    rw [read_comma count, upper_other blanks noBlank noDigit, if_neg noBrace, List.length_append]
    rfl
  | ended unfinished => exact read_of_unfinished unfinished
  | unexpected count stops noComma noBrace =>
    rw [read_padded count stops, if_neg (by simpa using noComma), close_other noBrace]
  | unexpectedUpper first second stops noBrace =>
    rw [read_comma first, upper_padded second stops, close_other noBrace, List.length_append]
    rfl

theorem blanks_then (s : List UInt8) :
    Blanks s ∨
      (∃ gap b rest, s = gap ++ b :: rest ∧ Blanks gap ∧ ¬ Blank b ∧ ∀ v, ¬ Digit 10 b v) ∨
      ∃ text n rest, s = text ++ rest ∧ Padded text n ∧ Stops text rest := by
  obtain ⟨gap, rest, rfl, blanks, next⟩ := exists_run Byte.isBlank s
  have blanks : Blanks gap := fun b member => blank_iff.mp (blanks b member)
  cases rest with
  | nil =>
    left
    rwa [List.append_nil]
  | cons b rest =>
    right
    by_cases digit : Byte.isDigit b
    · exact Or.inr (exists_padded blanks digit rest)
    · have noDigit := (Numeral.test_false_iff Numeral.decimal_tells).mp (by simpa using digit)
      exact Or.inl ⟨gap, b, rest, rfl, blanks, noBlank_iff.mpr next b rfl, noDigit⟩

theorem spelled_or_misspelled (s : List UInt8) :
    (∃ counts used, Spelled s counts used) ∨
      ∃ kind offset taken, Misspelled s kind offset taken := by
  rcases blanks_then s with blanks | ⟨gap, b, rest, rfl, blanks, noBlank, noDigit⟩ |
    ⟨text, n, rest, rfl, count, stops⟩
  · exact Or.inr ⟨_, _, _, .ended (.blanks blanks)⟩
  · exact Or.inr ⟨_, _, _, .noCount blanks noBlank noDigit⟩
  · cases rest with
    | nil =>
      rw [List.append_nil]
      exact Or.inr ⟨_, _, _, .ended (.count count)⟩
    | cons b rest =>
      by_cases comma : b = Byte.comma
      · subst comma
        rcases blanks_then rest with blanks | ⟨gap, b, rest, rfl, blanks, noBlank, noDigit⟩ |
          ⟨other, high, rest, rfl, second, stops⟩
        · exact Or.inr ⟨_, _, _, .ended (.comma count blanks)⟩
        · by_cases brace : b = Byte.rightBrace
          · subst brace
            exact Or.inl ⟨_, _, .atLeast count blanks⟩
          · exact Or.inr ⟨_, _, _, .noUpper count blanks noBlank noDigit brace⟩
        · cases rest with
          | nil =>
            rw [List.append_nil]
            exact Or.inr ⟨_, _, _, .ended (.upper count second)⟩
          | cons b rest =>
            by_cases brace : b = Byte.rightBrace
            · subst brace
              exact Or.inl ⟨_, _, .between count second⟩
            · exact Or.inr ⟨_, _, _, .unexpectedUpper count second stops brace⟩
      · by_cases brace : b = Byte.rightBrace
        · subst brace
          exact Or.inl ⟨_, _, .exactly count⟩
        · exact Or.inr ⟨_, _, _, .unexpected count stops comma brace⟩

/-! ### Numbers -/

section Limit

variable {limit : Int}

theorem exceeds_capped (below : limit < maxCount) (n : Count) :
    limit < n.capped.value ↔ limit < n.value := by
  simp only [Count.capped, Nat.min_def]
  split <;> omega

theorem capped_of_fits (below : limit < maxCount) {n : Count} (fit : ¬ limit < n.value) :
    n.capped = n := by
  have small : Nat.min n.value maxCount = n.value := Nat.min_eq_left (by omega)
  rw [Count.capped, small]

/-- Where a count stops growing it is too large already. -/
theorem bounds_capped (below : limit < maxCount) (counts : Counts) :
    counts.capped.bounds limit = counts.bounds limit := by
  cases counts with
  | exactly n | atLeast n =>
    by_cases large : limit < n.value
    · simp only [capped, bounds, (exceeds_capped below n).mpr large, large, if_true]
      rfl
    · rw [capped, capped_of_fits below large]
  | between low high =>
    by_cases large : limit < low.value
    · simp only [capped, bounds, (exceeds_capped below low).mpr large, large, if_true]
      rfl
    · rw [capped, capped_of_fits below large]
      by_cases large_high : limit < high.value
      · simp only [bounds, (exceeds_capped below high).mpr large_high, large_high, if_true]
        rfl
      · rw [capped_of_fits below large_high]

theorem bounds_allowed {counts : Counts} (fit : ∀ n ∈ counts.list, (n.value : Int) ≤ limit)
    (ordered : counts.Ordered) : counts.bounds limit = .ok counts.exact := by
  cases counts with
  | exactly n | atLeast n =>
    have small := Int.not_lt.mpr (fit n (by simp [list]))
    rw [bounds, if_neg small]
    rfl
  | between low high =>
    have small := Int.not_lt.mpr (fit low (by simp [list]))
    have small_high := Int.not_lt.mpr (fit high (by simp [list]))
    rw [bounds, if_neg small, if_neg small_high, if_neg (Nat.not_lt.mpr ordered)]
    rfl

theorem bounds_excessive {counts : Counts} {n : Count} {earlier later : List Count}
    (first : counts.list = earlier ++ n :: later) (fit : ∀ m ∈ earlier, (m.value : Int) ≤ limit)
    (large : ¬ (n.value : Int) ≤ limit) :
    counts.bounds limit = .error (.excessiveRepeatCount, n.offset) := by
  have large := Int.not_le.mp large
  cases earlier with
  | nil =>
    cases counts with
    | exactly m | atLeast m | between m high =>
      cases first
      rw [bounds, if_pos large]
  | cons low earlier =>
    have small := Int.not_lt.mpr (fit low List.mem_cons_self)
    cases counts with
    | exactly m | atLeast m => simp [list] at first
    | between m high =>
      cases earlier with
      | nil =>
        cases first
        rw [bounds, if_neg small, if_pos large]
      | cons l earlier => simp [list] at first

theorem bounds_reversed {low high : Count} (fit : (low.value : Int) ≤ limit)
    (fit_high : (high.value : Int) ≤ limit) (wrong : high.value < low.value) :
    (between low high).bounds limit = .error (.invalidRepeatArgument, 0) := by
  rw [bounds, if_neg (Int.not_lt.mpr fit), if_neg (Int.not_lt.mpr fit_high), if_pos wrong]

end Limit

end Counts

theorem Number.atLeast_iff {ceiling : Number} (below : ¬ ceiling.AtLeast maxCount) (n : Nat) :
    ceiling.AtLeast n ↔ (n : Int) ≤ largestCount ceiling := by
  cases ceiling with
  | finite x =>
    simp only [AtLeast, largestCount]
    split
    · rename_i negative
      have above : ¬ (n : Rat) ≤ x :=
        Rat.not_le.mpr (Std.lt_of_lt_of_le negative Rat.natCast_nonneg)
      exact iff_of_false above (by omega)
    · rw [Rat.le_floor_iff]
      rfl
  | negativeZero => simp [AtLeast, largestCount]
  | infinite negative =>
    cases negative with
    | false => exact absurd rfl below
    | true => exact iff_of_false (by simp [AtLeast]) (by simp [largestCount]; omega)

theorem exists_first {α : Type} {p : α → Prop} {l : List α} (fails : ¬ ∀ a ∈ l, p a) :
    ∃ earlier a later, l = earlier ++ a :: later ∧ (∀ b ∈ earlier, p b) ∧ ¬ p a := by
  induction l with
  | nil => simp at fails
  | cons a l ih =>
    by_cases holds : p a
    · obtain ⟨earlier, b, later, rfl, before, first⟩ := ih fun others =>
        fails (List.forall_mem_cons.mpr ⟨holds, others⟩)
      exact ⟨a :: earlier, b, later, rfl, List.forall_mem_cons.mpr ⟨holds, before⟩, first⟩
    · exact ⟨[], a, l, rfl, by simp, holds⟩

namespace Bounds

variable {fits : Nat → Prop} {limit : Int} {i : Nat} {s : List UInt8}

theorem read_allowed (below : limit < maxCount) {counts : Counts} {used : Nat} {bounds : Bounds}
    (spelled : counts.Spelled s used) (judged : counts.bounds limit = .ok bounds) :
    read limit s = .ok (bounds, used) := by
  rw [← Counts.bounds_capped below] at judged
  unfold read
  rw [Counts.read_of_spelled spelled]
  simp only [judged]

theorem read_refused (below : limit < maxCount) {counts : Counts} {used offset : Nat}
    {kind : ErrorKind} (spelled : counts.Spelled s used)
    (judged : counts.bounds limit = .error (kind, offset)) :
    read limit s = .error ⟨kind, offset, used⟩ := by
  rw [← Counts.bounds_capped below] at judged
  unfold read
  rw [Counts.read_of_spelled spelled]
  simp only [judged]

theorem read_of_meaning (below : limit < maxCount) (fits_iff : ∀ n, fits n ↔ (n : Int) ≤ limit)
    {outcome : Except PatternError Bounds} {stop : Nat} (meaning : Meaning fits i s outcome stop) :
    (read limit s).placed i = (outcome, stop) := by
  cases meaning with
  | @misspelled kind offset taken wrong =>
    have failed : read limit s = .error ⟨kind, offset, taken⟩ := by
      unfold read
      rw [Counts.read_of_misspelled wrong]
    exact Reading.placed_error failed rfl rfl
  | allowed spelled fit ordered =>
    have small := fun n member => (fits_iff _).mp (fit n member)
    have judged := Counts.bounds_allowed small ordered
    exact Reading.placed_ok (read_allowed below spelled judged) rfl
  | excessive spelled first fit large =>
    have small := fun m member => (fits_iff _).mp (fit m member)
    have judged := Counts.bounds_excessive first small (mt (fits_iff _).mpr large)
    exact Reading.placed_error (read_refused below spelled judged) rfl rfl
  | reversed spelled fit fit_high wrong =>
    have judged := Counts.bounds_reversed ((fits_iff _).mp fit) ((fits_iff _).mp fit_high) wrong
    exact Reading.placed_error (read_refused below spelled judged) rfl rfl

theorem exists_meaning (fits : Nat → Prop) (i : Nat) (s : List UInt8) :
    ∃ outcome stop, Meaning fits i s outcome stop := by
  rcases Counts.spelled_or_misspelled s with ⟨counts, used, spelled⟩ | ⟨_, _, _, wrong⟩
  · by_cases fit : ∀ n ∈ counts.list, fits n.value
    · by_cases ordered : counts.Ordered
      · exact ⟨_, _, .allowed spelled fit ordered⟩
      · cases counts with
        | exactly n | atLeast n => exact absurd trivial ordered
        | between low high =>
          exact ⟨_, _, .reversed spelled (fit low (by simp [Counts.list]))
            (fit high (by simp [Counts.list])) (Nat.not_le.mp ordered)⟩
    · obtain ⟨earlier, n, later, first, small, large⟩ := exists_first fit
      exact ⟨_, _, .excessive spelled first small large⟩
  · exact ⟨_, _, .misspelled wrong⟩

theorem placed_iff (below : limit < maxCount) (fits_iff : ∀ n, fits n ↔ (n : Int) ≤ limit)
    {outcome : Except PatternError Bounds} {stop : Nat} :
    (read limit s).placed i = (outcome, stop) ↔ Meaning fits i s outcome stop :=
  Reading.placed_iff (exists_meaning fits i s) (read_of_meaning below fits_iff)

/-- Repeat counts anywhere in the bytes are read as what they mean, under a ceiling that is less
than the largest count. -/
theorem outcome_iff_counts {ceiling : Number} (below : ¬ ceiling.AtLeast maxCount)
    (before rest : List UInt8) (outcome : Except PatternError Bounds) (stop : Nat) :
    (Cursor.past before Byte.leftBrace rest).outcome (read (largestCount ceiling)) =
        (outcome, stop) ↔
      Meaning ceiling.AtLeast before.length rest outcome stop := by
  have limited : largestCount ceiling < maxCount :=
    Int.not_le.mp (mt (Number.atLeast_iff below maxCount).mpr below)
  rw [Cursor.outcome_past (read_within _ rest)]
  exact placed_iff limited (Number.atLeast_iff below)

/-- The second count of `a{ 2,9...9}` is too large, and starts at the index five. -/
theorem outcome_iff_counts_excessive :
    ¬ (Number.finite 1000).AtLeast maxCount ∧
      Meaning (Number.finite 1000).AtLeast 1 ([32, 50, 44] ++ List.replicate 20 57 ++ [125])
        (.error ⟨.excessiveRepeatCount, 5⟩) 26 := by
  have below : ¬ (Number.finite 1000).AtLeast maxCount := by
    unfold Number.AtLeast maxCount
    decide
  exact ⟨below, (outcome_iff_counts below [97] _ _ _).mp rfl⟩

end Bounds

end ByteRegex

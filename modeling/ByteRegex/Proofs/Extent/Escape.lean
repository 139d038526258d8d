import ByteRegex.Escape
import ByteRegex.Proofs.Extent

namespace ByteRegex

namespace Escape

def ShortOctal (digits : List UInt8) : Prop :=
  digits ≠ [] ∧ digits.length < 3 ∧ ∀ d ∈ digits, Byte.isOctal d

theorem fit_used (code n : Nat) : (fit code n).used = n := by
  unfold fit
  split <;> rfl

theorem octal_known {first : UInt8} {u v w : List UInt8} (octal : Byte.isOctal first)
    (known : (Escape.octal first (u ++ v)).used ≤ u.length + 1)
    (ends : (Escape.octal first (u ++ v)).used = u.length + 1 → ShortOctal (first :: u) →
      ∀ b ∈ w.head?, Byte.isOctal b = false) :
    Escape.octal first (u ++ w) = Escape.octal first (u ++ v) := by
  unfold Escape.octal at known ends ⊢
  simp only [fit_used, List.length_cons, Nat.add_le_add_iff_right, Nat.add_right_cancel_iff]
    at known ends
  have same := takeWhile_take_known (w := w) known (by
    intro full room
    refine ends full ⟨by simp, by simp only [List.length_cons]; omega, ?_⟩
    exact List.forall_mem_cons.mpr ⟨octal, takeWhile_take_all full⟩)
  simp only [same]

theorem pair_known {u v w : List UInt8} (known : (pair (u ++ v)).need ≤ u.length + 1) :
    pair (u ++ w) = pair (u ++ v) := by
  match u with
  | [] =>
    unfold pair at known
    split at known
    · simp [Reading.need] at known
    · split at known <;> simp [Reading.need] at known
  | [b] =>
    unfold pair at known ⊢
    simp only [List.cons_append, List.head?_cons] at known ⊢
    split at known
    · rfl
    · split at known <;> simp [Reading.need] at known
  | b :: c :: u => rfl

theorem braced_eq (s : List UInt8) :
    braced s =
      let n := runLength Byte.isHex s
      let code := scalarValue (s.takeWhile Byte.isHex)
      if n = 0 then .error ⟨.invalidHexDigit, 3, 2⟩
      else if (s.drop n).head? = some Byte.rightBrace then
        if maxScalar < code || isSurrogate code then .error ⟨.invalidHexDigit, 0, n + 3⟩
        else fit code (n + 3)
      else .error ⟨.unclosedHexCharacterCode, n + 3, n + 2⟩ := by
  unfold braced runLength
  simp only
  split
  · rfl
  · split
    · rename_i closed
      have head : (s.drop (s.takeWhile Byte.isHex).length).head? = some Byte.rightBrace := by
        rw [closed]
        rfl
      rw [if_pos head]
    · rename_i other
      rw [if_neg]
      intro closed
      obtain ⟨t, rest⟩ := List.head?_eq_some_iff.mp closed
      exact other t rest

theorem braced_need (s : List UInt8) : runLength Byte.isHex s + 3 ≤ (braced s).need := by
  rw [braced_eq]
  simp only
  split
  · rename_i none
    rw [none]
    exact Nat.le_refl _
  · split
    · split
      · exact Nat.le_succ _
      · have taken := Reading.used_le_need
          (fit (scalarValue (s.takeWhile Byte.isHex)) (runLength Byte.isHex s + 3))
        rwa [fit_used] at taken
    · exact Nat.le_refl _

theorem braced_known {u v w : List UInt8} (known : (braced (u ++ v)).need ≤ u.length + 2) :
    braced (u ++ w) = braced (u ++ v) := by
  have need := braced_need (u ++ v)
  have short : runLength Byte.isHex (u ++ v) < u.length := by omega
  simp only [braced_eq, takeWhile_known Byte.isHex (w := w) short,
    runLength_known Byte.isHex (w := w) short, head_known (w := w) (v := v) short]

theorem octal_used (first : UInt8) (s : List UInt8) :
    (Escape.octal first s).used = runLength Byte.isOctal (s.take 2) + 1 :=
  fit_used _ _

theorem pair_need (s : List UInt8) : 2 ≤ (pair s).need := by
  unfold pair
  split
  · exact Nat.le_refl _
  · split <;> exact Nat.le_succ _

theorem octal_plain {b : UInt8} (octal : Byte.isOctal b) :
    control? b = none ∧ Byte.isPunctuation b = false := by
  have codes : ∀ c : UInt8, Byte.isOctal c → control? c = none ∧ Byte.isPunctuation c = false :=
    Byte.forall_of_codes (by decide +kernel)
  exact codes b octal

theorem read_octal {b : UInt8} (octal : Byte.isOctal b) (s : List UInt8) :
    read (b :: s) = Escape.octal b s := by
  obtain ⟨control, punctuation⟩ := octal_plain octal
  simp only [read, control, punctuation, octal, if_true, Bool.false_eq_true, if_false]

theorem read_braced (s : List UInt8) : read (Byte.letterX :: Byte.leftBrace :: s) = braced s := rfl

theorem read_pair {s : List UInt8} (plain : s.head? ≠ some Byte.leftBrace) :
    read (Byte.letterX :: s) = pair s := by
  have control : control? Byte.letterX = none := rfl
  have punctuation : Byte.isPunctuation Byte.letterX = false := rfl
  have octal : Byte.isOctal Byte.letterX = false := rfl
  simp only [read, control, punctuation, octal, Bool.false_eq_true, if_false, if_true]
  split
  · exact absurd rfl plain
  · rfl

theorem read_single {b : UInt8} (digit : Byte.isOctal b = false) (hex : b ≠ Byte.letterX)
    (s t : List UInt8) : read (b :: t) = read (b :: s) ∧ (read (b :: s)).used = 1 := by
  simp only [read, digit, hex, Bool.false_eq_true, if_false, true_and]
  split
  · rfl
  · split <;> rfl

theorem read_hex_need (s : List UInt8) : 2 ≤ (read (Byte.letterX :: s)).need := by
  by_cases brace : s.head? = some Byte.leftBrace
  · obtain ⟨t, rfl⟩ := List.head?_eq_some_iff.mp brace
    have := braced_need t
    rw [read_braced]
    omega
  · rw [read_pair brace]
    exact pair_need s

theorem read_used (b : UInt8) (s : List UInt8) : 0 < (read (b :: s)).used := by
  by_cases digit : Byte.isOctal b
  · rw [read_octal digit, octal_used]
    exact Nat.succ_pos _
  · by_cases hex : b = Byte.letterX
    · subst hex
      have := read_hex_need s
      have := Reading.need_le_used (read (Byte.letterX :: s))
      omega
    · rw [(read_single (by simpa using digit) hex s s).2]
      exact Nat.one_pos

/-- What an escape is read as is settled by its bytes; an octal one that could have another digit
needs the byte behind it. -/
theorem read_known {u v w : List UInt8} (known : (read (u ++ v)).need ≤ u.length)
    (ends : (read (u ++ v)).used = u.length → ShortOctal u →
      ∀ b ∈ w.head?, Byte.isOctal b = false) :
    read (u ++ w) = read (u ++ v) := by
  cases u with
  | nil =>
    cases v with
    | nil => simp [read, Reading.need] at known
    | cons b v =>
      have := read_used b v
      have := Reading.used_le_need (read (b :: v))
      simp only [List.nil_append, List.length_nil] at known
      omega
  | cons b u =>
    simp only [List.cons_append, List.length_cons] at known ends ⊢
    by_cases digit : Byte.isOctal b
    · rw [read_octal digit] at known ends
      rw [read_octal digit, read_octal digit]
      have := Reading.used_le_need (Escape.octal b (u ++ v))
      exact octal_known digit (by omega) ends
    · by_cases hex : b = Byte.letterX
      · subst hex
        cases u with
        | nil =>
          have := read_hex_need v
          simp only [List.nil_append, List.length_nil] at known
          omega
        | cons c u =>
          by_cases brace : c = Byte.leftBrace
          · subst brace
            exact braced_known known
          · have plain (s : List UInt8) : (c :: (u ++ s)).head? ≠ some Byte.leftBrace := by
              simpa using brace
            simp only [List.cons_append, read_pair (plain _)] at known ⊢
            exact pair_known (u := c :: u) known
      · exact (read_single (by simpa using digit) hex (u ++ v) (u ++ w)).1

theorem read_local {u v w : List UInt8} (known : (read (u ++ v)).used < u.length) :
    read (u ++ w) = read (u ++ v) := by
  have := Reading.need_le_used (read (u ++ v))
  exact read_known (by omega) (by intro full; omega)

theorem pair_within (s : List UInt8) : (pair s).used ≤ s.length + 1 := by
  match s with
  | [] => exact Nat.le_refl _
  | [b] =>
    unfold pair
    split
    · exact Nat.le_succ _
    · exact Nat.le_refl _
  | b :: c :: s =>
    unfold pair
    split
    · simp only [Reading.used, List.length_cons]
      omega
    · split <;> simp only [Reading.used, List.length_cons] <;> omega

theorem braced_within (s : List UInt8) : (braced s).used ≤ s.length + 2 := by
  have digits := runLength_le Byte.isHex s
  rw [braced_eq]
  simp only
  split
  · simp only [Reading.used]
    omega
  · split
    · rename_i closed
      obtain ⟨t, rest⟩ := List.head?_eq_some_iff.mp closed
      have length := congrArg List.length rest
      simp only [List.length_drop, List.length_cons] at length
      split
      · simp only [Reading.used]
        omega
      · rw [fit_used]
        omega
    · simp only [Reading.used]
      omega

theorem read_within (s : List UInt8) : (read s).used ≤ s.length := by
  cases s with
  | nil => exact Nat.le_refl _
  | cons b s =>
    by_cases digit : Byte.isOctal b
    · have := runLength_le Byte.isOctal (s.take 2)
      rw [List.length_take] at this
      rw [read_octal digit, octal_used, List.length_cons]
      omega
    · by_cases hex : b = Byte.letterX
      · subst hex
        by_cases brace : s.head? = some Byte.leftBrace
        · obtain ⟨t, rfl⟩ := List.head?_eq_some_iff.mp brace
          exact braced_within t
        · rw [read_pair brace]
          exact pair_within s
      · rw [(read_single (by simpa using digit) hex s s).2]
        exact Nat.succ_pos _

end Escape

end ByteRegex

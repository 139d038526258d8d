import ByteRegex.Options
import ByteRegex.Proofs.Expr.Regular
import ByteRegex.Proofs.Grammar
import ByteRegex.Proofs.Numeral
import ByteRegex.Proofs.Spelling.Code

namespace ByteRegex.Expr

open Byte (isDigit isBlank isPrintable)
open Grammar (Quantifier)

theorem foldl_saturated (digits : List UInt8) (v : Nat) :
    digits.foldl (fun v d => Nat.min (v * 10 + Byte.digitValue d) maxCount) (Nat.min v maxCount) =
      Nat.min ((digits.map Byte.digitValue).foldl (fun v d => v * 10 + d) v) maxCount := by
  induction digits generalizing v with
  | nil => rfl
  | cons d digits ih =>
    have step : Nat.min (Nat.min v maxCount * 10 + Byte.digitValue d) maxCount =
        Nat.min (v * 10 + Byte.digitValue d) maxCount := by
      simp only [Nat.min_def]
      grind
    rw [List.foldl_cons, step, ih, List.map_cons, List.foldl_cons]

theorem countValue_eq (digits : List UInt8) :
    countValue digits = Nat.min (Numeral.value 10 (digits.map Byte.digitValue)) maxCount :=
  foldl_saturated digits 0

structure IsDecimal (n : Nat) (text : List UInt8) : Prop where
  nonempty : text ≠ []
  digit : ∀ b ∈ text, isDigit b
  value : countValue text = n

theorem digit_byte (d : Nat) (small : d < 10) :
    isDigit (UInt8.ofNat (Numeral.digitCode d)) ∧
      Byte.digitValue (UInt8.ofNat (Numeral.digitCode d)) = d := by
  revert d
  decide

theorem digits_decimal {n : Nat} (small : n ≤ maxCount) :
    IsDecimal n (Numeral.bytes (Numeral.decimalCodes n)) := by
  have limit : maxCount < Numeral.positionalLimit := by decide
  have written : Numeral.bytes (Numeral.decimalCodes n) =
      (Numeral.digits 10 n).map fun d => UInt8.ofNat (Numeral.digitCode d) := by
    rw [Numeral.decimalCodes, if_pos (by simp only [Int.natAbs_natCast]; omega), Numeral.codes,
      if_neg (by omega), Numeral.bytes, List.map_map]
    rfl
  have below := Numeral.digits_lt 10 n (by omega)
  rw [written]
  refine ⟨?_, ?_, ?_⟩
  · simp [Numeral.digits_ne_nil]
  · intro b member
    obtain ⟨d, inside, rfl⟩ := List.mem_map.mp member
    exact (digit_byte d (below d inside)).1
  · have values : ((Numeral.digits 10 n).map fun d => UInt8.ofNat (Numeral.digitCode d)).map
        Byte.digitValue = Numeral.digits 10 n := by
      rw [List.map_map]
      exact (List.map_congr_left fun d inside => (digit_byte d (below d inside)).2).trans
        (List.map_id' _)
    rw [countValue_eq, values, Numeral.value_digits]
    exact Nat.min_eq_left small

def Ends (rest : List UInt8) : Prop := ∀ b ∈ rest.head?, isDigit b = false ∧ isBlank b = false

theorem digit_not_blank {b : UInt8} (digit : isDigit b) : isBlank b = false := by
  simp only [isDigit, isBlank, Bool.and_eq_true, decide_eq_true_eq] at *
  grind

theorem takeWhile_decimal {text rest : List UInt8} (digit : ∀ b ∈ text, isDigit b)
    (ends : Ends rest) : (text ++ rest).takeWhile isDigit = text := by
  have stop : rest.takeWhile isDigit = [] := by
    cases rest with
    | nil => rfl
    | cons b rest => simp [(ends b rfl).1]
  rw [List.takeWhile_append_of_pos digit, stop, List.append_nil]

theorem runLength_ends {rest : List UInt8} (ends : Ends rest) : runLength isBlank rest = 0 := by
  cases rest with
  | nil => rfl
  | cons b rest => simp [runLength, (ends b rfl).2]

theorem count_decimal {n : Nat} {text rest : List UInt8} (decimal : IsDecimal n text)
    (ends : Ends rest) (taken : Nat) :
    Counts.count taken (text ++ rest) = (⟨n, taken + 1⟩, taken + text.length) := by
  unfold Counts.count
  simp only [takeWhile_decimal decimal.digit ends, decimal.value, List.drop_left,
    runLength_ends ends, Nat.add_zero]

theorem decimal_start {n : Nat} {text rest : List UInt8} (decimal : IsDecimal n text)
    (ends : Ends rest) (taken : Nat) :
    ∃ b s, text ++ rest = b :: s ∧ isDigit b ∧ runLength isBlank (b :: s) = 0 ∧
      Counts.count taken (b :: s) = (⟨n, taken + 1⟩, taken + text.length) := by
  have count := count_decimal decimal ends taken
  cases text with
  | nil => exact absurd rfl decimal.nonempty
  | cons b s =>
    have digit := decimal.digit b (by simp)
    exact ⟨b, s ++ rest, rfl, digit, by simp [runLength, digit_not_blank digit], count⟩

theorem brace_ends (rest : List UInt8) : Ends (Byte.rightBrace :: rest) := by
  intro b head
  cases head
  decide

theorem comma_ends (rest : List UInt8) : Ends (Byte.comma :: rest) := by
  intro b head
  cases head
  decide

theorem drop_next (text : List UInt8) (b : UInt8) (rest : List UInt8) :
    (text ++ b :: rest).drop (text.length + 1) = rest := by
  rw [← List.drop_drop, List.drop_left]
  rfl

theorem read_exactly {n : Nat} {text : List UInt8} (decimal : IsDecimal n text)
    (rest : List UInt8) :
    Counts.read (text ++ Byte.rightBrace :: rest) = .ok (.exactly ⟨n, 1⟩, text.length + 1) := by
  obtain ⟨b, s, eq, digit, blank, count⟩ := decimal_start decimal (brace_ends rest) 0
  have after : (b :: s).drop text.length = Byte.rightBrace :: rest := by
    rw [← eq, List.drop_left]
  simp only [Nat.zero_add] at count
  rw [eq]
  simp only [Counts.read, blank, List.drop_zero, digit, if_true, count, after]
  rfl

theorem read_comma {n : Nat} {text : List UInt8} (decimal : IsDecimal n text)
    (rest : List UInt8) :
    Counts.read (text ++ Byte.comma :: rest) =
      Counts.upper ⟨n, 1⟩ (text.length + 1) (text ++ Byte.comma :: rest) := by
  obtain ⟨b, s, eq, digit, blank, count⟩ := decimal_start decimal (comma_ends rest) 0
  have after : (b :: s).drop text.length = Byte.comma :: rest := by
    rw [← eq, List.drop_left]
  simp only [Nat.zero_add] at count
  rw [eq]
  simp only [Counts.read, blank, List.drop_zero, digit, if_true, count, after]
  rfl

theorem upper_unbounded {taken : Nat} {low : Count} {s rest : List UInt8}
    (place : s.drop taken = Byte.rightBrace :: rest) :
    Counts.upper low taken s = .ok (.atLeast low, taken + 1) := by
  simp only [Counts.upper, place, runLength_ends (brace_ends rest), Nat.add_zero]
  rfl

theorem upper_high {n taken : Nat} {low : Count} {s text rest : List UInt8}
    (decimal : IsDecimal n text) (place : s.drop taken = text ++ Byte.rightBrace :: rest) :
    Counts.upper low taken s =
      .ok (.between low ⟨n, taken + 1⟩, taken + text.length + 1) := by
  obtain ⟨b, t, eq, digit, blank, count⟩ := decimal_start decimal (brace_ends rest) taken
  have after : s.drop (taken + text.length) = Byte.rightBrace :: rest := by
    rw [← List.drop_drop, place, List.drop_left]
  rw [eq] at place
  simp only [Counts.upper, place, blank, Nat.add_zero, digit, if_true, count, after]
  rfl

theorem quantifier_braces {limit : Int} {s rest : List UInt8} {counts : Counts} {used : Nat}
    {bounds : Bounds} (read : Counts.read s = .ok (counts, used))
    (fits : counts.bounds limit = .ok bounds) (after : s.drop used = rest) :
    Quantifier limit (Byte.leftBrace :: s) bounds rest := by
  rw [← after]
  apply Quantifier.braces
  simp only [Bounds.read, read, fits]

theorem decimal_printable {n : Nat} {text : List UInt8} (decimal : IsDecimal n text) :
    Printable text := by
  intro b member
  have digit := decimal.digit b member
  simp only [isDigit, isPrintable, Bool.and_eq_true, decide_eq_true_eq,
    UInt8.le_iff_toNat_le, UInt8.toNat_ofNat] at *
  omega

theorem printable_brace {n : Nat} {text : List UInt8} (decimal : IsDecimal n text) :
    Printable (Byte.leftBrace :: text) :=
  printable_cons.mpr ⟨by decide, decimal_printable decimal⟩

def BoundsText (ceiling : Nat) (bounds : Bounds) (text : List UInt8) : Prop :=
  Printable text ∧ ∀ rest, Quantifier ceiling (text ++ rest) bounds rest

theorem boundsText_exactly {ceiling n : Nat} {text : List UInt8} (decimal : IsDecimal n text)
    (small : n ≤ ceiling) :
    BoundsText ceiling ⟨n, some n⟩ (Byte.leftBrace :: text ++ [Byte.rightBrace]) := by
  constructor
  · exact printable_append.mpr ⟨printable_brace decimal, by decide⟩
  · intro rest
    rw [List.append_assoc, List.cons_append]
    apply quantifier_braces (read_exactly decimal rest) _ (drop_next text _ rest)
    rw [Counts.bounds, if_neg (by simp only; omega)]

theorem boundsText_atLeast {ceiling n : Nat} {text : List UInt8} (decimal : IsDecimal n text)
    (small : n ≤ ceiling) :
    BoundsText ceiling ⟨n, none⟩ (Byte.leftBrace :: text ++ [Byte.comma, Byte.rightBrace]) := by
  constructor
  · exact printable_append.mpr ⟨printable_brace decimal, by decide⟩
  · intro rest
    have place := drop_next text Byte.comma (Byte.rightBrace :: rest)
    have read := read_comma decimal (Byte.rightBrace :: rest)
    rw [upper_unbounded place] at read
    rw [List.append_assoc, List.cons_append]
    apply quantifier_braces read
    · rw [Counts.bounds, if_neg (by simp only; omega)]
    · rw [← List.drop_drop]
      exact congrArg (List.drop 1) place

theorem boundsText_between {ceiling n m : Nat} {low high : List UInt8} (first : IsDecimal n low)
    (second : IsDecimal m high) (ordered : n ≤ m) (small : m ≤ ceiling) :
    BoundsText ceiling ⟨n, some m⟩
      (Byte.leftBrace :: low ++ Byte.comma :: high ++ [Byte.rightBrace]) := by
  constructor
  · have upper : Printable (Byte.comma :: high) :=
      printable_cons.mpr ⟨by decide, decimal_printable second⟩
    exact printable_append.mpr ⟨printable_append.mpr ⟨printable_brace first, upper⟩, by decide⟩
  · intro rest
    have place := drop_next low Byte.comma (high ++ Byte.rightBrace :: rest)
    have read := read_comma first (high ++ Byte.rightBrace :: rest)
    rw [upper_high second place] at read
    have text : Byte.leftBrace :: low ++ Byte.comma :: high ++ [Byte.rightBrace] ++ rest =
        Byte.leftBrace :: (low ++ Byte.comma :: (high ++ Byte.rightBrace :: rest)) := by simp
    rw [text]
    apply quantifier_braces read
    · rw [Counts.bounds, if_neg (by simp only; omega), if_neg (by simp only; omega),
        if_neg (by simp only; omega)]
    · rw [Nat.add_assoc, ← List.drop_drop, place, drop_next]

theorem boundsText_operator {ceiling : Nat} {bounds : Bounds} {b : UInt8}
    (printable : isPrintable b) (operator : ∀ rest, Quantifier ceiling (b :: rest) bounds rest) :
    BoundsText ceiling bounds [b] := by
  exact ⟨printable_single printable, operator⟩

theorem spellBounds_text {ceiling : Nat} (bound : ceiling ≤ maxCount) {min : Int}
    {max : Option Int} (allowed : BoundsAllowed ceiling min max) :
    ∃ bounds : Bounds, BoundsText ceiling bounds (spellBounds min max) ∧
      (bounds.min : Int) = min ∧ bounds.max.map Int.ofNat = max := by
  unfold spellBounds
  cases max with
  | none =>
    by_cases zero : min = 0
    · rw [zero]
      exact ⟨⟨0, none⟩, boundsText_operator (by decide) .star, rfl, rfl⟩
    · by_cases one : min = 1
      · rw [one]
        exact ⟨⟨1, none⟩, boundsText_operator (by decide) .plus, rfl, rfl⟩
      · have counts : 0 ≤ min ∧ min ≤ ceiling := by
          rcases allowed with h | h | h | h
          · exact absurd h.1 zero
          · exact absurd h.1 one
          · cases h.2
          · exact ⟨h.1, h.2.1⟩
        obtain ⟨n, rfl⟩ := Int.eq_ofNat_of_zero_le counts.1
        have small : n ≤ ceiling := by omega
        have decimal := digits_decimal (Nat.le_trans small bound)
        simp only [zero, one, if_false]
        exact ⟨⟨n, none⟩, boundsText_atLeast decimal small, rfl, rfl⟩
  | some high =>
    by_cases optional : min = 0 ∧ high = 1
    · rw [optional.1, optional.2]
      exact ⟨⟨0, some 1⟩, boundsText_operator (by decide) .question, rfl, rfl⟩
    · have counts : 0 ≤ min ∧ min ≤ high ∧ high ≤ ceiling := by
        rcases allowed with h | h | h | h
        · cases h.2
        · cases h.2
        · exact absurd ⟨h.1, Option.some.inj h.2⟩ optional
        · exact ⟨h.1, h.2.2 high rfl⟩
      obtain ⟨n, rfl⟩ := Int.eq_ofNat_of_zero_le counts.1
      obtain ⟨m, rfl⟩ := Int.eq_ofNat_of_zero_le (Int.le_trans counts.1 counts.2.1)
      have small : m ≤ ceiling := by omega
      have ordered : n ≤ m := by omega
      have first := digits_decimal (Nat.le_trans ordered (Nat.le_trans small bound))
      have second := digits_decimal (Nat.le_trans small bound)
      simp only [optional, if_false]
      by_cases same : n = m
      · subst same
        simp only [if_true]
        exact ⟨⟨n, some n⟩, boundsText_exactly first small, rfl, rfl⟩
      · have different : ¬ (n : Int) = m := by omega
        simp only [different, if_false]
        exact ⟨⟨n, some m⟩, boundsText_between first second ordered small, rfl, rfl⟩

end ByteRegex.Expr

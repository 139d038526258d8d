import ByteRegex.Expr.Identity
import ByteRegex.Options
import ByteRegex.Proofs.Extent.Token
import ByteRegex.Proofs.Run

/-!
The limit on repeat counts. Two readers with different limits go through a pattern in step, up to
the first count above the lower limit. There the reader with that limit stops, and the size of the
count is all that it complains of.
-/

namespace ByteRegex

inductive Narrowed {ε α : Type} (size : ε → Prop) (wide : Except ε α) : Except ε α → Prop where
  | same : Narrowed size wide wide
  | exceeded {e : ε} (large : size e) : Narrowed size wide (.error e)

namespace Narrowed

variable {ε δ α β : Type} {size : ε → Prop} {wide narrow : Except ε α}

theorem map (f : α → β) (h : Narrowed size wide narrow) :
    Narrowed size (wide.map f) (narrow.map f) := by
  cases h with
  | same => exact .same
  | exceeded large => exact .exceeded large

theorem mapError {size' : δ → Prop} {g : ε → δ} (carried : ∀ e, size e → size' (g e))
    (h : Narrowed size wide narrow) :
    Narrowed size' (wide.mapError g) (narrow.mapError g) := by
  cases h with
  | same => exact .same
  | exceeded large => exact .exceeded (carried _ large)

theorem error_or_eq (h : Narrowed size wide narrow) :
    (∃ e, size e ∧ narrow = .error e) ∨ narrow = wide := by
  cases h with
  | same => exact Or.inr rfl
  | exceeded large => exact Or.inl ⟨_, large, rfl⟩

end Narrowed

section Limits

variable {low high : Int}

theorem Narrowed.check {ε α : Type} {size : ε → Prop} {wide narrow : Except ε α} {e : ε}
    (le : low ≤ high) (n : Nat) (large : size e) (h : Narrowed size wide narrow) :
    Narrowed size (if high < n then .error e else wide) (if low < n then .error e else narrow) := by
  by_cases exceeded : low < n
  · rw [if_pos exceeded]
    exact .exceeded large
  · have fits : ¬ high < n := by omega
    rw [if_neg exceeded, if_neg fits]
    exact h

/-- The order of the counts is looked at last, so it cannot come before a fault of size. -/
theorem Counts.bounds_narrowed (le : low ≤ high) (counts : Counts) :
    Narrowed (fun e => e.1 = .excessiveRepeatCount) (counts.bounds high) (counts.bounds low) := by
  cases counts with
  | exactly n => exact .check le n.value rfl .same
  | atLeast n => exact .check le n.value rfl .same
  | between first second => exact .check le first.value rfl (.check le second.value rfl .same)

theorem Bounds.read_narrowed (le : low ≤ high) (s : List UInt8) :
    Narrowed (fun f => f.kind = .excessiveRepeatCount) (Bounds.read high s)
      (Bounds.read low s) := by
  unfold Bounds.read
  cases Counts.read s with
  | error f => exact .same
  | ok pair =>
    obtain ⟨counts, used⟩ := pair
    have narrowed := Counts.bounds_narrowed le counts
    simp only
    generalize counts.bounds low = narrow at narrowed
    cases narrowed with
    | same => exact .same
    | exceeded large => exact .exceeded large

theorem Token.read_narrowed (le : low ≤ high) (b : UInt8) (s : List UInt8) :
    Narrowed (fun f => f.kind = .excessiveRepeatCount) (Token.read high b s)
      (Token.read low b s) := by
  by_cases brace : b = Byte.leftBrace
  · subst brace
    rw [Token.read_brace, Token.read_brace]
    exact (Bounds.read_narrowed le s).map _
  · have same : Token.read low b s = Token.read high b s := by
      unfold Token.read
      split <;> first | rfl | exact absurd rfl brace
    rw [same]
    exact .same

namespace Machine

theorem advance_narrowed (le : low ≤ high) (m : Machine) :
    (∃ f, m.advance? low = some (.error f) ∧ f.error.kind = .excessiveRepeatCount) ∨
      m.advance? low = m.advance? high := by
  cases rest : m.rest with
  | nil =>
    right
    rw [advance_eq (.ended rest), advance_eq (.ended rest)]
  | cons b s =>
    rcases (Token.read_narrowed le b s).error_or_eq with ⟨f, large, exceeded⟩ | same
    · left
      exact ⟨_, advance_eq (.misread rest exceeded), large⟩
    · right
      simp only [advance?, rest, same]

theorem run_narrowed (le : low ≤ high) (m : Machine) :
    Narrowed (fun f => f.error.kind = .excessiveRepeatCount) (m.run high) (m.run low) := by
  -- along the run with the lower limit, which ends no later than the other
  fun_induction run low m with
  | case1 m ended =>
    rcases advance_narrowed le m with ⟨f, exceeded, _⟩ | same
    · rw [ended] at exceeded
      cases exceeded
    · rw [run_eq high m, ← same, ended]
      exact .same
  | case2 m failure failed =>
    rcases advance_narrowed le m with ⟨f, exceeded, large⟩ | same
    · rw [failed] at exceeded
      cases exceeded
      exact .exceeded large
    · rw [run_failed (same.symm.trans failed)]
      exact .same
  | case3 m next taken ih =>
    rcases advance_narrowed le m with ⟨f, exceeded, _⟩ | same
    · rw [taken] at exceeded
      cases exceeded
    · rw [run_taken (same.symm.trans taken)]
      exact ih

end Machine

theorem parse_narrowed (le : low ≤ high) (p : List UInt8) :
    Narrowed (fun e => e.kind = .excessiveRepeatCount) (parse high p) (parse low p) :=
  (Machine.run_narrowed le (.start p)).mapError fun _ large => large

end Limits

/-- A lower ceiling makes no difference to a pattern but that one of its counts can be too large. -/
theorem parse_of_lower_ceiling (lower higher : Options) (p : List UInt8)
    (le : lower.ceiling ≤ higher.ceiling) :
    (∃ i, lower.parse p = .error ⟨.excessiveRepeatCount, i⟩) ∨ lower.parse p = higher.parse p := by
  have le : (lower.ceiling : Int) ≤ higher.ceiling := Int.ofNat_le.mpr le
  rcases (parse_narrowed le p).error_or_eq with ⟨e, large, exceeded⟩ | same
  · left
    refine ⟨e.index, ?_⟩
    rw [← large]
    exact exceeded
  · exact Or.inr same

/-- In `a{2}|b{5,2}` the counts are in the wrong order, which a ceiling of four does not get to see.
-/
theorem parse_of_lower_ceiling_reversed :
    let p : List UInt8 := [97, 123, 50, 125, 124, 98, 123, 53, 44, 50, 125]
    let lower : Options := { ceiling := 4 }
    let higher : Options := {}
    higher.parse p = .error ⟨.invalidRepeatArgument, 6⟩ ∧
      ∃ i, lower.parse p = .error ⟨.excessiveRepeatCount, i⟩ := by
  intro p lower higher
  have reversed : higher.parse p = .error ⟨.invalidRepeatArgument, 6⟩ := by decide +kernel
  refine ⟨reversed, ?_⟩
  rcases parse_of_lower_ceiling lower higher p (by decide) with exceeded | same
  · exact exceeded
  · rw [reversed] at same
    exact absurd same (by decide +kernel)

end ByteRegex

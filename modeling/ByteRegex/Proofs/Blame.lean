import ByteRegex.Proofs.Extent.Token
import ByteRegex.Proofs.Grammar
import ByteRegex.Proofs.Spelling.Bounds

/-!
What errors point at. For each kind of error it is known which bytes its offset can lead to, and
most kinds never lead to the end of the pattern. The readers of constructs count offsets from the
byte that opens the construct, and what holds there holds where the construct stands.
-/

namespace ByteRegex

def endKinds : List ErrorKind := [.emptyAlternate, .invalidHexDigit, .unclosedHexCharacterCode]

/-- The byte `b` at the offset `i` of the pattern `p` can be to blame for an error of this kind. The
offsets at which a range with its ends in the wrong order starts are given by `range`. -/
def Offends (ceiling : Nat) (range : Nat → Prop) (p : List UInt8) (i : Nat) (b : UInt8) :
    ErrorKind → Prop
  | .missingRepeatOperand => b ∈ Grammar.operators
  | .invalidRepeatArgument => Byte.isDigit b = false ∧ Byte.isBlank b = false
  | .unclosedRepeat => b ≠ Byte.rightBrace ∧ Byte.isBlank b = false
  | .excessiveRepeatCount =>
    -- a number that no digit stands before, with its exact value
    Byte.isDigit b ∧ 0 < i ∧ (∀ c, p[i - 1]? = some c → Byte.isDigit c = false) ∧
      ceiling < Numeral.value 10 (((p.drop i).takeWhile Byte.isDigit).map Byte.digitValue)
  | .emptyAlternate => b = Byte.bar ∨ b = Byte.rightParen
  | .unopenedParentheses => b = Byte.rightParen
  | .unclosedParentheses => b = Byte.leftParen
  | .openEscapeCode => b = Byte.backslash ∧ i + 1 = p.length
  | .unrecognizedEscapeCode => b = Byte.backslash ∧ i + 1 < p.length
  | .invalidHexDigit => Byte.isHex b = false
  | .unclosedHexCharacterCode => Byte.isHex b = false ∧ b ≠ Byte.rightBrace
  | .unclosedBrackets => b = Byte.leftBracket
  | .characterCodeOutOfRange => b = Byte.backslash
  | .invalidClassRange => range i

/-- An error of this kind at the offset `i` of the pattern `p` points at the byte to blame. -/
structure Blamed (ceiling : Nat) (range : Nat → Prop) (p : List UInt8) (kind : ErrorKind)
    (i : Nat) : Prop where
  inside : i ≤ p.length
  last : i = p.length → kind ∈ endKinds
  byte : ∀ b, p[i]? = some b → Offends ceiling range p i b kind

section Places

variable {ceiling : Nat} {range : Nat → Prop} {b : UInt8} {s : List UInt8} {kind : ErrorKind}

theorem blamed_here {i : Nat} (here : s[i]? = some b) (offends : Offends ceiling range s i b kind) :
    Blamed ceiling range s kind i := by
  have inside : i < s.length := (List.getElem?_eq_some_iff.mp here).1
  constructor
  · exact Nat.le_of_lt inside
  · intro ended
    omega
  · intro c found
    rw [here] at found
    cases found
    exact offends

theorem blamed_opening (offends : Offends ceiling range (b :: s) 0 b kind) :
    Blamed ceiling range (b :: s) kind 0 :=
  blamed_here rfl offends

theorem blamed_at {n : Nat} {c : UInt8} {t : List UInt8} (here : s.drop n = c :: t)
    (offends : Offends ceiling range (b :: s) (n + 1) c kind) :
    Blamed ceiling range (b :: s) kind (n + 1) := by
  refine blamed_here ?_ offends
  rw [List.getElem?_cons_succ, ← List.head?_drop, here]
  rfl

theorem blamed_inside {n : Nat} (within : n ≤ s.length) (last : s.drop n = [] → kind ∈ endKinds)
    (byte : ∀ c t, s.drop n = c :: t → Offends ceiling range (b :: s) (n + 1) c kind) :
    Blamed ceiling range (b :: s) kind (n + 1) := by
  constructor
  · exact Nat.succ_le_succ within
  · intro ended
    apply last
    rw [List.drop_eq_nil_iff]
    simp only [List.length_cons, Nat.add_right_cancel_iff] at ended
    omega
  · intro c here
    rw [List.getElem?_cons_succ, ← List.head?_drop] at here
    obtain ⟨t, rest⟩ := List.head?_eq_some_iff.mp here
    exact byte c t rest

theorem blamed_behind {wide : Nat → Prop} {i : Nat} (before : List UInt8)
    (h : Blamed ceiling range s kind i) (moved : ∀ j, range j → wide (before.length + j)) :
    Blamed ceiling wide (before ++ s) kind (before.length + i) := by
  constructor
  · rw [List.length_append]
    exact Nat.add_le_add_left h.inside _
  · intro ended
    apply h.last
    rw [List.length_append] at ended
    omega
  · intro c here
    rw [List.getElem?_append_right (Nat.le_add_right _ _), Nat.add_sub_cancel_left] at here
    have offends := h.byte c here
    -- most kinds speak of the byte alone
    cases kind with
    | excessiveRepeatCount =>
      obtain ⟨digit, later, first, large⟩ := offends
      refine ⟨digit, by omega, ?_, ?_⟩
      · intro d previous
        apply first
        have place : before.length + i - 1 = before.length + (i - 1) := by omega
        rwa [place, List.getElem?_append_right (Nat.le_add_right _ _), Nat.add_sub_cancel_left]
          at previous
      · rwa [List.drop_length_add_append]
    | openEscapeCode =>
      obtain ⟨escape, ends⟩ := offends
      refine ⟨escape, ?_⟩
      rw [List.length_append]
      omega
    | unrecognizedEscapeCode =>
      obtain ⟨escape, ends⟩ := offends
      refine ⟨escape, ?_⟩
      rw [List.length_append]
      omega
    | invalidClassRange => exact moved i offends
    | _ => exact offends

end Places

end ByteRegex

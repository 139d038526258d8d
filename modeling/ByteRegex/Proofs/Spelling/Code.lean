import ByteRegex.Escape
import ByteRegex.Expr.Spelling

namespace ByteRegex.Expr

open Byte (isPrintable isPunctuation)

def Printable (text : List UInt8) : Prop := ∀ b ∈ text, isPrintable b

instance (text : List UInt8) : Decidable (Printable text) :=
  List.decidableBAll (fun b => isPrintable b) text

theorem printable_cons {b : UInt8} {text : List UInt8} :
    Printable (b :: text) ↔ isPrintable b ∧ Printable text :=
  List.forall_mem_cons

theorem printable_append {s t : List UInt8} : Printable (s ++ t) ↔ Printable s ∧ Printable t :=
  List.forall_mem_append

theorem printable_single {b : UInt8} (printable : isPrintable b) : Printable [b] :=
  List.forall_mem_singleton.mpr printable

theorem digits_pair (n : Nat) (low : 16 ≤ n) (high : n < 256) :
    Numeral.digits 16 n = [n / 16, n % 16] := by
  have quotient : n / 16 < 16 := by omega
  rw [Numeral.digits, if_neg (by omega), Numeral.digits, if_pos (by omega)]
  rfl

theorem hexPair_eq (n : Nat) (high : n < 256) :
    Numeral.hexPair n = [Numeral.digitCode (n / 16), Numeral.digitCode (n % 16)] := by
  have codes : Numeral.codes 16 n = (Numeral.digits 16 n).map Numeral.digitCode := by
    rw [Numeral.codes, if_neg (by omega)]
    rfl
  unfold Numeral.hexPair
  rw [codes]
  by_cases small : n < 16
  · have zero : n / 16 = 0 := by omega
    have same : n % 16 = n := by omega
    rw [Numeral.digits, if_pos (by omega), zero, same]
    rfl
  · rw [digits_pair n (by omega) high]
    rfl

theorem hexValue_digitCode (d : Nat) (small : d < 16) :
    Byte.hexValue (UInt8.ofNat (Numeral.digitCode d)) = some d ∧
      isPrintable (UInt8.ofNat (Numeral.digitCode d)) ∧
      UInt8.ofNat (Numeral.digitCode d) ≠ Byte.leftBrace := by
  revert d
  decide

def EscapeOf (b : UInt8) (body : List UInt8) : Prop :=
  Printable body ∧ ∀ rest, Escape.read (body ++ rest) = .ok (b, body.length)

theorem escapeOf_control {b letter : UInt8} (printable : isPrintable letter)
    (control : Escape.control? letter = some b) : EscapeOf b [letter] := by
  refine ⟨printable_single printable, ?_⟩
  intro rest
  simp only [List.cons_append, List.nil_append, Escape.read, control]
  rfl

theorem escapeOf_punctuation {b : UInt8} (printable : isPrintable b) (punctuation : isPunctuation b)
    (plain : Escape.control? b = none) : EscapeOf b [b] := by
  refine ⟨printable_single printable, ?_⟩
  intro rest
  simp only [List.cons_append, List.nil_append, Escape.read, plain, punctuation, if_true]
  rfl

theorem read_pair {s : List UInt8} (noBrace : s.head? ≠ some Byte.leftBrace) :
    Escape.read (Byte.letterX :: s) = Escape.pair s := by
  have control : Escape.control? Byte.letterX = none := rfl
  unfold Escape.read
  simp only [control]
  rw [if_neg (by decide), if_neg (by decide), if_pos trivial]
  split
  · simp at noBrace
  · rfl

theorem escapeOf_hex (b : UInt8) :
    EscapeOf b (Byte.letterX :: Numeral.bytes (Numeral.hexPair b.toNat)) := by
  have bound := b.toNat_lt
  obtain ⟨high, highPrintable, noBrace⟩ := hexValue_digitCode (b.toNat / 16) (by omega)
  obtain ⟨low, lowPrintable, _⟩ := hexValue_digitCode (b.toNat % 16) (by omega)
  rw [hexPair_eq b.toNat bound]
  simp only [Numeral.bytes, List.map_cons, List.map_nil]
  constructor
  · have pair := printable_cons.mpr ⟨highPrintable, printable_single lowPrintable⟩
    exact printable_cons.mpr ⟨by decide, pair⟩
  · intro rest
    have whole : b.toNat / 16 * 16 + b.toNat % 16 = b.toNat := by omega
    rw [List.cons_append, read_pair (by simpa using noBrace)]
    simp only [Escape.pair, List.cons_append, List.nil_append, List.head?_cons, Option.bind_some,
      high, List.tail_cons, low, whole, UInt8.ofNat_toNat]
    rfl

inductive CodeText (special : List UInt8) (b : UInt8) : List UInt8 → Prop where
  | plain (printable : isPrintable b) (ordinary : b ∉ special) : CodeText special b [b]
  | escape {body : List UInt8} (read : EscapeOf b body) :
      CodeText special b (Byte.backslash :: body)

theorem special_punctuation : ∀ b ∈ metacharacters ++ bracketMetacharacters,
    isPrintable b ∧ isPunctuation b ∧ Escape.control? b = none := by
  decide +kernel

theorem controlLetter_some {b letter : UInt8} (h : controlLetter? b.toNat = some letter) :
    isPrintable letter ∧ Escape.control? letter = some b := by
  have code : ∀ n : Nat, n < 256 → ∀ letter, controlLetter? n = some letter →
      isPrintable letter ∧ Escape.control? letter = some (UInt8.ofNat n) := by
    decide +kernel
  have found := code b.toNat b.toNat_lt letter h
  rwa [UInt8.ofNat_toNat] at found

theorem spellCode_text {special : List UInt8}
    (known : special ⊆ metacharacters ++ bracketMetacharacters) (b : UInt8) :
    CodeText special b (spellCode special b.toNat) := by
  have bound := b.toNat_lt
  unfold spellCode
  split
  · rename_i letter h
    obtain ⟨printable, control⟩ := controlLetter_some h
    exact .escape (escapeOf_control printable control)
  · split
    · rename_i range
      have same : UInt8.ofNat (b.toNat : Int).toNat = b := by
        rw [Int.toNat_natCast, UInt8.ofNat_toNat]
      have printable : isPrintable b := by
        simp only [isPrintable, Bool.and_eq_true, decide_eq_true_eq, UInt8.le_iff_toNat_le,
          UInt8.toNat_ofNat]
        omega
      rw [same]
      by_cases member : b ∈ special
      · obtain ⟨_, punctuation, plain⟩ := special_punctuation b (known member)
        rw [if_pos member]
        exact .escape (escapeOf_punctuation printable punctuation plain)
      · rw [if_neg member]
        exact .plain printable member
    · exact .escape (escapeOf_hex b)

theorem codeText_printable {special text : List UInt8} {b : UInt8} (h : CodeText special b text) :
    Printable text := by
  cases h with
  | plain printable ordinary => exact printable_single printable
  | escape read => exact printable_cons.mpr ⟨by decide, read.1⟩

end ByteRegex.Expr

import ByteRegex.Proofs.ByteSet.Numbers
import ByteRegex.Proofs.Extent.Token

/-!
Reading tokens with every check made. The ends of the ranges in a bracket expression are kept as
plain numbers, and the set is built from them by the constructor that refuses pairs of numbers which
bound no range. The refusal never comes.
-/

namespace ByteRegex

/-- A state that a reader could be in only through a mistake of its own. -/
inductive Defect where
  /-- no group beneath the level that a parenthesis closes -/
  | noGroup
  /-- no branch beneath a bar -/
  | noBranch
  /-- entries beneath the whole pattern -/
  | leftOver
  /-- a set built from numbers that bound no range -/
  | noRange (invalid : InvalidRange)
deriving DecidableEq

inductive Halt (ε : Type) where
  | fault (e : ε)
  | defect (d : Defect)
deriving DecidableEq

def Halt.map {ε δ : Type} (f : ε → δ) : Halt ε → Halt δ
  | .fault e => .fault (f e)
  | .defect d => .defect d

namespace Checked

def number (b : UInt8) : Number := .finite b.toNat

def pair (taken : Nat) (b : UInt8) (s : List UInt8) : Reading (Number × Number) :=
  match Bracket.endpoint b s with
  | .error f => .error (f.shift (taken + 1))
  | .ok (low, n) =>
    let rest := s.drop n
    if rest.head? ≠ some Byte.dash ∨ rest.tail.head? = some Byte.rightBracket then
      .ok ((number low, number low), n)
    else
      match rest.tail with
      | [] => .error ⟨.unclosedBrackets, 0, taken + n + 2⟩
      | c :: t =>
        match Bracket.endpoint c t with
        | .error f => .error (f.shift (taken + n + 3))
        | .ok (high, m) =>
          if high < low then .error ⟨.invalidClassRange, taken + 1, taken + n + m + 3⟩
          else .ok ((number low, number high), n + m + 2)

def pairs (first : Bool) (taken : Nat) (found : List (Number × Number)) :
    List UInt8 → Reading (List (Number × Number))
  | [] => .error ⟨.unclosedBrackets, 0, taken⟩
  | b :: s =>
    if b = Byte.rightBracket ∧ first = false then .ok (found.reverse, taken + 1)
    else
      match pair taken b s with
      | .error f => .error f
      | .ok (r, n) => pairs false (taken + 1 + n) (r :: found) (s.drop n)
termination_by s => s.length
decreasing_by simp only [List.length_drop, List.length_cons]; omega

def set (r : Reading (List (Number × Number))) : Except (Halt Fault) (ByteSet × Nat) :=
  match r with
  | .error f => .error (.fault f)
  | .ok (found, n) =>
    match ByteSet.ofNumbers found with
    | .error invalid => .error (.defect (.noRange invalid))
    | .ok set => .ok (set, n)

def bracket (s : List UInt8) : Except (Halt Fault) (ByteSet × Nat) :=
  match s with
  | Byte.caret :: t => (set (pairs true 1 [] t)).map fun (set, n) => (set.negate, n)
  | _ => set (pairs true 0 [] s)

def token (limit : Int) (b : UInt8) (s : List UInt8) : Except (Halt Fault) (Token × Nat) :=
  if b = Byte.leftBracket then (bracket s).map fun (set, n) => (.atom (.bytes set), n)
  else (Token.read limit b s).mapError .fault

def ends (r : ByteRange) : Number × Number := (.finite r.min, .finite r.max)

theorem pair_eq (taken : Nat) (b : UInt8) (s : List UInt8) :
    pair taken b s = (Bracket.member taken b s).map fun (r, n) => (ends r, n) := by
  have outcome := Bracket.member_outcome taken b s
  generalize Bracket.member taken b s = r at outcome
  unfold pair
  cases outcome with
  | badLow first =>
    rw [first]
    rfl
  | single first rest =>
    simp only [first, if_pos (Or.inl rest)]
    rfl
  | lastDash first rest | unclosed first rest =>
    simp only [first, rest]
    rfl
  | badHigh first rest inside second =>
    simp [first, rest, inside, second, Except.map]
  | range first rest inside second ordered =>
    have not_reversed := UInt8.not_lt.mpr ordered
    simp [first, rest, inside, second, not_reversed, Except.map, ends, number, ByteRange.between]
  | reversed first rest inside second reversed =>
    have reversed := UInt8.not_le.mp reversed
    simp [first, rest, inside, second, reversed, Except.map]

theorem pairs_eq (first : Bool) (taken : Nat) (found : List ByteRange) (s : List UInt8) :
    pairs first taken (found.map ends) s =
      (Bracket.members first taken found s).map fun (rs, n) => (rs.map ends, n) := by
  fun_induction Bracket.members first taken found s with
  | case1 first taken found => rw [pairs]; rfl
  | case2 first taken found b s closing =>
    rw [pairs, if_pos closing, ← List.map_reverse]
    rfl
  | case3 first taken found b s more f failed =>
    rw [pairs, if_neg more, pair_eq, failed]
    rfl
  | case4 first taken found b s more r n read ih =>
    rw [pairs, if_neg more, pair_eq, read, ← ih]
    rfl

theorem ofNumbers_ends (rs : List ByteRange) :
    ByteSet.ofNumbers (rs.map ends) = .ok (ByteSet.ofRanges rs) := by
  have pairs := Span.ofNumbers_pairs rs
  rwa [List.map_map] at pairs

theorem set_ends (r : Reading (List ByteRange)) :
    set (r.map fun (rs, n) => (rs.map ends, n)) =
      Except.mapError .fault (r.map fun (rs, n) => (ByteSet.ofRanges rs, n)) := by
  cases r with
  | error f => rfl
  | ok pair =>
    simp only [Except.map, set, ofNumbers_ends]
    rfl

theorem bracket_eq (s : List UInt8) : bracket s = (Bracket.read s).mapError .fault := by
  by_cases caret : s.head? = some Byte.caret
  · obtain ⟨t, rfl⟩ := List.head?_eq_some_iff.mp caret
    have negated : bracket (Byte.caret :: t) =
        (set (pairs true 1 [] t)).map fun (set, n) => (set.negate, n) := rfl
    have read := set_ends (Bracket.members true 1 [] t)
    rw [← pairs_eq, List.map_nil] at read
    rw [negated, read, Bracket.read_negated]
    cases Bracket.members true 1 [] t <;> rfl
  · rw [Bracket.read_plain caret, ← set_ends, ← pairs_eq, List.map_nil]
    unfold bracket
    split
    · exact absurd rfl caret
    · rfl

theorem token_eq (limit : Int) (b : UInt8) (s : List UInt8) :
    token limit b s = (Token.read limit b s).mapError .fault := by
  unfold token
  split
  · rename_i opening
    rw [opening, bracket_eq]
    cases read : Bracket.read s with
    | error f => simp only [Token.read, read]; rfl
    | ok pair => simp only [Token.read, read]; rfl
  · rfl

theorem token_of_read {limit : Int} {b : UInt8} {s : List UInt8} {t : Token} {used : Nat}
    (read : Token.read limit b s = .ok (t, used)) : token limit b s = .ok (t, used) := by
  rw [token_eq, read]
  rfl

end Checked

end ByteRegex

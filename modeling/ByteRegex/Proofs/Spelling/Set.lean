import ByteRegex.Bracket
import ByteRegex.Proofs.ByteSet.Membership
import ByteRegex.Proofs.Spelling.Code

namespace ByteRegex.Expr

theorem bracket_text (b : UInt8) :
    CodeText bracketMetacharacters b (spellCode bracketMetacharacters b.toNat) :=
  spellCode_text (List.subset_append_right _ _) b

theorem endpoint_spelled (b : UInt8) :
    ∃ c s, spellCode bracketMetacharacters b.toNat = c :: s ∧
      c ≠ Byte.rightBracket ∧ c ≠ Byte.dash ∧ c ≠ Byte.caret ∧
      ∀ rest, Bracket.endpoint c (s ++ rest) = .ok (b, s.length) := by
  have text := bracket_text b
  generalize spellCode bracketMetacharacters b.toNat = written at text
  cases text with
  | plain printable ordinary =>
    simp only [bracketMetacharacters, List.mem_cons, List.not_mem_nil, or_false, not_or] at ordinary
    obtain ⟨backslash, _, rightBracket, caret, dash⟩ := ordinary
    refine ⟨b, [], rfl, rightBracket, dash, caret, ?_⟩
    intro rest
    rw [Bracket.endpoint, if_neg backslash]
    rfl
  | @escape body read =>
    refine ⟨Byte.backslash, body, rfl, by decide, by decide, by decide, ?_⟩
    intro rest
    rw [Bracket.endpoint, if_pos rfl, read.2 rest]

theorem min_byte (r : ByteRange) : (UInt8.ofNat r.min).toNat = r.min := by
  have order := r.min_le_max
  have bound := r.max_le
  exact UInt8.toNat_ofNat_of_lt (Nat.lt_succ_of_le (Nat.le_trans order bound))

theorem max_byte (r : ByteRange) : (UInt8.ofNat r.max).toNat = r.max := by
  exact UInt8.toNat_ofNat_of_lt (Nat.lt_succ_of_le r.max_le)

theorem member_single {taken n : Nat} {c b : UInt8} {s rest : List UInt8}
    (endpoint : Bracket.endpoint c s = .ok (b, n)) (after : s.drop n = rest)
    (noDash : rest.head? ≠ some Byte.dash) :
    Bracket.member taken c s = .ok (ByteRange.single b, n) := by
  unfold Bracket.member
  rw [endpoint]
  simp only [after]
  split
  · simp at noDash
  · simp at noDash
  · simp at noDash
  · rfl

theorem member_range {taken n m : Nat} {c d low high : UInt8} {s t : List UInt8}
    (first : Bracket.endpoint c s = .ok (low, n)) (after : s.drop n = Byte.dash :: d :: t)
    (noBracket : d ≠ Byte.rightBracket) (second : Bracket.endpoint d t = .ok (high, m))
    (ordered : low ≤ high) :
    Bracket.member taken c s = .ok (ByteRange.between low high ordered, n + m + 2) := by
  unfold Bracket.member
  rw [first]
  simp only [after]
  split
  · rename_i eq
    exact absurd (List.cons.inj (List.cons.inj eq).2).1 noBracket
  · rename_i eq
    cases (List.cons.inj eq).2
  · rename_i e u _ eq
    obtain ⟨_, tail⟩ := List.cons.inj eq
    obtain ⟨rfl, rfl⟩ := List.cons.inj tail
    rw [second]
    simp only [ordered, dif_pos]
  · rename_i other
    exact absurd rfl (other d t)

theorem member_spelled (r : ByteRange) :
    ∃ c s, spellRange r = c :: s ∧ c ≠ Byte.rightBracket ∧ c ≠ Byte.dash ∧ c ≠ Byte.caret ∧
      ∀ taken rest, rest.head? ≠ some Byte.dash →
        Bracket.member taken c (s ++ rest) = .ok (r, s.length) := by
  obtain ⟨c, s, low, noBracket, noDash, noCaret, readLow⟩ := endpoint_spelled (UInt8.ofNat r.min)
  rw [min_byte] at low
  unfold spellRange
  by_cases same : r.min = r.max
  · have single : ByteRange.single (UInt8.ofNat r.min) = r :=
      range_ext (min_byte r) ((min_byte r).trans same)
    refine ⟨c, s, by rw [if_pos same, low], noBracket, noDash, noCaret, ?_⟩
    intro taken rest head
    rw [member_single (readLow rest) (List.drop_left) head, single]
  · obtain ⟨d, t, high, noEnd, _, _, readHigh⟩ := endpoint_spelled (UInt8.ofNat r.max)
    rw [max_byte] at high
    have ordered : UInt8.ofNat r.min ≤ UInt8.ofNat r.max := by
      rw [UInt8.le_iff_toNat_le, min_byte, max_byte]
      exact r.min_le_max
    have range : ByteRange.between _ _ ordered = r := range_ext (min_byte r) (max_byte r)
    refine ⟨c, s ++ Byte.dash :: d :: t, by rw [if_neg same, low, high, List.cons_append],
      noBracket, noDash, noCaret, fun taken rest head => ?_⟩
    have after : (s ++ (Byte.dash :: d :: t ++ rest)).drop s.length =
        Byte.dash :: d :: (t ++ rest) := by
      rw [List.drop_left]; rfl
    rw [List.append_assoc, member_range (readLow _) after noEnd (readHigh rest) ordered, range]
    simp only [List.length_append, List.length_cons]
    rfl

theorem ranges_head (ranges : List ByteRange) (rest : List UInt8) :
    (ranges.flatMap spellRange ++ Byte.rightBracket :: rest).head? ≠ some Byte.dash := by
  cases ranges with
  | nil => exact fun same => absurd (Option.some.inj same) (by decide)
  | cons r ranges =>
    obtain ⟨c, s, written, _, noDash, _⟩ := member_spelled r
    simp [written, noDash]

theorem members_spelled (ranges : List ByteRange) (first : Bool) (taken : Nat)
    (found : List ByteRange) (rest : List UInt8) (start : first = true → ranges ≠ []) :
    Bracket.members first taken found (ranges.flatMap spellRange ++ Byte.rightBracket :: rest) =
      .ok (found.reverse ++ ranges, taken + (ranges.flatMap spellRange).length + 1) := by
  induction ranges generalizing first taken found with
  | nil =>
    have later : first = false := by
      cases first with
      | true => exact absurd rfl (start rfl)
      | false => rfl
    rw [List.flatMap_nil, List.nil_append, Bracket.members, if_pos ⟨rfl, later⟩]
    simp
  | cons r ranges ih =>
    obtain ⟨c, s, written, noBracket, _, _, read⟩ := member_spelled r
    have step := read taken _ (ranges_head ranges rest)
    rw [List.flatMap_cons, written, List.append_assoc, List.cons_append, Bracket.members,
      if_neg (fun both => noBracket both.1), step]
    simp only [List.drop_left]
    rw [ih false _ _ (fun h => by cases h)]
    simp only [List.reverse_cons, List.append_assoc, List.singleton_append, List.length_append,
      List.length_cons]
    congr 2
    omega

theorem spelled_members_length (ranges : List ByteRange) (rest : List UInt8) :
    (ranges.flatMap spellRange ++ Byte.rightBracket :: rest).drop
      ((ranges.flatMap spellRange).length + 1) = rest := by
  rw [← List.drop_drop, List.drop_left]
  rfl

theorem read_positive {s : ByteSet} (inside : s.ranges ≠ []) (rest : List UInt8) :
    Bracket.read (s.ranges.flatMap spellRange ++ Byte.rightBracket :: rest) =
      .ok (s, 0 + (s.ranges.flatMap spellRange).length + 1) := by
  have members := members_spelled s.ranges true 0 [] rest fun _ => inside
  unfold Bracket.read
  split
  · rename_i t eq
    cases ranges : s.ranges with
    | nil => exact absurd ranges inside
    | cons r more =>
      obtain ⟨c, u, written, _, _, noCaret, _⟩ := member_spelled r
      rw [ranges, List.flatMap_cons, written] at eq
      exact absurd (List.cons.inj eq).1 noCaret
  · rw [members, List.reverse_nil, List.nil_append]
    simp only [Except.map, ByteSet.ofRanges_ranges]

theorem read_negated {s : ByteSet} (inside : s.ranges ≠ []) (rest : List UInt8) :
    Bracket.read (Byte.caret :: (s.ranges.flatMap spellRange ++ Byte.rightBracket :: rest)) =
      .ok (s.negate, 1 + (s.ranges.flatMap spellRange).length + 1) := by
  have members := members_spelled s.ranges true 1 [] rest fun _ => inside
  change (Bracket.members true 1 [] _).map _ = _
  rw [members, List.reverse_nil, List.nil_append]
  simp only [Except.map, ByteSet.ofRanges_ranges]

theorem negate_nonempty {s : ByteSet} (empty : s.ranges = []) : s.negate.ranges ≠ [] := by
  have whole : s.negate.ranges = gaps 0 [] := congrArg (gaps 0) empty
  rw [whole]
  simp [gaps]

theorem read_spellSet (s : ByteSet) (rest : List UInt8) :
    ∃ body used, spellSet s ++ rest = Byte.leftBracket :: body ∧
      Bracket.read body = .ok (s, used) ∧ body.drop used = rest := by
  unfold spellSet
  simp only
  split
  · rename_i negated
    have outside : s.negate.ranges ≠ [] := by
      rcases negated with empty | ⟨_, some⟩
      · exact negate_nonempty empty
      · exact some
    have read := read_negated outside rest
    rw [ByteSet.negate_negate] at read
    refine ⟨_, _, by simp, read, ?_⟩
    rw [Nat.add_assoc, Nat.add_comm 1, List.drop_succ_cons, spelled_members_length]
  · rename_i positive
    have inside : s.ranges ≠ [] := fun empty => positive (Or.inl empty)
    refine ⟨_, _, by simp, read_positive inside rest, ?_⟩
    rw [Nat.zero_add, spelled_members_length]

theorem spellRange_printable (r : ByteRange) : Printable (spellRange r) := by
  have low := codeText_printable (bracket_text (UInt8.ofNat r.min))
  have high := codeText_printable (bracket_text (UInt8.ofNat r.max))
  rw [min_byte] at low
  rw [max_byte] at high
  unfold spellRange
  split
  · exact low
  · exact printable_append.mpr ⟨low, printable_cons.mpr ⟨by decide, high⟩⟩

theorem spellSet_printable (s : ByteSet) : Printable (spellSet s) := by
  have closed (rs : List ByteRange) : Printable (rs.flatMap spellRange ++ [Byte.rightBracket]) := by
    refine printable_append.mpr ⟨?_, by decide⟩
    intro x member
    obtain ⟨r, _, inside⟩ := List.mem_flatMap.mp member
    exact spellRange_printable r x inside
  unfold spellSet
  simp only
  split
  · exact printable_cons.mpr ⟨by decide, printable_cons.mpr ⟨by decide, closed _⟩⟩
  · exact printable_cons.mpr ⟨by decide, closed _⟩

end ByteRegex.Expr

import ByteRegex.Proofs.ByteSet.Making
import ByteRegex.Proofs.ByteSet.Queries

namespace ByteRegex

def sameRanges (rs ss : List ByteRange) : Bool :=
  rs.length == ss.length && (rs.zip ss).all fun (r, s) => r.min == s.min && r.max == s.max

theorem sameRanges_iff {rs ss : List ByteRange} : sameRanges rs ss = true ↔ rs = ss := by
  induction rs generalizing ss with
  | nil => cases ss <;> simp [sameRanges]
  | cons r rs ih =>
    cases ss with
    | nil => simp [sameRanges]
    | cons s ss =>
      have bounds : r.min = s.min ∧ r.max = s.max ↔ r = s := by
        constructor
        · rintro ⟨min, max⟩
          exact range_ext min max
        · rintro rfl
          exact ⟨rfl, rfl⟩
      rw [List.cons.injEq, ← ih, ← bounds]
      simp only [sameRanges, List.length_cons, List.zip_cons_cons, List.all_cons, Bool.and_eq_true,
        beq_iff_eq, Nat.add_right_cancel_iff]
      exact and_left_comm

namespace ByteSet

theorem eq_of_contains {s t : ByteSet}
    (same : ∀ b : UInt8, s.contains b.toNat = t.contains b.toNat) : s = t := by
  have byte (x : Int) (low : 0 ≤ x) (high : x ≤ 255) : s.Holds x ↔ t.Holds x := by
    obtain ⟨n, rfl⟩ := Int.eq_ofNat_of_zero_le low
    have code : (UInt8.ofNat n).toNat = n := by
      rw [UInt8.toNat_ofNat']
      omega
    have here := same (UInt8.ofNat n)
    rw [code] at here
    rw [← contains_iff, ← contains_iff, here]
  apply eq_of_holds
  intro x
  constructor
  · intro inside
    obtain ⟨low, high⟩ := holds_byte inside
    exact (byte x low high).mp inside
  · intro inside
    obtain ⟨low, high⟩ := holds_byte inside
    exact (byte x low high).mpr inside

theorem union_comm (s t : ByteSet) : s.union t = t.union s := by
  apply eq_of_holds
  intro x
  rw [union_holds, union_holds, or_comm]

theorem union_assoc (s t u : ByteSet) : (s.union t).union u = s.union (t.union u) := by
  apply eq_of_holds
  intro x
  rw [union_holds, union_holds, union_holds, union_holds, or_assoc]

theorem union_self (s : ByteSet) : s.union s = s := by
  apply eq_of_holds
  intro x
  rw [union_holds, or_self]

theorem ofNumbers_congr {pairs others : List (Number × Number)} {s : ByteSet}
    (same : ∀ pair, pair ∈ pairs ↔ pair ∈ others) (made : ofNumbers pairs = .ok s) :
    ofNumbers others = .ok s := by
  have valid : ∀ pair ∈ pairs, ¬ Invalid pair := by
    intro pair member invalid
    obtain ⟨e, failed⟩ := (ofNumbers_fails_iff pairs).mpr ⟨pair, member, invalid⟩
    rw [made] at failed
    cases failed
  have others_valid : ∀ pair ∈ others, ¬ Invalid pair :=
    fun pair member => valid pair ((same pair).mpr member)
  rw [ofNumbers_valid valid] at made
  cases made
  rw [ofNumbers_valid others_valid]
  apply congrArg Except.ok
  apply eq_of_holds
  intro x
  rw [ofNumbers_holds valid, ofNumbers_holds others_valid]
  simp only [same]

theorem ofNumbers_spans (s : ByteSet) : ofNumbers (s.spans.map Span.pair) = .ok s := by
  have made : ofNumbers (s.spans.map Span.pair) = .ok (ofRanges s.ranges) :=
    Span.ofNumbers_pairs s.ranges
  rw [made, ofRanges_ranges]

/-- Comparing ranges compares the bytes, and so each set has one list of ranges. -/
theorem ranges_unique :
    (∀ s t : ByteSet,
      (s = t ↔ sameRanges s.ranges t.ranges = true) ∧
      (sameRanges s.ranges t.ranges = true ↔
        ∀ b : UInt8, s.contains b.toNat = t.contains b.toNat) ∧
      ((∀ b : UInt8, s.contains b.toNat = t.contains b.toNat) → s.ranges = t.ranges)) ∧
    (∀ pairs others s, (∀ pair, pair ∈ pairs ↔ pair ∈ others) →
      (ofNumbers pairs = .ok s ↔ ofNumbers others = .ok s)) ∧
    (∀ s : ByteSet, ofNumbers (s.spans.map Span.pair) = .ok s) ∧
    (∀ s : ByteSet, s.negate.negate.ranges = s.ranges) ∧
    (∀ s t : ByteSet, (s.union t).ranges = (t.union s).ranges) ∧
    (∀ s t u : ByteSet, ((s.union t).union u).ranges = (s.union (t.union u)).ranges) ∧
    ∀ s : ByteSet, (s.union s).ranges = s.ranges := by
  have equal (s t : ByteSet) : s = t ↔ sameRanges s.ranges t.ranges = true := by
    rw [sameRanges_iff]
    cases s; cases t
    simp
  refine ⟨?_, ?_, ofNumbers_spans, ?_, ?_, ?_, ?_⟩
  · intro s t
    refine ⟨equal s t, ?_, ?_⟩
    · rw [← equal]
      constructor
      · rintro rfl b
        rfl
      · exact eq_of_contains
    · intro same
      rw [eq_of_contains same]
  · intro pairs others s same
    constructor
    · exact ofNumbers_congr same
    · exact ofNumbers_congr fun pair => (same pair).symm
  · intro s
    rw [negate_negate]
  · intro s t
    rw [union_comm]
  · intro s t u
    rw [union_assoc]
  · intro s
    rw [union_self]

/-- The letters up to `e`: in two ranges, in three that repeat one of those, and as the gap between
two others. -/
theorem ranges_unique_letters :
    let pairs : List (Number × Number) := [(.finite 97, .finite 99), (.finite 100, .finite 101)]
    let others : List (Number × Number) :=
      [(.finite 100, .finite 101), (.finite 97, .finite 99), (.finite 100, .finite 101)]
    let s : ByteSet := .ofRanges [.between 97 101 (by decide)]
    let t : ByteSet := .ofRanges [.between 102 255 (by decide), .between 0 96 (by decide)]
    ofNumbers pairs = .ok s ∧ ofNumbers others = .ok s ∧ s.ranges = t.negate.ranges := by
  intro pairs others s t
  obtain ⟨unique, repeated, _⟩ := ranges_unique
  have same : ∀ pair, pair ∈ pairs ↔ pair ∈ others := by
    intro pair
    simp only [pairs, others, List.mem_cons, List.not_mem_nil, or_false]
    grind
  have bytes : ∀ n < 256, s.contains (n : Nat) = t.negate.contains (n : Nat) := by decide +kernel
  refine ⟨rfl, ?_, ?_⟩
  · exact (repeated pairs others s same).mp rfl
  · exact (unique s t.negate).2.2 fun b => bytes b.toNat b.toNat_lt

end ByteSet

end ByteRegex

import ByteRegex.ByteSet

namespace ByteRegex

def AnyHolds (ranges : List ByteRange) (x : Int) : Prop := ∃ r ∈ ranges, r.Holds x

theorem anyHolds_nil (x : Int) : ¬ AnyHolds [] x := by simp [AnyHolds]

theorem anyHolds_cons {r : ByteRange} {ranges : List ByteRange} {x : Int} :
    AnyHolds (r :: ranges) x ↔ r.Holds x ∨ AnyHolds ranges x := by
  simp [AnyHolds]

theorem anyHolds_append {rs ss : List ByteRange} {x : Int} :
    AnyHolds (rs ++ ss) x ↔ AnyHolds rs x ∨ AnyHolds ss x := by
  simp only [AnyHolds, List.mem_append, or_and_right, exists_or]

theorem min_holds (r : ByteRange) : r.Holds r.min := by
  have := r.min_le_max
  exact ⟨Int.le_refl _, by omega⟩

theorem insertRange_holds (r : ByteRange) (ranges : List ByteRange) (x : Int) :
    AnyHolds (insertRange r ranges) x ↔ r.Holds x ∨ AnyHolds ranges x := by
  induction ranges generalizing r with
  | nil => rw [insertRange, anyHolds_cons]
  | cons s rest ih =>
    unfold insertRange
    split
    · rw [anyHolds_cons]
    · split
      · rw [anyHolds_cons, anyHolds_cons, ih, or_left_comm]
      · rename_i right left
        rw [ih, ByteRange.hull_holds r s right left, anyHolds_cons, or_assoc]

theorem later_holds {r : ByteRange} {ranges : List ByteRange} {x : Int}
    (normal : Normal (r :: ranges)) (h : AnyHolds ranges x) : (r.max : Int) + 1 < x := by
  obtain ⟨s, member, low, _⟩ := h
  have before := (List.pairwise_cons.mp normal).1 s member
  simp only [ByteRange.Before] at before
  omega

theorem first_le {r : ByteRange} {ranges : List ByteRange} {x : Int}
    (normal : Normal (r :: ranges)) (h : AnyHolds (r :: ranges) x) : (r.min : Int) ≤ x := by
  rcases anyHolds_cons.mp h with first | later
  · exact first.1
  · have := later_holds normal later
    have := r.min_le_max
    omega

theorem gaps_holds (next : Nat) (ranges : List ByteRange) (normal : Normal ranges)
    (above : ∀ r ∈ ranges, next ≤ r.min) (x : Int) :
    AnyHolds (gaps next ranges) x ↔ next ≤ x ∧ x ≤ 255 ∧ ¬ AnyHolds ranges x := by
  induction ranges generalizing next with
  | nil =>
    unfold gaps
    split
    · rw [anyHolds_cons]
      simp only [ByteRange.Holds, ByteRange.onward, anyHolds_nil, or_false, not_false_iff, and_true]
      omega
    · simp only [anyHolds_nil, not_false_iff, and_true, false_iff]
      omega
  | cons r rest ih =>
    obtain ⟨before, rest_normal⟩ := List.pairwise_cons.mp normal
    have start : ∀ t ∈ rest, r.max + 1 ≤ t.min := fun t ht => Nat.le_of_lt (before t ht)
    have tail := ih (r.max + 1) rest_normal start
    have head := above r (by simp)
    have beyond : AnyHolds rest x → (r.max : Int) + 1 < x := later_holds normal
    have order := r.min_le_max
    have bound := r.max_le
    unfold gaps
    split
    · rw [anyHolds_cons, anyHolds_cons, tail]
      simp only [ByteRange.Holds, ByteRange.upTo]
      by_cases inside : AnyHolds rest x
      · have := beyond inside
        simp only [inside, not_true, and_false, or_false, or_true, iff_false, not_and]
        omega
      · simp only [inside, not_false_iff, and_true, or_false]
        omega
    · rw [anyHolds_cons, tail]
      simp only [ByteRange.Holds]
      by_cases inside : AnyHolds rest x
      · simp only [inside, not_true, and_false, or_true]
      · simp only [inside, not_false_iff, and_true, or_false]
        omega

theorem range_ext {r s : ByteRange} (min : r.min = s.min) (max : r.max = s.max) : r = s := by
  cases r; cases s
  simp_all

theorem first_min_le {r s : ByteRange} {rs ss : List ByteRange} (normal : Normal (s :: ss))
    (same : ∀ x, AnyHolds (r :: rs) x → AnyHolds (s :: ss) x) : s.min ≤ r.min := by
  have inside := same r.min (anyHolds_cons.mpr (Or.inl (min_holds r)))
  have := first_le normal inside
  omega

theorem first_max_le {r s : ByteRange} {rs ss : List ByteRange} (normal : Normal (s :: ss))
    (min : r.min = s.min) (same : ∀ x, AnyHolds (r :: rs) x → AnyHolds (s :: ss) x) :
    r.max ≤ s.max := by
  have order := s.min_le_max
  apply Nat.le_of_not_lt
  intro longer
  have holds : r.Holds (s.max + 1) := ⟨by omega, by omega⟩
  rcases anyHolds_cons.mp (same _ (anyHolds_cons.mpr (Or.inl holds))) with first | later
  · have := first.2
    omega
  · have := later_holds normal later
    omega

theorem normal_unique {rs ss : List ByteRange} (hr : Normal rs) (hs : Normal ss)
    (same : ∀ x, AnyHolds rs x ↔ AnyHolds ss x) : rs = ss := by
  induction rs generalizing ss with
  | nil =>
    cases ss with
    | nil => rfl
    | cons s ss =>
      exact absurd ((same s.min).mpr (anyHolds_cons.mpr (Or.inl (min_holds s)))) (anyHolds_nil _)
  | cons r rs ih =>
    cases ss with
    | nil =>
      exact absurd ((same r.min).mp (anyHolds_cons.mpr (Or.inl (min_holds r)))) (anyHolds_nil _)
    | cons s ss =>
      have forward := fun x => (same x).mp
      have backward := fun x => (same x).mpr
      have min : r.min = s.min :=
        Nat.le_antisymm (first_min_le hr backward) (first_min_le hs forward)
      have max : r.max = s.max :=
        Nat.le_antisymm (first_max_le hs min forward) (first_max_le hr min.symm backward)
      have head : r = s := range_ext min max
      subst head
      have tail : ∀ x, AnyHolds rs x ↔ AnyHolds ss x := by
        intro x
        have whole := same x
        rw [anyHolds_cons, anyHolds_cons] at whole
        constructor
        · intro later
          have := later_holds hr later
          exact (whole.mp (Or.inr later)).resolve_left fun first => by have := first.2; omega
        · intro later
          have := later_holds hs later
          exact (whole.mpr (Or.inr later)).resolve_left fun first => by have := first.2; omega
      rw [ih (List.pairwise_cons.mp hr).2 (List.pairwise_cons.mp hs).2 tail]

namespace ByteSet

theorem eq_of_holds {s t : ByteSet} (same : ∀ x, s.Holds x ↔ t.Holds x) : s = t := by
  have ranges : s.ranges = t.ranges := normal_unique s.normal t.normal same
  cases s; cases t
  simp_all

theorem insert_holds (s : ByteSet) (r : ByteRange) (x : Int) :
    (s.insert r).Holds x ↔ r.Holds x ∨ s.Holds x :=
  insertRange_holds r s.ranges x

theorem foldl_insert_holds (ranges : List ByteRange) (s : ByteSet) (x : Int) :
    (ranges.foldl insert s).Holds x ↔ s.Holds x ∨ AnyHolds ranges x := by
  induction ranges generalizing s with
  | nil => simp [anyHolds_nil]
  | cons r rest ih => rw [List.foldl_cons, ih, insert_holds, anyHolds_cons, or_assoc, or_left_comm]

theorem ofRanges_holds (ranges : List ByteRange) (x : Int) :
    (ofRanges ranges).Holds x ↔ AnyHolds ranges x := by
  rw [ofRanges, foldl_insert_holds]
  simp [Holds, empty]

theorem union_holds (s t : ByteSet) (x : Int) : (s.union t).Holds x ↔ s.Holds x ∨ t.Holds x :=
  foldl_insert_holds t.ranges s x

theorem negate_holds (s : ByteSet) (x : Int) :
    s.negate.Holds x ↔ 0 ≤ x ∧ x ≤ 255 ∧ ¬ s.Holds x :=
  gaps_holds 0 s.ranges s.normal (fun _ _ => Nat.zero_le _) x

theorem holds_byte {s : ByteSet} {x : Int} (h : s.Holds x) : 0 ≤ x ∧ x ≤ 255 := by
  obtain ⟨r, _, low, high⟩ := h
  have := r.max_le
  omega

theorem ofRanges_ranges (s : ByteSet) : ofRanges s.ranges = s :=
  eq_of_holds (ofRanges_holds s.ranges)

theorem negate_negate (s : ByteSet) : s.negate.negate = s := by
  apply eq_of_holds
  intro x
  rw [negate_holds, negate_holds]
  constructor
  · rintro ⟨low, high, inside⟩
    exact Classical.byContradiction fun outside => inside ⟨low, high, outside⟩
  · intro inside
    obtain ⟨low, high⟩ := holds_byte inside
    exact ⟨low, high, fun outside => outside.2.2 inside⟩

end ByteSet

end ByteRegex

import ByteRegex.Proofs.ByteSet.Numbers

namespace ByteRegex

theorem earlier_holds {earlier later : List ByteRange} {r : ByteRange} {x : Int}
    (normal : Normal (earlier ++ r :: later)) (h : AnyHolds earlier x) : x < r.min := by
  obtain ⟨s, member, _, high⟩ := h
  have before := (List.pairwise_append.mp normal).2.2 s member r (by simp)
  simp only [ByteRange.Before] at before
  omega

theorem cut_holds {ranges later : List ByteRange} {r : ByteRange} {k : Nat} {x : Int}
    (cut : ranges.drop k = r :: later) :
    AnyHolds ranges x ↔ AnyHolds (ranges.take k) x ∨ AnyHolds (r :: later) x := by
  rw [← cut, ← anyHolds_append, List.take_append_drop]

theorem normal_cut {ranges later : List ByteRange} {r : ByteRange} {k : Nat}
    (normal : Normal ranges) (cut : ranges.drop k = r :: later) :
    Normal (ranges.take k ++ r :: later) := by
  rwa [← cut, List.take_append_drop]

theorem countP_or {p q : Nat → Bool} (apart : ∀ x, p x = true → q x = false) (xs : List Nat) :
    xs.countP (fun x => p x || q x) = xs.countP p + xs.countP q := by
  induction xs with
  | nil => rfl
  | cons x xs ih =>
    rw [List.countP_cons, List.countP_cons, List.countP_cons, ih]
    cases first : p x with
    | true =>
      rw [apart x first]
      simp only [Bool.or_false, if_true, Bool.false_eq_true, if_false]
      omega
    | false =>
      simp only [Bool.false_or, Bool.false_eq_true, if_false]
      omega

theorem countP_range (low high n : Nat) :
    (List.range n).countP (fun x => low ≤ x && x ≤ high) = Min.min n (high + 1) - low := by
  induction n with
  | zero => simp
  | succ n ih =>
    rw [List.range_succ, List.countP_append, ih, List.countP_singleton]
    simp only [Bool.and_eq_true, decide_eq_true_eq]
    split <;> omega

namespace ByteSet

/-- Where the list is cut, the half that is left out holds no such byte. -/
theorem search_iff (x : Int) (ranges : List ByteRange) (normal : Normal ranges) :
    search x ranges = true ↔ AnyHolds ranges x := by
  fun_induction search x ranges with
  | case1 ranges none =>
    have empty : ranges = [] := by
      have := List.drop_eq_nil_iff.mp none
      apply List.eq_nil_of_length_eq_zero
      omega
    subst empty
    simp [AnyHolds]
  | case2 ranges r later cut below ih =>
    obtain ⟨front, back, _⟩ := List.pairwise_append.mp (normal_cut normal cut)
    rw [ih front, cut_holds cut]
    constructor
    · exact Or.inl
    · rintro (inside | above)
      · exact inside
      · have := first_le back above
        omega
  | case3 ranges r later cut not_below above ih =>
    have apart := normal_cut normal cut
    have back := (List.pairwise_append.mp apart).2.1
    rw [ih (List.pairwise_cons.mp back).2, cut_holds cut, anyHolds_cons]
    constructor
    · intro inside
      exact Or.inr (Or.inr inside)
    · rintro (below | here | inside)
      · have := earlier_holds apart below
        omega
      · have := here.2
        omega
      · exact inside
  | case4 ranges r later cut not_below not_above =>
    have here : AnyHolds (r :: later) x := ⟨r, by simp, by omega, by omega⟩
    simp only [true_iff]
    exact (cut_holds cut).mpr (Or.inr here)

theorem contains_iff (s : ByteSet) (x : Int) : s.contains x = true ↔ s.Holds x :=
  search_iff x s.ranges s.normal

theorem contains_false_iff (s : ByteSet) (x : Int) : s.contains x = false ↔ ¬ s.Holds x := by
  rw [← contains_iff, Bool.not_eq_true]

theorem foldl_size {ranges : List ByteRange} (normal : Normal ranges) (n : Nat) :
    ranges.foldl (fun n r => n + r.size) n =
      n + (List.range 256).countP fun x : Nat => search x ranges := by
  induction ranges generalizing n with
  | nil =>
    have none (x : Nat) : search x [] = false := by
      rw [← Bool.not_eq_true, search_iff _ _ normal]
      exact anyHolds_nil x
    simp [none]
  | cons r rest ih =>
    have rest_normal := (List.pairwise_cons.mp normal).2
    have first (x : Nat) : search x (r :: rest) =
        ((decide (r.min ≤ x) && decide (x ≤ r.max)) || search x rest) := by
      rw [Bool.eq_iff_iff, search_iff _ _ normal, anyHolds_cons, Bool.or_eq_true,
        search_iff _ _ rest_normal]
      apply or_congr_left
      simp only [ByteRange.Holds, Bool.and_eq_true, decide_eq_true_eq]
      omega
    have apart (x : Nat) (inside : (decide (r.min ≤ x) && decide (x ≤ r.max)) = true) :
        search x rest = false := by
      rw [← Bool.not_eq_true, search_iff _ _ rest_normal]
      intro later
      have := later_holds normal later
      simp only [Bool.and_eq_true, decide_eq_true_eq] at inside
      omega
    have own := countP_range r.min r.max 256
    have := r.min_le_max
    have := r.max_le
    rw [List.foldl_cons, ih rest_normal]
    simp only [first]
    rw [countP_or apart, own, ByteRange.size]
    omega

theorem isEmpty_iff (s : ByteSet) : s.isEmpty = true ↔ ∀ x, ¬ s.Holds x := by
  unfold isEmpty Holds
  cases s.ranges with
  | nil => simp
  | cons r rest =>
    simp only [List.isEmpty_cons, Bool.false_eq_true, false_iff]
    intro none
    exact none r.min ⟨r, by simp, min_holds r⟩

/-- What the operations mean for the numbers that a set contains. -/
theorem contains_of_operations :
    (∀ pairs, (∀ pair ∈ pairs, ¬ Invalid pair) →
      ∃ s, ofNumbers pairs = .ok s ∧
        ∀ x, s.contains x = true ↔ ∃ pair ∈ pairs, Between pair x) ∧
    ∀ s t : ByteSet,
      (∀ x, s.contains x = true ↔ ∃ r ∈ s.ranges, (r.min : Int) ≤ x ∧ x ≤ r.max) ∧
      (∀ x, s.negate.contains x = true ↔ 0 ≤ x ∧ x ≤ 255 ∧ s.contains x = false) ∧
      (∀ x, (s.union t).contains x = true ↔ s.contains x = true ∨ t.contains x = true) ∧
      s.size = (List.range 256).countP (fun x : Nat => s.contains x) ∧
      (s.isEmpty = true ↔ ∀ x, s.contains x = false) := by
  constructor
  · intro pairs valid
    refine ⟨_, ofNumbers_valid valid, ?_⟩
    intro x
    rw [contains_iff, ofNumbers_holds valid]
  · intro s t
    refine ⟨contains_iff s, ?_, ?_, ?_, ?_⟩
    · intro x
      rw [contains_iff, contains_false_iff, negate_holds]
    · intro x
      rw [contains_iff, contains_iff, contains_iff, union_holds]
    · have size : s.size = _ := foldl_size s.normal 0
      rw [size, Nat.zero_add]
      rfl
    · simp only [contains_false_iff, isEmpty_iff]

theorem contains_of_operations_overlapping :
    let pairs : List (Number × Number) :=
      [(.finite 100, .finite 105), (.finite 97, .finite 101), (.finite 98, .finite 99),
        (.finite 106, .finite 106), (.finite 97, .finite 101), (.negativeZero, .finite 0)]
    (∀ pair ∈ pairs, ¬ Invalid pair) ∧
      ∃ s, ofNumbers pairs = .ok s ∧
        ∀ x, s.contains x = true ↔ ∃ pair ∈ pairs, Between pair x := by
  intro pairs
  have valid : ∀ pair ∈ pairs, ¬ Invalid pair := by decide +kernel
  exact ⟨valid, contains_of_operations.1 pairs valid⟩

end ByteSet

end ByteRegex

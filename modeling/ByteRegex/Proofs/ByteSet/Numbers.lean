import ByteRegex.Proofs.ByteSet.Membership

namespace ByteRegex

def Number.IsByte (x : Number) : Prop := ∃ n ∈ x.toInt?, 0 ≤ n ∧ n ≤ 255

instance (x : Number) : Decidable x.IsByte := inferInstanceAs (Decidable (∃ n ∈ x.toInt?, _))

/-- One of the bounds is no byte, or the lower bound is above the upper one. -/
def Invalid (pair : Number × Number) : Prop :=
  ¬ pair.1.IsByte ∨ ¬ pair.2.IsByte ∨ ∃ low ∈ pair.1.toInt?, ∃ high ∈ pair.2.toInt?, high < low

instance (pair : Number × Number) : Decidable (Invalid pair) :=
  inferInstanceAs (Decidable (_ ∨ _ ∨ ∃ low ∈ pair.1.toInt?, ∃ high ∈ pair.2.toInt?, high < low))

def Between (pair : Number × Number) (x : Int) : Prop :=
  ∃ low ∈ pair.1.toInt?, ∃ high ∈ pair.2.toInt?, low ≤ x ∧ x ≤ high

def firstInvalid? (pairs : List (Number × Number)) : Option (Number × Number) :=
  pairs.find? fun pair => Invalid pair

def range? (pair : Number × Number) : Option ByteRange := ByteRange.ofNumbers? pair.1 pair.2

theorem not_invalid_iff {pair : Number × Number} :
    ¬ Invalid pair ↔ ∃ low ∈ pair.1.toInt?, ∃ high ∈ pair.2.toInt?,
      0 ≤ low ∧ low ≤ high ∧ high ≤ 255 := by
  constructor
  · intro valid
    simp only [Invalid, not_or, Decidable.not_not] at valid
    obtain ⟨⟨low, first, low_le⟩, ⟨high, second, high_le⟩, ordered⟩ := valid
    refine ⟨low, first, high, second, low_le.1, ?_, high_le.2⟩
    apply Int.not_lt.mp
    intro reversed
    exact ordered ⟨low, first, high, second, reversed⟩
  · rintro ⟨low, first, high, second, nonneg, ordered, le⟩ invalid
    rcases invalid with outside | outside | ⟨low', first', high', second', reversed⟩
    · exact outside ⟨low, first, nonneg, by omega⟩
    · exact outside ⟨high, second, by omega, le⟩
    · cases Option.mem_unique first first'
      cases Option.mem_unique second second'
      omega

theorem firstInvalid_none_iff {pairs : List (Number × Number)} :
    firstInvalid? pairs = none ↔ ∀ pair ∈ pairs, ¬ Invalid pair := by
  simp [firstInvalid?]

theorem range_of_bounds {pair : Number × Number} {low high : Int} (first : low ∈ pair.1.toInt?)
    (second : high ∈ pair.2.toInt?) (bounds : 0 ≤ low ∧ low ≤ high ∧ high ≤ 255) :
    ∃ r, range? pair = some r := by
  unfold range? ByteRange.ofNumbers?
  rw [Option.mem_def.mp first, Option.mem_def.mp second]
  simp only [dif_pos bounds]
  exact ⟨_, rfl⟩

theorem bounds_of_range {pair : Number × Number} {r : ByteRange} (h : range? pair = some r) :
    (r.min : Int) ∈ pair.1.toInt? ∧ (r.max : Int) ∈ pair.2.toInt? := by
  unfold range? ByteRange.ofNumbers? at h
  split at h
  · rename_i low high first second
    split at h
    · cases h
      rw [first, second, Option.mem_some, Option.mem_some]
      simp only
      omega
    · cases h
  · cases h

theorem range_none_iff {pair : Number × Number} : range? pair = none ↔ Invalid pair := by
  constructor
  · intro none
    apply Decidable.byContradiction
    intro valid
    obtain ⟨low, first, high, second, bounds⟩ := not_invalid_iff.mp valid
    obtain ⟨r, range⟩ := range_of_bounds first second bounds
    rw [range] at none
    cases none
  · intro invalid
    cases range : range? pair with
    | none => rfl
    | some r =>
      obtain ⟨first, second⟩ := bounds_of_range range
      have := r.min_le_max
      have := r.max_le
      have valid : ¬ Invalid pair :=
        not_invalid_iff.mpr ⟨_, first, _, second, by omega, by omega, by omega⟩
      exact absurd invalid valid

theorem range_holds {pair : Number × Number} {r : ByteRange} (h : range? pair = some r) (x : Int) :
    r.Holds x ↔ Between pair x := by
  obtain ⟨first, second⟩ := bounds_of_range h
  constructor
  · intro inside
    exact ⟨_, first, _, second, inside⟩
  · rintro ⟨low, first', high, second', inside⟩
    cases Option.mem_unique first first'
    cases Option.mem_unique second second'
    exact inside

namespace ByteSet

theorem collect_eq (s : ByteSet) (pairs : List (Number × Number)) :
    s.collect pairs =
      match firstInvalid? pairs with
      | some pair => .error ⟨pair.1, pair.2⟩
      | none => .ok ((pairs.filterMap range?).foldl insert s) := by
  induction pairs generalizing s with
  | nil => rfl
  | cons pair rest ih =>
    unfold collect
    cases range : ByteRange.ofNumbers? pair.1 pair.2 with
    | none =>
      have invalid : Invalid pair := range_none_iff.mp range
      have first : firstInvalid? (pair :: rest) = some pair :=
        List.find?_cons_of_pos (decide_eq_true invalid)
      rw [first]
    | some r =>
      have found : range? pair = some r := range
      have valid : ¬ Invalid pair := by
        intro invalid
        rw [range_none_iff.mpr invalid] at found
        cases found
      have later : firstInvalid? (pair :: rest) = firstInvalid? rest :=
        List.find?_cons_of_neg (by simpa using valid)
      simp only
      rw [later, List.filterMap_cons_some found, List.foldl_cons, ih]

theorem ofNumbers_eq (pairs : List (Number × Number)) :
    ofNumbers pairs =
      match firstInvalid? pairs with
      | some pair => .error ⟨pair.1, pair.2⟩
      | none => .ok (ofRanges (pairs.filterMap range?)) :=
  collect_eq empty pairs

theorem ofNumbers_valid {pairs : List (Number × Number)} (valid : ∀ pair ∈ pairs, ¬ Invalid pair) :
    ofNumbers pairs = .ok (ofRanges (pairs.filterMap range?)) := by
  rw [ofNumbers_eq, firstInvalid_none_iff.mpr valid]

theorem ofNumbers_error_iff (pairs : List (Number × Number)) (e : InvalidRange) :
    ofNumbers pairs = .error e ↔
      ∃ before after, pairs = before ++ (e.low, e.high) :: after ∧ Invalid (e.low, e.high) ∧
        ∀ pair ∈ before, ¬ Invalid pair := by
  have first : ofNumbers pairs = .error e ↔ firstInvalid? pairs = some (e.low, e.high) := by
    rw [ofNumbers_eq]
    cases firstInvalid? pairs with
    | none => simp
    | some pair =>
      obtain ⟨low, high⟩ := pair
      cases e
      simp
  rw [first, firstInvalid?, List.find?_eq_some_iff_append]
  simp only [decide_eq_true_eq, Bool.not_eq_true', decide_eq_false_iff_not]
  constructor
  · rintro ⟨invalid, before, after, split, valid⟩
    exact ⟨before, after, split, invalid, valid⟩
  · rintro ⟨before, after, split, invalid, valid⟩
    exact ⟨invalid, before, after, split, valid⟩

theorem ofNumbers_fails_iff (pairs : List (Number × Number)) :
    (∃ e, ofNumbers pairs = .error e) ↔ ∃ pair ∈ pairs, Invalid pair := by
  constructor
  · rintro ⟨e, failed⟩
    obtain ⟨before, after, split, invalid, _⟩ := (ofNumbers_error_iff pairs e).mp failed
    exact ⟨_, by simp [split], invalid⟩
  · rintro ⟨pair, member, invalid⟩
    cases first : firstInvalid? pairs with
    | none => exact absurd invalid (firstInvalid_none_iff.mp first pair member)
    | some refused => exact ⟨_, by rw [ofNumbers_eq, first]⟩

theorem ofNumbers_holds {pairs : List (Number × Number)}
    (valid : ∀ pair ∈ pairs, ¬ Invalid pair) (x : Int) :
    (ofRanges (pairs.filterMap range?)).Holds x ↔ ∃ pair ∈ pairs, Between pair x := by
  rw [ofRanges_holds]
  constructor
  · rintro ⟨r, member, inside⟩
    obtain ⟨pair, given, range⟩ := List.mem_filterMap.mp member
    exact ⟨pair, given, (range_holds range x).mp inside⟩
  · rintro ⟨pair, given, inside⟩
    cases range : range? pair with
    | none => exact absurd (range_none_iff.mp range) (valid pair given)
    | some r =>
      exact ⟨r, List.mem_filterMap.mpr ⟨pair, given, range⟩, (range_holds range x).mpr inside⟩

end ByteSet

structure Span where
  min : Int
  max : Int
deriving DecidableEq

def ByteRange.span (r : ByteRange) : Span := ⟨r.min, r.max⟩

namespace Span

def Holds (r : Span) (x : Int) : Prop := r.min ≤ x ∧ x ≤ r.max

def Proper (r : Span) : Prop := 0 ≤ r.min ∧ r.min ≤ r.max ∧ r.max ≤ 255

def pair (r : Span) : Number × Number := (.finite r.min, .finite r.max)

theorem span_proper (r : ByteRange) : r.span.Proper := by
  have := r.min_le_max
  have := r.max_le
  simp only [Proper, ByteRange.span]
  omega

theorem toInt_finite (n : Int) : Number.toInt? (.finite n) = some n := by
  simp [Number.toInt?]

theorem range_pair (r : ByteRange) : range? r.span.pair = some r := by
  have min : (r.min : Int) ∈ r.span.pair.1.toInt? := toInt_finite r.min
  have max : (r.max : Int) ∈ r.span.pair.2.toInt? := toInt_finite r.max
  obtain ⟨s, range⟩ := range_of_bounds min max (span_proper r)
  obtain ⟨min', max'⟩ := bounds_of_range range
  have same : s = r := by
    apply range_ext
    · exact Int.ofNat_inj.mp (Option.mem_unique min' min)
    · exact Int.ofNat_inj.mp (Option.mem_unique max' max)
  rw [range, same]

theorem filterMap_pair (rs : List ByteRange) :
    ((rs.map ByteRange.span).map pair).filterMap range? = rs := by
  induction rs with
  | nil => rfl
  | cons r rest ih => rw [List.map_cons, List.map_cons, List.filterMap_cons_some (range_pair r), ih]

theorem ofNumbers_pairs (rs : List ByteRange) :
    ByteSet.ofNumbers ((rs.map ByteRange.span).map pair) = .ok (ByteSet.ofRanges rs) := by
  have valid : ∀ given ∈ (rs.map ByteRange.span).map pair, ¬ Invalid given := by
    intro given member invalid
    obtain ⟨q, inside, rfl⟩ := List.mem_map.mp member
    obtain ⟨r, _, rfl⟩ := List.mem_map.mp inside
    have refused := range_none_iff.mpr invalid
    rw [range_pair] at refused
    cases refused
  rw [ByteSet.ofNumbers_valid valid, filterMap_pair]

end Span

end ByteRegex

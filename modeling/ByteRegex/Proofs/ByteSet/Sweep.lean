import ByteRegex.Proofs.ByteSet.Numbers

/-!
Sets of bytes by sorting and sweeping. A set can be kept as a plain list of bounds, of which nothing
is known. Given ranges are then sorted, and one sweep over them joins each range to the one before
it if there is no gap between the two. The bounds that come out are those of the ranges in normal
form.
-/

namespace ByteRegex

namespace Span

def Covers (ranges : List Span) (x : Int) : Prop := ∃ r ∈ ranges, r.Holds x

def le (r s : Span) : Bool := decide (r.min < s.min) || (r.min == s.min && decide (r.max ≤ s.max))

/-- Joins a range to the latest one, or puts it after that one. The latest stands first. -/
def join : List Span → Span → List Span
  | [], r => [r]
  | last :: earlier, r =>
    if r.min ≤ last.max + 1 then ⟨last.min, Max.max last.max r.max⟩ :: earlier
    else r :: last :: earlier

def sweep (ranges : List Span) : List Span := ((ranges.mergeSort le).foldl join []).reverse

def gaps (next : Int) : List Span → List Span
  | [] => if next ≤ 255 then [⟨next, 255⟩] else []
  | r :: rest =>
    if next < r.min then ⟨next, r.min - 1⟩ :: gaps (r.max + 1) rest else gaps (r.max + 1) rest

/-- Ascending ranges of bytes, with a gap between any two. -/
structure Canonical (ranges : List Span) : Prop where
  proper : ∀ r ∈ ranges, r.Proper
  apart : ranges.Pairwise fun r s => r.max + 1 < s.min

theorem covers_cons {r : Span} {ranges : List Span} {x : Int} :
    Covers (r :: ranges) x ↔ r.Holds x ∨ Covers ranges x := by
  simp [Covers]

theorem le_iff {r s : Span} :
    r.le s = true ↔ r.min < s.min ∨ r.min = s.min ∧ r.max ≤ s.max := by
  simp [le]

theorem le_trans (q r s : Span) (first : q.le r = true) (second : r.le s = true) :
    q.le s = true := by
  rw [le_iff] at *
  omega

theorem le_total (r s : Span) : (r.le s || s.le r) = true := by
  rw [Bool.or_eq_true, le_iff, le_iff]
  omega

theorem sorted_min (ranges : List Span) :
    (ranges.mergeSort le).Pairwise fun r s => r.min ≤ s.min := by
  apply (List.pairwise_mergeSort le_trans le_total ranges).imp
  intro r s ordered
  rw [le_iff] at ordered
  omega

theorem join_canonical {found : List Span} {r : Span} (canonical : Canonical found.reverse)
    (proper : r.Proper) : Canonical (join found r).reverse := by
  have each : ∀ q ∈ found, q.Proper := fun q member => canonical.proper q (by simpa using member)
  have apart := List.pairwise_reverse.mp canonical.apart
  cases found with
  | nil => exact ⟨by simpa [join] using proper, by simp [join]⟩
  | cons last earlier =>
    obtain ⟨last_proper, earlier_proper⟩ := List.forall_mem_cons.mp each
    obtain ⟨last_apart, earlier_apart⟩ := List.pairwise_cons.mp apart
    simp only [Proper] at proper last_proper
    simp only [join]
    split
    · constructor
      · intro q member
        rcases List.mem_cons.mp (List.mem_reverse.mp member) with rfl | member
        · simp only [Proper]
          omega
        · exact earlier_proper q member
      · apply List.pairwise_reverse.mpr
        exact List.pairwise_cons.mpr ⟨last_apart, earlier_apart⟩
    · constructor
      · intro q member
        rcases List.mem_cons.mp (List.mem_reverse.mp member) with rfl | member
        · exact proper
        · exact each q member
      · apply List.pairwise_reverse.mpr
        refine List.pairwise_cons.mpr ⟨?_, apart⟩
        intro q member
        rcases List.mem_cons.mp member with rfl | member
        · omega
        · have := last_apart q member
          omega

theorem foldl_join_canonical (ranges : List Span) {found : List Span}
    (canonical : Canonical found.reverse) (proper : ∀ r ∈ ranges, r.Proper) :
    Canonical (ranges.foldl join found).reverse := by
  induction ranges generalizing found with
  | nil => exact canonical
  | cons r rest ih =>
    obtain ⟨first, later⟩ := List.forall_mem_cons.mp proper
    exact ih (join_canonical canonical first) later

theorem sweep_canonical {ranges : List Span} (proper : ∀ r ∈ ranges, r.Proper) :
    Canonical (sweep ranges) := by
  apply foldl_join_canonical
  · exact ⟨by simp, List.Pairwise.nil⟩
  · intro r member
    exact proper r (List.mem_mergeSort.mp member)

theorem join_holds {found : List Span} {r : Span} (after : ∀ q ∈ found, q.min ≤ r.min) (x : Int) :
    Covers (join found r) x ↔ r.Holds x ∨ Covers found x := by
  cases found with
  | nil => rw [join, covers_cons]
  | cons last earlier =>
    have order := after last (by simp)
    simp only [join]
    split
    · rw [covers_cons, covers_cons, ← or_assoc]
      apply or_congr_left
      simp only [Holds]
      omega
    · rw [covers_cons]

theorem join_min {found : List Span} {r : Span} {bound : Int} (le : r.min ≤ bound)
    (each : ∀ q ∈ found, q.min ≤ bound) : ∀ q ∈ join found r, q.min ≤ bound := by
  cases found with
  | nil => simpa [join] using le
  | cons last earlier =>
    obtain ⟨first, later⟩ := List.forall_mem_cons.mp each
    simp only [join]
    split
    · exact List.forall_mem_cons.mpr ⟨first, later⟩
    · exact List.forall_mem_cons.mpr ⟨le, each⟩

theorem foldl_join_holds (ranges : List Span) {found : List Span}
    (sorted : ranges.Pairwise fun r s => r.min ≤ s.min)
    (after : ∀ r ∈ ranges, ∀ q ∈ found, q.min ≤ r.min) (x : Int) :
    Covers (ranges.foldl join found) x ↔ Covers ranges x ∨ Covers found x := by
  induction ranges generalizing found with
  | nil => simp [Covers]
  | cons r rest ih =>
    obtain ⟨first, later⟩ := List.pairwise_cons.mp sorted
    have start := after r (by simp)
    -- what is still to come starts no earlier than what was found, so no join reaches back
    have next : ∀ s ∈ rest, ∀ q ∈ join found r, q.min ≤ s.min := by
      intro s member
      exact join_min (first s member) (after s (by simp [member]))
    rw [List.foldl_cons, ih later next, join_holds start, covers_cons, or_left_comm, or_assoc]

theorem sweep_holds (ranges : List Span) (x : Int) :
    Covers (sweep ranges) x ↔ Covers ranges x := by
  have none : ∀ r ∈ ranges.mergeSort le, ∀ q ∈ ([] : List Span), q.min ≤ r.min := by simp
  have found := foldl_join_holds (ranges.mergeSort le) (sorted_min ranges) none x
  simpa [sweep, Covers] using found

end Span

def ByteSet.spans (s : ByteSet) : List Span := s.ranges.map ByteRange.span

namespace Span

theorem spans_canonical (s : ByteSet) : Canonical s.spans := by
  constructor
  · intro q member
    obtain ⟨r, _, rfl⟩ := List.mem_map.mp member
    exact span_proper r
  · apply List.pairwise_map.mpr
    apply List.Pairwise.imp _ s.normal
    intro r t before
    simp only [ByteRange.Before] at before
    simp only [ByteRange.span]
    omega

theorem exists_span {r : Span} (proper : r.Proper) : ∃ s : ByteRange, s.span = r := by
  obtain ⟨min, max⟩ := r
  simp only [Proper] at proper
  refine ⟨⟨min.toNat, max.toNat, by omega, by omega⟩, ?_⟩
  simp only [ByteRange.span, mk.injEq]
  omega

theorem exists_spans {ranges : List Span} (canonical : Canonical ranges) :
    ∃ s : ByteSet, s.spans = ranges := by
  have listed : ∃ rs : List ByteRange, rs.map ByteRange.span = ranges := by
    have each := canonical.proper
    clear canonical
    induction ranges with
    | nil => exact ⟨[], rfl⟩
    | cons r rest ih =>
      obtain ⟨first, later⟩ := List.forall_mem_cons.mp each
      obtain ⟨s, rfl⟩ := exists_span first
      obtain ⟨rs, rfl⟩ := ih later
      exact ⟨s :: rs, rfl⟩
  obtain ⟨rs, rfl⟩ := listed
  have normal : Normal rs := by
    apply List.Pairwise.imp _ (List.pairwise_map.mp canonical.apart)
    intro r t apart
    simp only [ByteRange.span] at apart
    simp only [ByteRange.Before]
    omega
  exact ⟨⟨rs, normal⟩, rfl⟩

theorem map_span_holds (rs : List ByteRange) (x : Int) :
    Covers (rs.map ByteRange.span) x ↔ AnyHolds rs x := by
  induction rs with
  | nil => simp [Covers, AnyHolds]
  | cons r rest ih =>
    rw [List.map_cons, covers_cons, anyHolds_cons, ih]
    exact Iff.rfl

/-- Sorting and sweeping gives the bounds of what inserting the ranges one by one gives. -/
theorem sweep_spans (rs : List ByteRange) :
    sweep (rs.map ByteRange.span) = (ByteSet.ofRanges rs).spans := by
  have proper : ∀ q ∈ rs.map ByteRange.span, q.Proper := by
    intro q member
    obtain ⟨r, _, rfl⟩ := List.mem_map.mp member
    exact span_proper r
  -- the swept list is that of some set, and a set is fixed by what it holds
  obtain ⟨s, spans⟩ := exists_spans (sweep_canonical proper)
  have same : s = ByteSet.ofRanges rs := by
    apply ByteSet.eq_of_holds
    intro x
    have swept := sweep_holds (rs.map ByteRange.span) x
    rw [← spans, ByteSet.spans, map_span_holds, map_span_holds] at swept
    rw [ByteSet.ofRanges_holds]
    exact swept
  rw [← spans, same]

theorem gaps_spans (next : Nat) (rs : List ByteRange) :
    gaps next (rs.map ByteRange.span) = (ByteRegex.gaps next rs).map ByteRange.span := by
  induction rs generalizing next with
  | nil =>
    rw [List.map_nil, gaps, ByteRegex.gaps]
    by_cases left : next ≤ 255
    · rw [if_pos (by omega), dif_pos left]
      rfl
    · rw [if_neg (by omega), dif_neg left]
      rfl
  | cons r rest ih =>
    have later : gaps (r.span.max + 1) (rest.map ByteRange.span) = _ := ih (r.max + 1)
    have starts : (next : Int) < r.span.min ↔ next < r.min := Int.ofNat_lt
    rw [List.map_cons, gaps, later, ByteRegex.gaps]
    by_cases left : next < r.min
    · have last : ((r.min - 1 : Nat) : Int) = r.span.min - 1 := by
        simp only [ByteRange.span]
        omega
      rw [if_pos (starts.mpr left), dif_pos left, ← last]
      rfl
    · rw [if_neg (mt starts.mp left), dif_neg left]

end Span

end ByteRegex

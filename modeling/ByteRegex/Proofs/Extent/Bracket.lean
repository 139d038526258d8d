import ByteRegex.Bracket
import ByteRegex.Proofs.Extent.Escape
import ByteRegex.Proofs.Spelling.Set

namespace ByteRegex

namespace Bracket

theorem endpoint_local {b : UInt8} {u v w : List UInt8}
    (known : (endpoint b (u ++ v)).used < u.length) :
    endpoint b (u ++ w) = endpoint b (u ++ v) := by
  unfold endpoint at known ⊢
  split
  · rename_i escape
    rw [if_pos escape] at known
    exact Escape.read_local known
  · rfl

inductive Member (taken : Nat) (b : UInt8) (s : List UInt8) : Reading ByteRange → Prop where
  | badLow {f : Fault} (first : endpoint b s = .error f) :
      Member taken b s (.error (f.shift (taken + 1)))
  | single {low : UInt8} {n : Nat} (first : endpoint b s = .ok (low, n))
      (rest : (s.drop n).head? ≠ some Byte.dash) : Member taken b s (.ok (ByteRange.single low, n))
  | lastDash {low : UInt8} {n : Nat} {t : List UInt8} (first : endpoint b s = .ok (low, n))
      (rest : s.drop n = Byte.dash :: Byte.rightBracket :: t) :
      Member taken b s (.ok (ByteRange.single low, n))
  | unclosed {low : UInt8} {n : Nat} (first : endpoint b s = .ok (low, n))
      (rest : s.drop n = [Byte.dash]) :
      Member taken b s (.error ⟨.unclosedBrackets, 0, taken + n + 2⟩)
  | badHigh {low c : UInt8} {n : Nat} {t : List UInt8} {f : Fault}
      (first : endpoint b s = .ok (low, n)) (rest : s.drop n = Byte.dash :: c :: t)
      (inside : c ≠ Byte.rightBracket) (second : endpoint c t = .error f) :
      Member taken b s (.error (f.shift (taken + n + 3)))
  | range {low c high : UInt8} {n m : Nat} {t : List UInt8}
      (first : endpoint b s = .ok (low, n)) (rest : s.drop n = Byte.dash :: c :: t)
      (inside : c ≠ Byte.rightBracket) (second : endpoint c t = .ok (high, m))
      (ordered : low ≤ high) :
      Member taken b s (.ok (ByteRange.between low high ordered, n + m + 2))
  | reversed {low c high : UInt8} {n m : Nat} {t : List UInt8}
      (first : endpoint b s = .ok (low, n)) (rest : s.drop n = Byte.dash :: c :: t)
      (inside : c ≠ Byte.rightBracket) (second : endpoint c t = .ok (high, m))
      (reversed : ¬ low ≤ high) :
      Member taken b s (.error ⟨.invalidClassRange, taken + 1, taken + n + m + 3⟩)

theorem member_outcome (taken : Nat) (b : UInt8) (s : List UInt8) :
    Member taken b s (member taken b s) := by
  unfold member
  split
  · rename_i first
    exact .badLow first
  · rename_i first
    split
    · rename_i rest
      exact .lastDash first rest
    · rename_i rest
      exact .unclosed first rest
    · rename_i c t other rest
      have inside : c ≠ Byte.rightBracket := by
        intro closing
        exact other closing
      split
      · rename_i second
        exact .badHigh first rest inside second
      · rename_i second
        split
        · rename_i ordered
          exact .range first rest inside second ordered
        · rename_i reversed
          exact .reversed first rest inside second reversed
    · rename_i end_ open_ other
      apply Member.single first
      intro dash
      obtain ⟨t, rest⟩ := List.head?_eq_some_iff.mp dash
      cases t with
      | nil => exact open_ rest
      | cons c t => exact other c t rest

theorem member_dash {taken n : Nat} {b c low : UInt8} {s t : List UInt8}
    (first : endpoint b s = .ok (low, n)) (rest : s.drop n = Byte.dash :: c :: t)
    (inside : c ≠ Byte.rightBracket) :
    member taken b s =
      match endpoint c t with
      | .error f => .error (f.shift (taken + n + 3))
      | .ok (high, m) =>
        if ordered : low ≤ high then .ok (ByteRange.between low high ordered, n + m + 2)
        else .error ⟨.invalidClassRange, taken + 1, taken + n + m + 3⟩ := by
  unfold member
  simp only [first, rest]
  split
  · rename_i same
    exact absurd (List.cons.inj (List.cons.inj same).2).1 inside
  · rename_i same
    cases (List.cons.inj same).2
  · rename_i same
    obtain ⟨_, tail⟩ := List.cons.inj same
    obtain ⟨rfl, rfl⟩ := List.cons.inj tail
    rfl
  · rename_i other
    exact absurd rfl (other c t)

theorem member_eq {taken : Nat} {b : UInt8} {s : List UInt8} {r : Reading ByteRange}
    (outcome : Member taken b s r) : member taken b s = r := by
  cases outcome with
  | badLow first => simp only [member, first]
  | single first rest => exact Expr.member_single first rfl rest
  | lastDash first rest | unclosed first rest =>
    simp only [member, first, rest]
    rfl
  | badHigh first rest inside second => rw [member_dash first rest inside, second]
  | range first rest inside second ordered =>
    rw [member_dash first rest inside, second]
    exact dif_pos ordered
  | reversed first rest inside second reversed =>
    rw [member_dash first rest inside, second]
    exact dif_neg reversed

/-- The bytes of the body up to where a member ends or fails, when `taken` stand before it. -/
def stop (taken : Nat) : Reading ByteRange → Nat
  | .ok (_, n) => taken + 1 + n
  | .error f => f.used

/-- A member is settled when the byte behind it is known and, after a dash, the next one too. -/
theorem member_known {taken : Nat} {b : UInt8} {u v w : List UInt8} {r : Reading ByteRange}
    (outcome : Member taken b (u ++ v) r) (known : stop taken r < taken + 1 + u.length)
    (dash : ∀ range n, r = .ok (range, n) → ((u ++ v).drop n).head? = some Byte.dash →
      n + 1 < u.length) :
    Member taken b (u ++ w) r := by
  have low_known {low : UInt8} {n : Nat} (first : endpoint b (u ++ v) = .ok (low, n))
      (within : n < u.length) : endpoint b (u ++ w) = .ok (low, n) := by
    rw [← first]
    exact endpoint_local (by rw [first]; exact within)
  cases outcome with
  | badLow first =>
    simp only [stop, Fault.shift] at known
    refine .badLow (endpoint_local (v := v) ?_ ▸ first)
    rw [first]
    exact Nat.lt_of_add_lt_add_left known
  | single first rest =>
    simp only [stop] at known
    have within := Nat.lt_of_add_lt_add_left known
    apply Member.single (low_known first within)
    rwa [head_known (v := v) within]
  | lastDash first rest =>
    have within := dash _ _ rfl (by rw [rest]; rfl)
    obtain ⟨x, _, _, same⟩ := two_known (w := w) rest within
    exact .lastDash (low_known first (by omega)) same
  | unclosed first rest =>
    -- the end of the input was seen, so the fault lies beyond the known part
    have length := congrArg List.length rest
    simp only [stop, List.length_drop, List.length_append, List.length_singleton] at length known
    omega
  | badHigh first rest inside second =>
    simp only [stop, Fault.shift] at known
    obtain ⟨x, length, rfl, same⟩ := two_known (w := w) rest (by omega)
    apply Member.badHigh (low_known first (by omega)) same inside
    rw [← second]
    apply endpoint_local
    rw [second]
    simp only [Reading.used]
    omega
  | range first rest inside second ordered =>
    simp only [stop] at known
    obtain ⟨x, length, rfl, same⟩ := two_known (w := w) rest (by omega)
    apply Member.range (low_known first (by omega)) same inside
    rw [← second]
    apply endpoint_local
    rw [second]
    simp only [Reading.used]
    omega
  | reversed first rest inside second reversed =>
    simp only [stop] at known
    obtain ⟨x, length, rfl, same⟩ := two_known (w := w) rest (by omega)
    refine .reversed (low_known first (by omega)) same inside ?_ reversed
    rw [← second]
    apply endpoint_local
    rw [second]
    simp only [Reading.used]
    omega

theorem members_closing (taken : Nat) (found : List ByteRange) (s : List UInt8) :
    members false taken found (Byte.rightBracket :: s) = .ok (found.reverse, taken + 1) := by
  rw [members, if_pos ⟨rfl, rfl⟩]

theorem members_cons {first : Bool} {b : UInt8} (inside : ¬ (b = Byte.rightBracket ∧ first = false))
    (taken : Nat) (found : List ByteRange) (s : List UInt8) :
    members first taken found (b :: s) =
      match member taken b s with
      | .error f => .error f
      | .ok (r, n) => members false (taken + 1 + n) (r :: found) (s.drop n) := by
  rw [members]
  exact if_neg inside

theorem member_fault {taken : Nat} {b : UInt8} {s : List UInt8} {f : Fault}
    (failed : member taken b s = .error f) : taken + 1 ≤ f.used := by
  have outcome := member_outcome taken b s
  rw [failed] at outcome
  cases outcome <;> simp only [Fault.shift] <;> omega

theorem members_need (first : Bool) (taken : Nat) (found : List ByteRange) (s : List UInt8) :
    taken + 1 ≤ (members first taken found s).need := by
  fun_induction members first taken found s with
  | case1 => exact Nat.le_refl _
  | case2 => exact Nat.le_refl _
  | case3 first taken found b s inside f failed =>
    have := member_fault failed
    simp only [Reading.need]
    omega
  | case4 first taken found b s inside r n read ih => omega

theorem members_need_inside {first : Bool} {b : UInt8}
    (inside : ¬ (b = Byte.rightBracket ∧ first = false)) (taken : Nat) (found : List ByteRange)
    (s : List UInt8) : taken + 2 ≤ (members first taken found (b :: s)).need := by
  rw [members_cons inside]
  split
  · rename_i failed
    have := member_fault failed
    simp only [Reading.need]
    omega
  · rename_i r n read
    have := members_need false (taken + 1 + n) (r :: found) (s.drop n)
    omega

theorem members_known {first : Bool} {taken : Nat} {found : List ByteRange} {u v w : List UInt8}
    (known : (members first taken found (u ++ v)).need ≤ taken + u.length) :
    members first taken found (u ++ w) = members first taken found (u ++ v) := by
  induction length : u.length using Nat.strongRecOn generalizing first taken found u with
  | ind k ih =>
    cases u with
    | nil =>
      have := members_need first taken found v
      simp only [List.nil_append, List.length_nil] at known
      omega
    | cons b u =>
      by_cases closing : b = Byte.rightBracket ∧ first = false
      · obtain ⟨rfl, rfl⟩ := closing
        simp only [List.cons_append, members_closing]
      · simp only [List.cons_append, members_cons closing, List.length_cons] at known length ⊢
        have outcome := member_outcome taken b (u ++ v)
        cases read : member taken b (u ++ v) with
        | error f =>
          rw [read] at known outcome
          simp only [Reading.need] at known
          have same := member_known (w := w) outcome (by simp only [stop]; omega)
            (by intro range n same; cases same)
          rw [member_eq same]
        | ok pair =>
          obtain ⟨r, n⟩ := pair
          rw [read] at known outcome
          simp only at known
          have more := members_need false (taken + 1 + n) (r :: found) ((u ++ v).drop n)
          have same := member_known (w := w) outcome (by simp only [stop]; omega) (by
            intro range m same dash
            cases same
            obtain ⟨t, rest⟩ := List.head?_eq_some_iff.mp dash
            have inside : ¬ (Byte.dash = Byte.rightBracket ∧ false = false) := by decide
            have := members_need_inside inside (taken + 1 + n) (r :: found) t
            rw [rest] at known
            omega)
          have within : n ≤ u.length := by omega
          rw [List.drop_append_of_le_length within] at known
          simp only [member_eq same, List.drop_append_of_le_length within]
          exact ih _ (by rw [List.length_drop]; omega) (by rw [List.length_drop]; omega) rfl

theorem read_negated (s : List UInt8) :
    read (Byte.caret :: s) =
      (members true 1 [] s).map fun (rs, n) => ((ByteSet.ofRanges rs).negate, n) := rfl

theorem read_plain {s : List UInt8} (plain : s.head? ≠ some Byte.caret) :
    read s = (members true 0 [] s).map fun (rs, n) => (ByteSet.ofRanges rs, n) := by
  unfold read
  split
  · exact absurd rfl plain
  · rfl

theorem read_known {u v w : List UInt8} (known : (read (u ++ v)).need ≤ u.length) :
    read (u ++ w) = read (u ++ v) := by
  cases u with
  | nil =>
    by_cases negated : v.head? = some Byte.caret
    · obtain ⟨t, rfl⟩ := List.head?_eq_some_iff.mp negated
      have := members_need true 1 [] t
      rw [List.nil_append, read_negated, Reading.need_map (by simp), List.length_nil] at known
      omega
    · have := members_need true 0 [] v
      rw [List.nil_append, read_plain negated, Reading.need_map (by simp), List.length_nil] at known
      omega
  | cons b u =>
    by_cases negated : b = Byte.caret
    · subst negated
      simp only [List.cons_append, read_negated] at known ⊢
      rw [Reading.need_map (by simp), List.length_cons] at known
      rw [members_known (v := v) (by omega)]
    · have plain (s : List UInt8) : (b :: u ++ s).head? ≠ some Byte.caret := by simpa using negated
      rw [read_plain (plain v), Reading.need_map (by simp)] at known
      rw [read_plain (plain v), read_plain (plain w), members_known (v := v) (by omega)]

theorem endpoint_within (b : UInt8) (s : List UInt8) : (endpoint b s).used ≤ s.length := by
  unfold endpoint
  split
  · exact Escape.read_within s
  · exact Nat.zero_le _

theorem endpoint_end {b x : UInt8} {s : List UInt8} {n : Nat} (read : endpoint b s = .ok (x, n)) :
    n ≤ s.length := by
  have within := endpoint_within b s
  rwa [read] at within

theorem endpoint_fault {b : UInt8} {s : List UInt8} {f : Fault} (failed : endpoint b s = .error f) :
    f.used ≤ s.length := by
  have within := endpoint_within b s
  rwa [failed] at within

theorem member_within {taken : Nat} {b : UInt8} {s : List UInt8} {r : Reading ByteRange}
    (outcome : Member taken b s r) : stop taken r ≤ taken + 1 + s.length := by
  cases outcome with
  | badLow first =>
    have := endpoint_fault first
    simp only [stop, Fault.shift]
    omega
  | single first | lastDash first =>
    have := endpoint_end first
    simp only [stop]
    omega
  | unclosed first rest =>
    have length := congrArg List.length rest
    simp only [List.length_drop, List.length_singleton] at length
    simp only [stop]
    omega
  | badHigh first rest inside second =>
    have := endpoint_fault second
    have length := congrArg List.length rest
    simp only [List.length_drop, List.length_cons] at length
    simp only [stop, Fault.shift]
    omega
  | range first rest inside second | reversed first rest inside second =>
    have := endpoint_end second
    have length := congrArg List.length rest
    simp only [List.length_drop, List.length_cons] at length
    simp only [stop]
    omega

theorem members_within (first : Bool) (taken : Nat) (found : List ByteRange) (s : List UInt8) :
    (members first taken found s).used ≤ taken + s.length := by
  fun_induction members first taken found s with
  | case1 => exact Nat.le_refl _
  | case2 taken found b s closing => simp only [Reading.used, List.length_cons]; omega
  | case3 first taken found b s inside f failed =>
    have outcome := member_outcome taken b s
    rw [failed] at outcome
    have := member_within outcome
    simp only [stop, Reading.used, List.length_cons] at this ⊢
    omega
  | case4 first taken found b s inside r n read ih =>
    have outcome := member_outcome taken b s
    rw [read] at outcome
    have := member_within outcome
    simp only [stop, List.length_drop, List.length_cons] at this ih ⊢
    omega

theorem read_within (s : List UInt8) : (read s).used ≤ s.length := by
  by_cases negated : s.head? = some Byte.caret
  · obtain ⟨t, rfl⟩ := List.head?_eq_some_iff.mp negated
    have := members_within true 1 [] t
    rw [read_negated, Reading.used_map (by simp), List.length_cons]
    omega
  · have := members_within true 0 [] s
    rw [read_plain negated, Reading.used_map (by simp)]
    omega

end Bracket

end ByteRegex

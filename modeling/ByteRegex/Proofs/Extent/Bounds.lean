import ByteRegex.Bounds
import ByteRegex.Proofs.Extent

namespace ByteRegex

namespace Counts

theorem close_cons (counts : Counts) (taken : Nat) (b : UInt8) (s t : List UInt8) :
    close counts taken (b :: t) = close counts taken (b :: s) := by
  by_cases closed : b = Byte.rightBrace
  · subst closed
    rfl
  · have open_ (s : List UInt8) : close counts taken (b :: s) =
        .error ⟨.unclosedRepeat, taken + 1, taken⟩ := by
      unfold close
      split
      · rename_i same
        cases same
      · rename_i same
        exact absurd (List.cons.inj same).1 closed
      · rfl
    rw [open_, open_]

theorem close_need (counts : Counts) (taken : Nat) (s : List UInt8) :
    (close counts taken s).need = taken + 1 := by
  unfold close
  split <;> rfl

theorem count_stop (taken : Nat) (s : List UInt8) : taken ≤ (count taken s).2 := by
  unfold count
  simp only
  omega

theorem count_known {taken : Nat} {u v w : List UInt8}
    (short : (count taken (u ++ v)).2 < taken + u.length) :
    count taken (u ++ w) = count taken (u ++ v) := by
  unfold count at short ⊢
  simp only at short ⊢
  have digits := takeWhile_known Byte.isDigit (u := u) (v := v) (w := w) (by omega)
  have blanks := skip_known Byte.isBlank (w := w) (u := u) (v := v)
    (n := ((u ++ v).takeWhile Byte.isDigit).length) (by omega)
  rw [digits, blanks]

theorem count_at {start : Nat} {b : UInt8} {t u v w : List UInt8} (own : u.drop start = b :: t)
    (short : (count start (b :: (t ++ v))).2 < u.length) :
    count start (b :: (t ++ w)) = count start (b :: (t ++ v)) := by
  have length := congrArg List.length own
  rw [List.length_drop] at length
  exact count_known (u := b :: t) (by rw [← length, List.cons_append]; omega)

theorem close_at {counts : Counts} {stop : Nat} {u : List UInt8} (within : stop < u.length)
    (v w : List UInt8) :
    close counts stop ((u ++ w).drop stop) = close counts stop ((u ++ v).drop stop) := by
  obtain ⟨b, t, _, rest⟩ := drop_known within
  rw [rest, rest]
  exact close_cons counts stop b _ _

theorem upper_cons {low : Count} {taken : Nat} {b : UInt8} {s t : List UInt8}
    (start : s.drop (taken + runLength Byte.isBlank (s.drop taken)) = b :: t) :
    upper low taken s =
      let start := taken + runLength Byte.isBlank (s.drop taken)
      let high := count start (b :: t)
      if Byte.isDigit b then close (.between low high.1) high.2 (s.drop high.2)
      else if b = Byte.rightBrace then .ok (.atLeast low, start + 1)
      else .error ⟨.invalidRepeatArgument, start + 1, start⟩ := by
  unfold upper
  simp only [start]

theorem upper_need (low : Count) (taken : Nat) (s : List UInt8) :
    taken + runLength Byte.isBlank (s.drop taken) + 1 ≤ (upper low taken s).need := by
  cases start : s.drop (taken + runLength Byte.isBlank (s.drop taken)) with
  | nil =>
    simp only [upper, start]
    exact Nat.le_refl _
  | cons b t =>
    rw [upper_cons start]
    simp only
    split
    · rw [close_need]
      exact Nat.succ_le_succ (count_stop _ _)
    · split <;> exact Nat.le_refl _

theorem upper_known {low : Count} {taken : Nat} {u v w : List UInt8}
    (known : (upper low taken (u ++ v)).need ≤ u.length) :
    upper low taken (u ++ w) = upper low taken (u ++ v) := by
  have within := upper_need low taken (u ++ v)
  have blanks := skip_known Byte.isBlank (u := u) (v := v) (w := w) (n := taken) (by omega)
  obtain ⟨b, t, own, rest⟩ := drop_known (u := u)
    (n := taken + runLength Byte.isBlank ((u ++ v).drop taken)) (by omega)
  have later := rest w
  rw [← blanks] at later
  rw [upper_cons (rest v)] at known
  rw [upper_cons (rest v), upper_cons later, blanks]
  simp only at known ⊢
  by_cases digit : Byte.isDigit b
  · rw [if_pos digit, close_need] at known
    rw [if_pos digit, if_pos digit, count_at own known]
    exact close_at known v w
  · rw [if_neg digit, if_neg digit]

theorem read_cons {b : UInt8} {s t : List UInt8}
    (start : s.drop (runLength Byte.isBlank s) = b :: t) :
    read s =
      let start := runLength Byte.isBlank s
      let low := count start (b :: t)
      if Byte.isDigit b then
        if (s.drop low.2).head? = some Byte.comma then upper low.1 (low.2 + 1) s
        else close (.exactly low.1) low.2 (s.drop low.2)
      else .error ⟨.invalidRepeatArgument, start + 1, start⟩ := by
  unfold read
  simp only [start]
  split
  · split
    · rename_i rest
      have comma : (s.drop (count (runLength Byte.isBlank s) (b :: t)).2).head? =
          some Byte.comma := by
        rw [rest]
        rfl
      rw [if_pos comma]
    · rename_i other
      rw [if_neg]
      intro comma
      obtain ⟨x, rest⟩ := List.head?_eq_some_iff.mp comma
      exact other x rest
  · rfl

theorem read_need (s : List UInt8) : runLength Byte.isBlank s + 1 ≤ (read s).need := by
  cases start : s.drop (runLength Byte.isBlank s) with
  | nil =>
    simp only [read, start]
    exact Nat.le_refl _
  | cons b t =>
    have stop := count_stop (runLength Byte.isBlank s) (b :: t)
    rw [read_cons start]
    simp only
    split
    · split
      · have := upper_need (count (runLength Byte.isBlank s) (b :: t)).1
          ((count (runLength Byte.isBlank s) (b :: t)).2 + 1) s
        omega
      · rw [close_need]
        omega
    · exact Nat.le_refl _

theorem read_known {u v w : List UInt8} (known : (read (u ++ v)).need ≤ u.length) :
    read (u ++ w) = read (u ++ v) := by
  have within := read_need (u ++ v)
  have blanks := runLength_known Byte.isBlank (u := u) (v := v) (w := w) (by omega)
  obtain ⟨b, t, own, rest⟩ := drop_known (u := u) (n := runLength Byte.isBlank (u ++ v)) (by omega)
  have later := rest w
  rw [← blanks] at later
  rw [read_cons (rest v)] at known
  rw [read_cons (rest v), read_cons later, blanks]
  simp only at known ⊢
  by_cases digit : Byte.isDigit b
  · rw [if_pos digit] at known
    have stop : (count (runLength Byte.isBlank (u ++ v)) (b :: (t ++ v))).2 < u.length := by
      split at known
      · have := upper_need (count (runLength Byte.isBlank (u ++ v)) (b :: (t ++ v))).1
          ((count (runLength Byte.isBlank (u ++ v)) (b :: (t ++ v))).2 + 1) (u ++ v)
        omega
      · rwa [close_need] at known
    rw [if_pos digit, if_pos digit, count_at own stop]
    simp only [head_known (w := w) (v := v) stop]
    split
    · rename_i comma
      rw [if_pos comma] at known
      exact upper_known known
    · exact close_at stop v w
  · rw [if_neg digit, if_neg digit]

theorem close_within (counts : Counts) {taken : Nat} {s : List UInt8} (within : taken ≤ s.length) :
    (close counts taken (s.drop taken)).used ≤ s.length := by
  unfold close
  split
  · exact within
  · rename_i rest
    have length := congrArg List.length rest
    simp only [List.length_drop, List.length_cons] at length
    simp only [Reading.used]
    omega
  · exact within

theorem count_within {start : Nat} {b : UInt8} {s t : List UInt8} (here : s.drop start = b :: t) :
    (count start (b :: t)).2 ≤ s.length := by
  have digits := runLength_le Byte.isDigit (b :: t)
  have blanks := skip_le Byte.isBlank digits
  have length := congrArg List.length here
  rw [List.length_drop] at length
  unfold count
  simp only [runLength, List.length_cons] at digits blanks length ⊢
  omega

theorem upper_within (low : Count) {taken : Nat} {s : List UInt8} (within : taken ≤ s.length) :
    (upper low taken s).used ≤ s.length := by
  have blanks := skip_le Byte.isBlank within
  cases start : s.drop (taken + runLength Byte.isBlank (s.drop taken)) with
  | nil =>
    simp only [upper, start]
    exact blanks
  | cons b t =>
    rw [upper_cons start]
    simp only
    split
    · exact close_within _ (count_within start)
    · have length := congrArg List.length start
      simp only [List.length_drop, List.length_cons] at length
      split
      · simp only [Reading.used]
        omega
      · exact blanks

theorem read_within (s : List UInt8) : (read s).used ≤ s.length := by
  have blanks := runLength_le Byte.isBlank s
  cases start : s.drop (runLength Byte.isBlank s) with
  | nil =>
    simp only [read, start]
    exact blanks
  | cons b t =>
    have stop := count_within start
    rw [read_cons start]
    simp only
    split
    · split
      · rename_i comma
        obtain ⟨x, rest⟩ := List.head?_eq_some_iff.mp comma
        have length := congrArg List.length rest
        simp only [List.length_drop, List.length_cons] at length
        exact upper_within _ (by omega)
      · exact close_within _ stop
    · exact blanks

end Counts

namespace Bounds

theorem read_used (limit : Int) (s : List UInt8) :
    (Bounds.read limit s).used = (Counts.read s).used := by
  unfold Bounds.read
  split
  · rename_i failed
    rw [failed]
    rfl
  · rename_i counted
    rw [counted]
    split <;> rfl

theorem read_within (limit : Int) (s : List UInt8) : (Bounds.read limit s).used ≤ s.length := by
  rw [read_used]
  exact Counts.read_within s

theorem read_need (limit : Int) (s : List UInt8) :
    (Counts.read s).need ≤ (Bounds.read limit s).need := by
  unfold Bounds.read
  split
  · rename_i failed
    rw [failed]
    exact Nat.le_refl _
  · rename_i counted
    rw [counted]
    split
    · exact Nat.le_succ _
    · exact Nat.le_refl _

theorem read_known {limit : Int} {u v w : List UInt8}
    (known : (Bounds.read limit (u ++ v)).need ≤ u.length) :
    Bounds.read limit (u ++ w) = Bounds.read limit (u ++ v) := by
  have spelled := read_need limit (u ++ v)
  unfold Bounds.read
  rw [Counts.read_known (Nat.le_trans spelled known)]

end Bounds

end ByteRegex

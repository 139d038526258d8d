import ByteRegex.PatternError

/-!
How much readers take, and how far they look. The outcome of reading is settled by the bytes that
were taken and, after a fault, by the one in the way: whatever stands behind them may be exchanged.
-/

namespace ByteRegex

theorem Byte.forall_of_codes {Holds : UInt8 → Prop} (codes : ∀ n < 256, Holds (UInt8.ofNat n))
    (b : UInt8) : Holds b := by
  have code := codes b.toNat b.toNat_lt
  rwa [UInt8.ofNat_toNat] at code

namespace Reading

def used {α : Type} : Reading α → Nat
  | .ok (_, n) => n
  | .error f => f.used

/-- The bytes that settle the outcome: those taken, and after a fault the one in the way. -/
def need {α : Type} : Reading α → Nat
  | .ok (_, n) => n
  | .error f => f.used + 1

theorem used_le_need {α : Type} (r : Reading α) : r.used ≤ r.need := by
  cases r with
  | ok pair => exact Nat.le_refl _
  | error f => exact Nat.le_succ _

theorem need_le_used {α : Type} (r : Reading α) : r.need ≤ r.used + 1 := by
  cases r with
  | ok pair => exact Nat.le_succ _
  | error f => exact Nat.le_refl _

theorem need_map {α β : Type} {f : α × Nat → β × Nat} (keeps : ∀ x, (f x).2 = x.2)
    (r : Reading α) : Reading.need (r.map f) = r.need := by
  cases r with
  | ok pair => exact keeps pair
  | error fault => rfl

theorem used_map {α β : Type} {f : α × Nat → β × Nat} (keeps : ∀ x, (f x).2 = x.2)
    (r : Reading α) : Reading.used (r.map f) = r.used := by
  cases r with
  | ok pair => exact keeps pair
  | error fault => rfl

theorem map_error {α β : Type} {f : α × Nat → β × Nat} {r : Reading α} {fault : Fault}
    (failed : r.map f = .error fault) : r = .error fault := by
  cases r with
  | ok pair => cases failed
  | error other =>
    cases failed
    rfl

end Reading

section Runs

variable {test : UInt8 → Bool} {u v w : List UInt8}

theorem runLength_le (test : UInt8 → Bool) (s : List UInt8) : runLength test s ≤ s.length :=
  (List.takeWhile_prefix test).length_le

theorem skip_le (test : UInt8 → Bool) {n : Nat} {s : List UInt8} (within : n ≤ s.length) :
    n + runLength test (s.drop n) ≤ s.length := by
  have := runLength_le test (s.drop n)
  rw [List.length_drop] at this
  omega

theorem head_skip (test : UInt8 → Bool) (s : List UInt8) :
    ∀ b ∈ (s.drop (runLength test s)).head?, test b = false := by
  induction s with
  | nil =>
    intro b head
    cases head
  | cons c s ih =>
    unfold runLength at ih ⊢
    by_cases passes : test c
    · rw [List.takeWhile_cons_of_pos passes, List.length_cons, List.drop_succ_cons]
      exact ih
    · rw [List.takeWhile_cons_of_neg passes]
      intro b head
      cases head
      simpa using passes

theorem takeWhile_known (test : UInt8 → Bool)
    (short : ((u ++ v).takeWhile test).length < u.length) :
    (u ++ w).takeWhile test = (u ++ v).takeWhile test := by
  induction u with
  | nil => simp at short
  | cons b u ih =>
    by_cases passes : test b
    · simp only [List.cons_append, List.takeWhile_cons_of_pos passes, List.length_cons] at short ⊢
      rw [ih (by omega)]
    · simp only [List.cons_append, List.takeWhile_cons_of_neg passes]

theorem runLength_known (test : UInt8 → Bool) (short : runLength test (u ++ v) < u.length) :
    runLength test (u ++ w) = runLength test (u ++ v) :=
  congrArg List.length (takeWhile_known test short)

theorem takeWhile_take_known {n : Nat}
    (known : (((u ++ v).take n).takeWhile test).length ≤ u.length)
    (ends : (((u ++ v).take n).takeWhile test).length = u.length → u.length < n →
      ∀ b ∈ w.head?, test b = false) :
    ((u ++ w).take n).takeWhile test = ((u ++ v).take n).takeWhile test := by
  induction u generalizing n with
  | nil =>
    have none : (v.take n).takeWhile test = [] := by simpa using known
    cases n with
    | zero => rfl
    | succ n =>
      cases w with
      | nil => simpa using none.symm
      | cons b w =>
        have fails := ends (by simp [none]) (by simp) b rfl
        simpa [fails] using none.symm
  | cons b u ih =>
    cases n with
    | zero => rfl
    | succ n =>
      by_cases passes : test b
      · simp only [List.cons_append, List.take_succ_cons, List.takeWhile_cons_of_pos passes,
          List.length_cons, Nat.add_le_add_iff_right] at known ends ⊢
        rw [ih known (by intro full room; exact ends (by omega) (by omega))]
      · simp only [List.cons_append, List.take_succ_cons, List.takeWhile_cons_of_neg passes]

theorem takeWhile_take_all {n : Nat}
    (full : (((u ++ v).take n).takeWhile test).length = u.length) : ∀ b ∈ u, test b = true := by
  induction u generalizing n with
  | nil => intro b member; cases member
  | cons c u ih =>
    cases n with
    | zero => simp at full
    | succ n =>
      by_cases passes : test c
      · simp only [List.cons_append, List.take_succ_cons, List.takeWhile_cons_of_pos passes,
          List.length_cons, Nat.add_right_cancel_iff] at full
        exact List.forall_mem_cons.mpr ⟨passes, ih full⟩
      · simp [passes] at full

theorem head_known {n : Nat} (within : n < u.length) :
    ((u ++ w).drop n).head? = ((u ++ v).drop n).head? := by
  rw [List.head?_drop, List.head?_drop, List.getElem?_append_left within,
    List.getElem?_append_left within]

theorem drop_known {n : Nat} (within : n < u.length) :
    ∃ b t, u.drop n = b :: t ∧ ∀ v, (u ++ v).drop n = b :: (t ++ v) := by
  cases rest : u.drop n with
  | nil =>
    have := List.drop_eq_nil_iff.mp rest
    omega
  | cons b t =>
    refine ⟨b, t, rfl, ?_⟩
    intro v
    rw [List.drop_append_of_le_length (by omega), rest]
    rfl

theorem two_known {n : Nat} {b c : UInt8} {t : List UInt8} (rest : (u ++ v).drop n = b :: c :: t)
    (within : n + 1 < u.length) :
    ∃ x, u.length = n + 2 + x.length ∧ t = x ++ v ∧ (u ++ w).drop n = b :: c :: (x ++ w) := by
  obtain ⟨d, y, own, behind⟩ := drop_known (u := u) (n := n) (by omega)
  have length := congrArg List.length own
  simp only [List.length_drop, List.length_cons] at length
  rw [behind] at rest
  cases y with
  | nil =>
    simp only [List.length_nil] at length
    omega
  | cons e y =>
    simp only [List.cons_append, List.cons.injEq] at rest
    obtain ⟨rfl, rfl, rfl⟩ := rest
    refine ⟨y, ?_, rfl, behind w⟩
    simp only [List.length_cons] at length
    omega

theorem skip_known (test : UInt8 → Bool) {n : Nat}
    (short : n + runLength test ((u ++ v).drop n) < u.length) :
    runLength test ((u ++ w).drop n) = runLength test ((u ++ v).drop n) := by
  have within : n ≤ u.length := by omega
  rw [List.drop_append_of_le_length within] at short ⊢
  rw [List.drop_append_of_le_length within]
  apply runLength_known test
  rw [List.length_drop]
  omega

end Runs

end ByteRegex

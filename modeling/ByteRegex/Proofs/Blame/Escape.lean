import ByteRegex.Proofs.Blame

namespace ByteRegex

namespace Escape

variable {ceiling : Nat} {range : Nat → Prop} {s : List UInt8} {f : Fault}

theorem fit_blamed {code n : Nat} (failed : fit code n = .error f) :
    Blamed ceiling range (Byte.backslash :: s) f.kind f.offset := by
  unfold fit at failed
  split at failed
  · cases failed
  · cases failed
    exact blamed_opening rfl

theorem hex_none {t : List UInt8} (none : t.head?.bind Byte.hexValue = none) :
    ∀ b ∈ t.head?, Byte.isHex b = false := by
  intro b head
  rw [head, Option.bind_some] at none
  rw [Byte.isHex, none]
  rfl

theorem pair_blamed (failed : pair s = .error f) :
    Blamed ceiling range (Byte.backslash :: Byte.letterX :: s) f.kind f.offset := by
  unfold pair at failed
  split at failed
  · rename_i none
    cases failed
    apply blamed_inside (n := 1) (by simp) (fun _ => by decide)
    intro c t rest
    apply hex_none none
    rw [List.drop_one, List.tail_cons] at rest
    rw [rest]
    rfl
  · rename_i high some
    split at failed
    · rename_i none
      cases failed
      cases s with
      | nil => cases some
      | cons d s =>
        apply blamed_inside (n := 2) (by simp) (fun _ => by decide)
        intro c t rest
        apply hex_none none
        rw [List.tail_cons]
        rw [List.drop_succ_cons, List.drop_one, List.tail_cons] at rest
        rw [rest]
        rfl
    · cases failed

theorem braced_blamed (failed : braced s = .error f) :
    Blamed ceiling range (Byte.backslash :: Byte.letterX :: Byte.leftBrace :: s) f.kind
      f.offset := by
  have short := runLength_le Byte.isHex s
  have skipped := head_skip Byte.isHex s
  rw [braced_eq] at failed
  simp only at failed
  split at failed
  · rename_i none
    cases failed
    rw [none, List.drop_zero] at skipped
    apply blamed_inside (n := 2) (by simp) (fun _ => by decide)
    intro c t rest
    apply skipped
    rw [List.drop_succ_cons, List.drop_one, List.tail_cons] at rest
    rw [rest]
    rfl
  · split at failed
    · split at failed
      · cases failed
        exact blamed_opening rfl
      · exact fit_blamed failed
    · rename_i opened
      cases failed
      apply blamed_inside (n := runLength Byte.isHex s + 2)
      · simp only [List.length_cons]
        omega
      · intro ended
        simp [endKinds]
      · intro c t rest
        rw [List.drop_succ_cons, List.drop_succ_cons] at rest
        rw [rest] at skipped opened
        refine ⟨skipped c rfl, ?_⟩
        intro closing
        exact opened (by rw [closing]; rfl)

theorem read_blamed (failed : read s = .error f) :
    Blamed ceiling range (Byte.backslash :: s) f.kind f.offset := by
  cases s with
  | nil =>
    cases failed
    exact blamed_opening ⟨rfl, rfl⟩
  | cons b s =>
    by_cases digit : Byte.isOctal b
    · rw [read_octal digit] at failed
      exact fit_blamed failed
    · by_cases hex : b = Byte.letterX
      · subst hex
        by_cases brace : s.head? = some Byte.leftBrace
        · obtain ⟨t, rfl⟩ := List.head?_eq_some_iff.mp brace
          exact braced_blamed failed
        · rw [read_pair brace] at failed
          exact pair_blamed failed
      · simp only [read, digit, hex, Bool.false_eq_true, if_false] at failed
        split at failed
        · cases failed
        · split at failed
          · cases failed
          · cases failed
            exact blamed_opening ⟨rfl, by simp⟩

end Escape

end ByteRegex

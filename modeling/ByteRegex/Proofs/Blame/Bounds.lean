import ByteRegex.Proofs.Blame

namespace ByteRegex

namespace Counts

variable {ceiling : Nat} {range : Nat → Prop} {s : List UInt8} {f : Fault}

inductive Written (s : List UInt8) : Count → Prop where
  | digits {k : Nat} {b : UInt8} {t : List UInt8} (here : s.drop k = b :: t)
      (digit : Byte.isDigit b)
      (first : ∀ c, (Byte.leftBrace :: s)[k]? = some c → Byte.isDigit c = false) :
      Written s ⟨countValue ((b :: t).takeWhile Byte.isDigit), k + 1⟩

def list : Counts → List Count
  | .exactly n => [n]
  | .atLeast n => [n]
  | .between low high => [low, high]

theorem before_skip (b : UInt8) (s : List UInt8) (taken : Nat) {c : UInt8}
    (here : (b :: s)[taken + runLength Byte.isBlank (s.drop taken)]? = some c) :
    Byte.isDigit c = false ∨ (b :: s)[taken]? = some c := by
  cases length : runLength Byte.isBlank (s.drop taken) with
  | zero =>
    rw [length] at here
    exact .inr here
  | succ n =>
    left
    rw [length, ← Nat.add_assoc, List.getElem?_cons_succ, ← List.getElem?_drop] at here
    have blank : Byte.isBlank c := by
      have inside : n < ((s.drop taken).takeWhile Byte.isBlank).length := by
        unfold runLength at length
        omega
      have same := (List.takeWhile_prefix Byte.isBlank).getElem inside
      rw [(List.getElem?_eq_some_iff.mp here).2] at same
      rw [← same]
      exact List.all_eq_true.mp List.all_takeWhile _ (List.getElem_mem inside)
    apply Bool.eq_false_iff.mpr
    intro digit
    rw [Expr.digit_not_blank digit] at blank
    cases blank

theorem written_blamed {n : Count} (written : Written s n) (large : (ceiling : Int) < n.value) :
    Blamed ceiling range (Byte.leftBrace :: s) .excessiveRepeatCount n.offset := by
  cases written with
  | @digits k b t here digit first =>
    refine blamed_at here ⟨digit, Nat.succ_pos k, first, ?_⟩
    -- the value that was read is the exact one, or smaller
    rw [List.drop_succ_cons, here]
    simp only [Expr.countValue_eq] at large
    exact Nat.lt_of_lt_of_le (Int.ofNat_lt.mp large) (Nat.min_le_left _ _)

theorem bounds_blamed {counts : Counts} {kind : ErrorKind} {offset : Nat}
    (written : ∀ n ∈ counts.list, Written s n)
    (failed : counts.bounds ceiling = .error (kind, offset)) :
    Blamed ceiling range (Byte.leftBrace :: s) kind offset := by
  cases counts with
  | exactly n | atLeast n =>
    simp only [bounds] at failed
    split at failed
    · rename_i large
      cases failed
      exact written_blamed (written n (by simp [list])) large
    · cases failed
  | between low high =>
    simp only [bounds] at failed
    split at failed
    · rename_i large
      cases failed
      exact written_blamed (written low (by simp [list])) large
    · split at failed
      · rename_i large
        cases failed
        exact written_blamed (written high (by simp [list])) large
      · split at failed
        · cases failed
          exact blamed_opening ⟨rfl, rfl⟩
        · cases failed

theorem close_ok {counts found : Counts} {taken used : Nat}
    (read : close counts taken s = .ok (found, used)) : found = counts := by
  unfold close at read
  split at read
  · cases read
  · cases read
    rfl
  · cases read

theorem close_blamed {counts : Counts} {taken : Nat}
    (skipped : ∀ b ∈ (s.drop taken).head?, Byte.isBlank b = false)
    (failed : close counts taken (s.drop taken) = .error f) :
    Blamed ceiling range (Byte.leftBrace :: s) f.kind f.offset := by
  unfold close at failed
  split at failed
  · cases failed
    exact blamed_opening ⟨by decide, rfl⟩
  · cases failed
  · rename_i some opened
    cases failed
    cases rest : s.drop taken with
    | nil => exact absurd rest some
    | cons c t =>
      rw [rest] at skipped
      refine blamed_at rest ⟨?_, skipped c rfl⟩
      intro closing
      rw [closing] at rest
      exact opened t rest

theorem count_head {start : Nat} {b : UInt8} {t : List UInt8} (here : s.drop start = b :: t) :
    ∀ c ∈ (s.drop (count start (b :: t)).2).head?, Byte.isBlank c = false := by
  unfold count
  simp only
  rw [← List.drop_drop, ← List.drop_drop, here]
  exact head_skip Byte.isBlank _

theorem count_written {taken : Nat} {b : UInt8} {t : List UInt8}
    (here : s.drop (taken + runLength Byte.isBlank (s.drop taken)) = b :: t)
    (digit : Byte.isDigit b)
    (before : ∀ c, (Byte.leftBrace :: s)[taken]? = some c → Byte.isDigit c = false) :
    Written s (count (taken + runLength Byte.isBlank (s.drop taken)) (b :: t)).1 := by
  apply Written.digits here digit
  intro c previous
  rcases before_skip Byte.leftBrace s taken previous with blank | same
  · exact blank
  · exact before c same

theorem upper_blamed {low : Count} {taken : Nat} (failed : upper low taken s = .error f) :
    Blamed ceiling range (Byte.leftBrace :: s) f.kind f.offset := by
  have skipped := head_skip Byte.isBlank (s.drop taken)
  rw [List.drop_drop] at skipped
  cases start : s.drop (taken + runLength Byte.isBlank (s.drop taken)) with
  | nil =>
    simp only [upper, start] at failed
    cases failed
    exact blamed_opening ⟨by decide, rfl⟩
  | cons b t =>
    rw [upper_cons start] at failed
    simp only at failed
    split at failed
    · exact close_blamed (count_head start) failed
    · rename_i other
      split at failed
      · cases failed
      · cases failed
        rw [start] at skipped
        exact blamed_at start ⟨by simpa using other, skipped b rfl⟩

theorem upper_written {low : Count} {taken used : Nat} {counts : Counts} (known : Written s low)
    (before : ∀ c, (Byte.leftBrace :: s)[taken]? = some c → Byte.isDigit c = false)
    (read : upper low taken s = .ok (counts, used)) : ∀ n ∈ counts.list, Written s n := by
  cases start : s.drop (taken + runLength Byte.isBlank (s.drop taken)) with
  | nil =>
    simp only [upper, start] at read
    cases read
  | cons b t =>
    rw [upper_cons start] at read
    simp only at read
    split at read
    · rename_i digit
      rw [close_ok read]
      have high := count_written start digit before
      simpa [list] using ⟨known, high⟩
    · split at read
      · cases read
        simpa [list] using known
      · cases read

theorem read_blamed (failed : read s = .error f) :
    Blamed ceiling range (Byte.leftBrace :: s) f.kind f.offset := by
  have skipped := head_skip Byte.isBlank s
  cases start : s.drop (runLength Byte.isBlank s) with
  | nil =>
    simp only [read, start] at failed
    cases failed
    exact blamed_opening ⟨by decide, rfl⟩
  | cons b t =>
    rw [read_cons start] at failed
    simp only at failed
    split at failed
    · split at failed
      · exact upper_blamed failed
      · exact close_blamed (count_head start) failed
    · rename_i other
      cases failed
      rw [start] at skipped
      exact blamed_at start ⟨by simpa using other, skipped b rfl⟩

theorem read_written {counts : Counts} {used : Nat} (found : read s = .ok (counts, used)) :
    ∀ n ∈ counts.list, Written s n := by
  cases start : s.drop (runLength Byte.isBlank s) with
  | nil =>
    simp only [read, start] at found
    cases found
  | cons b t =>
    rw [read_cons start] at found
    simp only at found
    split at found
    · rename_i digit
      have low : Written s (count (runLength Byte.isBlank s) (b :: t)).1 := by
        have here : s.drop (0 + runLength Byte.isBlank (s.drop 0)) = b :: t := by
          rwa [Nat.zero_add, List.drop_zero]
        have first := count_written here digit (by
          intro c brace
          cases brace
          rfl)
        rwa [Nat.zero_add, List.drop_zero] at first
      split at found
      · rename_i comma
        apply upper_written low _ found
        intro c previous
        rw [List.getElem?_cons_succ, ← List.head?_drop, comma] at previous
        cases previous
        rfl
      · rw [close_ok found]
        simpa [list] using low
    · cases found

end Counts

theorem Bounds.read_blamed {ceiling : Nat} {range : Nat → Prop} {s : List UInt8} {f : Fault}
    (failed : Bounds.read ceiling s = .error f) :
    Blamed ceiling range (Byte.leftBrace :: s) f.kind f.offset := by
  unfold Bounds.read at failed
  split at failed
  · rename_i unread
    cases failed
    exact Counts.read_blamed unread
  · rename_i found
    split at failed
    · rename_i refused
      cases failed
      exact Counts.bounds_blamed (Counts.read_written found) refused
    · cases failed

end ByteRegex

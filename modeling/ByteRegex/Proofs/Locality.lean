import ByteRegex.Expr.Identity
import ByteRegex.Options
import ByteRegex.Proofs.Extent.Token
import ByteRegex.Proofs.Run

/-!
Errors are local. A run that fails has looked at the bytes before the place where it stopped and at
the one there, so the bytes behind that one, and whether there are any, make no difference.
-/

namespace ByteRegex

namespace Machine

theorem index_le_stop {limit : Int} {m : Machine} {f : Failure} (failed : m.run limit = .error f) :
    m.index ≤ f.stop := by
  fun_induction run limit m with
  | case1 m ended =>
    cases finished : m.table.finish m.index with
    | error e =>
      rw [finished] at failed
      cases failed
      exact Nat.le_refl _
    | ok e =>
      rw [finished] at failed
      cases failed
  | case2 m failure step =>
    have outcome := advance_outcome limit m
    rw [step] at outcome
    cases failed
    cases outcome <;> simp only <;> omega
  | case3 m next step ih =>
    have outcome := advance_outcome limit m
    rw [step] at outcome
    have later := ih failed
    cases outcome
    simp only at later
    omega

/-- A run that stops within a known part fails in the same way whatever stands behind that part. -/
theorem run_local {limit : Int} {i : Nat} {held : Worktable} {u v w : List UInt8} {f : Failure}
    (failed : run limit ⟨i, u ++ v, held⟩ = .error f) (inside : f.stop < i + u.length) :
    run limit ⟨i, u ++ w, held⟩ = .error f := by
  induction length : u.length using Nat.strongRecOn generalizing i held u with
  | ind k ih =>
    cases u with
    | nil =>
      have := index_le_stop failed
      simp only [List.length_nil] at inside this
      omega
    | cons b u =>
      simp only [List.cons_append, List.length_cons] at failed inside length ⊢
      have known (used : (Token.read limit b (u ++ v)).used < u.length) :
          Token.read limit b (u ++ w) = Token.read limit b (u ++ v) := Token.read_local used
      have outcome := advance_outcome limit ⟨i, b :: (u ++ v), held⟩
      generalize step : advance? limit ⟨i, b :: (u ++ v), held⟩ = r at outcome
      cases outcome with
      | ended rest => cases rest
      | misread rest read =>
        obtain ⟨rfl, rfl⟩ := List.cons.inj rest
        rw [run_failed step] at failed
        cases failed
        simp only at inside
        rw [← known (by rw [read]; simp only [Reading.used]; omega)] at read
        exact run_failed (advance_eq (.misread rfl read))
      | refused rest read added =>
        obtain ⟨rfl, rfl⟩ := List.cons.inj rest
        rw [run_failed step] at failed
        cases failed
        simp only at inside
        rw [← known (by rw [read]; simp only [Reading.used]; omega)] at read
        exact run_failed (advance_eq (.refused rfl read added))
      | @taken b s token used table rest read added =>
        obtain ⟨rfl, rfl⟩ := List.cons.inj rest
        rw [run_taken step] at failed
        -- the run goes on at the next token, so that token starts within the known part
        have later := index_le_stop failed
        simp only at later failed
        have within : used < u.length := by omega
        rw [← known (by rw [read]; exact within)] at read
        have next : Outcome limit ⟨i, b :: (u ++ w), held⟩
            (some (.ok ⟨i + 1 + used, (u ++ w).drop used, table⟩)) := .taken rfl read added
        rw [run_taken (advance_eq next), List.drop_append_of_le_length (Nat.le_of_lt within)]
        rw [List.drop_append_of_le_length (Nat.le_of_lt within)] at failed
        exact ih _ (by rw [List.length_drop]; omega) failed (by rw [List.length_drop]; omega) rfl

end Machine

/-- Patterns that agree up to and with the byte at which the run on one of them failed fail with the
same error at the same place. -/
theorem run_error_of_agree (options : Options) (p q : List UInt8) (f : Failure)
    (failed : (Machine.start p).run options.ceiling = .error f) (inside : f.stop < p.length)
    (agree : q.take (f.stop + 1) = p.take (f.stop + 1)) :
    (Machine.start q).run options.ceiling = .error f := by
  have whole : p.take (f.stop + 1) ++ p.drop (f.stop + 1) = p := List.take_append_drop _ _
  have other : p.take (f.stop + 1) ++ q.drop (f.stop + 1) = q := by
    rw [← agree]
    exact List.take_append_drop _ _
  unfold Machine.start at failed ⊢
  rw [← whole] at failed
  rw [← other]
  apply Machine.run_local failed
  rw [List.length_take]
  omega

/-- The run on `(a{2,x}` stops at the `x`, so it fails alike on `(a{2,x|[`. -/
theorem run_error_of_agree_argument :
    (Machine.start [40, 97, 123, 50, 44, 120, 124, 91]).run (Options.traced false).ceiling =
      .error ⟨⟨.invalidRepeatArgument, 5⟩, 5⟩ := by
  apply run_error_of_agree (Options.traced false) [40, 97, 123, 50, 44, 120, 125]
  · decide +kernel
  · decide
  · decide

end ByteRegex

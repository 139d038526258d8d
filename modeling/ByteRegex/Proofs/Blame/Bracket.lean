import ByteRegex.Proofs.Blame.Bounds
import ByteRegex.Proofs.Blame.Escape

namespace ByteRegex

namespace Bracket

variable {ceiling : Nat} {range : Nat → Prop} {s : List UInt8} {f : Fault}

/-- The places in the body `s` where a member is looked for; a closing bracket may only be the first
one. -/
inductive Starts (s : List UInt8) : Bool → Nat → Prop where
  | plain (other : s.head? ≠ some Byte.caret) : Starts s true 0
  | negated (caret : s.head? = some Byte.caret) : Starts s true 1
  | next {first : Bool} {taken n : Nat} {b : UInt8} {t : List UInt8} {r : ByteRange}
      (earlier : Starts s first taken) (here : s.drop taken = b :: t)
      (more : ¬(b = Byte.rightBracket ∧ first = false)) (read : member taken b t = .ok (r, n)) :
      Starts s false (taken + 1 + n)

/-- A range in the body `s` has its ends in the wrong order, and its lower end starts at this offset
from the opening bracket. -/
inductive Reversed (s : List UInt8) : Nat → Prop where
  | range {first : Bool} {taken n m : Nat} {b c low high : UInt8} {t u : List UInt8}
      (starts : Starts s first taken) (here : s.drop taken = b :: t)
      (more : ¬(b = Byte.rightBracket ∧ first = false))
      (lower : endpoint b t = .ok (low, n)) (dash : t.drop n = Byte.dash :: c :: u)
      (inside : c ≠ Byte.rightBracket) (upper : endpoint c u = .ok (high, m))
      (wrong : high < low) : Reversed s (taken + 1)

theorem endpoint_blamed {b : UInt8} {t : List UInt8} {k : Nat} (here : s.drop k = b :: t)
    (failed : endpoint b t = .error f) :
    Blamed ceiling range (Byte.leftBracket :: s) f.kind (k + 1 + f.offset) := by
  unfold endpoint at failed
  split at failed
  · rename_i escape
    have length := congrArg List.length here
    simp only [List.length_drop, List.length_cons] at length
    have before : (Byte.leftBracket :: s.take k).length = k + 1 := by
      rw [List.length_cons, List.length_take]
      omega
    have whole : Byte.leftBracket :: s = (Byte.leftBracket :: s.take k) ++ Byte.backslash :: t := by
      rw [← escape, ← here, List.cons_append, List.take_append_drop]
    have blamed : Blamed ceiling (fun _ => False) (Byte.backslash :: t) f.kind f.offset :=
      Escape.read_blamed failed
    rw [whole, ← before]
    exact blamed_behind _ blamed fun _ => False.elim
  · cases failed

theorem member_blamed {first : Bool} {taken : Nat} {b : UInt8} {t : List UInt8}
    (starts : Starts s first taken) (here : s.drop taken = b :: t)
    (more : ¬(b = Byte.rightBracket ∧ first = false)) (reversed : ∀ i, Reversed s i → range i)
    (failed : member taken b t = .error f) :
    Blamed ceiling range (Byte.leftBracket :: s) f.kind f.offset := by
  have outcome := member_outcome taken b t
  rw [failed] at outcome
  cases outcome with
  | badLow low => exact endpoint_blamed here low
  | unclosed low rest => exact blamed_opening rfl
  | @badHigh low c n u f first rest inside second =>
    have after : s.drop (taken + n + 2) = c :: u := by
      have place : taken + n + 2 = taken + 1 + n + 1 := by omega
      rw [place, ← List.drop_drop, ← List.drop_drop, ← List.drop_drop, here, List.drop_succ_cons,
        List.drop_zero, rest]
      rfl
    exact endpoint_blamed after second
  | reversed lower dash inside upper wrong =>
    have order := UInt8.not_le.mp wrong
    exact blamed_at here (reversed _ (.range starts here more lower dash inside upper order))

theorem members_blamed {first : Bool} {taken : Nat} {found : List ByteRange} {rest : List UInt8}
    (starts : Starts s first taken) (here : s.drop taken = rest)
    (reversed : ∀ i, Reversed s i → range i)
    (failed : members first taken found rest = .error f) :
    Blamed ceiling range (Byte.leftBracket :: s) f.kind f.offset := by
  fun_induction members first taken found rest with
  | case1 first taken found =>
    cases failed
    exact blamed_opening rfl
  | case2 first taken found b t closing => cases failed
  | case3 first taken found b t more g unread =>
    cases failed
    exact member_blamed starts here more reversed unread
  | case4 first taken found b t more r n read ih =>
    apply ih (.next starts here more read) _ failed
    rw [← List.drop_drop, ← List.drop_drop, here]
    rfl

theorem read_blamed (reversed : ∀ i, Reversed s i → range i) (failed : read s = .error f) :
    Blamed ceiling range (Byte.leftBracket :: s) f.kind f.offset := by
  by_cases caret : s.head? = some Byte.caret
  · obtain ⟨t, rfl⟩ := List.head?_eq_some_iff.mp caret
    rw [read_negated] at failed
    exact members_blamed (.negated caret) rfl reversed (Reading.map_error failed)
  · rw [read_plain caret] at failed
    exact members_blamed (.plain caret) rfl reversed (Reading.map_error failed)

end Bracket

theorem Token.read_blamed {ceiling : Nat} {range : Nat → Prop} {b : UInt8} {s : List UInt8}
    {f : Fault} (reversed : ∀ i, b = Byte.leftBracket → Bracket.Reversed s i → range i)
    (failed : read ceiling b s = .error f) : Blamed ceiling range (b :: s) f.kind f.offset := by
  rcases read_kind ceiling b with ⟨token, plain⟩ | ⟨bounds, operator⟩ | rfl | rfl | rfl
  · rw [plain] at failed
    cases failed
  · rw [operator] at failed
    cases failed
  · rw [read_brace] at failed
    exact Bounds.read_blamed (Reading.map_error failed)
  · rw [read_bracket] at failed
    exact Bracket.read_blamed (fun i => reversed i rfl) (Reading.map_error failed)
  · rw [read_backslash] at failed
    exact Escape.read_blamed (Reading.map_error failed)

end ByteRegex

import ByteRegex.Expr.Identity
import ByteRegex.Proofs.Blame.Bracket
import ByteRegex.Proofs.Worktable

namespace ByteRegex

/-- A range with its ends in the wrong order starts at this offset, in a bracket expression that the
reader of the pattern `p` comes to. -/
def ReversedRange (limit : Int) (p : List UInt8) (i : Nat) : Prop :=
  ∃ m s j, Grammar.Reaches limit (Machine.start p) m ∧ m.rest = Byte.leftBracket :: s ∧
    Bracket.Reversed s j ∧ i = m.index + j

namespace Machine

variable {ceiling : Nat} {range : Nat → Prop} {p : List UInt8} {m : Machine}

theorem quantifier_byte {limit : Int} {b : UInt8} {s rest : List UInt8} {bounds : Bounds}
    {greedy : Bool} (lexeme : Grammar.Lexeme limit (b :: s) (.quantifier bounds greedy) rest) :
    b ∈ Grammar.operators := by
  have starts {t : List UInt8} (quantifier : Grammar.Quantifier limit (b :: s) bounds t) :
      b ∈ Grammar.operators := by
    cases quantifier <;> decide
  cases lexeme with
  | greedy quantifier settled => exact starts quantifier
  | lazy quantifier => exact starts quantifier

theorem misread_blamed {b : UInt8} {s : List UInt8} {f : Fault} (here : m.Within p)
    (reaches : Grammar.Reaches ceiling (start p) m) (rest : m.rest = b :: s)
    (read : Token.read ceiling b s = .error f) :
    Blamed ceiling (ReversedRange ceiling p) p f.kind (m.index + f.offset) := by
  have length : (p.take m.index).length = m.index := by
    rw [List.length_take]
    exact Nat.min_eq_left here.index
  have token : Blamed ceiling (fun j => ReversedRange ceiling p (m.index + j)) (b :: s) f.kind
      f.offset := by
    apply Token.read_blamed _ read
    intro j opening reversed
    rw [opening] at rest
    exact ⟨m, s, j, reaches, rest, reversed, rfl⟩
  have whole : p.take m.index ++ b :: s = p := by rw [← rest, here.rest, List.take_append_drop]
  have placed : Blamed ceiling (ReversedRange ceiling p) (p.take m.index ++ b :: s) f.kind
      ((p.take m.index).length + f.offset) := by
    apply blamed_behind (p.take m.index) token
    intro j reversed
    rwa [length]
  rwa [whole, length] at placed

theorem refused_blamed {b : UInt8} {s : List UInt8} {token : Token} {used : Nat}
    {kind : ErrorKind} (here : m.Within p) (rest : m.rest = b :: s)
    (read : Token.read ceiling b s = .ok (token, used))
    (refused : m.table.add m.index token = .error kind) : Blamed ceiling range p kind m.index := by
  have lexeme := Grammar.read_lexeme read
  generalize s.drop used = t at lexeme
  apply blamed_here (next_byte here rest)
  cases Worktable.add_refused refused with
  | unopened none =>
    cases lexeme
    rfl
  | closed empty =>
    cases lexeme
    exact Or.inr rfl
  | ended empty =>
    cases lexeme
    exact Or.inl rfl
  | repeated bounds greedy => exact quantifier_byte lexeme

theorem finish_blamed {e : PatternError} (h : m.Orderly p) (ended : m.rest = [])
    (failed : m.table.finish m.index = .error e) :
    ∃ i : Nat, e.index = i ∧ Blamed ceiling range p e.kind i := by
  unfold Worktable.finish at failed
  split at failed
  · rename_i g outermost
    cases failed
    have paren := h.groups.paren g (List.mem_of_getLast? outermost)
    exact ⟨g.index, rfl, blamed_here paren rfl⟩
  · cases reduced : m.table.level.reduce with
    | ok e =>
      rw [reduced] at failed
      cases failed
    | error kind =>
      rw [reduced] at failed
      cases failed
      cases Worktable.reduce_error reduced
      have length : p.length ≤ m.index := List.drop_eq_nil_iff.mp (h.within.rest.symm.trans ended)
      refine ⟨m.index, rfl, h.within.index, fun _ => by simp [endKinds], ?_⟩
      intro b here
      rw [List.getElem?_eq_none length] at here
      cases here

theorem run_blamed {f : Failure} (h : m.Orderly p)
    (reaches : Grammar.Reaches ceiling (start p) m) (failed : m.run ceiling = .error f) :
    ∃ i : Nat, f.error.index = i ∧
      Blamed ceiling (ReversedRange ceiling p) p f.error.kind i := by
  fun_induction run ceiling m with
  | case1 m ended =>
    cases finished : m.table.finish m.index with
    | ok e =>
      rw [finished] at failed
      cases failed
    | error e =>
      rw [finished] at failed
      cases failed
      exact finish_blamed h (rest_of_ended ended) finished
  | case2 m failure step =>
    have outcome := advance_outcome ceiling m
    rw [step] at outcome
    cases failed
    cases outcome with
    | misread rest read => exact ⟨_, rfl, misread_blamed h.within reaches rest read⟩
    | refused rest read added => exact ⟨_, rfl, refused_blamed h.within rest read added⟩
  | case3 m next step ih =>
    have later : Grammar.Reaches ceiling m next := .step step (.refl next)
    exact ih (advance_orderly h step) (Grammar.reaches_trans reaches later) failed

end Machine

/-- An error is at an offset within the pattern, and the byte there, if any, is to blame. -/
theorem parse_error_blamed (options : Options) (p : List UInt8) (e : PatternError)
    (failed : options.parse p = .error e) :
    ∃ i : Nat, e.index = i ∧
      Blamed options.ceiling (ReversedRange options.ceiling p) p e.kind i := by
  obtain ⟨f, run, rfl⟩ := failure_of_parse failed
  exact Machine.run_blamed (Machine.start_orderly p) (.refl _) run

/-- In `a{2, 01001}` the second count is too large, with its leading zero at offset 5. -/
theorem parse_error_blamed_count :
    let p : List UInt8 := [97, 123, 50, 44, 32, 48, 49, 48, 48, 49, 125]
    let options := Options.traced false
    options.parse p = .error ⟨.excessiveRepeatCount, 5⟩ ∧
      ∃ i : Nat, (5 : Int) = i ∧
        Blamed options.ceiling (ReversedRange options.ceiling p) p .excessiveRepeatCount i := by
  intro p options
  have failed : options.parse p = .error ⟨.excessiveRepeatCount, 5⟩ := by decide +kernel
  exact ⟨failed, parse_error_blamed options p _ failed⟩

end ByteRegex

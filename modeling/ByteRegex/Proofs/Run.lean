import ByteRegex.Proofs.Extent.Token
import ByteRegex.Parse

namespace ByteRegex

def after {ε α : Type} (step : α → Option (Except ε α)) : Nat → α → Option α
  | 0, a => some a
  | k + 1, a =>
    match step a with
    | some (.ok next) => after step k next
    | _ => none

theorem after_succ {ε α : Type} {step : α → Option (Except ε α)} {k : Nat} {a b : α}
    (h : after step (k + 1) a = some b) :
    ∃ next, step a = some (.ok next) ∧ after step k next = some b := by
  unfold after at h
  split at h
  · rename_i next taken
    exact ⟨next, taken, h⟩
  · cases h

theorem after_stuck {ε α : Type} {step : α → Option (Except ε α)} {a : α}
    (stuck : ∀ next, step a ≠ some (.ok next)) (k : Nat) : after step (k + 1) a = none := by
  unfold after
  split
  · rename_i next taken
    exact absurd taken (stuck next)
  · rfl

theorem after_invariant {ε α : Type} {step : α → Option (Except ε α)} {Holds : α → Prop}
    (preserved : ∀ a next, Holds a → step a = some (.ok next) → Holds next) {k : Nat} {a b : α}
    (start : Holds a) (h : after step k a = some b) : Holds b := by
  induction k generalizing a with
  | zero =>
    cases h
    exact start
  | succ k ih =>
    obtain ⟨next, taken, later⟩ := after_succ h
    exact ih (preserved a next start taken) later

namespace Machine

inductive Outcome (limit : Int) (m : Machine) : Option (Except Failure Machine) → Prop where
  | ended (rest : m.rest = []) : Outcome limit m none
  | misread {b : UInt8} {s : List UInt8} {f : Fault} (rest : m.rest = b :: s)
      (read : Token.read limit b s = .error f) :
      Outcome limit m
        (some (.error ⟨⟨f.kind, (m.index + f.offset : Nat)⟩, m.index + 1 + f.used⟩))
  | refused {b : UInt8} {s : List UInt8} {token : Token} {used : Nat} {kind : ErrorKind}
      (rest : m.rest = b :: s) (read : Token.read limit b s = .ok (token, used))
      (added : m.table.add m.index token = .error kind) :
      Outcome limit m (some (.error ⟨⟨kind, m.index⟩, m.index + 1 + used⟩))
  | taken {b : UInt8} {s : List UInt8} {token : Token} {used : Nat} {table : Worktable}
      (rest : m.rest = b :: s) (read : Token.read limit b s = .ok (token, used))
      (added : m.table.add m.index token = .ok table) :
      Outcome limit m (some (.ok ⟨m.index + 1 + used, s.drop used, table⟩))

theorem advance_outcome (limit : Int) (m : Machine) : Outcome limit m (m.advance? limit) := by
  unfold advance?
  split
  · rename_i rest
    exact .ended rest
  · rename_i rest
    split
    · rename_i read
      exact .misread rest read
    · rename_i read
      split
      · rename_i added
        exact .refused rest read added
      · rename_i added
        exact .taken rest read added

theorem advance_eq {limit : Int} {m : Machine} {r : Option (Except Failure Machine)}
    (outcome : Outcome limit m r) : m.advance? limit = r := by
  cases outcome with
  | ended rest => simp only [advance?, rest]
  | misread rest read => simp only [advance?, rest, read]
  | refused rest read added | taken rest read added => simp only [advance?, rest, read, added]

theorem run_eq (limit : Int) (m : Machine) :
    m.run limit =
      match m.advance? limit with
      | none => (m.table.finish m.index).mapError fun e => ⟨e, m.index⟩
      | some (.error failure) => .error failure
      | some (.ok next) => next.run limit := by
  rw [run]
  split
  · rename_i step
    rw [step]
  · rename_i step
    rw [step]
  · rename_i step
    rw [step]

theorem run_failed {limit : Int} {m : Machine} {f : Failure}
    (step : m.advance? limit = some (.error f)) : m.run limit = .error f := by
  rw [run_eq, step]

theorem run_taken {limit : Int} {m next : Machine} (step : m.advance? limit = some (.ok next)) :
    m.run limit = next.run limit := by
  rw [run_eq, step]

theorem rest_of_ended {limit : Int} {m : Machine} (ended : m.advance? limit = none) :
    m.rest = [] := by
  have outcome := advance_outcome limit m
  rw [ended] at outcome
  cases outcome with
  | ended rest => exact rest

structure Within (p : List UInt8) (m : Machine) : Prop where
  rest : m.rest = p.drop m.index
  index : m.index ≤ p.length

theorem start_within (p : List UInt8) : (start p).Within p :=
  ⟨rfl, Nat.zero_le _⟩

theorem next_byte {p : List UInt8} {m : Machine} {b : UInt8} {s : List UInt8} (here : m.Within p)
    (rest : m.rest = b :: s) : p[m.index]? = some b := by
  rw [← List.head?_drop, ← here.rest, rest]
  rfl

theorem advance_within {limit : Int} {p : List UInt8} {m next : Machine} (here : m.Within p)
    (step : m.advance? limit = some (.ok next)) : next.Within p := by
  have outcome := advance_outcome limit m
  rw [step] at outcome
  cases outcome with
  | @taken b s token used table rest read added =>
    have split : p.drop m.index = b :: s := by rw [← here.rest, rest]
    have after : p.drop (m.index + 1) = s := by rw [← List.drop_drop, split]; rfl
    have fits := Token.read_within limit b s
    have length := congrArg List.length split
    rw [read] at fits
    simp only [Reading.used, List.length_drop, List.length_cons] at fits length
    constructor
    · rw [← List.drop_drop, after]
    · simp only
      omega

theorem steps_taken {limit : Int} {m next : Machine} {done : List Step}
    (step : m.advance? limit = some (.ok next)) :
    m.steps limit done =
      next.steps limit (⟨m.index, m.rest.headD 0, next.table.entries⟩ :: done) := by
  rw [steps]
  split
  · rename_i other
    rw [step] at other
    cases other
    rfl
  · rename_i stuck
    exact absurd step (stuck next)

theorem steps_stuck {limit : Int} {m : Machine} {done : List Step}
    (stuck : ∀ next, m.advance? limit ≠ some (.ok next)) : m.steps limit done = done.reverse := by
  rw [steps]
  split
  · rename_i next step
    exact absurd step (stuck next)
  · rfl

theorem steps_append (limit : Int) (m : Machine) (later done : List Step) :
    m.steps limit (later ++ done) = done.reverse ++ m.steps limit later := by
  fun_induction steps limit m later with
  | case1 m later next step ih => rw [steps_taken step, ← ih, List.cons_append]
  | case2 m later stuck => rw [steps_stuck stuck, List.reverse_append]

theorem steps_cons {limit : Int} {m next : Machine} (step : m.advance? limit = some (.ok next)) :
    m.steps limit [] =
      ⟨m.index, m.rest.headD 0, next.table.entries⟩ :: next.steps limit [] := by
  rw [steps_taken step]
  exact steps_append limit next [] [_]

end Machine

theorem run_of_parse {limit : Int} {p : List UInt8} {e : Expr} (read : parse limit p = .ok e) :
    (Machine.start p).run limit = .ok e := by
  unfold parse at read
  cases run : (Machine.start p).run limit with
  | error f =>
    rw [run] at read
    cases read
  | ok found =>
    rw [run] at read
    cases read
    rfl

theorem failure_of_parse {limit : Int} {p : List UInt8} {e : PatternError}
    (failed : parse limit p = .error e) :
    ∃ f, (Machine.start p).run limit = .error f ∧ f.error = e := by
  unfold parse at failed
  cases run : (Machine.start p).run limit with
  | error f =>
    rw [run] at failed
    cases failed
    exact ⟨f, rfl, rfl⟩
  | ok found =>
    rw [run] at failed
    cases failed

end ByteRegex

import ByteRegex.Proofs.Grammar.Joining
import ByteRegex.Proofs.Run

/-!
Patterns built from patterns. The trees of two patterns are parts of the tree of the pattern that a
group, a bar or mere juxtaposition makes of them. What could come between is at the seam: a
quantifier or an octal escape that ends the first pattern looks at the byte behind it.
-/

namespace ByteRegex

/-- The last token of the pattern is an octal escape that a further digit would join. -/
def EndsInShortOctal (limit : Int) (p : List UInt8) : Prop :=
  ∃ step ∈ (trace limit p).getLast?, ∃ digits,
    p.drop step.index = Byte.backslash :: digits ∧ Escape.ShortOctal digits

namespace Grammar

theorem lexeme_append {limit : Int} {s rest t : List UInt8} {token : Token}
    (lexeme : Lexeme limit s token rest) (seam : rest = [] → Seam s t) :
    Lexeme limit (s ++ t) token (rest ++ t) := by
  cases s with
  | nil => exact absurd rfl (lexeme_nonempty lexeme)
  | cons b u =>
    obtain ⟨used, read, rfl⟩ := lexeme_read lexeme
    have whole : Token.read limit b (u ++ []) = .ok (token, used) := by rwa [List.append_nil]
    have within : used ≤ u.length := by
      have fits := Token.read_within limit b u
      rwa [read] at fits
    have same : Token.read limit b (u ++ t) = Token.read limit b (u ++ []) := by
      apply Token.read_known
      · rw [whole]
        exact within
      · intro full
        rw [whole] at full
        apply seam
        exact List.drop_eq_nil_of_le (Nat.le_of_eq full.symm)
    have moved := read_lexeme (same.trans whole)
    rwa [List.drop_append_of_le_length within] at moved

/-- A run to the end of `p` finds the same tree as the start of a longer pattern, if its last token
is the same there. -/
theorem run_pattern_append {limit : Int} {p whole t : List UInt8} {m : Machine} {e : Expr}
    (here : m.Within p) (h : Faithful limit whole m.table (m.rest ++ t))
    (read : m.run limit = .ok e)
    (seam : ∀ step ∈ (m.steps limit []).getLast?, Seam (p.drop step.index) t) :
    ∃ n, Pattern limit 0 whole e n t := by
  fun_induction Machine.run limit m with
  | case1 m ended =>
    rw [Machine.rest_of_ended ended] at h
    cases finished : m.table.finish m.index with
    | error failed =>
      rw [finished] at read
      cases read
    | ok e =>
      rw [finished] at read
      cases read
      exact finish_pattern h finished
  | case2 m failure failed => cases read
  | case3 m next step ih =>
    obtain ⟨token, lexeme, added⟩ := advance_lexeme step
    rw [Machine.steps_cons step, List.getLast?_cons] at seam
    -- only the last token can see what stands behind the pattern
    have longer : Lexeme limit (m.rest ++ t) token (next.rest ++ t) := by
      apply lexeme_append lexeme
      intro ended
      have none : next.steps limit [] = [] := by
        apply Machine.steps_stuck
        rw [Machine.advance_eq (.ended ended)]
        simp
      rw [none] at seam
      rw [here.rest]
      exact seam _ rfl
    apply ih (Machine.advance_within here step) (lexeme_faithful h longer added) read
    intro last member
    apply seam
    rw [Option.mem_def.mp member]
    rfl

theorem parse_append {limit : Int} {p t : List UInt8} {e : Expr} (read : parse limit p = .ok e)
    (seam : ∀ step ∈ (trace limit p).getLast?, Seam (p.drop step.index) t) :
    Pattern limit 0 (p ++ t) e e.captures.length t := by
  have run := run_of_parse read
  obtain ⟨n, pattern⟩ :=
    run_pattern_append (Machine.start_within p) (start_faithful limit (p ++ t)) run seam
  have count : e.captures.length = n := by
    rw [(pattern_captures pattern).2]
    simp [Expr.numbers]
  rwa [count]

theorem seam_cons {b : UInt8} (lazy : b ≠ Byte.question) (octal : Byte.isOctal b = false)
    (s t : List UInt8) : Seam s (b :: t) := by
  constructor
  · simpa using lazy
  · intro digits eq short c member
    cases member
    exact octal

theorem parse_group {options : Options} {p : List UInt8} {a : Expr}
    (read : options.parse p = .ok a) :
    options.parse (Byte.leftParen :: p ++ [Byte.rightParen]) = .ok (.capture 1 (a.shift 1)) := by
  have seam (s : List UInt8) : Seam s [Byte.rightParen] := seam_cons (by decide) (by decide) s []
  have body := parse_append read fun _ _ => seam _
  have inside := pattern_shift 1 body
  have piece := Piece.plain (Atom.group (n := 0) inside)
  exact parse_of_pattern (.branches (.one (.one piece)))

theorem branches_after {options : Options} {q : List UInt8} {b : Expr}
    (read : options.parse q = .ok b) (some : q ≠ []) (n : Nat) :
    ∃ fs m, b.shift n = choice fs ∧ Branches options.ceiling n q fs m [] := by
  obtain ⟨m, pattern⟩ := pattern_of_parse read
  obtain ⟨fs, same, all⟩ := pattern_branches (pattern_shift n pattern) some
  exact ⟨fs, n + m, same, all⟩

theorem parse_bar {options : Options} {p q : List UInt8} {a b : Expr}
    (left : options.parse p = .ok a) (right : options.parse q = .ok b) (first : p ≠ [])
    (second : q ≠ []) :
    options.parse (p ++ Byte.bar :: q) =
      .ok (.alternate (a.branches ++ (b.shift a.captures.length).branches)) := by
  have seam (s : List UInt8) : Seam s (Byte.bar :: q) := seam_cons (by decide) (by decide) s q
  have before := parse_append left fun _ _ => seam _
  obtain ⟨es, same, all⟩ := pattern_branches before (by simpa using first)
  obtain ⟨fs, m, shifted, more⟩ := branches_after right second a.captures.length
  have parts : a.branches = es := by rw [same, choice_parts all]
  rw [shifted, choice_parts more, parts]
  have tree : choice (es ++ fs) = .alternate (es ++ fs) :=
    joined_append (branches_regular all).1 (branches_regular more).1
  rw [← tree]
  exact parse_of_pattern (.branches (branches_append all more))

theorem parse_join {options : Options} {p q : List UInt8} {a b : Expr}
    (left : options.parse p = .ok a) (right : options.parse q = .ok b) (first : p ≠ [])
    (second : q ≠ [])
    (apart : ¬(EndsInShortOctal options.ceiling p ∧ ∃ d ∈ q.head?, Byte.isOctal d)) :
    ∃ init last next later, a.branches = init ++ [last] ∧
      (b.shift a.captures.length).branches = next :: later ∧
      options.parse (p ++ q) =
        .ok (choice (init ++ .concat (last.items ++ next.items) :: later)) := by
  obtain ⟨fs, m, shifted, more⟩ := branches_after right second a.captures.length
  have before : Pattern options.ceiling 0 (p ++ q) a a.captures.length q := by
    apply parse_append left
    intro step member
    constructor
    · intro lazy
      exact branches_settled more _ lazy (by decide)
    · intro digits token short d head
      apply Bool.eq_false_iff.mpr
      intro octal
      exact apart ⟨⟨step, member, digits, token, short⟩, d, head, octal⟩
  obtain ⟨es, same, all⟩ := pattern_branches before (by simpa using first)
  obtain ⟨init, last, next, later, ended, begun, ⟨_, _, old⟩, ⟨_, _, new⟩, joint⟩ :=
    branches_join all more
  refine ⟨init, sequence last, sequence next, later, ?_, ?_, ?_⟩
  · rw [same, choice_parts all, ended]
  · rw [shifted, choice_parts more, begun]
  · rw [sequence_parts old, sequence_parts new]
    have tree : sequence (last ++ next) = .concat (last ++ next) :=
      joined_append (branch_regular old).1 (branch_regular new).1
    rw [← tree]
    exact parse_of_pattern (.branches joint)

/-- The tree of a group, of a choice and of a juxtaposition of patterns is put together from the
trees of the patterns, with the captures of the second numbered on from the first. -/
theorem parse_compositional (options : Options) (p q : List UInt8) (a b : Expr)
    (left : options.parse p = .ok a) (right : options.parse q = .ok b) :
    let moved := b.shift a.captures.length
    options.parse (Byte.leftParen :: p ++ [Byte.rightParen]) = .ok (.capture 1 (a.shift 1)) ∧
    (p ≠ [] → q ≠ [] →
      options.parse (p ++ Byte.bar :: q) = .ok (.alternate (a.branches ++ moved.branches))) ∧
    (p ≠ [] → q ≠ [] →
      ¬(EndsInShortOctal options.ceiling p ∧ ∃ d ∈ q.head?, Byte.isOctal d) →
      ∃ init last next later, a.branches = init ++ [last] ∧ moved.branches = next :: later ∧
        options.parse (p ++ q) =
          .ok (choice (init ++ .concat (last.items ++ next.items) :: later))) := by
  refine ⟨parse_group left, ?_, ?_⟩
  · intro first second
    exact parse_bar left right first second
  · intro first second apart
    exact parse_join left right first second apart

/-- The patterns `(a)|\7` and `8|(b)`: the digit 8 is not octal, so the escape ends before it. -/
theorem parse_compositional_groups :
    let p : List UInt8 := [40, 97, 41, 124, 92, 55]
    let q : List UInt8 := [56, 124, 40, 98, 41]
    let a : Expr := .alternate [.capture 1 (.literal 97), .literal 7]
    let b : Expr := .alternate [.literal 56, .capture 1 (.literal 98)]
    let moved := b.shift a.captures.length
    let options := Options.traced false
    options.parse p = .ok a ∧ options.parse q = .ok b ∧
      options.parse (Byte.leftParen :: p ++ [Byte.rightParen]) = .ok (.capture 1 (a.shift 1)) ∧
      options.parse (p ++ Byte.bar :: q) = .ok (.alternate (a.branches ++ moved.branches)) ∧
      ∃ init last next later, a.branches = init ++ [last] ∧ moved.branches = next :: later ∧
        options.parse (p ++ q) =
          .ok (choice (init ++ .concat (last.items ++ next.items) :: later)) := by
  intro p q a b moved options
  have left : options.parse p = .ok a := by decide +kernel
  have right : options.parse q = .ok b := by decide +kernel
  obtain ⟨group, bar, join⟩ := parse_compositional options p q a b left right
  refine ⟨left, right, group, bar (by decide) (by decide), join (by decide) (by decide) ?_⟩
  rintro ⟨_, d, head, octal⟩
  cases head
  exact absurd octal (by decide)

end Grammar

end ByteRegex

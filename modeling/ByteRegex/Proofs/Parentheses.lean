import ByteRegex.Proofs.Notation.Bounds
import ByteRegex.Proofs.Notation.Bracket
import ByteRegex.Proofs.Worktable

/-!
The partners of parentheses. The groups that are open after some tokens are the parentheses that
none of these tokens closes, so a pattern that ends there is blamed on the leftmost of them,
whatever else is missing at its end.
-/

namespace ByteRegex

def Step.opens (t : Step) : Bool := t.byte == Byte.leftParen

def Step.closes (t : Step) : Bool := t.byte == Byte.rightParen

/-- The indices of the parentheses of the open groups, innermost first. -/
def Worktable.openings (w : Worktable) : List Nat := w.groups.map Group.index

namespace Parentheses

/-- Tokens in which every parenthesis has its partner. -/
inductive Balanced : List Step → Prop where
  | nil : Balanced []
  | other {t : Step} {later : List Step} (noOpening : t.opens = false)
      (noClosing : t.closes = false) (rest : Balanced later) : Balanced (t :: later)
  | group {first last : Step} {inside later : List Step} (opening : first.opens)
      (closing : last.closes) (body : Balanced inside) (rest : Balanced later) :
      Balanced (first :: (inside ++ last :: later))

/-- An opening parenthesis with these tokens behind it has its partner among them. -/
def Closed (later : List Step) : Prop :=
  ∃ inside last rest, later = inside ++ last :: rest ∧ last.closes ∧ Balanced inside

/-- The leftmost opening parenthesis without a partner is the one at the index `i`. -/
def Outermost (tokens : List Step) (i : Int) : Prop :=
  ∃ earlier first later, tokens = earlier ++ first :: later ∧ first.opens ∧
    (first.index : Int) = i ∧ ¬ Closed later ∧
    ∀ before other between, earlier = before ++ other :: between → other.opens →
      Closed (between ++ first :: later)

/-- Every token of the pattern is taken in. -/
def Handled (limit : Int) (p : List UInt8) : Prop :=
  ∃ m, Grammar.Reaches limit (Machine.start p) m ∧ m.rest = []

/-- Tokens after which the parentheses at some indices, the last one first, are still open. -/
inductive Pending : List Step → List Nat → Prop where
  | balanced {s : List Step} (all : Balanced s) : Pending s []
  | opened {s t : List Step} {first : Step} {around : List Nat} (outer : Pending s around)
      (opening : first.opens) (inside : Balanced t) :
      Pending (s ++ first :: t) (first.index :: around)

/-- How many parentheses are open after the tokens when `n` are before them. A closing one needs one
that is open. -/
def depth : Nat → List Step → Option Nat
  | n, [] => some n
  | n, t :: later =>
    if t.opens then depth (n + 1) later
    else if t.closes then
      match n with
      | 0 => none
      | n + 1 => depth n later
    else depth n later

/-! ### Depth -/

theorem opens_of_closes {t : Step} (closing : t.closes) : t.opens = false := by
  have byte : t.byte = Byte.rightParen := by simpa [Step.closes] using closing
  rw [Step.opens, byte]
  rfl

theorem depth_opens {t : Step} (opening : t.opens) (n : Nat) (later : List Step) :
    depth n (t :: later) = depth (n + 1) later := by
  simp [depth, opening]

theorem depth_closes {t : Step} (closing : t.closes) (n : Nat) (later : List Step) :
    depth (n + 1) (t :: later) = depth n later := by
  simp [depth, closing, opens_of_closes closing]

theorem depth_unopened {t : Step} (closing : t.closes) (later : List Step) :
    depth 0 (t :: later) = none := by
  simp [depth, closing, opens_of_closes closing]

theorem depth_other {t : Step} (noOpening : t.opens = false) (noClosing : t.closes = false)
    (n : Nat) (later : List Step) : depth n (t :: later) = depth n later := by
  simp [depth, noOpening, noClosing]

theorem depth_balanced {s : List Step} (all : Balanced s) (n : Nat) (later : List Step) :
    depth n (s ++ later) = depth n later := by
  induction all generalizing n later with
  | nil => rfl
  | other noOpening noClosing _ ih => rw [List.cons_append, depth_other noOpening noClosing, ih]
  | @group first last inside rest opening closing _ _ ih_body ih_rest =>
    calc depth n (first :: (inside ++ last :: rest) ++ later)
      _ = depth (n + 1) (inside ++ (last :: rest ++ later)) := by
          rw [List.cons_append, depth_opens opening, List.append_assoc]
      _ = depth (n + 1) (last :: (rest ++ later)) := ih_body _ _
      _ = depth n (rest ++ later) := depth_closes closing _ _
      _ = depth n later := ih_rest _ _

theorem depth_pending {s : List Step} {indices : List Nat} (pending : Pending s indices) (n : Nat)
    (later : List Step) : depth n (s ++ later) = depth (n + indices.length) later := by
  induction pending generalizing later with
  | balanced all => exact depth_balanced all n later
  | @opened s t first around outer opening inside ih =>
    rw [List.append_assoc, ih, List.cons_append, depth_opens opening, depth_balanced inside]
    rfl

theorem depth_count {n d : Nat} {s : List Step} (reached : depth n s = some d) :
    n + s.countP Step.opens = d + s.countP Step.closes := by
  fun_induction depth n s with
  | case1 n =>
    cases reached
    rfl
  | case2 n t later opening ih =>
    have noClosing : ¬ t.closes := fun closing => by simp [opens_of_closes closing] at opening
    rw [List.countP_cons_of_pos opening, List.countP_cons_of_neg noClosing, ← ih reached]
    omega
  | case3 => cases reached
  | case4 t later noOpening closing n ih =>
    have count := ih reached
    rw [List.countP_cons_of_neg noOpening, List.countP_cons_of_pos closing]
    omega
  | case5 n t later noOpening noClosing ih =>
    rw [List.countP_cons_of_neg noOpening, List.countP_cons_of_neg noClosing, ih reached]

theorem pending_count {s : List Step} {indices : List Nat} (pending : Pending s indices) :
    s.countP Step.opens = indices.length + s.countP Step.closes := by
  have reached := depth_pending pending 0 []
  rw [List.append_nil] at reached
  have count := depth_count reached
  omega

theorem pending_unclosed {s : List Step} {indices : List Nat} (pending : Pending s indices) :
    ¬ Closed s := by
  rintro ⟨inside, last, rest, rfl, closing, body⟩
  have reached := depth_pending pending 0 []
  rw [List.append_nil, depth_balanced body, depth_unopened closing] at reached
  cases reached

/-! ### Partners -/

theorem closed_append {s : List Step} (closed : Closed s) (more : List Step) :
    Closed (s ++ more) := by
  obtain ⟨inside, last, rest, rfl, closing, body⟩ := closed
  exact ⟨inside, last, rest ++ more, by simp, closing, body⟩

theorem balanced_closed {s : List Step} (all : Balanced s) {before between : List Step} {t : Step}
    (here : s = before ++ t :: between) (opens : t.opens) : Closed between := by
  induction all generalizing before between with
  | nil => simp at here
  | other noOpening _ _ ih =>
    cases before with
    | nil =>
      cases here
      rw [noOpening] at opens
      cases opens
    | cons _ before => exact ih (List.cons.inj here).2
  | @group first last inside later opening closing body _ ih_body ih_rest =>
    have last_closes : last ≠ t := by
      rintro rfl
      rw [opens_of_closes closing] at opens
      cases opens
    cases before with
    | nil =>
      cases here
      exact ⟨inside, last, later, rfl, closing, body⟩
    | cons _ before =>
      -- the token stands inside the group, or behind its end
      have rest := (List.cons.inj here).2
      rcases List.append_eq_append_iff.mp rest with ⟨u, rfl, behind⟩ | ⟨u, rfl, within⟩
      · cases u with
        | nil => exact absurd (List.cons.inj behind).1 last_closes
        | cons _ u => exact ih_rest (List.cons.inj behind).2
      · cases u with
        | nil => exact absurd (List.cons.inj within).1.symm last_closes
        | cons _ u =>
          obtain ⟨rfl, rfl⟩ := List.cons.inj within
          exact closed_append (ih_body rfl) _

theorem balanced_append {s t : List Step} (first : Balanced s) (second : Balanced t) :
    Balanced (s ++ t) := by
  induction first with
  | nil => exact second
  | other noOpening noClosing _ ih => exact .other noOpening noClosing ih
  | @group _ _ inside later opening closing body _ _ ih =>
    rw [List.cons_append, List.append_assoc]
    exact .group opening closing body ih

theorem pending_append {s t : List Step} {indices : List Nat} (pending : Pending s indices)
    (all : Balanced t) : Pending (s ++ t) indices := by
  cases pending with
  | balanced before => exact .balanced (balanced_append before all)
  | opened outer opening inside =>
    rw [List.append_assoc]
    exact .opened outer opening (balanced_append inside all)

theorem pending_outermost {s : List Step} {indices : List Nat} {i : Nat}
    (pending : Pending s indices) (outermost : indices.getLast? = some i) :
    ∃ earlier first later others, s = earlier ++ first :: later ∧ Balanced earlier ∧ first.opens ∧
      first.index = i ∧ Pending later others := by
  induction pending with
  | balanced => cases outermost
  | @opened s t first around outer opening inside ih =>
    cases around with
    | nil =>
      cases outermost
      cases outer with
      | balanced all => exact ⟨s, first, t, [], rfl, all, opening, rfl, .balanced inside⟩
    | cons j around =>
      rw [List.getLast?_cons_cons] at outermost
      obtain ⟨earlier, g, later, others, rfl, all, opens, index, rest⟩ := ih outermost
      have longer := Pending.opened rest opening inside
      refine ⟨earlier, g, later ++ first :: t, _, ?_, all, opens, index, longer⟩
      rw [List.append_assoc, List.cons_append]

theorem outermost_of_pending {s : List Step} {indices : List Nat} {i : Nat}
    (pending : Pending s indices) (outermost : indices.getLast? = some i) : Outermost s i := by
  obtain ⟨earlier, first, later, others, rfl, all, opens, index, rest⟩ :=
    pending_outermost pending outermost
  refine ⟨earlier, first, later, rfl, opens, congrArg Nat.cast index, pending_unclosed rest, ?_⟩
  intro before other between here opening
  exact closed_append (balanced_closed all here opening) _

theorem outermost_unique {s : List Step} {i j : Int} (one : Outermost s i) (two : Outermost s j) :
    i = j := by
  obtain ⟨earlier, first, later, rfl, opens, rfl, unclosed, earlier_closed⟩ := one
  obtain ⟨before, other, rest, here, opening, rfl, other_unclosed, before_closed⟩ := two
  -- if one of them came first, it would be closed because the other is leftmost
  rcases List.append_eq_append_iff.mp here with ⟨u, rfl, behind⟩ | ⟨u, rfl, behind⟩
  · cases u with
    | nil => rw [(List.cons.inj behind).1]
    | cons _ u =>
      obtain ⟨rfl, rfl⟩ := List.cons.inj behind
      exact absurd (before_closed _ _ _ rfl opens) unclosed
  · cases u with
    | nil => rw [(List.cons.inj behind).1]
    | cons _ u =>
      obtain ⟨rfl, rfl⟩ := List.cons.inj behind
      exact absurd (earlier_closed _ _ _ rfl opening) other_unclosed

/-! ### Open groups -/

inductive Changes (t : Step) : List Nat → List Nat → Prop where
  | opens (opening : t.opens) (indices : List Nat) : Changes t indices (t.index :: indices)
  | closes (closing : t.closes) (i : Nat) (indices : List Nat) : Changes t (i :: indices) indices
  | keeps (noOpening : t.opens = false) (noClosing : t.closes = false) (indices : List Nat) :
      Changes t indices indices

theorem pending_step {s : List Step} {t : Step} {indices later : List Nat}
    (pending : Pending s indices) (changes : Changes t indices later) :
    Pending (s ++ [t]) later := by
  cases changes with
  | opens opening => exact .opened pending opening .nil
  | closes closing i =>
    cases pending with
    | opened outer opening inside =>
      rw [List.append_assoc]
      exact pending_append outer (.group opening closing inside .nil)
  | keeps noOpening noClosing => exact pending_append pending (.other noOpening noClosing .nil)

theorem closing_byte {limit : Int} {b : UInt8} {s rest : List UInt8}
    (lexeme : Grammar.Lexeme limit (b :: s) .closeGroup rest) : b = Byte.rightParen := by
  cases lexeme
  rfl

theorem advance_changes {limit : Int} {m next : Machine}
    (step : m.advance? limit = some (.ok next)) :
    Changes ⟨m.index, m.rest.headD 0, next.table.entries⟩ m.table.openings
      next.table.openings := by
  have outcome := Machine.advance_outcome limit m
  rw [step] at outcome
  cases outcome with
  | @taken b s token used table rest read added =>
    rw [rest, List.headD_cons]
    by_cases opening : b = Byte.leftParen
    · subst opening
      cases read
      cases added
      exact .opens rfl _
    · by_cases closing : b = Byte.rightParen
      · subst closing
        cases read
        cases Worktable.add_added added with
        | closed innermost reduced =>
          rw [Worktable.openings, innermost]
          exact .closes rfl _ _
      · have keeps (stack : List Entry) (indices : List Nat) :
            Changes ⟨m.index, b, stack⟩ indices indices :=
          .keeps (by simpa [Step.opens] using opening) (by simpa [Step.closes] using closing) _
        have lexeme := Grammar.read_lexeme read
        cases Worktable.add_added added with
        | opened => exact absurd (Machine.opening_byte lexeme) opening
        | closed => exact absurd (closing_byte lexeme) closing
        | atom | ended | repeated => exact keeps _ _

/-- At every token of a run the open groups are the parentheses that the tokens so far leave open.
-/
theorem pending_steps {limit : Int} {m l : Machine} (reaches : Grammar.Reaches limit m l)
    (ended : l.rest = []) {s : List Step} (pending : Pending s m.table.openings) :
    Pending (s ++ m.steps limit []) l.table.openings := by
  induction reaches generalizing s with
  | refl m =>
    have stuck : ∀ next, m.advance? limit ≠ some (.ok next) := by
      intro next taken
      rw [Machine.advance_eq (.ended ended)] at taken
      cases taken
    rw [Machine.steps_stuck stuck, List.reverse_nil, List.append_nil]
    exact pending
  | step first later ih =>
    rw [Machine.steps_cons first, List.append_cons]
    exact ih ended (pending_step pending (advance_changes first))

/-! ### Errors -/

theorem escape_kind {i stop : Nat} {s : List UInt8} {e : PatternError}
    (meaning : Escape.Meaning i s (.error e) stop) : e.kind ≠ .unclosedParentheses := by
  cases meaning <;> simp

theorem bad_kind {k stop : Nat} {s : List UInt8} {e : PatternError}
    (bad : Bracket.BadEndpoint k s e stop) : e.kind ≠ .unclosedParentheses := by
  cases bad with
  | escape meaning => exact escape_kind meaning

theorem body_kind {opening k stop : Nat} {first : Bool} {s : List UInt8} {e : PatternError}
    {outcome : Except PatternError (List (UInt8 × UInt8))}
    (body : Bracket.Body opening first k s outcome stop) (failed : outcome = .error e) :
    e.kind ≠ .unclosedParentheses := by
  induction body with
  | ended =>
    cases failed
    simp
  | closed => cases failed
  | @listed _ _ _ _ _ _ _ outcome _ _ _ _ ih =>
    cases outcome with
    | error other =>
      cases failed
      exact ih rfl
    | ok => cases failed
  | problem _ wrong =>
    cases failed
    cases wrong with
    | low bad => exact bad_kind bad
    | high _ _ bad => exact bad_kind bad
    | ended | reversed => simp

theorem bracket_kind {i stop : Nat} {s : List UInt8} {e : PatternError}
    (meaning : Bracket.Meaning i s (.error e) stop) : e.kind ≠ .unclosedParentheses := by
  cases meaning with
  | broken _ body => exact body_kind body rfl

theorem bounds_kind {fits : Nat → Prop} {i stop : Nat} {s : List UInt8} {e : PatternError}
    (meaning : Bounds.Meaning fits i s (.error e) stop) : e.kind ≠ .unclosedParentheses := by
  cases meaning with
  | misspelled wrong => cases wrong <;> simp
  | excessive | reversed => simp

theorem read_kind {limit : Int} (below : limit < maxCount) {b : UInt8} {s : List UInt8} {f : Fault}
    (failed : Token.read limit b s = .error f) : f.kind ≠ .unclosedParentheses := by
  rcases Token.read_kind limit b with ⟨token, plain⟩ | ⟨bounds, operator⟩ | rfl | rfl | rfl
  · rw [plain] at failed
    cases failed
  · rw [operator] at failed
    cases failed
  · rw [Token.read_brace] at failed
    have placed := Reading.placed_error (i := 0) (Reading.map_error failed) rfl rfl
    exact bounds_kind ((Bounds.placed_iff below fun _ => Iff.rfl).mp placed)
  · rw [Token.read_bracket] at failed
    have placed := Reading.placed_error (i := 0) (Reading.map_error failed) rfl rfl
    exact bracket_kind (Bracket.placed_iff.mp placed)
  · rw [Token.read_backslash] at failed
    have placed := Reading.placed_error (i := 0) (Reading.map_error failed) rfl rfl
    exact escape_kind (Escape.placed_iff.mp placed)

theorem advance_kind {limit : Int} (below : limit < maxCount) {m : Machine} {f : Failure}
    (step : m.advance? limit = some (.error f)) : f.error.kind ≠ .unclosedParentheses := by
  have outcome := Machine.advance_outcome limit m
  rw [step] at outcome
  cases outcome with
  | misread rest read => exact read_kind below read
  | refused rest read added => cases Worktable.add_refused added <;> simp

theorem finish_unclosed_iff {w : Worktable} {length : Nat} {i : Int} :
    w.finish length = .error ⟨.unclosedParentheses, i⟩ ↔
      ∃ n : Nat, w.openings.getLast? = some n ∧ i = n := by
  rw [Worktable.finish, Worktable.openings, List.getLast?_map]
  cases w.groups.getLast? with
  | some g => simp [eq_comm]
  | none =>
    simp only [Option.map_none, reduceCtorEq, false_and, exists_false, iff_false]
    intro failed
    cases reduced : w.level.reduce with
    | ok e =>
      rw [reduced] at failed
      cases failed
    | error kind =>
      rw [reduced] at failed
      cases Worktable.reduce_error reduced
      cases failed

theorem run_ended {limit : Int} {m : Machine} (ended : m.rest = []) :
    m.run limit = (m.table.finish m.index).mapError fun e => ⟨e, m.index⟩ := by
  rw [Machine.run_eq, Machine.advance_eq (.ended ended)]

theorem ended_of_unclosed {limit : Int} (below : limit < maxCount) {m : Machine} {f : Failure}
    (failed : m.run limit = .error f) (kind : f.error.kind = .unclosedParentheses) :
    ∃ l, Grammar.Reaches limit m l ∧ l.rest = [] := by
  fun_induction Machine.run limit m with
  | case1 m ended => exact ⟨m, .refl m, Machine.rest_of_ended ended⟩
  | case2 m failure step =>
    cases failed
    exact absurd kind (advance_kind below step)
  | case3 m next step ih =>
    obtain ⟨l, reaches, ended⟩ := ih failed
    exact ⟨l, .step step reaches, ended⟩

theorem parse_handled {limit : Int} {p : List UInt8} (handled : Handled limit p) :
    ∃ m : Machine, parse limit p = m.table.finish m.index ∧
      Pending (trace limit p) m.table.openings := by
  obtain ⟨m, reaches, ended⟩ := handled
  refine ⟨m, ?_, pending_steps reaches ended (.balanced .nil)⟩
  rw [parse, Grammar.reaches_run reaches, run_ended ended]
  cases m.table.finish m.index <;> rfl

theorem handled_of_unclosed {limit : Int} (below : limit < maxCount) {p : List UInt8} {i : Int}
    (failed : parse limit p = .error ⟨.unclosedParentheses, i⟩) : Handled limit p := by
  obtain ⟨f, run, error⟩ := failure_of_parse failed
  exact ended_of_unclosed below run (by rw [error])

theorem outnumber_of_outermost {s : List Step} {indices : List Nat} {n : Nat}
    (pending : Pending s indices) (outermost : indices.getLast? = some n) :
    s.countP Step.closes < s.countP Step.opens := by
  have count := pending_count pending
  have nonempty := List.length_pos_of_mem (List.mem_of_getLast? outermost)
  omega

theorem parse_outnumbered {limit : Int} {p : List UInt8} (handled : Handled limit p)
    (outnumber : (trace limit p).countP Step.closes < (trace limit p).countP Step.opens) :
    ∃ n : Nat, parse limit p = .error ⟨.unclosedParentheses, n⟩ ∧ Outermost (trace limit p) n := by
  obtain ⟨m, finished, pending⟩ := parse_handled handled
  have count := pending_count pending
  cases outermost : m.table.openings.getLast? with
  | none =>
    rw [List.getLast?_eq_none_iff.mp outermost, List.length_nil] at count
    omega
  | some n =>
    refine ⟨n, ?_, outermost_of_pending pending outermost⟩
    rw [finished]
    exact finish_unclosed_iff.mpr ⟨n, outermost, rfl⟩

theorem parse_unclosed {limit : Int} (below : limit < maxCount) {p : List UInt8} {i : Int}
    (failed : parse limit p = .error ⟨.unclosedParentheses, i⟩) :
    Handled limit p ∧
      (trace limit p).countP Step.closes < (trace limit p).countP Step.opens ∧
      Outermost (trace limit p) i := by
  have handled := handled_of_unclosed below failed
  obtain ⟨m, finished, pending⟩ := parse_handled handled
  rw [finished] at failed
  obtain ⟨n, outermost, rfl⟩ := finish_unclosed_iff.mp failed
  exact ⟨handled, outnumber_of_outermost pending outermost, outermost_of_pending pending outermost⟩

/-- A pattern is refused for an open parenthesis exactly if all its tokens are taken in and more
parentheses are opened than closed. Nothing else at its end matters, such as an empty branch. The
leftmost parenthesis without a partner is blamed. -/
theorem parse_unclosed_iff (options : Options) (p : List UInt8) :
    (∀ i, options.parse p = .error ⟨.unclosedParentheses, i⟩ ↔
      Handled options.ceiling p ∧
        (trace options.ceiling p).countP Step.closes <
          (trace options.ceiling p).countP Step.opens ∧
        Outermost (trace options.ceiling p) i) ∧
    ((∃ i, options.parse p = .error ⟨.unclosedParentheses, i⟩) ↔
      Handled options.ceiling p ∧
        (trace options.ceiling p).countP Step.closes <
          (trace options.ceiling p).countP Step.opens) := by
  have below : (options.ceiling : Int) < maxCount := by
    have := options.ceiling_le
    unfold maxCeiling at this
    unfold maxCount
    omega
  constructor
  · intro i
    constructor
    · exact parse_unclosed below
    · rintro ⟨handled, outnumber, outermost⟩
      obtain ⟨n, failed, here⟩ := parse_outnumbered handled outnumber
      rw [outermost_unique outermost here]
      exact failed
  · constructor
    · rintro ⟨i, failed⟩
      obtain ⟨handled, outnumber, _⟩ := parse_unclosed below failed
      exact ⟨handled, outnumber⟩
    · rintro ⟨handled, outnumber⟩
      obtain ⟨n, failed, _⟩ := parse_outnumbered handled outnumber
      exact ⟨n, failed⟩

/-- In `(a)(b|` the branch after the bar is empty, and the second parenthesis is blamed. -/
theorem parse_unclosed_iff_bar :
    let p : List UInt8 := [40, 97, 41, 40, 98, 124]
    let options := Options.traced false
    options.parse p = .error ⟨.unclosedParentheses, 3⟩ ∧ Handled options.ceiling p ∧
      Outermost (trace options.ceiling p) 3 := by
  intro p options
  have failed : options.parse p = .error ⟨.unclosedParentheses, 3⟩ := by decide +kernel
  obtain ⟨handled, _, outermost⟩ := ((parse_unclosed_iff options p).1 3).mp failed
  exact ⟨failed, handled, outermost⟩

end Parentheses

end ByteRegex

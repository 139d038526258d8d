import ByteRegex.Options
import ByteRegex.Proofs.Grammar.Completeness

/-!
What the reader reads, the grammar derives. The worktable always holds the phrases that the bytes
read so far consist of: the pieces of the branch being read, the branches before it, and the same
for every group that is open. With the converse this makes the reader and the grammar agree.
-/

namespace ByteRegex.Grammar

/-- The items of a branch as they stand, latest first. Only an atom can still be quantified. -/
inductive Pieces (limit : Int) : Nat → List UInt8 → List Item → Nat → List UInt8 → Prop where
  | nil (n : Nat) (s : List UInt8) : Pieces limit n s [] n s
  | atom {n k m : Nat} {s t rest : List UInt8} {items : List Item} {e : Expr}
      (earlier : Pieces limit n s items k t) (atom : Atom limit k t e m rest) :
      Pieces limit n s (⟨e, false⟩ :: items) m rest
  | quantified {n k m : Nat} {s t rest : List UInt8} {items : List Item} {e : Expr}
      (earlier : Pieces limit n s items k t) (piece : Piece limit k t e m rest) :
      Pieces limit n s (⟨e, true⟩ :: items) m rest

inductive Finished (limit : Int) : Nat → List UInt8 → List Expr → Nat → List UInt8 → Prop where
  | nil (n : Nat) (s : List UInt8) : Finished limit n s [] n s
  | bar {n k m : Nat} {s t rest : List UInt8} {es items : List Expr}
      (earlier : Finished limit n s es k t)
      (branch : Branch limit k t items m (Byte.bar :: rest)) :
      Finished limit n s (sequence items :: es) m rest

/-- A level that was entered at `s` and holds what stands there up to `rest`. -/
def Held (limit : Int) (n : Nat) (s : List UInt8) (level : Level) (m : Nat)
    (rest : List UInt8) : Prop :=
  ∃ k t, Finished limit n s level.branches k t ∧ Pieces limit k t level.items m rest

/-- The open groups of the pattern `p`; the level inside them all was entered at the last place. -/
inductive Opened (limit : Int) (p : List UInt8) : List Group → Nat → List UInt8 → Prop where
  | nil : Opened limit p [] 0 p
  | group {n k i : Nat} {s t : List UInt8} {outer : Level} {groups : List Group}
      (earlier : Opened limit p groups k t)
      (held : Held limit k t outer n (Byte.leftParen :: s)) :
      Opened limit p (⟨n + 1, i, outer⟩ :: groups) (n + 1) s

def Faithful (limit : Int) (p : List UInt8) (w : Worktable) (rest : List UInt8) : Prop :=
  ∃ n s, Opened limit p w.groups n s ∧ Held limit n s w.level w.captures rest

theorem pieces_branch {limit : Int} {n m : Nat} {s rest : List UInt8} {item : Item}
    {items : List Item} (h : Pieces limit n s (item :: items) m rest) :
    Branch limit n s ((item :: items).map Item.expr).reverse m rest := by
  induction items generalizing item m rest with
  | nil =>
    cases h with
    | atom earlier atom => cases earlier; exact .one (.plain atom)
    | quantified earlier piece => cases earlier; exact .one piece
  | cons before items ih =>
    rw [List.map_cons, List.reverse_cons]
    cases h with
    | atom earlier atom => exact .more (ih earlier) (.plain atom)
    | quantified earlier piece => exact .more (ih earlier) piece

theorem finished_branches {limit : Int} {n k m : Nat} {s t rest : List UInt8}
    {es items : List Expr} (h : Finished limit n s es k t)
    (branch : Branch limit k t items m rest) :
    Branches limit n s (es.reverse ++ [sequence items]) m rest := by
  induction h generalizing items m rest with
  | nil => exact .one branch
  | bar earlier before ih =>
    rw [List.reverse_cons]
    exact .more (ih before) branch

theorem held_branch {limit : Int} {n m : Nat} {s rest : List UInt8} {level : Level} {last : Expr}
    (h : Held limit n s level m rest) (branch : level.branch? = some last) :
    ∃ k t items, Finished limit n s level.branches k t ∧ Branch limit k t items m rest ∧
      last = sequence items := by
  obtain ⟨k, t, finished, pieces⟩ := h
  unfold Level.branch? at branch
  cases eq : level.items with
  | nil => rw [eq] at branch; cases branch
  | cons item items =>
    rw [eq] at pieces branch
    rw [ofItems_sequence (by simp)] at branch
    exact ⟨k, t, _, finished, pieces_branch pieces, (Option.some.inj branch).symm⟩

theorem held_pattern {limit : Int} {n m : Nat} {s rest : List UInt8} {level : Level} {e : Expr}
    (h : Held limit n s level m rest) (reduced : level.reduce = .ok e) :
    Pattern limit n s e m rest := by
  cases branch : level.branch? with
  | some last =>
    obtain ⟨k, t, items, finished, derived, rfl⟩ := held_branch h branch
    rw [reduce_branch branch] at reduced
    cases reduced
    exact .branches (finished_branches finished derived)
  | none =>
    obtain ⟨k, t, finished, pieces⟩ := h
    unfold Level.reduce at reduced
    rw [branch] at reduced
    cases done : level.branches with
    | cons e es => rw [done] at reduced; cases reduced
    | nil =>
      rw [done] at reduced finished
      cases reduced
      cases finished
      cases eq : level.items with
      | nil => rw [eq] at pieces; cases pieces; exact .nothing n s
      | cons item items =>
        unfold Level.branch? at branch
        rw [eq, ofItems_sequence (by simp)] at branch
        cases branch

theorem held_push {limit : Int} {n k m : Nat} {s t rest : List UInt8} {level : Level} {e : Expr}
    (h : Held limit n s level k t) (atom : Atom limit k t e m rest) :
    Held limit n s (level.push e false) m rest := by
  obtain ⟨j, u, finished, pieces⟩ := h
  exact ⟨j, u, finished, .atom pieces atom⟩

theorem held_quantified {limit : Int} {n m : Nat} {s t rest : List UInt8} {level : Level}
    {branches : List Expr} {items : List Item} {e : Expr} {bounds : Bounds} {greedy : Bool}
    (h : Held limit n s level m t) (last : level.items = ⟨e, false⟩ :: items)
    (lexeme : Lexeme limit t (.quantifier bounds greedy) rest) (same : level.branches = branches) :
    Held limit n s ⟨branches, ⟨quantified e bounds greedy, true⟩ :: items⟩ m rest := by
  obtain ⟨k, u, finished, pieces⟩ := h
  rw [last] at pieces
  rw [same] at finished
  cases pieces with
  | atom earlier atom =>
    refine ⟨k, u, finished, .quantified earlier ?_⟩
    cases lexeme with
    | greedy quantifier _ => exact .greedy atom quantifier
    | lazy quantifier => exact .lazy atom quantifier

theorem lexeme_faithful {limit : Int} {p s rest : List UInt8} {w next : Worktable} {i : Nat}
    {token : Token} (h : Faithful limit p w s) (lexeme : Lexeme limit s token rest)
    (added : w.add i token = .ok next) : Faithful limit p next rest := by
  obtain ⟨n, t, opened, held⟩ := h
  cases token with
  | atom e =>
    cases added
    cases lexeme with
    | symbol plain => exact ⟨n, t, opened, held_push held (.symbol _ plain)⟩
  | openGroup =>
    cases added
    cases lexeme
    exact ⟨_, rest, .group opened held, _, _, .nil _ rest, .nil _ rest⟩
  | closeGroup =>
    cases lexeme
    simp only [Worktable.add] at added
    cases groups : w.groups with
    | nil => rw [groups] at added; cases added
    | cons g outside =>
      rw [groups] at added opened
      cases reduced : w.level.reduce with
      | error kind => rw [reduced] at added; cases added
      | ok body =>
        rw [reduced] at added
        cases added
        cases opened with
        | group earlier outer =>
          have pattern := held_pattern held reduced
          exact ⟨_, _, earlier, held_push outer (.group pattern)⟩
  | bar =>
    cases lexeme
    simp only [Worktable.add] at added
    cases branch : w.level.branch? with
    | none => rw [branch] at added; cases added
    | some last =>
      rw [branch] at added
      cases added
      obtain ⟨k, u, items, finished, derived, rfl⟩ := held_branch held branch
      exact ⟨n, t, opened, _, rest, .bar finished derived, .nil _ rest⟩
  | quantifier bounds greedy =>
    simp only [Worktable.add] at added
    split at added
    · rename_i e items last
      cases added
      exact ⟨n, t, opened, held_quantified held last lexeme rfl⟩
    · cases added

theorem finish_pattern {limit : Int} {p rest : List UInt8} {w : Worktable} {length : Nat} {e : Expr}
    (h : Faithful limit p w rest) (finished : w.finish length = .ok e) :
    ∃ n, Pattern limit 0 p e n rest := by
  obtain ⟨n, s, opened, held⟩ := h
  unfold Worktable.finish at finished
  cases last : w.groups.getLast? with
  | some g => rw [last] at finished; cases finished
  | none =>
    rw [last] at finished
    rw [List.getLast?_eq_none_iff.mp last] at opened
    cases opened
    cases reduced : w.level.reduce with
    | error kind => rw [reduced] at finished; cases finished
    | ok e =>
      rw [reduced] at finished
      cases finished
      exact ⟨_, held_pattern held reduced⟩

theorem run_pattern {limit : Int} {p : List UInt8} {m : Machine} {e : Expr}
    (h : Faithful limit p m.table m.rest) (read : m.run limit = .ok e) :
    ∃ n, Pattern limit 0 p e n [] := by
  fun_induction Machine.run limit m with
  | case1 m ended =>
    have rest : m.rest = [] := by
      unfold Machine.advance? at ended
      split at ended
      · assumption
      · split at ended
        · cases ended
        · split at ended <;> cases ended
    rw [rest] at h
    cases finished : m.table.finish m.index with
    | error failed => rw [finished] at read; cases read
    | ok e =>
      rw [finished] at read
      cases read
      exact finish_pattern h finished
  | case2 m failure failed => cases read
  | case3 m next step ih =>
    obtain ⟨token, lexeme, added⟩ := advance_lexeme step
    exact ih (lexeme_faithful h lexeme added) read

theorem start_faithful (limit : Int) (p : List UInt8) : Faithful limit p .fresh p :=
  ⟨0, p, .nil, 0, p, .nil 0 p, .nil 0 p⟩

theorem pattern_of_parse {limit : Int} {p : List UInt8} {e : Expr} (h : parse limit p = .ok e) :
    ∃ n, Pattern limit 0 p e n [] := by
  unfold parse at h
  cases read : (Machine.start p).run limit with
  | error failure => rw [read] at h; cases h
  | ok e =>
    rw [read] at h
    cases h
    exact run_pattern (start_faithful limit p) read

/-- The reader accepts exactly the patterns of the grammar, as what they denote. -/
theorem parse_ok_iff_pattern (options : Options) (p : List UInt8) (e : Expr) :
    options.parse p = .ok e ↔ ∃ n, Pattern options.ceiling 0 p e n [] := by
  constructor
  · exact pattern_of_parse
  · intro derived
    obtain ⟨n, pattern⟩ := derived
    exact parse_of_pattern pattern

end ByteRegex.Grammar

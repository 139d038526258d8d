import ByteRegex.Proofs.Grammar.Trees
import ByteRegex.Proofs.Run

/-!
What a token can do to the worktable, and what holds of it at every token. The items of a branch can
stand side by side as they are, and only repetitions are marked as repeated; no finished branch is
empty; and the open groups are numbered and placed in the order of their parentheses.
-/

namespace ByteRegex

namespace Worktable

inductive Added (w : Worktable) (index : Nat) : Token → Worktable → Prop where
  | atom (e : Expr) : Added w index (.atom e) { w with level := w.level.push e false }
  | opened :
      Added w index .openGroup
        ⟨w.captures + 1, ⟨w.captures + 1, index, w.level⟩ :: w.groups, .fresh⟩
  | closed {g : Group} {groups : List Group} {body : Expr} (innermost : w.groups = g :: groups)
      (reduced : w.level.reduce = .ok body) :
      Added w index .closeGroup
        ⟨w.captures, groups, g.outer.push (.capture g.capture body) false⟩
  | ended {branch : Expr} (folded : w.level.branch? = some branch) :
      Added w index .bar { w with level := ⟨branch :: w.level.branches, []⟩ }
  | repeated {e : Expr} {items : List Item} (bounds : Bounds) (greedy : Bool)
      (last : w.level.items = ⟨e, false⟩ :: items) :
      Added w index (.quantifier bounds greedy)
        { w with level :=
          ⟨w.level.branches,
           ⟨.repetition e bounds.min (bounds.max.map Int.ofNat) greedy, true⟩ :: items⟩ }

theorem add_added {w next : Worktable} {i : Nat} {token : Token}
    (added : w.add i token = .ok next) : Added w i token next := by
  cases token with
  | atom e =>
    cases added
    exact .atom e
  | openGroup =>
    cases added
    exact .opened
  | closeGroup =>
    simp only [add] at added
    split at added
    · cases added
    · rename_i innermost
      split at added
      · cases added
      · rename_i reduced
        cases added
        exact .closed innermost reduced
  | bar =>
    simp only [add] at added
    split at added
    · cases added
    · rename_i folded
      cases added
      exact .ended folded
  | quantifier bounds greedy =>
    simp only [add] at added
    split at added
    · rename_i last
      cases added
      exact .repeated bounds greedy last
    · cases added

inductive Refused (w : Worktable) : Token → ErrorKind → Prop where
  | unopened (none : w.groups = []) : Refused w .closeGroup .unopenedParentheses
  | closed (empty : w.level.reduce = .error .emptyAlternate) : Refused w .closeGroup .emptyAlternate
  | ended (empty : w.level.branch? = none) : Refused w .bar .emptyAlternate
  | repeated (bounds : Bounds) (greedy : Bool) :
      Refused w (.quantifier bounds greedy) .missingRepeatOperand

theorem reduce_error {level : Level} {kind : ErrorKind} (failed : level.reduce = .error kind) :
    kind = .emptyAlternate := by
  unfold Level.reduce at failed
  split at failed
  · cases failed
  · cases failed
  · cases failed
    rfl

theorem add_refused {w : Worktable} {i : Nat} {token : Token} {kind : ErrorKind}
    (refused : w.add i token = .error kind) : Refused w token kind := by
  cases token with
  | atom e => cases refused
  | openGroup => cases refused
  | closeGroup =>
    simp only [add] at refused
    split at refused
    · rename_i none
      cases refused
      exact .unopened none
    · split at refused
      · rename_i failed
        cases refused
        cases reduce_error failed
        exact .closed failed
      · cases refused
  | bar =>
    simp only [add] at refused
    split at refused
    · rename_i empty
      cases refused
      exact .ended empty
    · cases refused
  | quantifier bounds greedy =>
    simp only [add] at refused
    split at refused
    · cases refused
    · cases refused
      exact .repeated bounds greedy

end Worktable

structure Item.Tidy (item : Item) : Prop where
  stands : item.expr.isItem
  marked : item.repeated = true ↔
    ∃ body min max greedy, item.expr = .repetition body min max greedy

structure Level.Tidy (level : Level) : Prop where
  items : ∀ item ∈ level.items, item.Tidy
  branches : ∀ e ∈ level.branches, e ≠ .empty .none

namespace Level

theorem fresh_tidy : fresh.Tidy := by
  constructor
  · intro item member
    cases member
  · intro e member
    cases member

theorem push_tidy {level : Level} {e : Expr} (tidy : level.Tidy) (atomic : e.isAtomic) :
    (level.push e false).Tidy := by
  constructor
  · intro item member
    rcases List.mem_cons.mp member with rfl | before
    · constructor
      · exact Expr.isItem_of_isAtomic atomic
      · constructor
        · intro marked
          cases marked
        · rintro ⟨body, min, max, greedy, rfl⟩
          cases atomic
    · exact tidy.items item before
  · exact tidy.branches

theorem branch_nonempty {level : Level} {branch : Expr} (tidy : level.Tidy)
    (folded : level.branch? = some branch) : branch ≠ .empty .none := by
  unfold branch? at folded
  have each : ∀ e ∈ (level.items.map Item.expr).reverse, e ≠ .empty .none := by
    intro e member
    obtain ⟨item, inside, rfl⟩ := List.mem_map.mp (List.mem_reverse.mp member)
    exact (Expr.isItem_iff.mp (tidy.items item inside).stands).2.2
  match items : (level.items.map Item.expr).reverse with
  | [] =>
    rw [items] at folded
    cases folded
  | [e] =>
    rw [items] at folded each
    cases folded
    exact each branch (by simp)
  | e :: f :: rest =>
    rw [items] at folded
    cases folded
    simp

theorem bar_tidy {level : Level} {branch : Expr} (tidy : level.Tidy)
    (folded : level.branch? = some branch) : Tidy ⟨branch :: level.branches, []⟩ := by
  constructor
  · intro item member
    cases member
  · intro e member
    rcases List.mem_cons.mp member with rfl | before
    · exact branch_nonempty tidy folded
    · exact tidy.branches e before

theorem quantified_tidy {level : Level} {e : Expr} {items : List Item} {min : Int}
    {max : Option Int} {greedy : Bool} (tidy : level.Tidy)
    (last : level.items = ⟨e, false⟩ :: items) :
    Tidy ⟨level.branches, ⟨.repetition e min max greedy, true⟩ :: items⟩ := by
  constructor
  · intro item member
    rcases List.mem_cons.mp member with rfl | before
    · exact ⟨rfl, fun _ => ⟨e, min, max, greedy, rfl⟩, fun _ => rfl⟩
    · apply tidy.items
      rw [last]
      exact List.mem_cons_of_mem _ before
  · exact tidy.branches

end Level

/-- The groups that are open, innermost first: each was opened by a parenthesis of the pattern `p`,
after those around it. -/
structure Nested (p : List UInt8) (index captures : Nat) (groups : List Group) : Prop where
  outer : ∀ g ∈ groups, g.outer.Tidy
  counted : ∀ g ∈ groups, g.capture ≤ captures
  passed : ∀ g ∈ groups, g.index < index
  paren : ∀ g ∈ groups, p[g.index]? = some Byte.leftParen
  ordered : groups.Pairwise fun inner around =>
    around.capture < inner.capture ∧ around.index < inner.index

namespace Nested

theorem later {p : List UInt8} {i j n : Nat} {groups : List Group} (h : Nested p i n groups)
    (le : i ≤ j) : Nested p j n groups :=
  { h with passed := fun g member => Nat.lt_of_lt_of_le (h.passed g member) le }

theorem opened {p : List UInt8} {i n : Nat} {groups : List Group} {level : Level}
    (h : Nested p i n groups) (tidy : level.Tidy) (here : p[i]? = some Byte.leftParen) :
    Nested p (i + 1) (n + 1) (⟨n + 1, i, level⟩ :: groups) := by
  constructor
  · intro g member
    rcases List.mem_cons.mp member with rfl | around
    · exact tidy
    · exact h.outer g around
  · intro g member
    rcases List.mem_cons.mp member with rfl | around
    · exact Nat.le_refl _
    · exact Nat.le_succ_of_le (h.counted g around)
  · intro g member
    rcases List.mem_cons.mp member with rfl | around
    · exact Nat.lt_succ_self _
    · exact Nat.lt_succ_of_lt (h.passed g around)
  · intro g member
    rcases List.mem_cons.mp member with rfl | around
    · exact here
    · exact h.paren g around
  · apply List.pairwise_cons.mpr
    constructor
    · intro g around
      exact ⟨Nat.lt_succ_of_le (h.counted g around), h.passed g around⟩
    · exact h.ordered

theorem closed {p : List UInt8} {i n : Nat} {g : Group} {groups : List Group}
    (h : Nested p i n (g :: groups)) : Nested p i n groups := by
  constructor
  · exact (List.forall_mem_cons.mp h.outer).2
  · exact (List.forall_mem_cons.mp h.counted).2
  · exact (List.forall_mem_cons.mp h.passed).2
  · exact (List.forall_mem_cons.mp h.paren).2
  · exact (List.pairwise_cons.mp h.ordered).2

end Nested

namespace Machine

structure Orderly (p : List UInt8) (m : Machine) : Prop where
  within : m.Within p
  level : m.table.level.Tidy
  groups : Nested p m.index m.table.captures m.table.groups

theorem opening_byte {limit : Int} {b : UInt8} {s rest : List UInt8}
    (lexeme : Grammar.Lexeme limit (b :: s) .openGroup rest) : b = Byte.leftParen := by
  cases lexeme
  rfl

theorem start_orderly (p : List UInt8) : (start p).Orderly p := by
  constructor
  · exact start_within p
  · exact Level.fresh_tidy
  · constructor
    case ordered => exact List.Pairwise.nil
    all_goals
      intro g member
      cases member

theorem advance_orderly {limit : Int} {p : List UInt8} {m next : Machine} (h : m.Orderly p)
    (step : m.advance? limit = some (.ok next)) : next.Orderly p := by
  have outcome := advance_outcome limit m
  have within := advance_within h.within step
  rw [step] at outcome
  cases outcome with
  | @taken b s token used table rest read added =>
    have lexeme := Grammar.read_lexeme read
    have groups : Nested p (m.index + 1 + used) m.table.captures m.table.groups :=
      h.groups.later (by omega)
    cases Worktable.add_added added with
    | atom e =>
      cases lexeme with
      | symbol plain =>
        exact ⟨within, Level.push_tidy h.level (Grammar.symbol_regular 0 plain).1, groups⟩
    | opened =>
      have here := next_byte h.within rest
      rw [opening_byte lexeme] at here
      exact ⟨within, Level.fresh_tidy, (h.groups.opened h.level here).later (by simp)⟩
    | closed innermost reduced =>
      rw [innermost] at groups
      have outer := groups.outer _ List.mem_cons_self
      exact ⟨within, Level.push_tidy outer rfl, groups.closed⟩
    | ended folded => exact ⟨within, Level.bar_tidy h.level folded, groups⟩
    | repeated bounds greedy last =>
      exact ⟨within, Level.quantified_tidy h.level last, groups⟩

theorem after_orderly {limit : Int} {p : List UInt8} {k : Nat} {m : Machine}
    (h : after (advance? limit) k (start p) = some m) : m.Orderly p :=
  after_invariant (fun _ _ => advance_orderly) (start_orderly p) h

end Machine

end ByteRegex

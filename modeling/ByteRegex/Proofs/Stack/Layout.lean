import ByteRegex.Proofs.Stack
import ByteRegex.Proofs.Worktable

namespace ByteRegex

namespace Stack

inductive ItemEntry : Entry → Prop where
  | node {e : Expr} {repeated : Bool} (not_concat : ∀ es, e ≠ .concat es)
      (not_alternate : ∀ es, e ≠ .alternate es) (nonempty : e ≠ .empty .none)
      (marked : repeated = true ↔ ∃ body min max greedy, e = .repetition body min max greedy) :
      ItemEntry (.node e repeated)

/-- Branches, each with a bar above it, and then the nodes of the branch being read. -/
inductive Segment : List Entry → Prop where
  | items {entries : List Entry} (each : ∀ entry ∈ entries, ItemEntry entry) : Segment entries
  | branch {e : Expr} {repeated : Bool} {entries : List Entry} (nonempty : e ≠ .empty .none)
      (later : Segment entries) : Segment (.node e repeated :: .alternation :: entries)

structure Layer where
  capture : Nat
  index : Nat
  segment : List Entry

def Layer.entries (layer : Layer) : List Entry :=
  .group layer.capture layer.index :: layer.segment

/-- The entries, from the bottom up, are a segment and a layer for each open group. The groups are
numbered and placed in order, each at a parenthesis of the pattern `p`. -/
def Layout (p : List UInt8) (captures opened : Nat) (entries : List Entry) : Prop :=
  ∃ (bottom : List Entry) (layers : List Layer),
    entries = bottom ++ layers.flatMap Layer.entries ∧ layers.length = opened ∧
    Segment bottom ∧ (∀ layer ∈ layers, Segment layer.segment) ∧
    (∀ layer ∈ layers, layer.capture ≤ captures ∧ p[layer.index]? = some Byte.leftParen) ∧
    layers.Pairwise fun lower upper =>
      lower.capture < upper.capture ∧ lower.index < upper.index

theorem segment_branches {branches : List Expr} {entries : List Entry} (above : Segment entries)
    (nonempty : ∀ e ∈ branches, e ≠ .empty .none) :
    Segment (branches.flatMap (fun e => [.node e false, .alternation]) ++ entries) := by
  induction branches with
  | nil => exact above
  | cons e branches ih =>
    obtain ⟨first, later⟩ := List.forall_mem_cons.mp nonempty
    exact .branch first (ih later)

theorem segment_level {level : Level} (tidy : level.Tidy) : Segment level.entries := by
  apply segment_branches
  · apply Segment.items
    intro entry member
    obtain ⟨item, inside, rfl⟩ := List.mem_map.mp member
    have fit := tidy.items item (List.mem_reverse.mp inside)
    obtain ⟨not_concat, not_alternate, nonempty⟩ := Expr.isItem_iff.mp fit.stands
    exact .node not_concat not_alternate nonempty fit.marked
  · intro e member
    exact tidy.branches e (List.mem_reverse.mp member)

def outermost : List Group → Level → Level
  | [], level => level
  | g :: groups, _ => outermost groups g.outer

def layers : List Group → Level → List Layer
  | [], _ => []
  | g :: groups, level => layers groups g.outer ++ [⟨g.capture, g.index, level.entries⟩]

theorem entries_layers (captures : Nat) (groups : List Group) (level : Level) :
    (Worktable.mk captures groups level).entries =
      (outermost groups level).entries ++ (layers groups level).flatMap Layer.entries := by
  induction groups generalizing level with
  | nil => simp [Worktable.entries, outermost, layers]
  | cons g groups ih =>
    rw [layers, List.flatMap_append, ← List.append_assoc, outermost, ← ih]
    simp [Worktable.entries, Layer.entries]

theorem layers_length (groups : List Group) (level : Level) :
    (layers groups level).length = groups.length := by
  induction groups generalizing level with
  | nil => rfl
  | cons g groups ih => rw [layers, List.length_append, ih]; rfl

theorem outermost_tidy {groups : List Group} {level : Level} (tidy : level.Tidy)
    (outer : ∀ g ∈ groups, g.outer.Tidy) : (outermost groups level).Tidy := by
  induction groups generalizing level with
  | nil => exact tidy
  | cons g groups ih =>
    obtain ⟨first, around⟩ := List.forall_mem_cons.mp outer
    exact ih first around

theorem layers_group {groups : List Group} {level : Level} (tidy : level.Tidy)
    (outer : ∀ g ∈ groups, g.outer.Tidy) :
    ∀ layer ∈ layers groups level, Segment layer.segment ∧
      ∃ g ∈ groups, layer.capture = g.capture ∧ layer.index = g.index := by
  induction groups generalizing level with
  | nil =>
    intro layer member
    cases member
  | cons g groups ih =>
    intro layer member
    obtain ⟨first, around⟩ := List.forall_mem_cons.mp outer
    rcases List.mem_append.mp member with lower | top
    · obtain ⟨segment, h, inside, same⟩ := ih first around layer lower
      exact ⟨segment, h, List.mem_cons_of_mem _ inside, same⟩
    · rw [List.mem_singleton.mp top]
      exact ⟨segment_level tidy, g, List.mem_cons_self, rfl, rfl⟩

theorem layers_ordered {p : List UInt8} {i captures : Nat} {groups : List Group} {level : Level}
    (tidy : level.Tidy) (nested : Nested p i captures groups) :
    (layers groups level).Pairwise fun lower upper =>
      lower.capture < upper.capture ∧ lower.index < upper.index := by
  induction groups generalizing level with
  | nil => exact List.Pairwise.nil
  | cons g groups ih =>
    have outer := nested.outer g List.mem_cons_self
    have below := (List.pairwise_cons.mp nested.ordered).1
    apply List.pairwise_append.mpr
    refine ⟨ih outer nested.closed, List.pairwise_singleton _ _, ?_⟩
    intro lower member top last
    rw [List.mem_singleton.mp last]
    obtain ⟨_, h, inside, capture, index⟩ := layers_group outer nested.closed.outer lower member
    rw [capture, index]
    exact below h inside

theorem layout_of_orderly {p : List UInt8} {m : Machine} (h : m.Orderly p) :
    Layout p m.table.captures m.table.groups.length m.table.entries := by
  have group := layers_group h.level h.groups.outer
  refine ⟨_, _, entries_layers _ _ _, layers_length _ _, ?_, ?_, ?_, ?_⟩
  · exact segment_level (outermost_tidy h.level h.groups.outer)
  · intro layer member
    exact (group layer member).1
  · intro layer member
    obtain ⟨_, g, inside, capture, index⟩ := group layer member
    rw [capture, index]
    exact ⟨h.groups.counted g inside, h.groups.paren g inside⟩
  · exact layers_ordered h.level h.groups

theorem advance_captures {limit : Int} {m next : Machine}
    (step : m.advance? limit = some (.ok next)) :
    next.table.captures =
      m.table.captures + if m.rest.headD 0 == Byte.leftParen then 1 else 0 := by
  have outcome := Machine.advance_outcome limit m
  rw [step] at outcome
  cases outcome with
  | @taken b s token used table rest read added =>
    rw [rest, List.headD_cons]
    by_cases opening : b = Byte.leftParen
    · subst opening
      cases read
      cases added
      rfl
    · rw [if_neg (by simpa using opening)]
      cases Worktable.add_added added with
      | opened => exact absurd (Machine.opening_byte (Grammar.read_lexeme read)) opening
      | atom | closed | ended | repeated => rfl

theorem after_captures {limit : Int} {k : Nat} {m l : Machine}
    (h : after (Machine.advance? limit) k m = some l) :
    l.table.captures = m.table.captures +
      ((m.steps limit []).take k).countP fun step => step.byte == Byte.leftParen := by
  induction k generalizing m with
  | zero =>
    cases h
    rfl
  | succ k ih =>
    obtain ⟨next, taken, later⟩ := after_succ h
    rw [Machine.steps_cons taken, List.take_succ_cons, List.countP_cons, ih later,
      advance_captures taken]
    dsimp only
    omega

theorem steps_stack (limit : Int) (k : Nat) (m : Machine) :
    ((m.steps limit []).map Step.stack)[k]? =
      (after (Machine.advance? limit) (k + 1) m).map fun l => l.table.entries := by
  induction k generalizing m with
  | zero =>
    by_cases progress : ∃ next, m.advance? limit = some (.ok next)
    · obtain ⟨next, taken⟩ := progress
      rw [Machine.steps_cons taken, after, taken]
      rfl
    · have stuck := not_exists.mp progress
      rw [Machine.steps_stuck stuck, after_stuck stuck]
      rfl
  | succ k ih =>
    by_cases progress : ∃ next, m.advance? limit = some (.ok next)
    · obtain ⟨next, taken⟩ := progress
      rw [Machine.steps_cons taken, after, taken, List.map_cons, List.getElem?_cons_succ, ih]
    · have stuck := not_exists.mp progress
      rw [Machine.steps_stuck stuck, after_stuck stuck]
      rfl

theorem after_reader (limit : Int) (k : Nat) (m : Machine) :
    after (Reader.advance? limit) k m.reader =
      (after (Machine.advance? limit) k m).map Machine.reader := by
  induction k generalizing m with
  | zero => rfl
  | succ k ih =>
    have step := advance_reader limit m
    generalize taken : m.advance? limit = r at step
    match r with
    | none => simp only [after, step, taken]; rfl
    | some (.error f) => simp only [after, step, taken]; rfl
    | some (.ok next) =>
      simp only [after, step, taken]
      exact ih next

/-- After any number of tokens the stack has its layout, the log shows the stack, and the result is
an expression or a mistake in the pattern, never a defect of the reader. -/
theorem parse_without_defect (options : Options) (p : List UInt8) :
    (∀ k r, after (Reader.advance? options.ceiling) k (.start p) = some r →
      Layout p r.stack.captures r.stack.opened r.stack.entries.reverse ∧
      r.stack.captures = ((trace options.ceiling p).take k).countP fun step =>
        step.byte == Byte.leftParen) ∧
    (∀ k, ((trace options.ceiling p).map Step.stack)[k]? =
      (after (Reader.advance? options.ceiling) (k + 1) (.start p)).map fun r =>
        r.stack.entries.reverse) ∧
    Stack.parse options.ceiling p = (options.parse p).mapError .fault := by
  have same (k : Nat) : after (Reader.advance? options.ceiling) k (.start p) =
      (after (Machine.advance? options.ceiling) k (.start p)).map Machine.reader :=
    after_reader options.ceiling k (.start p)
  refine ⟨?_, ?_, parse_eq options.ceiling p⟩
  · intro k r reached
    obtain ⟨m, machine, rfl⟩ := Option.map_eq_some_iff.mp ((same k).symm.trans reached)
    have entries : m.reader.stack.entries.reverse = m.table.entries := by
      rw [Machine.reader, stack_entries, List.reverse_reverse]
    have count := after_captures machine
    rw [entries]
    constructor
    · exact layout_of_orderly (Machine.after_orderly machine)
    · rw [Machine.reader, Worktable.stack, count]
      exact Nat.zero_add _
  · intro k
    rw [same, trace, steps_stack, Option.map_map]
    congr 1
    funext m
    simp only [Function.comp, Machine.reader, stack_entries, List.reverse_reverse]

/-- The pattern `(a|b*` after its five tokens: the repetition stands above the bar. -/
theorem parse_without_defect_group :
    let p : List UInt8 := [40, 97, 124, 98, 42]
    let stack : Stack :=
      ⟨[.node (.repetition (.literal 98) 0 none true) true, .alternation, .node (.literal 97) false,
        .group 1 0], 1, 1⟩
    after (Reader.advance? (Options.traced false).ceiling) 5 (.start p) = some ⟨5, [], stack⟩ ∧
      Layout p 1 1 stack.entries.reverse ∧
      1 = ((trace (Options.traced false).ceiling p).take 5).countP fun step =>
        step.byte == Byte.leftParen := by
  intro p stack
  have reached : after (Reader.advance? (Options.traced false).ceiling) 5 (.start p) =
      some ⟨5, [], stack⟩ := rfl
  exact ⟨reached, (parse_without_defect (Options.traced false) p).1 5 _ reached⟩

end Stack

end ByteRegex

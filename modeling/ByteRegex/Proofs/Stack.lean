import ByteRegex.Options
import ByteRegex.Proofs.Grammar.Completeness
import ByteRegex.Proofs.Run
import ByteRegex.Proofs.Stack.Checked

/-!
The worktable as one stack. A reader can keep nodes, groups and bars on a single stack and count the
open groups beside it. It then has to look for what it needs beneath the top of the stack, and could
fail to find it. Step by step such a reader does what the reader with a worktable does, so it always
finds it.
-/

namespace ByteRegex

/-- A stack, top first, the number of groups opened so far and the number of those still open. -/
structure Stack where
  entries : List Entry
  captures : Nat
  opened : Nat

namespace Stack

def empty : Stack := ⟨[], 0, 0⟩

/-- Takes the nodes off the top. They come out in the order in which they were read. -/
def popNodes (taken : List Expr) : List Entry → List Expr × List Entry
  | .node e _ :: rest => popNodes (e :: taken) rest
  | rest => (taken, rest)

def popBranches (taken : List Expr) : List Entry → Except Defect (List Expr × List Entry)
  | .alternation :: .node e _ :: rest => popBranches (e :: taken) rest
  | .alternation :: _ => .error .noBranch
  | rest => .ok (taken, rest)

def reduce (entries : List Entry) : Except (Halt ErrorKind) (Expr × List Entry) :=
  let (items, below) := popNodes [] entries
  match Expr.ofItems items, below with
  | none, .alternation :: _ => .error (.fault .emptyAlternate)
  | last, below =>
    match popBranches [last.getD (.empty .none)] below with
    | .error d => .error (.defect d)
    | .ok (branches, rest) => .ok (Grammar.choice branches, rest)

def add (s : Stack) (index : Nat) : Token → Except (Halt ErrorKind) Stack
  | .atom e => .ok { s with entries := .node e false :: s.entries }
  | .openGroup =>
    .ok ⟨.group (s.captures + 1) index :: s.entries, s.captures + 1, s.opened + 1⟩
  | .closeGroup =>
    if s.opened = 0 then .error (.fault .unopenedParentheses)
    else
      match reduce s.entries with
      | .error halt => .error halt
      | .ok (body, .group capture _ :: rest) =>
        .ok ⟨.node (.capture capture body) false :: rest, s.captures, s.opened - 1⟩
      | .ok _ => .error (.defect .noGroup)
  | .bar =>
    let (items, below) := popNodes [] s.entries
    match Expr.ofItems items with
    | none => .error (.fault .emptyAlternate)
    | some branch => .ok { s with entries := .alternation :: .node branch false :: below }
  | .quantifier bounds greedy =>
    match s.entries with
    | .node e false :: rest =>
      .ok { s with entries := .node (Grammar.quantified e bounds greedy) true :: rest }
    | _ => .error (.fault .missingRepeatOperand)

def groupIndex? : Entry → Option Nat
  | .group _ index => some index
  | _ => none

/-- The expression of a pattern that ends here. The group nearest to the bottom is blamed first. -/
def finish (s : Stack) (length : Nat) : Except (Halt PatternError) Expr :=
  if s.opened ≠ 0 then
    let unclosed := s.entries.reverse.findSome? groupIndex?
    .error (.fault ⟨.unclosedParentheses, (unclosed.getD length : Nat)⟩)
  else
    match reduce s.entries with
    | .error halt => .error (halt.map fun kind => ⟨kind, length⟩)
    | .ok (e, []) => .ok e
    | .ok _ => .error (.defect .leftOver)

structure Reader where
  index : Nat
  rest : List UInt8
  stack : Stack

namespace Reader

def start (p : List UInt8) : Reader := ⟨0, p, .empty⟩

def advance? (limit : Int) (r : Reader) : Option (Except (Halt PatternError) Reader) :=
  match r.rest with
  | [] => none
  | b :: s =>
    match Checked.token limit b s with
    | .error halt => some (.error (halt.map fun f => ⟨f.kind, (r.index + f.offset : Nat)⟩))
    | .ok (token, used) =>
      match r.stack.add r.index token with
      | .error halt => some (.error (halt.map fun kind => ⟨kind, r.index⟩))
      | .ok stack => some (.ok ⟨r.index + 1 + used, s.drop used, stack⟩)

theorem advance_rest {limit : Int} {r next : Reader} (h : r.advance? limit = some (.ok next)) :
    next.rest.length < r.rest.length := by
  unfold advance? at h
  split at h
  · cases h
  · rename_i b s eq
    split at h
    · cases h
    · split at h <;> cases h
      simp only [eq, List.length_drop, List.length_cons]
      omega

def run (limit : Int) (r : Reader) : Except (Halt PatternError) Expr :=
  match _h : r.advance? limit with
  | none => r.stack.finish r.index
  | some (.error halt) => .error halt
  | some (.ok next) => run limit next
termination_by r.rest.length
decreasing_by exact advance_rest _h

theorem run_eq (limit : Int) (r : Reader) :
    r.run limit =
      match r.advance? limit with
      | none => r.stack.finish r.index
      | some (.error halt) => .error halt
      | some (.ok next) => next.run limit := by
  rw [run]
  split
  · rename_i step
    rw [step]
  · rename_i step
    rw [step]
  · rename_i step
    rw [step]

end Reader

def parse (limit : Int) (p : List UInt8) : Except (Halt PatternError) Expr :=
  (Reader.start p).run limit

def ofBranches (branches : List Expr) : List Entry :=
  branches.flatMap fun e => [.alternation, .node e false]

def ofLevel (level : Level) : List Entry :=
  (level.items.map fun item => .node item.expr item.repeated) ++ ofBranches level.branches

/-- The entries beneath the innermost level: each open group with the level around it. -/
def ofGroups (groups : List Group) : List Entry :=
  groups.flatMap fun g => .group g.capture g.index :: ofLevel g.outer

end Stack

open Stack (popNodes popBranches ofBranches ofLevel ofGroups groupIndex?)

def Worktable.stack (w : Worktable) : Stack :=
  ⟨ofLevel w.level ++ ofGroups w.groups, w.captures, w.groups.length⟩

namespace Stack

theorem ofBranches_cons (e : Expr) (branches : List Expr) :
    ofBranches (e :: branches) = .alternation :: .node e false :: ofBranches branches := rfl

theorem popNodes_items (taken : List Expr) (items : List Item) (rest : List Entry) :
    popNodes taken ((items.map fun item => .node item.expr item.repeated) ++ rest) =
      popNodes ((items.map Item.expr).reverse ++ taken) rest := by
  induction items generalizing taken with
  | nil => rfl
  | cons item items ih =>
    rw [List.map_cons, List.cons_append, popNodes, ih, List.map_cons, List.reverse_cons,
      List.append_assoc]
    rfl

theorem popNodes_level (level : Level) (groups : List Group) :
    popNodes [] (ofLevel level ++ ofGroups groups) =
      ((level.items.map Item.expr).reverse, ofBranches level.branches ++ ofGroups groups) := by
  rw [ofLevel, List.append_assoc, popNodes_items, List.append_nil]
  cases level.branches with
  | cons e branches => rfl
  | nil =>
    cases groups with
    | cons g groups => rfl
    | nil => rfl

theorem popBranches_level (taken branches : List Expr) (groups : List Group) :
    popBranches taken (ofBranches branches ++ ofGroups groups) =
      .ok (branches.reverse ++ taken, ofGroups groups) := by
  induction branches generalizing taken with
  | nil =>
    cases groups with
    | cons g groups => rfl
    | nil => rfl
  | cons e branches ih =>
    rw [ofBranches_cons, List.cons_append, List.cons_append, popBranches, ih, List.reverse_cons,
      List.append_assoc]
    rfl

theorem reduce_level (level : Level) (groups : List Group) :
    reduce (ofLevel level ++ ofGroups groups) =
      Except.mapError .fault (level.reduce.map fun e => (e, ofGroups groups)) := by
  unfold reduce
  rw [popNodes_level]
  cases branch : level.branch? with
  | some last =>
    rw [Grammar.reduce_branch branch]
    unfold Level.branch? at branch
    simp only [branch, Option.getD_some, popBranches_level]
    rfl
  | none =>
    cases earlier : level.branches with
    | cons e branches =>
      have reduced : level.reduce = .error .emptyAlternate := by rw [Level.reduce, branch, earlier]
      unfold Level.branch? at branch
      simp only [branch, reduced]
      rfl
    | nil =>
      have reduced : level.reduce = .ok (.empty .none) := by rw [Level.reduce, branch, earlier]
      unfold Level.branch? at branch
      simp only [branch, reduced]
      cases groups with
      | cons g groups => rfl
      | nil => rfl

theorem add_stack (w : Worktable) (i : Nat) (token : Token) :
    w.stack.add i token = Except.mapError .fault ((w.add i token).map Worktable.stack) := by
  -- nothing is assumed of the worktable: its levels are in place on the stack in any case
  cases token with
  | atom e => rfl
  | openGroup => rfl
  | closeGroup =>
    cases groups : w.groups with
    | nil => simp only [add, Worktable.add, Worktable.stack, groups]; rfl
    | cons g outside =>
      have reduced := reduce_level w.level w.groups
      simp only [add, Worktable.add, Worktable.stack, reduced]
      cases w.level.reduce with
      | error kind => simp only [groups]; rfl
      | ok body => simp only [groups]; rfl
  | bar =>
    have popped := popNodes_level w.level w.groups
    simp only [add, Worktable.add, Worktable.stack, popped, Level.branch?]
    cases Expr.ofItems (w.level.items.map Item.expr).reverse with
    | none => rfl
    | some branch => rfl
  | quantifier bounds greedy =>
    simp only [add, Worktable.add, Worktable.stack, ofLevel]
    cases w.level.items with
    | cons item items =>
      obtain ⟨e, repeated⟩ := item
      cases repeated with
      | false => rfl
      | true => rfl
    | nil =>
      cases w.level.branches with
      | cons e branches => rfl
      | nil =>
        cases w.groups with
        | cons g groups => rfl
        | nil => rfl

theorem level_entries (level : Level) : level.entries.reverse = ofLevel level := by
  unfold Level.entries ofLevel ofBranches
  rw [List.reverse_append, List.reverse_flatMap, List.reverse_reverse, List.map_reverse,
    List.reverse_reverse]
  rfl

theorem stack_entries (w : Worktable) : w.stack.entries = w.entries.reverse := by
  have one (g : Group) : (g.outer.entries ++ [Entry.group g.capture g.index]).reverse =
      .group g.capture g.index :: ofLevel g.outer := by
    rw [List.reverse_append, level_entries]
    rfl
  unfold Worktable.entries
  rw [List.reverse_append, level_entries, List.reverse_flatMap, List.reverse_reverse]
  simp only [Function.comp_def, one]
  rfl

theorem groupIndex_level (level : Level) : level.entries.findSome? groupIndex? = none := by
  rw [List.findSome?_eq_none_iff]
  intro entry member
  simp only [Level.entries, List.mem_append, List.mem_flatMap, List.mem_map] at member
  rcases member with ⟨e, _, branch⟩ | ⟨item, _, rfl⟩
  · simp only [List.mem_cons, List.not_mem_nil, or_false] at branch
    rcases branch with rfl | rfl <;> rfl
  · rfl

theorem groupIndex_entries (w : Worktable) :
    w.entries.findSome? groupIndex? = w.groups.getLast?.map Group.index := by
  unfold Worktable.entries
  rw [List.findSome?_append, groupIndex_level, Option.or_none, List.getLast?_eq_head?_reverse]
  cases w.groups.reverse with
  | nil => rfl
  | cons g inner =>
    rw [List.flatMap_cons, List.append_assoc, List.findSome?_append, groupIndex_level]
    rfl

theorem finish_stack (w : Worktable) (length : Nat) :
    w.stack.finish length = (w.finish length).mapError .fault := by
  have lowest := groupIndex_entries w
  unfold finish Worktable.finish
  rw [stack_entries, List.reverse_reverse, lowest]
  cases last : w.groups.getLast? with
  | some g =>
    have opened : w.stack.opened ≠ 0 := by
      intro none
      have : w.groups = [] := List.eq_nil_of_length_eq_zero none
      rw [this] at last
      cases last
    rw [if_pos opened]
    rfl
  | none =>
    have closed : w.groups = [] := List.getLast?_eq_none_iff.mp last
    have reduced := reduce_level w.level []
    rw [← stack_entries]
    simp only [Worktable.stack, closed, reduced, List.length_nil, ne_eq, not_true_eq_false, if_false]
    cases w.level.reduce with
    | error kind => rfl
    | ok e => rfl

end Stack

def Machine.reader (m : Machine) : Stack.Reader := ⟨m.index, m.rest, m.table.stack⟩

namespace Stack

theorem advance_reader (limit : Int) (m : Machine) :
    m.reader.advance? limit = (m.advance? limit).map fun step =>
      (step.map Machine.reader).mapError fun f => .fault f.error := by
  have outcome := Machine.advance_outcome limit m
  generalize m.advance? limit = r at outcome
  unfold Reader.advance?
  cases outcome with
  | ended rest => simp only [Machine.reader, rest]; rfl
  | misread rest read => simp only [Machine.reader, rest, Checked.token_eq, read]; rfl
  | refused rest read added =>
    simp only [Machine.reader, rest, Checked.token_of_read read, add_stack, added]
    rfl
  | taken rest read added =>
    simp only [Machine.reader, rest, Checked.token_of_read read, add_stack, added]
    rfl

theorem run_reader (limit : Int) (m : Machine) :
    m.reader.run limit = (m.run limit).mapError fun f => .fault f.error := by
  fun_induction Machine.run limit m with
  | case1 m ended =>
    have step := advance_reader limit m
    rw [ended] at step
    rw [Reader.run_eq, step]
    simp only [Machine.reader, Option.map_none, finish_stack]
    cases m.table.finish m.index with
    | error e => rfl
    | ok e => rfl
  | case2 m failure failed =>
    have step := advance_reader limit m
    rw [failed] at step
    rw [Reader.run_eq, step]
    rfl
  | case3 m next taken ih =>
    have step := advance_reader limit m
    rw [taken] at step
    rw [Reader.run_eq, step]
    exact ih

theorem parse_eq (limit : Int) (p : List UInt8) :
    Stack.parse limit p = (ByteRegex.parse limit p).mapError .fault := by
  have run : Stack.parse limit p = _ := run_reader limit (Machine.start p)
  rw [run, ByteRegex.parse]
  cases (Machine.start p).run limit with
  | error f => rfl
  | ok e => rfl

end Stack

end ByteRegex

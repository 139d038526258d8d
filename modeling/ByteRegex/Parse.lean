import ByteRegex.Worktable

namespace ByteRegex

structure Machine where
  index : Nat
  rest : List UInt8
  table : Worktable

/-- A pattern that cannot be read: the error, and the offset that had been reached. -/
structure Failure where
  error : PatternError
  stop : Nat
deriving DecidableEq

namespace Machine

def start (p : List UInt8) : Machine := ⟨0, p, .fresh⟩

def advance? (limit : Int) (m : Machine) : Option (Except Failure Machine) :=
  match m.rest with
  | [] => none
  | b :: s =>
    match Token.read limit b s with
    | .error f => some (.error ⟨⟨f.kind, (m.index + f.offset : Nat)⟩, m.index + 1 + f.used⟩)
    | .ok (token, used) =>
      match m.table.add m.index token with
      | .error kind => some (.error ⟨⟨kind, m.index⟩, m.index + 1 + used⟩)
      | .ok table => some (.ok ⟨m.index + 1 + used, s.drop used, table⟩)

theorem advance_rest {limit : Int} {m next : Machine} (h : m.advance? limit = some (.ok next)) :
    next.rest.length < m.rest.length := by
  unfold advance? at h
  split at h
  · cases h
  · rename_i b s eq
    split at h
    · cases h
    · split at h <;> cases h
      simp only [eq, List.length_drop, List.length_cons]
      omega

def run (limit : Int) (m : Machine) : Except Failure Expr :=
  match _h : m.advance? limit with
  | none => (m.table.finish m.index).mapError fun e => ⟨e, m.index⟩
  | some (.error failure) => .error failure
  | some (.ok next) => run limit next
termination_by m.rest.length
decreasing_by exact advance_rest _h

end Machine

def parse (limit : Int) (p : List UInt8) : Except PatternError Expr :=
  ((Machine.start p).run limit).mapError Failure.error

inductive Entry where
  | node (e : Expr) (repeated : Bool)
  | group (capture : Nat) (index : Nat)
  | alternation

/-- The entries of a level, bottom first: each finished branch with its bar, then the items. -/
def Level.entries (level : Level) : List Entry :=
  level.branches.reverse.flatMap (fun e => [.node e false, .alternation]) ++
    level.items.reverse.map fun item => .node item.expr item.repeated

def Worktable.entries (w : Worktable) : List Entry :=
  w.groups.reverse.flatMap (fun g => g.outer.entries ++ [.group g.capture g.index]) ++
    w.level.entries

structure Step where
  index : Nat
  byte : UInt8
  stack : List Entry

def Machine.steps (limit : Int) (m : Machine) (done : List Step) : List Step :=
  match _h : m.advance? limit with
  | some (.ok next) =>
    next.steps limit (⟨m.index, m.rest.headD 0, next.table.entries⟩ :: done)
  | _ => done.reverse
termination_by m.rest.length
decreasing_by exact Machine.advance_rest _h

def trace (limit : Int) (p : List UInt8) : List Step := (Machine.start p).steps limit []

end ByteRegex

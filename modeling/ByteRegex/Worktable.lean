import ByteRegex.Token

namespace ByteRegex

structure Item where
  expr : Expr
  repeated : Bool

/-- A level of nesting. Both lists have the latest first. -/
structure Level where
  branches : List Expr
  items : List Item

namespace Level

def fresh : Level := ⟨[], []⟩

def push (level : Level) (e : Expr) (repeated : Bool) : Level :=
  { level with items := ⟨e, repeated⟩ :: level.items }

def branch? (level : Level) : Option Expr :=
  Expr.ofItems (level.items.map Item.expr).reverse

/-- The expression that the whole level denotes. A level without anything in it matches the empty
text, but a branch after a bar must have an item. -/
def reduce (level : Level) : Except ErrorKind Expr :=
  match level.branch?, level.branches with
  | some last, earlier => .ok (Expr.ofBranches last earlier)
  | none, [] => .ok (.empty .none)
  | none, _ :: _ => .error .emptyAlternate

end Level

structure Group where
  capture : Nat
  index : Nat
  outer : Level

/-- The open groups, innermost first, the level inside them all, and the number of groups opened so
far. -/
structure Worktable where
  captures : Nat
  groups : List Group
  level : Level

namespace Worktable

def fresh : Worktable := ⟨0, [], .fresh⟩

def add (w : Worktable) (index : Nat) : Token → Except ErrorKind Worktable
  | .atom e => .ok { w with level := w.level.push e false }
  | .openGroup =>
    .ok ⟨w.captures + 1, ⟨w.captures + 1, index, w.level⟩ :: w.groups, .fresh⟩
  | .closeGroup =>
    match w.groups with
    | [] => .error .unopenedParentheses
    | g :: groups =>
      match w.level.reduce with
      | .error kind => .error kind
      | .ok body => .ok ⟨w.captures, groups, g.outer.push (.capture g.capture body) false⟩
  | .bar =>
    match w.level.branch? with
    | none => .error .emptyAlternate
    | some branch => .ok { w with level := ⟨branch :: w.level.branches, []⟩ }
  | .quantifier bounds greedy =>
    match w.level.items with
    | ⟨e, false⟩ :: items =>
      let e := .repetition e bounds.min (bounds.max.map Int.ofNat) greedy
      .ok { w with level := ⟨w.level.branches, ⟨e, true⟩ :: items⟩ }
    | _ => .error .missingRepeatOperand

/-- The expression of a pattern that ends here, at the offset `length`. The outermost open group is
blamed first. -/
def finish (w : Worktable) (length : Nat) : Except PatternError Expr :=
  match w.groups.getLast? with
  | some g => .error ⟨.unclosedParentheses, g.index⟩
  | none => w.level.reduce.mapError fun kind => ⟨kind, length⟩

end Worktable

end ByteRegex

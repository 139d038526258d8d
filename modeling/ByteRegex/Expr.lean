import ByteRegex.ByteSet

/-!
Expression trees. Nothing restricts how a tree is built: codes, capture numbers and bounds are any
integers, and a list of children may have any length. Which trees a pattern can denote is a
matter of the reader and the writer of patterns.

Other numbers that a field could hold, fractions and NaN, are left out. A bound beyond 2^53, where
numbers are rounded, stands for the number that its text shows.
-/

namespace ByteRegex

inductive Assertion where
  | none
  | beginLine
  | endLine
  | beginText
  | endText
  | wordBoundary
  | notWordBoundary
deriving DecidableEq

namespace Assertion

def all : List Assertion :=
  [.none, .beginLine, .endLine, .beginText, .endText, .wordBoundary, .notWordBoundary]

def name : Assertion → String
  | .none => "None"
  | .beginLine => "BeginLine"
  | .endLine => "EndLine"
  | .beginText => "BeginText"
  | .endText => "EndText"
  | .wordBoundary => "WordBoundary"
  | .notWordBoundary => "NotWordBoundary"

def ofName? (name : String) : Option Assertion := all.find? fun a => a.name == name

end Assertion

inductive Expr where
  /-- any byte but a line feed -/
  | dot
  | empty (assertion : Assertion)
  | literal (code : Int)
  | bytes (set : ByteSet)
  | capture (index : Int) (body : Expr)
  | repetition (body : Expr) (min : Int) (max : Option Int) (greedy : Bool)
  | concat (items : List Expr)
  | alternate (branches : List Expr)
  /-- a node of a kind that no operation knows -/
  | foreign
deriving Inhabited

def several? {α : Type} (items : List α) : Option (List α) :=
  match items with
  | _ :: _ :: _ => some items
  | _ => none

namespace Expr

def children : Expr → List Expr
  | .capture _ body => [body]
  | .repetition body _ _ _ => [body]
  | .concat items => items
  | .alternate branches => branches
  | _ => []

def ofItems (items : List Expr) : Option Expr :=
  match several? items with
  | some items => some (.concat items)
  | none => items.head?

def ofBranches (last : Expr) (earlier : List Expr) : Expr :=
  match several? (last :: earlier) with
  | some branches => .alternate branches.reverse
  | none => last

def zeroOrOne (body : Expr) (greedy : Bool) : Expr := .repetition body 0 (some 1) greedy

def oneOrMore (body : Expr) (greedy : Bool) : Expr := .repetition body 1 none greedy

def zeroOrMore (body : Expr) (greedy : Bool) : Expr := .repetition body 0 none greedy

mutual

def size : Expr → Nat
  | .capture _ body => 1 + body.size
  | .repetition body _ _ _ => 1 + body.size
  | .concat items => 1 + sizeAll items
  | .alternate branches => 1 + sizeAll branches
  | _ => 1

def sizeAll : List Expr → Nat
  | [] => 0
  | e :: rest => e.size + sizeAll rest

end

theorem size_children (e : Expr) : e.size = 1 + sizeAll e.children := by
  cases e <;> simp [size, children, sizeAll]

theorem sizeAll_append (es fs : List Expr) : sizeAll (es ++ fs) = sizeAll es + sizeAll fs := by
  induction es with
  | nil => simp [sizeAll]
  | cons e es ih => simp only [List.cons_append, sizeAll, ih]; omega

theorem sizeAll_reverse (es : List Expr) : sizeAll es.reverse = sizeAll es := by
  induction es with
  | nil => rfl
  | cons e es ih => simp only [List.reverse_cons, sizeAll_append, sizeAll, ih]; omega

end Expr

end ByteRegex

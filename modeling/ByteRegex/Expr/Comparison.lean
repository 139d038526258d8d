import ByteRegex.Expr

/-!
Comparison of two trees node by node. The pairs still to compare are kept in a list, so a deep tree
needs no deep recursion. The last children are compared first.
-/

namespace ByteRegex

structure ForeignNode where
deriving DecidableEq

def ForeignNode.message (_ : ForeignNode) : String := "unhandled variant:"

namespace Expr

def zip? (left right : List Expr) : Option (List (Expr × Expr)) :=
  if left.length = right.length then some (left.zip right) else none

/-- Compares two nodes without their children, and gives the pairs of children when they agree. A
left node of an unknown kind cannot be compared. -/
def matchNode (left right : Expr) : Except ForeignNode (Option (List (Expr × Expr))) :=
  match left, right with
  | .foreign, _ => .error ⟨⟩
  | .dot, .dot => .ok (some [])
  | .empty a, .empty b => .ok (if a = b then some [] else none)
  | .literal c, .literal d => .ok (if c = d then some [] else none)
  | .bytes s, .bytes t => .ok (if s = t then some [] else none)
  | .capture i e, .capture j f => .ok (if i = j then some [(e, f)] else none)
  | .repetition e m n g, .repetition f k l h =>
    .ok (if m = k ∧ n = l ∧ g = h then some [(e, f)] else none)
  | .concat es, .concat fs => .ok (zip? es fs)
  | .alternate es, .alternate fs => .ok (zip? es fs)
  | _, _ => .ok none

theorem zip?_fst {left right : List Expr} {pairs : List (Expr × Expr)}
    (h : zip? left right = some pairs) : pairs.map Prod.fst = left := by
  unfold zip? at h
  split at h
  · rename_i len
    cases h
    exact List.map_fst_zip (by omega)
  · cases h

theorem matchNode_fst {left right : Expr} {pairs : List (Expr × Expr)}
    (h : matchNode left right = .ok (some pairs)) : pairs.map Prod.fst = left.children := by
  unfold matchNode at h
  split at h <;> grind [children, zip?_fst]

def compare (pending : List (Expr × Expr)) : Except ForeignNode Bool :=
  match pending with
  | [] => .ok true
  | (left, right) :: rest =>
    match _h : matchNode left right with
    | .error e => .error e
    | .ok none => .ok false
    | .ok (some pairs) => compare (pairs.reverse ++ rest)
termination_by sizeAll (pending.map Prod.fst)
decreasing_by
  simp only [List.map_append, List.map_reverse, matchNode_fst _h, List.map_cons, sizeAll_append,
    sizeAll_reverse, sizeAll, size_children left]
  omega

def equals (left right : Expr) : Except ForeignNode Bool := compare [(left, right)]

end Expr

end ByteRegex

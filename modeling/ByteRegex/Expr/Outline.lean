import ByteRegex.Byte
import ByteRegex.Numeral
import ByteRegex.Expr.Comparison

/-!
Outlines of trees: one line for each node, children one space deeper than their parent. Capture
numbers are not shown. The nodes still to visit are kept in a list, so a deep tree needs no deep
recursion.
-/

namespace ByteRegex.Expr

/-- Visits the pending nodes, each with its depth, after those already visited, last first. -/
def visit (pending : List (Nat × Expr)) (visited : List (Nat × Expr)) : List (Nat × Expr) :=
  match pending with
  | [] => visited.reverse
  | (depth, e) :: rest =>
    visit (e.children.map (fun child => (depth + 1, child)) ++ rest) ((depth, e) :: visited)
termination_by sizeAll (pending.map Prod.snd)
decreasing_by
  simp only [List.map_append, List.map_map, Function.comp_def, List.map_cons, sizeAll_append,
    sizeAll, size_children e, List.map_id']
  omega

def preorder (e : Expr) : List (Nat × Expr) := visit [(0, e)] []

def nodeCount (e : Expr) : Nat := e.preorder.length

def height (e : Expr) : Nat := e.preorder.foldl (fun h (depth, _) => Nat.max h (depth + 1)) 0

def outlineCode (code : Int) : List Char :=
  if code = 9 then ['\\', 't']
  else if code = 13 then ['\\', 'r']
  else if code = 10 then ['\\', 'n']
  else if 32 ≤ code ∧ code ≤ 126 then [Char.ofNat code.toNat]
  else '0' :: 'x' :: Numeral.text (Numeral.codes 16 code)

def outlineRange (r : ByteRange) : List Char :=
  '[' :: outlineCode r.min ++ '-' :: outlineCode r.max ++ [']']

def outlineBounds (min : Int) (max : Option Int) : List Char :=
  let number (n : Int) : List Char := Numeral.text (Numeral.decimalCodes n)
  match max with
  | none =>
    if min = 0 then ['*']
    else if min = 1 then ['+']
    else '\x7b' :: number min ++ [',', '\x7d']
  | some max =>
    if min = 0 ∧ max = 1 then ['?']
    else '\x7b' :: number min ++ ',' :: number max ++ ['\x7d']

def outlineNode : Expr → Except ForeignNode (List Char)
  | .dot => .ok ['d', 'o', 't']
  | .empty a => .ok ("empty(".toList ++ a.name.toList ++ [')'])
  | .literal code => .ok ("lit(".toList ++ outlineCode code ++ [')'])
  | .bytes set => .ok ("bset(".toList ++ set.ranges.flatMap outlineRange ++ [')'])
  | .capture _ _ => .ok ['c', 'a', 'p']
  | .repetition _ min max greedy =>
    .ok ("rep(".toList ++ outlineBounds min max ++ (if greedy then [')'] else ['?', ')']))
  | .concat _ => .ok ['c', 'a', 't']
  | .alternate _ => .ok ['a', 'l', 't']
  | .foreign => .error ⟨⟩

def outlineLine : Nat × Expr → Except ForeignNode (List Char)
  | (depth, e) => (outlineNode e).map (List.replicate depth ' ' ++ ·)

def outlineLines (e : Expr) : Except ForeignNode (List (List Char)) := e.preorder.mapM outlineLine

def outline (e : Expr) : Except ForeignNode String :=
  e.outlineLines.map fun lines => String.ofList (['\n'].intercalate lines)

end ByteRegex.Expr

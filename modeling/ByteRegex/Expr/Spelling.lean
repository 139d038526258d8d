import ByteRegex.Byte
import ByteRegex.Numeral
import ByteRegex.Expr.Comparison

/-!
Patterns written from trees. The notation has no groups but capturing ones, so a tree whose shape
would need another kind of group has no pattern. What is still to write is kept in a list of
pieces, so a deep tree needs no deep recursion.
-/

namespace ByteRegex

inductive SpellingError where
  | noSyntax (assertion : Assertion)
  | repeatedNode (body : Expr)
  | itemNode (item : Expr)
  | branchNode (branch : Expr)
  | foreignNode (node : ForeignNode)

def SpellingError.message : SpellingError → String
  | .noSyntax a => "the " ++ a.name ++ " assertion has no pattern syntax"
  | .repeatedNode _ => "can't render a repeat of this node without a non-capturing group:"
  | .itemNode _ => "can't render this node inside a concatenation:"
  | .branchNode _ => "can't render this node as an alternation branch:"
  | .foreignNode node => node.message

namespace Expr

def controlLetter? (code : Int) : Option UInt8 :=
  match code with
  | 7 => some 97
  | 12 => some 102
  | 9 => some 116
  | 10 => some 110
  | 13 => some 114
  | 11 => some 118
  | _ => none

def metacharacters : List UInt8 :=
  [Byte.backslash, Byte.dot, Byte.plus, Byte.star, Byte.question, Byte.leftParen, Byte.rightParen,
   Byte.bar, Byte.leftBracket, Byte.rightBracket, Byte.leftBrace, Byte.rightBrace, Byte.caret,
   Byte.dollar]

def bracketMetacharacters : List UInt8 :=
  [Byte.backslash, Byte.leftBracket, Byte.rightBracket, Byte.caret, Byte.dash]

def spellCode (special : List UInt8) (code : Int) : List UInt8 :=
  match controlLetter? code with
  | some letter => [Byte.backslash, letter]
  | none =>
    if 32 ≤ code ∧ code ≤ 126 then
      let b := UInt8.ofNat code.toNat
      if b ∈ special then [Byte.backslash, b] else [b]
    else Byte.backslash :: Byte.letterX :: Numeral.bytes (Numeral.hexPair code)

def spellRange (r : ByteRange) : List UInt8 :=
  if r.min = r.max then spellCode bracketMetacharacters r.min
  else
    spellCode bracketMetacharacters r.min ++
      Byte.dash :: spellCode bracketMetacharacters r.max

/-- The members in brackets, or those of the complement after a caret when they are fewer. The empty
set has no member, so all bytes are excluded from it. -/
def spellSet (s : ByteSet) : List UInt8 :=
  let outside := s.negate.ranges
  if s.ranges = [] ∨ (outside.length < s.ranges.length ∧ outside ≠ []) then
    Byte.leftBracket :: Byte.caret :: outside.flatMap spellRange ++ [Byte.rightBracket]
  else Byte.leftBracket :: s.ranges.flatMap spellRange ++ [Byte.rightBracket]

def spellBounds (min : Int) (max : Option Int) : List UInt8 :=
  let number (n : Int) : List UInt8 := Numeral.bytes (Numeral.decimalCodes n)
  match max with
  | none =>
    if min = 0 then [Byte.star]
    else if min = 1 then [Byte.plus]
    else Byte.leftBrace :: number min ++ [Byte.comma, Byte.rightBrace]
  | some max =>
    if min = 0 ∧ max = 1 then [Byte.question]
    else if min = max then Byte.leftBrace :: number min ++ [Byte.rightBrace]
    else Byte.leftBrace :: number min ++ Byte.comma :: number max ++ [Byte.rightBrace]

def spellQuantifier (min : Int) (max : Option Int) (greedy : Bool) : List UInt8 :=
  spellBounds min max ++ if greedy then [] else [Byte.question]

def spellAssertion : Assertion → Except SpellingError (List UInt8)
  | .none => .ok []
  | .beginLine => .ok [Byte.caret]
  | .endLine => .ok [Byte.dollar]
  | a => .error (.noSyntax a)

def isAtomic : Expr → Bool
  | .dot => true
  | .literal _ => true
  | .bytes _ => true
  | .capture _ _ => true
  | .empty a => a ≠ .none
  | _ => false

def isItem : Expr → Bool
  | .concat _ => false
  | .alternate _ => false
  | .empty a => a ≠ .none
  | _ => true

def isBranch : Expr → Bool
  | .alternate _ => false
  | .empty a => a ≠ .none
  | _ => true

inductive Piece where
  | node (e : Expr)
  | text (t : List UInt8)

def pieces : Expr → Except SpellingError (List Piece)
  | .dot => .ok [.text [Byte.dot]]
  | .empty a => (spellAssertion a).map fun t => [.text t]
  | .literal code => .ok [.text (spellCode metacharacters code)]
  | .bytes set => .ok [.text (spellSet set)]
  | .capture _ body => .ok [.text [Byte.leftParen], .node body, .text [Byte.rightParen]]
  | .repetition body min max greedy =>
    if body.isAtomic then .ok [.node body, .text (spellQuantifier min max greedy)]
    else .error (.repeatedNode body)
  | .concat items =>
    match items.find? fun e => !e.isItem with
    | some item => .error (.itemNode item)
    | none => .ok (items.map .node)
  | .alternate branches =>
    match branches.find? fun e => !e.isBranch with
    | some branch => .error (.branchNode branch)
    | none => .ok ((branches.map Piece.node).intersperse (.text [Byte.bar]))
  | .foreign => .error (.foreignNode ⟨⟩)

def nodesOf : List Piece → List Expr
  | [] => []
  | .node e :: rest => e :: nodesOf rest
  | .text _ :: rest => nodesOf rest

theorem nodesOf_append (ps qs : List Piece) : nodesOf (ps ++ qs) = nodesOf ps ++ nodesOf qs := by
  induction ps with
  | nil => rfl
  | cons p ps ih => cases p <;> simp [nodesOf, ih]

theorem nodesOf_nodes (es : List Expr) : nodesOf (es.map .node) = es := by
  induction es with
  | nil => rfl
  | cons e es ih => simp [nodesOf, ih]

theorem nodesOf_intersperse (t : List UInt8) (es : List Expr) :
    nodesOf ((es.map Piece.node).intersperse (.text t)) = es := by
  induction es with
  | nil => rfl
  | cons e es ih =>
    cases es with
    | nil => rfl
    | cons f es => simpa [nodesOf] using ih

theorem nodesOf_pieces {e : Expr} {ps : List Piece} (h : e.pieces = .ok ps) :
    nodesOf ps = e.children := by
  cases e with
  | dot | literal | bytes | capture => cases h; rfl
  | empty a => cases a <;> cases h <;> rfl
  | repetition body min max greedy =>
    simp only [pieces] at h
    split at h <;> cases h
    rfl
  | concat items =>
    simp only [pieces] at h
    split at h <;> cases h
    exact nodesOf_nodes items
  | alternate branches =>
    simp only [pieces] at h
    split at h <;> cases h
    exact nodesOf_intersperse _ branches
  | foreign => cases h

/-- Writes the pending pieces after what has been written, last byte first. -/
def write (pending : List Piece) (written : List UInt8) : Except SpellingError (List UInt8) :=
  match pending with
  | [] => .ok written.reverse
  | .text t :: rest => write rest (t.reverse ++ written)
  | .node e :: rest =>
    match _h : e.pieces with
    | .error err => .error err
    | .ok ps => write (ps ++ rest) written
termination_by (sizeAll (nodesOf pending), pending.length)
decreasing_by
  · exact Prod.Lex.right _ (Nat.lt_succ_self _)
  · apply Prod.Lex.left
    simp only [nodesOf_append, nodesOf_pieces _h, nodesOf, sizeAll_append, sizeAll, size_children e]
    omega

def pattern (e : Expr) : Except SpellingError (List UInt8) := write [.node e] []

end Expr

def patternText (p : List UInt8) : String := String.ofList (p.map fun b => Char.ofNat b.toNat)

end ByteRegex

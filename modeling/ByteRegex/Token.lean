import ByteRegex.Bounds
import ByteRegex.Bracket
import ByteRegex.Expr

namespace ByteRegex

inductive Token where
  | atom (e : Expr)
  | openGroup
  | closeGroup
  | bar
  | quantifier (bounds : Bounds) (greedy : Bool)

namespace Token

/-- A quantifier with its bounds read, `used` bytes after its first byte; `s` are the bytes after
it. -/
def quantify (bounds : Bounds) (used : Nat) (s : List UInt8) : Token × Nat :=
  match s with
  | Byte.question :: _ => (.quantifier bounds false, used + 1)
  | _ => (.quantifier bounds true, used)

def read (limit : Int) (b : UInt8) (s : List UInt8) : Reading Token :=
  match b with
  | Byte.leftParen => .ok (.openGroup, 0)
  | Byte.rightParen => .ok (.closeGroup, 0)
  | Byte.bar => .ok (.bar, 0)
  | Byte.star => .ok (quantify ⟨0, none⟩ 0 s)
  | Byte.plus => .ok (quantify ⟨1, none⟩ 0 s)
  | Byte.question => .ok (quantify ⟨0, some 1⟩ 0 s)
  | Byte.leftBrace => (Bounds.read limit s).map fun (bounds, n) => quantify bounds n (s.drop n)
  | Byte.dot => .ok (.atom .dot, 0)
  | Byte.caret => .ok (.atom (.empty .beginLine), 0)
  | Byte.dollar => .ok (.atom (.empty .endLine), 0)
  | Byte.leftBracket => (Bracket.read s).map fun (set, n) => (.atom (.bytes set), n)
  | Byte.backslash => (Escape.read s).map fun (c, n) => (.atom (.literal c.toNat), n)
  | _ => .ok (.atom (.literal b.toNat), 0)

end Token

end ByteRegex

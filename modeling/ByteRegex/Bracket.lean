import ByteRegex.ByteSet
import ByteRegex.Escape

namespace ByteRegex.Bracket

def endpoint (b : UInt8) (s : List UInt8) : Reading UInt8 :=
  if b = Byte.backslash then Escape.read s else .ok (b, 0)

/-- The member that starts with the byte `b`, when `taken` bytes of the body stand before it. A dash
makes a range unless the closing bracket follows it. The count of the result is of the bytes
after `b`; faults are placed from the opening bracket. -/
def member (taken : Nat) (b : UInt8) (s : List UInt8) : Reading ByteRange :=
  match endpoint b s with
  | .error f => .error (f.shift (taken + 1))
  | .ok (low, n) =>
    match s.drop n with
    | Byte.dash :: Byte.rightBracket :: _ => .ok (ByteRange.single low, n)
    | [Byte.dash] => .error ⟨.unclosedBrackets, 0, taken + n + 2⟩
    | Byte.dash :: c :: t =>
      match endpoint c t with
      | .error f => .error (f.shift (taken + n + 3))
      | .ok (high, m) =>
        if ordered : low ≤ high then .ok (ByteRange.between low high ordered, n + m + 2)
        else .error ⟨.invalidClassRange, taken + 1, taken + n + m + 3⟩
    | _ => .ok (ByteRange.single low, n)

/-- The members up to the closing bracket, after `taken` bytes of the body. A closing bracket that
would be the `first` member is a member. -/
def members (first : Bool) (taken : Nat) (found : List ByteRange) :
    List UInt8 → Reading (List ByteRange)
  | [] => .error ⟨.unclosedBrackets, 0, taken⟩
  | b :: s =>
    if b = Byte.rightBracket ∧ first = false then .ok (found.reverse, taken + 1)
    else
      match member taken b s with
      | .error f => .error f
      | .ok (r, n) => members false (taken + 1 + n) (r :: found) (s.drop n)
termination_by s => s.length
decreasing_by simp only [List.length_drop, List.length_cons]; omega

def read (s : List UInt8) : Reading ByteSet :=
  match s with
  | Byte.caret :: t => (members true 1 [] t).map fun (rs, n) => ((ByteSet.ofRanges rs).negate, n)
  | _ => (members true 0 [] s).map fun (rs, n) => (ByteSet.ofRanges rs, n)

end ByteRegex.Bracket

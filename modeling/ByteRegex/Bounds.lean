import ByteRegex.Byte
import ByteRegex.Number
import ByteRegex.PatternError

/-!
Repeat counts in braces. They are read in two stages: first how they are written, then whether
the numbers are allowed, so that a fault of spelling always comes before a fault of size.
-/

namespace ByteRegex

structure Bounds where
  min : Nat
  max : Option Nat
deriving DecidableEq

structure Count where
  value : Nat
  offset : Nat
deriving DecidableEq

def maxCount : Nat := 9007199254740991

def countValue (digits : List UInt8) : Nat :=
  digits.foldl (fun v d => Nat.min (v * 10 + Byte.digitValue d) maxCount) 0

inductive Counts where
  | exactly (n : Count)
  | atLeast (n : Count)
  | between (low high : Count)
deriving DecidableEq

namespace Counts

def close (counts : Counts) (taken : Nat) : List UInt8 → Reading Counts
  | [] => .error ⟨.unclosedRepeat, 0, taken⟩
  | Byte.rightBrace :: _ => .ok (counts, taken + 1)
  | _ => .error ⟨.unclosedRepeat, taken + 1, taken⟩

/-- The count at the start of `s`, `taken` bytes into the body, and the bytes taken after it and
the blanks behind it. -/
def count (taken : Nat) (s : List UInt8) : Count × Nat :=
  let digits := s.takeWhile Byte.isDigit
  (⟨countValue digits, taken + 1⟩,
   taken + digits.length + runLength Byte.isBlank (s.drop digits.length))

def upper (low : Count) (taken : Nat) (s : List UInt8) : Reading Counts :=
  let start := taken + runLength Byte.isBlank (s.drop taken)
  match s.drop start with
  | [] => .error ⟨.unclosedRepeat, 0, start⟩
  | b :: rest =>
    if Byte.isDigit b then
      let (high, stop) := count start (b :: rest)
      close (.between low high) stop (s.drop stop)
    else if b = Byte.rightBrace then .ok (.atLeast low, start + 1)
    else .error ⟨.invalidRepeatArgument, start + 1, start⟩

def read (s : List UInt8) : Reading Counts :=
  let start := runLength Byte.isBlank s
  match s.drop start with
  | [] => .error ⟨.unclosedRepeat, 0, start⟩
  | b :: rest =>
    if Byte.isDigit b then
      let (low, stop) := count start (b :: rest)
      match s.drop stop with
      | Byte.comma :: _ => upper low (stop + 1) s
      | tail => close (.exactly low) stop tail
    else .error ⟨.invalidRepeatArgument, start + 1, start⟩

/-- The bounds that the counts set. No count may exceed the limit, and a lower count not the
upper one; the error comes with the offset of its place. -/
def bounds (limit : Int) : Counts → Except (ErrorKind × Nat) Bounds
  | .exactly n =>
    if limit < n.value then .error (.excessiveRepeatCount, n.offset)
    else .ok ⟨n.value, some n.value⟩
  | .atLeast n =>
    if limit < n.value then .error (.excessiveRepeatCount, n.offset)
    else .ok ⟨n.value, none⟩
  | .between low high =>
    if limit < low.value then .error (.excessiveRepeatCount, low.offset)
    else if limit < high.value then .error (.excessiveRepeatCount, high.offset)
    else if high.value < low.value then .error (.invalidRepeatArgument, 0)
    else .ok ⟨low.value, some high.value⟩

end Counts

def largestCount : Number → Int
  | .finite x => if x < 0 then -1 else x.floor
  | .negativeZero => 0
  | .infinite negative => if negative then -1 else maxCount

def Bounds.read (limit : Int) (s : List UInt8) : Reading Bounds :=
  match Counts.read s with
  | .error f => .error f
  | .ok (counts, used) =>
    match counts.bounds limit with
    | .error (kind, offset) => .error ⟨kind, offset, used⟩
    | .ok bounds => .ok (bounds, used)

end ByteRegex

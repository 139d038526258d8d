import ByteRegex.Byte
import ByteRegex.PatternError

namespace ByteRegex.Escape

def control? : UInt8 → Option UInt8
  | 97 => some 7
  | 102 => some 12
  | 116 => some 9
  | 110 => some 10
  | 114 => some 13
  | 118 => some 11
  | _ => none

def maxScalar : Nat := 0x10FFFF

def isSurrogate (code : Nat) : Bool := 0xD800 ≤ code && code ≤ 0xDFFF

def octalValue (digits : List UInt8) : Nat :=
  digits.foldl (fun v d => v * 8 + Byte.digitValue d) 0

/-- The value of hexadecimal digits. It stops growing beyond the scalar values, where the exact
value no longer matters. -/
def scalarValue (digits : List UInt8) : Nat :=
  digits.foldl (fun v d => if v ≤ maxScalar then v * 16 + (Byte.hexValue d).getD 0 else v) 0

def fit (code used : Nat) : Reading UInt8 :=
  if code ≤ 255 then .ok (UInt8.ofNat code, used) else .error ⟨.characterCodeOutOfRange, 0, used⟩

def octal (first : UInt8) (s : List UInt8) : Reading UInt8 :=
  let digits := first :: (s.take 2).takeWhile Byte.isOctal
  fit (octalValue digits) digits.length

def pair (s : List UInt8) : Reading UInt8 :=
  match s.head?.bind Byte.hexValue with
  | none => .error ⟨.invalidHexDigit, 2, 1⟩
  | some high =>
    match s.tail.head?.bind Byte.hexValue with
    | none => .error ⟨.invalidHexDigit, 3, 2⟩
    | some low => .ok (UInt8.ofNat (high * 16 + low), 3)

/-- Hexadecimal digits after the `x` and an opening brace. All the digits are taken before their
value is judged. -/
def braced (s : List UInt8) : Reading UInt8 :=
  let digits := s.takeWhile Byte.isHex
  let n := digits.length
  if n = 0 then .error ⟨.invalidHexDigit, 3, 2⟩
  else
    match s.drop n with
    | Byte.rightBrace :: _ =>
      let code := scalarValue digits
      if maxScalar < code || isSurrogate code then .error ⟨.invalidHexDigit, 0, n + 3⟩
      else fit code (n + 3)
    | _ => .error ⟨.unclosedHexCharacterCode, n + 3, n + 2⟩

def read : List UInt8 → Reading UInt8
  | [] => .error ⟨.openEscapeCode, 0, 0⟩
  | b :: s =>
    match control? b with
    | some c => .ok (c, 1)
    | none =>
      if Byte.isPunctuation b then .ok (b, 1)
      else if Byte.isOctal b then octal b s
      else if b = Byte.letterX then
        match s with
        | Byte.leftBrace :: t => braced t
        | _ => pair s
      else .error ⟨.unrecognizedEscapeCode, 0, 1⟩

end ByteRegex.Escape

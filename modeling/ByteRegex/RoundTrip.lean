import ByteRegex.Expr.Spelling
import ByteRegex.Options

/-!
Trees written as patterns and read again, and texts as bytes. A text is given in UTF-16 code units;
a surrogate without its partner stands for the replacement character.
-/

namespace ByteRegex

namespace Utf8

def isHighSurrogate (unit : Nat) : Bool := 0xD800 ≤ unit && unit ≤ 0xDBFF

def isLowSurrogate (unit : Nat) : Bool := 0xDC00 ≤ unit && unit ≤ 0xDFFF

def scalar (code : Nat) : Char :=
  if isHighSurrogate code || isLowSurrogate code then '\ufffd' else Char.ofNat code

/-- The characters that code units write, after those already found, last first. -/
def decodeUnits : List Nat → List Char → List Char
  | [], found => found.reverse
  | [u], found => (scalar u :: found).reverse
  | u :: v :: rest, found =>
    if isHighSurrogate u && isLowSurrogate v then
      decodeUnits rest (Char.ofNat (0x10000 + (u - 0xD800) * 0x400 + (v - 0xDC00)) :: found)
    else decodeUnits (v :: rest) (scalar u :: found)

def charsOfUnits (units : List Nat) : List Char := decodeUnits units []

def unitsOfChar (c : Char) : List Nat :=
  let code := c.toNat
  if code < 0x10000 then [code]
  else [0xD800 + (code - 0x10000) / 0x400, 0xDC00 + (code - 0x10000) % 0x400]

def units (text : List Char) : List Nat := text.flatMap unitsOfChar

def bytes (text : List Char) : List UInt8 := text.flatMap String.utf8EncodeChar

end Utf8

def Options.rereads (options : Options) (e : Expr) : Bool :=
  match e.pattern with
  | .error _ => false
  | .ok p =>
    match options.parse p with
    | .error _ => false
    | .ok again =>
      match again.equals e with
      | .ok same => same
      | .error _ => false

end ByteRegex

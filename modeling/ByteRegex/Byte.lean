namespace ByteRegex.Byte

@[match_pattern] abbrev dollar : UInt8 := 36
@[match_pattern] abbrev leftParen : UInt8 := 40
@[match_pattern] abbrev rightParen : UInt8 := 41
@[match_pattern] abbrev star : UInt8 := 42
@[match_pattern] abbrev plus : UInt8 := 43
@[match_pattern] abbrev comma : UInt8 := 44
@[match_pattern] abbrev dash : UInt8 := 45
@[match_pattern] abbrev dot : UInt8 := 46
@[match_pattern] abbrev question : UInt8 := 63
@[match_pattern] abbrev leftBracket : UInt8 := 91
@[match_pattern] abbrev backslash : UInt8 := 92
@[match_pattern] abbrev rightBracket : UInt8 := 93
@[match_pattern] abbrev caret : UInt8 := 94
@[match_pattern] abbrev letterX : UInt8 := 120
@[match_pattern] abbrev leftBrace : UInt8 := 123
@[match_pattern] abbrev bar : UInt8 := 124
@[match_pattern] abbrev rightBrace : UInt8 := 125

def isDigit (b : UInt8) : Bool := 48 ≤ b && b ≤ 57

def isOctal (b : UInt8) : Bool := 48 ≤ b && b ≤ 55

def isBlank (b : UInt8) : Bool := b == 32 || b == 9

def isPrintable (b : UInt8) : Bool := 32 ≤ b && b ≤ 126

def isPunctuation (b : UInt8) : Bool :=
  (33 ≤ b && b ≤ 47) || (58 ≤ b && b ≤ 64) || (91 ≤ b && b ≤ 96) || (123 ≤ b && b ≤ 126)

/-- The value of a decimal digit; other bytes are read the same way and mean nothing. -/
def digitValue (b : UInt8) : Nat := b.toNat - 48

def hexValue (b : UInt8) : Option Nat :=
  if isDigit b then some (b.toNat - 48)
  else if 97 ≤ b && b ≤ 102 then some (b.toNat - 87)
  else if 65 ≤ b && b ≤ 70 then some (b.toNat - 55)
  else none

def isHex (b : UInt8) : Bool := (hexValue b).isSome

def ofInt? (code : Int) : Option UInt8 :=
  if 0 ≤ code ∧ code ≤ 255 then some (UInt8.ofNat code.toNat) else none

structure Traits where
  digit : Bool
  octal : Bool
  hex : Bool
  hexValue : Option Nat
  blank : Bool
  punctuation : Bool
  printable : Bool

def traits (code : Int) : Traits :=
  let has (test : UInt8 → Bool) : Bool := (ofInt? code).any test
  { digit := has isDigit
    octal := has isOctal
    hex := has isHex
    hexValue := (ofInt? code).bind hexValue
    blank := has isBlank
    punctuation := has isPunctuation
    printable := has isPrintable }

end ByteRegex.Byte

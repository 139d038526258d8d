import ByteRegex.Numeral

/-!
What can be wrong with a pattern, where, and how it is said. A construct is read from the bytes
after the one that opens it. Offsets in it are counted from the opening byte, so the first byte
that its reader is given has offset 1.
-/

namespace ByteRegex

inductive ErrorKind where
  | missingRepeatOperand
  | invalidRepeatArgument
  | unclosedRepeat
  | excessiveRepeatCount
  | emptyAlternate
  | unopenedParentheses
  | unclosedParentheses
  | openEscapeCode
  | unrecognizedEscapeCode
  | invalidHexDigit
  | unclosedHexCharacterCode
  | unclosedBrackets
  | characterCodeOutOfRange
  | invalidClassRange
deriving DecidableEq

namespace ErrorKind

def all : List ErrorKind :=
  [.missingRepeatOperand, .invalidRepeatArgument, .unclosedRepeat, .excessiveRepeatCount,
   .emptyAlternate, .unopenedParentheses, .unclosedParentheses, .openEscapeCode,
   .unrecognizedEscapeCode, .invalidHexDigit, .unclosedHexCharacterCode, .unclosedBrackets,
   .characterCodeOutOfRange, .invalidClassRange]

def name : ErrorKind → String
  | .missingRepeatOperand => "MissingRepeatOperand"
  | .invalidRepeatArgument => "InvalidRepeatArgument"
  | .unclosedRepeat => "UnclosedRepeat"
  | .excessiveRepeatCount => "ExcessiveRepeatCount"
  | .emptyAlternate => "EmptyAlternate"
  | .unopenedParentheses => "UnopenedParentheses"
  | .unclosedParentheses => "UnclosedParentheses"
  | .openEscapeCode => "OpenEscapeCode"
  | .unrecognizedEscapeCode => "UnrecognizedEscapeCode"
  | .invalidHexDigit => "InvalidHexDigit"
  | .unclosedHexCharacterCode => "UnclosedHexCharacterCode"
  | .unclosedBrackets => "UnclosedBrackets"
  | .characterCodeOutOfRange => "CharacterCodeOutOfRange"
  | .invalidClassRange => "InvalidClassRange"

def ofName? (name : String) : Option ErrorKind := all.find? fun kind => kind.name == name

def description : ErrorKind → String
  | .missingRepeatOperand => "repeat operator has nothing to repeat"
  | .invalidRepeatArgument =>
    "repeat count must be a number or a pair of numbers in ascending order"
  | .unclosedRepeat => "repeat count is missing its closing '\x7d'"
  | .excessiveRepeatCount => "repeat count is larger than the allowed maximum"
  | .emptyAlternate => "alternation branch is empty"
  | .unopenedParentheses => "')' has no matching '('"
  | .unclosedParentheses => "'(' has no matching ')'"
  | .openEscapeCode => "pattern ends with an unfinished escape"
  | .unrecognizedEscapeCode => "unrecognized escape code"
  | .invalidHexDigit => "invalid hexadecimal character code"
  | .unclosedHexCharacterCode => "hexadecimal character code is missing its closing '\x7d'"
  | .unclosedBrackets => "character class is missing its closing ']'"
  | .characterCodeOutOfRange => "character code does not fit in a single byte"
  | .invalidClassRange => "character class range is out of order"

end ErrorKind

/-- An error at a byte offset. The offset is -1 when a construct is read from the very start of
the bytes, so that the byte that should open it is missing. -/
structure PatternError where
  kind : ErrorKind
  index : Int
deriving DecidableEq

def PatternError.message (e : PatternError) : String :=
  e.kind.description ++ " (at byte " ++ Numeral.decimal e.index ++ ")"

/-- Why a reader stopped: what is wrong, the offset of the place, and how many of the bytes after
the opening one had been taken. -/
structure Fault where
  kind : ErrorKind
  offset : Nat
  used : Nat
deriving DecidableEq

def Fault.shift (distance : Nat) (f : Fault) : Fault :=
  ⟨f.kind, distance + f.offset, distance + f.used⟩

/-- The value read and the number of bytes taken after the opening one, or a fault. -/
abbrev Reading (α : Type) := Except Fault (α × Nat)

instance decidableEqOutcome {ε α : Type} [DecidableEq ε] [DecidableEq α] :
    DecidableEq (Except ε α)
  | .ok a, .ok b => decidable_of_iff (a = b) (by simp)
  | .error a, .error b => decidable_of_iff (a = b) (by simp)
  | .ok _, .error _ => isFalse (by simp)
  | .error _, .ok _ => isFalse (by simp)

def runLength (test : UInt8 → Bool) (s : List UInt8) : Nat := (s.takeWhile test).length

end ByteRegex

import ByteRegex.Diagnostic
import ByteRegex.Parse

namespace ByteRegex

def maxCeiling : Nat := 4294967295

structure Options where
  /-- the largest repeat count that a pattern may have -/
  ceiling : Nat := 1000
  /-- keep a log of the tokens -/
  trace : Bool := false
  ceiling_le : ceiling ≤ maxCeiling := by decide

structure InvalidCeiling where
  given : Number

def InvalidCeiling.message (e : InvalidCeiling) : String :=
  notice
    [.words ("max_repeat_count must be an integer between 0 and " ++
      Numeral.decimal maxCeiling ++ ", got:"), .number e.given]

namespace Options

def traced (trace : Bool) : Options := { trace := trace }

def resolve (ceiling : Option Number) (trace : Option Bool) : Except InvalidCeiling Options :=
  let trace := trace.getD false
  match ceiling with
  | none => .ok (traced trace)
  | some given =>
    match given.toInt? with
    | none => .error ⟨given⟩
    | some n =>
      if h : 0 ≤ n ∧ n ≤ maxCeiling then
        .ok { ceiling := n.toNat, trace := trace, ceiling_le := by omega }
      else .error ⟨given⟩

def parse (options : Options) (p : List UInt8) : Except PatternError Expr :=
  ByteRegex.parse options.ceiling p

end Options

end ByteRegex

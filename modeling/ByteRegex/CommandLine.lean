import ByteRegex.Diagnostic
import ByteRegex.Expr.Outline
import ByteRegex.Expr.Spelling
import ByteRegex.Options
import ByteRegex.Parse
import ByteRegex.RoundTrip

namespace ByteRegex.CommandLine

structure Report where
  output : String
  errors : String
  exitCode : Nat
  steps : List Step

def usage : String := "no pattern provided, usage: rexparse <pattern> [--pattern] [--trace]"

def isFlag (argument : String) : Bool := argument.startsWith "--"

def shown (asPattern : Bool) (e : Expr) : String :=
  if asPattern then
    match e.pattern with
    | .ok p => patternText p
    | .error err => err.message
  else
    match e.outline with
    | .ok text => text
    | .error err => err.message

/-- Arguments that start with two dashes are flags; the first other one is the pattern. There is no
report without a pattern. -/
def run (arguments : List String) (colours : Bool) : Option Report :=
  let given (flag : String) : Bool := arguments.any fun a => a == flag
  match arguments.find? fun a => !isFlag a with
  | none => none
  | some text =>
    let p := Utf8.bytes text.toList
    let options := Options.traced (given "--trace")
    let steps := if options.trace then trace options.ceiling p else []
    match options.parse p with
    | .error e => some ⟨"", Diagnostic.text colours p e ++ "\n", 1, steps⟩
    | .ok e => some ⟨shown (given "--pattern") e ++ "\n", "", 0, steps⟩

end ByteRegex.CommandLine

import ByteRegex.CommandLine

namespace ByteRegex

def Entry.summary : Entry → String
  | .node e repeated =>
    let text := CommandLine.shown true e
    if repeated then text ++ " (repeated)" else text
  | .group capture index =>
    "( group " ++ Numeral.decimal capture ++ " at byte " ++ Numeral.decimal index
  | .alternation => "|"

def Step.summary (s : Step) : String :=
  let heading := "byte " ++ Numeral.decimal s.index ++ ": " ++ String.ofList (displayByte s.byte)
  "\n".intercalate (heading :: s.stack.map fun entry => "  " ++ entry.summary)

end ByteRegex

def main (arguments : List String) : IO UInt32 := do
  let errors ← IO.getStderr
  match ByteRegex.CommandLine.run arguments (← errors.isTty) with
  | none =>
    errors.putStrLn ("Error: " ++ ByteRegex.CommandLine.usage)
    return 1
  | some report =>
    for step in report.steps do
      IO.println step.summary
    IO.print report.output
    errors.putStr report.errors
    return report.exitCode.toUInt32

import ByteRegex.Cursor
import ByteRegex.Main
import ByteRegex.Proofs.RoundTrip
import ByteRegex.RoundTrip
import ByteRegex.Proofs.Extent
import ByteRegex.Proofs.Extent.Bounds
import ByteRegex.Proofs.Extent.Bracket
import ByteRegex.Proofs.Extent.Token
import ByteRegex.Proofs.Run
import ByteRegex.Proofs.Locality
import ByteRegex.Proofs.Grammar.Joining
import ByteRegex.Proofs.Composition
import ByteRegex.Proofs.Stack
import ByteRegex.Proofs.Worktable
import ByteRegex.Proofs.Stack.Layout
import ByteRegex.Proofs.Blame
import ByteRegex.Proofs.Blame.Bounds
import ByteRegex.Proofs.Blame.Bracket
import ByteRegex.Proofs.Blame.Parse
import ByteRegex.Proofs.Ceiling
import ByteRegex.Proofs.ByteSet.Laws
import ByteRegex.Proofs.Notation
import ByteRegex.Proofs.Notation.Escape
import ByteRegex.Proofs.Notation.Bounds
import ByteRegex.Proofs.Notation.Bracket
import ByteRegex.Proofs.Parentheses
import ByteRegex.Proofs.Spelling.Faults
import ByteRegex.Proofs.Numeral
import ByteRegex.Proofs.Outline.Lines
import ByteRegex.Proofs.Outline
import ByteRegex.Proofs.Style
import ByteRegex.Proofs.Diagnostic
import ByteRegex.Proofs.Cursor
import ByteRegex.Proofs.Turns

import ByteRegex.Byte
import ByteRegex.ByteSet
import ByteRegex.PatternError

/-!
Diagnostics: an error shown under the pattern, with a caret below the byte at fault. A style is
switched off before each line break and on again after it, so none reaches over the end of a line.
-/

namespace ByteRegex

/-- The codes that switch a style on, and those that switch it off again, outermost first. -/
structure Style where
  codes : List (Nat × Nat)

namespace Style

def sequence (code : Nat) : List Char :=
  '\x1b' :: '[' :: Numeral.text (Numeral.codes 10 code) ++ ['m']

def on (s : Style) : List Char := s.codes.flatMap fun (code, _) => sequence code

def off (s : Style) : List Char := s.codes.reverse.flatMap fun (_, code) => sequence code

def paint (s : Style) (text : List Char) : List Char :=
  s.on ++ text.flatMap (fun c => if c = '\n' then s.off ++ '\n' :: s.on else [c]) ++ s.off

def bold : Style := ⟨[(1, 22)]⟩

def yellow : Style := ⟨[(33, 39)]⟩

def redBold : Style := ⟨[(31, 39), (1, 22)]⟩

def whiteBold : Style := ⟨[(37, 39), (1, 22)]⟩

def blueBold : Style := ⟨[(34, 39), (1, 22)]⟩

end Style

inductive NoticeLine where
  | words (text : String)
  | number (x : Number)
  | truth (b : Bool)
  | null
  | range (low high : Number)

namespace NoticeLine

def shown (x : Number) : List Char := Style.yellow.paint (x.text)

def text : NoticeLine → List Char
  | .words text => text.toList
  | .number x => shown x
  | .truth b => Style.yellow.paint (if b then "true" else "false").toList
  | .null => Style.bold.paint "null".toList
  | .range low high =>
    "\x7b min: ".toList ++ shown low ++ ", max: ".toList ++ shown high ++ " \x7d".toList

end NoticeLine

def notice (lines : List NoticeLine) : String :=
  String.ofList (['\n'].intercalate (lines.map NoticeLine.text))

def InvalidRange.message (r : InvalidRange) : String :=
  notice [.words "invalid byte range:", .range r.low r.high]

def displayByte (b : UInt8) : List Char :=
  if Byte.isPrintable b then [Char.ofNat b.toNat]
  else '\\' :: 'x' :: Numeral.text (Numeral.hexPair b.toNat)

def display (p : List UInt8) : List Char := p.flatMap displayByte

/-- The columns at which the bytes are displayed, and the column behind the last of them, when the
first stands at column `width`. The columns of earlier bytes are given last first. -/
def columns (width : Nat) (found : List Nat) : List UInt8 → List Nat
  | [] => (width :: found).reverse
  | b :: p => columns (width + (displayByte b).length) (width :: found) p

namespace Diagnostic

def margin : List Char := ['\n', ' ', '|', ' ', ' ']

/-- The diagnostic of an error in a pattern, painted part by part. An error past the end is shown at
the end. -/
def layout (paint : Style → List Char → List Char) (p : List UInt8) (e : PatternError) :
    List Char :=
  let column := (columns 0 [] p).getD (Nat.min e.index.toNat p.length) 0
  paint .redBold "error".toList ++ paint .whiteBold (':' :: ' ' :: e.kind.name.toList) ++
    paint .blueBold margin ++ display p ++
    paint .blueBold margin ++ List.replicate column ' ' ++
    paint .redBold ('^' :: ' ' :: e.kind.description.toList)

def chars (colours : Bool) (p : List UInt8) (e : PatternError) : List Char :=
  layout (if colours then Style.paint else fun _ text => text) p e

def text (colours : Bool) (p : List UInt8) (e : PatternError) : String :=
  String.ofList (chars colours p e)

end Diagnostic

end ByteRegex

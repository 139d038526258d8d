import ByteRegex.Diagnostic
import ByteRegex.Proofs.Numeral
import ByteRegex.Proofs.Spelling.Code
import ByteRegex.Proofs.Style

/-!
The caret of a diagnostic. A byte is displayed by one character or by four, and the columns are
added up byte by byte; the caret stands below the first character of the byte at fault. Nothing that
is displayed is a line break or an escape character, so a diagnostic has three lines, and with its
colours stripped it is the diagnostic without colours.
-/

namespace ByteRegex

def hexDigit (d : Nat) : Char :=
  ['0', '1', '2', '3', '4', '5', '6', '7', '8', '9', 'a', 'b', 'c', 'd', 'e', 'f'].getD d '0'

/-- Bytes and the text that displays them: printable ASCII as it is, and of any other byte the two
hexadecimal digits after `\x`. -/
inductive Displayed : List UInt8 → List Char → Prop where
  | nil : Displayed [] []
  | plain {b : UInt8} {p : List UInt8} {text : List Char} (low : 0x20 ≤ b.toNat)
      (high : b.toNat ≤ 0x7E) (later : Displayed p text) :
      Displayed (b :: p) (Char.ofNat b.toNat :: text)
  | coded {b : UInt8} {p : List UInt8} {text : List Char} (other : b.toNat < 0x20 ∨ 0x7E < b.toNat)
      (later : Displayed p text) :
      Displayed (b :: p)
        ('\\' :: 'x' :: hexDigit (b.toNat / 16) :: hexDigit (b.toNat % 16) :: text)

theorem isPrintable_iff {b : UInt8} : Byte.isPrintable b ↔ 0x20 ≤ b.toNat ∧ b.toNat ≤ 0x7E := by
  simp [Byte.isPrintable, UInt8.le_iff_toNat_le]

theorem char_digitCode {d : Nat} (small : d < 16) :
    Char.ofNat (Numeral.digitCode d) = hexDigit d := by
  revert d
  decide

theorem displayByte_coded {b : UInt8} (other : ¬ Byte.isPrintable b) :
    displayByte b = ['\\', 'x', hexDigit (b.toNat / 16), hexDigit (b.toNat % 16)] := by
  have bound := b.toNat_lt
  have high := char_digitCode (show b.toNat / 16 < 16 by omega)
  have low := char_digitCode (show b.toNat % 16 < 16 by omega)
  rw [displayByte, if_neg other, Expr.hexPair_eq _ bound, Numeral.text, List.map_cons,
    List.map_cons, high, low]
  rfl

theorem displayed (p : List UInt8) : Displayed p (display p) := by
  induction p with
  | nil => exact .nil
  | cons b p ih =>
    rw [display, List.flatMap_cons]
    by_cases printable : Byte.isPrintable b
    · obtain ⟨low, high⟩ := isPrintable_iff.mp printable
      rw [displayByte, if_pos printable]
      exact .plain low high ih
    · rw [displayByte_coded printable]
      exact .coded (by rw [isPrintable_iff] at printable; omega) ih

def PrintableChar (c : Char) : Prop := 0x20 ≤ c.toNat ∧ c.toNat ≤ 0x7E

instance (c : Char) : Decidable (PrintableChar c) := inferInstanceAs (Decidable (_ ∧ _))

theorem displayed_printable {p : List UInt8} {text : List Char} (shown : Displayed p text) :
    ∀ c ∈ text, PrintableChar c := by
  have digits : ∀ d < 16, PrintableChar (hexDigit d) := by decide
  induction shown with
  | nil => exact List.forall_mem_nil _
  | @plain b p text low high later ih =>
    have code := Numeral.char_toNat (n := b.toNat) (by omega)
    refine List.forall_mem_cons.mpr ⟨?_, ih⟩
    unfold PrintableChar
    omega
  | @coded b p text other later ih =>
    have bound := b.toNat_lt
    have high := digits (b.toNat / 16) (by omega)
    have low := digits (b.toNat % 16) (by omega)
    simp only [List.forall_mem_cons]
    exact ⟨by decide, by decide, high, low, ih⟩

theorem columns_found (width : Nat) (found : List Nat) (p : List UInt8) :
    columns width found p = found.reverse ++ columns width [] p := by
  induction p generalizing width found with
  | nil => simp [columns]
  | cons b p ih =>
    rw [columns, ih, columns, ih _ [width]]
    simp

theorem columns_getElem (width : Nat) (p : List UInt8) (i : Nat) (inside : i ≤ p.length) :
    (columns width [] p)[i]? = some (width + (display (p.take i)).length) := by
  induction p generalizing width i with
  | nil =>
    rw [Nat.le_zero.mp inside]
    rfl
  | cons b p ih =>
    rw [columns, columns_found]
    cases i with
    | zero => rfl
    | succ i =>
      have next := ih (width + (displayByte b).length) i (Nat.le_of_succ_le_succ inside)
      simp only [List.reverse_singleton, List.singleton_append, List.getElem?_cons_succ, next,
        List.take_succ_cons, display, List.flatMap_cons, List.length_append]
      rw [Nat.add_assoc]

theorem display_append (p q : List UInt8) : display (p ++ q) = display p ++ display q :=
  List.flatMap_append

theorem display_split (p : List UInt8) (i : Nat) :
    (display p).take (display (p.take i)).length = display (p.take i) ∧
      (display p).drop (display (p.take i)).length = display (p.drop i) := by
  have parts : display p = display (p.take i) ++ display (p.drop i) := by
    rw [← display_append, List.take_append_drop]
  constructor
  · rw [parts, List.take_left]
  · rw [parts, List.drop_left]

theorem printable_of_all {text : List Char} (all : text.all fun c => PrintableChar c) :
    ∀ c ∈ text, PrintableChar c :=
  fun c member => of_decide_eq_true (List.all_eq_true.mp all c member)

theorem kind_printable (kind : ErrorKind) :
    (∀ c ∈ kind.name.toList, PrintableChar c) ∧ ∀ c ∈ kind.description.toList, PrintableChar c := by
  constructor
  · apply printable_of_all
    cases kind <;> decide +kernel
  · apply printable_of_all
    cases kind <;> decide +kernel

theorem notMem_printable {c : Char} {text : List Char} (other : ¬ PrintableChar c)
    (printable : ∀ c ∈ text, PrintableChar c) : c ∉ text :=
  fun member => other (printable c member)

namespace Diagnostic

open Style (Painted strip painted_append painted_self strip_painted painted_paint)

def heading (e : PatternError) : List Char := "error: ".toList ++ e.kind.name.toList

def patternLine (text : List Char) : List Char := " |  ".toList ++ text

def caretLine (column : Nat) (e : PatternError) : List Char :=
  " |  ".toList ++ List.replicate column ' ' ++ "^ ".toList ++ e.kind.description.toList

theorem joined_lines (name text spaces description : List Char) :
    "error".toList ++ (':' :: ' ' :: name) ++ margin ++ text ++ margin ++ spaces ++
        ('^' :: ' ' :: description) =
      ['\n'].intercalate
        ["error: ".toList ++ name, " |  ".toList ++ text,
          " |  ".toList ++ spaces ++ "^ ".toList ++ description] := by
  simp [margin, List.intercalate_cons_cons]

theorem chars_lines (p : List UInt8) (e : PatternError) :
    chars false p e =
      ['\n'].intercalate
        [heading e, patternLine (display p),
          caretLine (display (p.take (Nat.min e.index.toNat p.length))).length e] := by
  have column := columns_getElem 0 p _ (Nat.min_le_right e.index.toNat p.length)
  rw [Nat.zero_add] at column
  have plain : chars false p e = layout (fun _ text => text) p e := rfl
  rw [plain, layout, List.getD_eq_getElem?_getD, column, Option.getD_some]
  exact joined_lines _ _ _ _

theorem lines_printable (p : List UInt8) (e : PatternError) (column : Nat) :
    ∀ line ∈ [heading e, patternLine (display p), caretLine column e],
      ∀ c ∈ line, PrintableChar c := by
  obtain ⟨name, description⟩ := kind_printable e.kind
  have border : ∀ c ∈ " |  ".toList, PrintableChar c := printable_of_all (by decide)
  have spaces : ∀ c ∈ List.replicate column ' ', PrintableChar c := by
    intro c member
    rw [List.eq_of_mem_replicate member]
    decide
  have first : ∀ c ∈ heading e, PrintableChar c :=
    List.forall_mem_append.mpr ⟨printable_of_all (by decide), name⟩
  have second : ∀ c ∈ patternLine (display p), PrintableChar c :=
    List.forall_mem_append.mpr ⟨border, displayed_printable (displayed p)⟩
  have third : ∀ c ∈ caretLine column e, PrintableChar c := by
    have indented := List.forall_mem_append.mpr ⟨border, spaces⟩
    have mark : ∀ c ∈ "^ ".toList, PrintableChar c := printable_of_all (by decide)
    have caret := List.forall_mem_append.mpr ⟨indented, mark⟩
    exact List.forall_mem_append.mpr ⟨caret, description⟩
  simp only [List.forall_mem_cons]
  exact ⟨first, second, third, List.forall_mem_nil _⟩

theorem chars_split (p : List UInt8) (e : PatternError) :
    (chars false p e).splitOn '\n' =
      [heading e, patternLine (display p),
        caretLine (display (p.take (Nat.min e.index.toNat p.length))).length e] := by
  rw [chars_lines]
  apply List.splitOn_intercalate
  · intro line member
    exact notMem_printable (by decide) (lines_printable p e _ line member)
  · simp

theorem notMem_joined {c separator : Char} (other : c ≠ separator) {lines : List (List Char)}
    (clean : ∀ line ∈ lines, c ∉ line) : c ∉ [separator].intercalate lines := by
  induction lines with
  | nil => exact List.not_mem_nil
  | cons line lines ih =>
    obtain ⟨first, others⟩ := List.forall_mem_cons.mp clean
    cases lines with
    | nil => rwa [List.intercalate_singleton]
    | cons next lines =>
      rw [List.intercalate_cons_cons, List.append_assoc, List.mem_append, List.mem_append,
        List.mem_singleton]
      rintro (member | same | member)
      · exact first member
      · exact other same
      · exact ih others member

theorem escape_notMem (p : List UInt8) (e : PatternError) : '\x1b' ∉ chars false p e := by
  rw [chars_lines]
  apply notMem_joined (by decide)
  intro line member
  exact notMem_printable (by decide) (lines_printable p e _ line member)

theorem painted_layout {paint : Style → List Char → List Char}
    (inserts : ∀ style text, Painted text (paint style text)) (p : List UInt8) (e : PatternError) :
    Painted (chars false p e) (layout paint p e) := by
  have first := painted_append (inserts .redBold "error".toList)
    (inserts .whiteBold (':' :: ' ' :: e.kind.name.toList))
  have second := painted_append (painted_append first (inserts .blueBold margin))
    (painted_self (display p))
  have third (column : Nat) := painted_append (painted_append second (inserts .blueBold margin))
    (painted_self (List.replicate column ' '))
  exact painted_append (third _) (inserts .redBold ('^' :: ' ' :: e.kind.description.toList))

theorem strip_layout {paint : Style → List Char → List Char}
    (inserts : ∀ style text, Painted text (paint style text)) (p : List UInt8) (e : PatternError) :
    strip (layout paint p e) = chars false p e :=
  strip_painted (painted_layout inserts p e) (escape_notMem p e)

/-- A diagnostic is three lines, and its caret stands below the first character that displays the
byte at fault, or behind the text when the fault is at the end. Whatever paints it by inserting
escape sequences only, stripping them leaves those lines. -/
theorem caret_aligned (p : List UInt8) (e : PatternError) {i : Nat}
    (place : (i : Int) = min e.index p.length) :
    (∃ (shown : List Char) (column : Nat),
      (text false p e).toList.splitOn '\n' =
          ["error: ".toList ++ e.kind.name.toList, " |  ".toList ++ shown,
            " |  ".toList ++ List.replicate column ' ' ++ "^ ".toList ++
              e.kind.description.toList] ∧
        (∀ c ∈ shown, 0x20 ≤ c.toNat ∧ c.toNat ≤ 0x7E) ∧ column ≤ shown.length ∧
        Displayed (p.take i) (shown.take column) ∧ Displayed (p.drop i) (shown.drop column)) ∧
      (∀ paint : Style → List Char → List Char,
        (∀ style plain, Painted plain (paint style plain)) →
          strip (layout paint p e) = (text false p e).toList) ∧
      strip (text true p e).toList = (text false p e).toList := by
  have clamped : Nat.min e.index.toNat p.length = i := by
    show min e.index.toNat p.length = i
    omega
  have lines := chars_split p e
  obtain ⟨before, behind⟩ := display_split p i
  rw [clamped] at lines
  simp only [text, String.toList_ofList]
  refine ⟨⟨display p, (display (p.take i)).length, lines, displayed_printable (displayed p), ?_,
    ?_, ?_⟩, fun paint inserts => strip_layout inserts p e, strip_layout painted_paint p e⟩
  · rw [← before]
    exact List.length_take_le' _ _
  · rw [before]
    exact displayed _
  · rw [behind]
    exact displayed _

/-- The third of the bytes `a`, line feed, `(` and 255 is at fault. -/
theorem caret_aligned_line_feed :
    ∃ (shown : List Char) (column : Nat),
      (text false [0x61, 0x0A, 0x28, 0xFF] ⟨.unclosedParentheses, 2⟩).toList.splitOn '\n' =
          ["error: ".toList ++ "UnclosedParentheses".toList, " |  ".toList ++ shown,
            " |  ".toList ++ List.replicate column ' ' ++ "^ ".toList ++
              "'(' has no matching ')'".toList] ∧
        Displayed [0x61, 0x0A] (shown.take column) ∧ Displayed [0x28, 0xFF] (shown.drop column) ∧
        strip (layout Style.paint [0x61, 0x0A, 0x28, 0xFF] ⟨.unclosedParentheses, 2⟩) =
          (text false [0x61, 0x0A, 0x28, 0xFF] ⟨.unclosedParentheses, 2⟩).toList := by
  obtain ⟨⟨shown, column, lines, _, _, before, behind⟩, stripped, _⟩ :=
    caret_aligned [0x61, 0x0A, 0x28, 0xFF] ⟨.unclosedParentheses, 2⟩ (i := 2) (by decide)
  exact ⟨shown, column, lines, before, behind, stripped Style.paint painted_paint⟩

end Diagnostic

end ByteRegex

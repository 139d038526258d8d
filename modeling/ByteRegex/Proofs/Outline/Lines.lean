import ByteRegex.Expr.Outline
import ByteRegex.Proofs.ByteSet.Membership
import ByteRegex.Proofs.Expr.Nodes
import ByteRegex.Proofs.Numeral

/-!
What the line of a node tells. Bytes are shown without escapes for brackets and dashes, but each
part of a line ends at a mark that it cannot hold itself, so the line fixes the node up to its
children and its capture number.
-/

namespace ByteRegex

theorem Assertion.name_injective {a b : Assertion} (same : a.name = b.name) : a = b := by
  have back (a : Assertion) : ofName? a.name = some a := by cases a <;> rfl
  have found := back a
  rw [same, back b] at found
  exact (Option.some.inj found).symm

namespace Expr

def controls : List (Int × Char) := [(9, 't'), (13, 'r'), (10, 'n')]

inductive ShownCode : Int → List Char → Prop where
  | control {code : Int} {letter : Char} (named : (code, letter) ∈ controls) :
      ShownCode code ['\\', letter]
  | plain {code : Int} (low : 32 ≤ code) (high : code ≤ 126) :
      ShownCode code [Char.ofNat code.toNat]
  | hex (code : Int) : ShownCode code ('0' :: 'x' :: Numeral.text (Numeral.codes 16 code))

theorem shownCode (code : Int) : ShownCode code (outlineCode code) := by
  unfold outlineCode
  split
  · rename_i tab
    exact .control (by rw [tab]; decide)
  split
  · rename_i return_
    exact .control (by rw [return_]; decide)
  split
  · rename_i feed
    exact .control (by rw [feed]; decide)
  split
  · rename_i printable
    exact .plain printable.1 printable.2
  · exact .hex code

theorem hex_figures (code : Int) : Numeral.codes 16 code ⊆ Numeral.figures :=
  Numeral.codes_figures (by decide) (by decide) code

theorem shownCode_injective {c d : Int} {t u : List Char} (first : ShownCode c t)
    (second : ShownCode d u) (same : t = u) : c = d := by
  cases first with
  | control named =>
    cases second with
    | control other =>
      have letters : ∀ p ∈ controls, ∀ q ∈ controls, p.2 = q.2 → p.1 = q.1 := by decide
      have letter := (List.cons.inj (List.cons.inj same).2).1
      exact letters _ named _ other letter
    | plain | hex => simp at same
  | plain low high =>
    cases second with
    | plain low' high' =>
      have codes := congrArg Char.toNat (List.cons.inj same).1
      rw [Numeral.char_toNat (by omega), Numeral.char_toNat (by omega)] at codes
      omega
    | control | hex => simp at same
  | hex =>
    cases second with
    | hex =>
      have codes := (List.cons.inj (List.cons.inj same).2).2
      exact Numeral.codes_injective (Numeral.text_injective (hex_figures c) (hex_figures d) codes)
    | control | plain => simp at same

theorem outlineCode_injective {c d : Int} (same : outlineCode c = outlineCode d) : c = d :=
  shownCode_injective (shownCode c) (shownCode d) same

theorem shownCode_tail {code : Int} {t : List Char} (positive : 0 ≤ code)
    (shown : ShownCode code t) :
    ∃ c tail, t = c :: tail ∧ '-' ∉ tail ∧ ']' ∉ tail := by
  cases shown with
  | @control letter named =>
    have letters : ∀ p ∈ controls, '-' ∉ [p.2] ∧ ']' ∉ [p.2] := by decide
    exact ⟨'\\', [letter], rfl, letters _ named⟩
  | plain low high => exact ⟨_, [], rfl, List.not_mem_nil, List.not_mem_nil⟩
  | hex =>
    have written := hex_figures code
    have dash : '-' ∉ Numeral.text (Numeral.codes 16 code) :=
      Numeral.notMem_text written (Numeral.codes_unsigned positive)
    have bracket : ']' ∉ Numeral.text (Numeral.codes 16 code) :=
      Numeral.notMem_figures written (by decide)
    refine ⟨'0', 'x' :: Numeral.text (Numeral.codes 16 code), rfl, ?_, ?_⟩
    · simpa using dash
    · simpa using bracket

theorem outlineCode_cancel {m n : Nat} {mark : Char} {rest rest' : List Char}
    (marked : mark = '-' ∨ mark = ']')
    (same : outlineCode m ++ mark :: rest = outlineCode n ++ mark :: rest') :
    m = n ∧ rest = rest' := by
  obtain ⟨c, tail, first, dash, bracket⟩ := shownCode_tail (Int.natCast_nonneg m) (shownCode m)
  obtain ⟨d, tail', second, dash', bracket'⟩ := shownCode_tail (Int.natCast_nonneg n) (shownCode n)
  rw [first, second] at same
  obtain ⟨head, later⟩ := List.cons.inj same
  have inside : mark ∉ tail ∧ mark ∉ tail' := by
    rcases marked with rfl | rfl
    · exact ⟨dash, dash'⟩
    · exact ⟨bracket, bracket'⟩
  obtain ⟨tails, rests⟩ := separator_cancel inside.1 inside.2 later
  have codes : outlineCode m = outlineCode n := by rw [first, second, head, tails]
  exact ⟨Int.ofNat.inj (outlineCode_injective codes), rests⟩

theorem outlineRange_cancel {r s : ByteRange} {rest rest' : List Char}
    (same : outlineRange r ++ rest = outlineRange s ++ rest') : r = s ∧ rest = rest' := by
  have marked : outlineCode r.min ++ '-' :: (outlineCode r.max ++ ']' :: rest) =
      outlineCode s.min ++ '-' :: (outlineCode s.max ++ ']' :: rest') := by
    simpa [outlineRange] using same
  obtain ⟨min, later⟩ := outlineCode_cancel (Or.inl rfl) marked
  obtain ⟨max, rests⟩ := outlineCode_cancel (Or.inr rfl) later
  exact ⟨range_ext min max, rests⟩

theorem outlineRanges_injective {rs ss : List ByteRange}
    (same : rs.flatMap outlineRange = ss.flatMap outlineRange) : rs = ss := by
  induction rs generalizing ss with
  | nil =>
    cases ss with
    | nil => rfl
    | cons s ss => simp [outlineRange] at same
  | cons r rs ih =>
    cases ss with
    | nil => simp [outlineRange] at same
    | cons s ss =>
      rw [List.flatMap_cons, List.flatMap_cons] at same
      obtain ⟨first, later⟩ := outlineRange_cancel same
      rw [first, ih later]

def number (n : Int) : List Char := Numeral.text (Numeral.decimalCodes n)

theorem number_injective {m n : Int} (same : number m = number n) : m = n :=
  Numeral.decimalCodes_injective
    (Numeral.text_injective (Numeral.decimalCodes_figures m) (Numeral.decimalCodes_figures n) same)

theorem notMem_number {c : Char} (other : c.toNat ∉ Numeral.figures) (n : Int) : c ∉ number n :=
  Numeral.notMem_figures (Numeral.decimalCodes_figures n) other

theorem number_ne_nil (n : Int) : number n ≠ [] :=
  fun empty => Numeral.decimalCodes_ne_nil n (List.map_eq_nil_iff.mp empty)

def upper : Option Int → List Char
  | none => []
  | some n => number n

theorem upper_injective {m n : Option Int} (same : upper m = upper n) : m = n := by
  cases m with
  | none =>
    cases n with
    | none => rfl
    | some n => exact absurd same.symm (number_ne_nil n)
  | some m =>
    cases n with
    | none => exact absurd same (number_ne_nil m)
    | some n => rw [number_injective same]

theorem notMem_upper {c : Char} (other : c.toNat ∉ Numeral.figures) (n : Option Int) :
    c ∉ upper n := by
  cases n with
  | none => exact List.not_mem_nil
  | some n => exact notMem_number other n

inductive ShownBounds : Int → Option Int → List Char → Prop where
  | star : ShownBounds 0 none ['*']
  | plus : ShownBounds 1 none ['+']
  | question : ShownBounds 0 (some 1) ['?']
  | braces (min : Int) (max : Option Int) :
      ShownBounds min max ('\x7b' :: number min ++ ',' :: upper max ++ ['\x7d'])

theorem shownBounds (min : Int) (max : Option Int) :
    ShownBounds min max (outlineBounds min max) := by
  unfold outlineBounds
  cases max with
  | none =>
    by_cases zero : min = 0
    · rw [zero]; exact .star
    by_cases one : min = 1
    · rw [one]; exact .plus
    simp only [zero, one, if_false]
    have closed : '\x7b' :: number min ++ [',', '\x7d'] =
        '\x7b' :: number min ++ ',' :: upper none ++ ['\x7d'] := by simp [upper]
    change ShownBounds min none ('\x7b' :: number min ++ [',', '\x7d'])
    rw [closed]
    exact .braces min none
  | some max =>
    by_cases optional : min = 0 ∧ max = 1
    · rw [optional.1, optional.2]; exact .question
    simp only [optional, if_false]
    exact .braces min (some max)

theorem shownBounds_cancel {m m' : Int} {n n' : Option Int} {t u rest rest' : List Char}
    (first : ShownBounds m n t) (second : ShownBounds m' n' u)
    (same : t ++ rest = u ++ rest') : (m = m' ∧ n = n') ∧ rest = rest' := by
  cases first with
  | star =>
    cases second with
    | star => exact ⟨⟨rfl, rfl⟩, (List.cons.inj same).2⟩
    | plus | question | braces => simp at same
  | plus =>
    cases second with
    | plus => exact ⟨⟨rfl, rfl⟩, (List.cons.inj same).2⟩
    | star | question | braces => simp at same
  | question =>
    cases second with
    | question => exact ⟨⟨rfl, rfl⟩, (List.cons.inj same).2⟩
    | star | plus | braces => simp at same
  | braces =>
    cases second with
    | braces =>
      have marked : number m ++ ',' :: (upper n ++ '\x7d' :: rest) =
          number m' ++ ',' :: (upper n' ++ '\x7d' :: rest') := by
        simpa using same
      have comma (k : Int) : ',' ∉ number k := notMem_number (by decide) k
      have brace (k : Option Int) : '\x7d' ∉ upper k := notMem_upper (by decide) k
      obtain ⟨min, later⟩ := separator_cancel (comma m) (comma m') marked
      obtain ⟨max, rests⟩ := separator_cancel (brace n) (brace n') later
      exact ⟨⟨number_injective min, upper_injective max⟩, rests⟩
    | star | plus | question => simp at same

theorem closing_injective {g h : Bool}
    (same : (if g then [')'] else ['?', ')']) = if h then [')'] else ['?', ')']) : g = h := by
  cases g <;> cases h <;> simp at same ⊢

/-- A node is fixed by its line and the shapes of its children, but for a capture number. -/
theorem shape_of_line {x y : Expr} {line : List Char} (left : x.outlineNode = .ok line)
    (right : y.outlineNode = .ok line) (below : x.children.map shape = y.children.map shape) :
    x.shape = y.shape := by
  have same : x.outlineNode = y.outlineNode := left.trans right.symm
  cases x with
  | foreign => cases left
  | dot =>
    cases y with
    | dot => rfl
    | _ => simp [outlineNode] at same
  | empty a =>
    cases y with
    | empty b =>
      have name : a.name.toList = b.name.toList := by simpa [outlineNode] using same
      rw [Assertion.name_injective (String.toList_inj.mp name)]
    | _ => simp [outlineNode] at same
  | literal c =>
    cases y with
    | literal d =>
      have code : outlineCode c = outlineCode d := by simpa [outlineNode] using same
      rw [outlineCode_injective code]
    | _ => simp [outlineNode] at same
  | bytes s =>
    cases y with
    | bytes t =>
      have text : s.ranges.flatMap outlineRange = t.ranges.flatMap outlineRange := by
        simpa [outlineNode] using same
      have ranges := outlineRanges_injective text
      cases s; cases t
      simp_all
    | _ => simp [outlineNode] at same
  | capture i e =>
    cases y with
    | capture j f =>
      rw [shape_capture, shape_capture, (List.cons.inj below).1]
    | _ => simp [outlineNode] at same
  | repetition e m n g =>
    cases y with
    | repetition f k l h =>
      have text : outlineBounds m n ++ (if g then [')'] else ['?', ')']) =
          outlineBounds k l ++ (if h then [')'] else ['?', ')']) := by
        simpa [outlineNode] using same
      obtain ⟨⟨min, max⟩, closing⟩ := shownBounds_cancel (shownBounds m n) (shownBounds k l) text
      rw [shape_repetition, shape_repetition, (List.cons.inj below).1, min, max,
        closing_injective closing]
    | _ => simp [outlineNode] at same
  | concat es =>
    cases y with
    | concat fs => rw [shape_concat, shape_concat]; exact congrArg concat below
    | _ => simp [outlineNode] at same
  | alternate es =>
    cases y with
    | alternate fs => rw [shape_alternate, shape_alternate]; exact congrArg alternate below
    | _ => simp [outlineNode] at same

theorem newline_code (code : Int) : '\n' ∉ outlineCode code := by
  have shown := shownCode code
  generalize outlineCode code = t at shown
  cases shown with
  | @control letter named =>
    have letters : ∀ p ∈ controls, '\n' ∉ ['\\', p.2] := by decide
    exact letters _ named
  | plain low high =>
    intro member
    have char := congrArg Char.toNat (List.mem_singleton.mp member)
    have newline : 10 = code.toNat := char.trans (Numeral.char_toNat (by omega))
    omega
  | hex =>
    have digits : '\n' ∉ Numeral.text (Numeral.codes 16 code) :=
      Numeral.notMem_figures (hex_figures code) (by decide)
    simpa using digits

theorem newline_bounds (min : Int) (max : Option Int) : '\n' ∉ outlineBounds min max := by
  have shown := shownBounds min max
  generalize outlineBounds min max = t at shown
  cases shown with
  | star | plus | question => decide
  | braces =>
    have low : '\n' ∉ number min := notMem_number (by decide) min
    have high : '\n' ∉ upper max := notMem_upper (by decide) max
    simp [low, high]

theorem outlineNode_line {x : Expr} {line : List Char} (shown : x.outlineNode = .ok line) :
    '\n' ∉ line ∧ line.head? ≠ some ' ' := by
  cases x with
  | foreign => cases shown
  | dot | capture | concat | alternate =>
    cases shown
    decide
  | empty a =>
    cases shown
    cases a <;> decide
  | literal code =>
    cases shown
    have := newline_code code
    simp [this]
  | bytes set =>
    cases shown
    have (r : ByteRange) : '\n' ∉ outlineRange r := by
      simp [outlineRange, newline_code]
    simp [this]
  | repetition e min max greedy =>
    cases shown
    have := newline_bounds min max
    cases greedy <;> simp [this]

theorem indent_cancel {d k : Nat} {t u : List Char} (left : t.head? ≠ some ' ')
    (right : u.head? ≠ some ' ')
    (same : List.replicate d ' ' ++ t = List.replicate k ' ' ++ u) : d = k ∧ t = u := by
  induction d generalizing k with
  | zero =>
    cases k with
    | zero => exact ⟨rfl, same⟩
    | succ k =>
      have text : t = ' ' :: (List.replicate k ' ' ++ u) := same
      rw [text] at left
      exact absurd rfl left
  | succ d ih =>
    cases k with
    | zero =>
      have text : ' ' :: (List.replicate d ' ' ++ t) = u := same
      rw [← text] at right
      exact absurd rfl right
    | succ k =>
      obtain ⟨depth, text⟩ := ih (List.cons.inj same).2
      exact ⟨by rw [depth], text⟩

end Expr

end ByteRegex

import ByteRegex.Proofs.Spelling.Bounds
import ByteRegex.Proofs.Spelling.Recursion
import ByteRegex.Proofs.Spelling.Set

/-!
The text of a regular tree is a phrase of the grammar. The tree that the phrase denotes has the
same shape; its captures are numbered by the place where the phrase stands. A tree that can be
repeated is written as an atom, an item as a piece, a branch as a branch, and every tree as a
pattern.
-/

namespace ByteRegex.Grammar

open ByteRegex.Expr (Printable printable_cons printable_append shape spell spellAll)

theorem branch_cons {limit : Int} {k m : Nat} {t rest : List UInt8} {es : List Expr} :
    Branch limit k t es m rest → ∀ {n : Nat} {s : List UInt8} {e : Expr},
    Piece limit n s e k t → Branch limit n s (e :: es) m rest
  | .one next, _, _, _, piece => .more (.one piece) next
  | .more earlier next, _, _, _, piece => .more (branch_cons earlier piece) next

theorem branches_cons {limit : Int} {k m : Nat} {t rest : List UInt8} {es : List Expr} :
    Branches limit k t es m rest → ∀ {n : Nat} {s : List UInt8} {items : List Expr},
    Branch limit n s items k (Byte.bar :: t) → Branches limit n s (sequence items :: es) m rest
  | .one next, _, _, _, branch => .more (.one branch) next
  | .more earlier next, _, _, _, branch => .more (branches_cons earlier branch) next

/-- Wherever the text stands, a phrase takes it, and what the phrase denotes looks like `target`. -/
def Denotes {α β : Type} (phrase : Nat → List UInt8 → α → Nat → List UInt8 → Prop) (view : α → β)
    (target : β) (text : List UInt8) : Prop :=
  ∀ n rest, ∃ m f, phrase n (text ++ rest) f m rest ∧ view f = target

structure Written (ceiling : Nat) (e : Expr) (text : List UInt8) : Prop where
  printable : Printable text
  atom : e.isAtomic → Denotes (Atom ceiling) shape e.shape text
  piece : e.isItem → Denotes (Piece ceiling) shape e.shape text
  branch : e.isBranch → Denotes (Branch ceiling) (fun es => (sequence es).shape) e.shape text
  pattern : Denotes (Pattern ceiling) shape e.shape text

theorem denotes_piece {ceiling : Nat} {target : Expr} {text : List UInt8}
    (h : Denotes (Atom ceiling) shape target text) : Denotes (Piece ceiling) shape target text := by
  intro n rest
  obtain ⟨m, f, atom, same⟩ := h n rest
  exact ⟨m, f, .plain atom, same⟩

theorem denotes_branch {ceiling : Nat} {target : Expr} {text : List UInt8}
    (h : Denotes (Piece ceiling) shape target text) :
    Denotes (Branch ceiling) (fun es => (sequence es).shape) target text := by
  intro n rest
  obtain ⟨m, f, piece, same⟩ := h n rest
  exact ⟨m, [f], .one piece, same⟩

theorem denotes_pattern {ceiling : Nat} {target : Expr} {text : List UInt8}
    (h : Denotes (Branch ceiling) (fun es => (sequence es).shape) target text) :
    Denotes (Pattern ceiling) shape target text := by
  intro n rest
  obtain ⟨m, fs, branch, same⟩ := h n rest
  exact ⟨m, sequence fs, .branches (.one branch), same⟩

theorem written_atom {ceiling : Nat} {e : Expr} {text : List UInt8}
    (printable : Printable text) (atom : Denotes (Atom ceiling) shape e.shape text) :
    Written ceiling e text := by
  have piece := denotes_piece atom
  have branch := denotes_branch piece
  exact ⟨printable, fun _ => atom, fun _ => piece, fun _ => branch, denotes_pattern branch⟩

theorem written_piece {ceiling : Nat} {e : Expr} {text : List UInt8} (compound : ¬ e.isAtomic)
    (printable : Printable text) (piece : Denotes (Piece ceiling) shape e.shape text) :
    Written ceiling e text := by
  have branch := denotes_branch piece
  exact ⟨printable, fun h => absurd h compound, fun _ => piece, fun _ => branch,
    denotes_pattern branch⟩

theorem written_branch {ceiling : Nat} {e : Expr} {text : List UInt8} (compound : ¬ e.isItem)
    (printable : Printable text)
    (branch : Denotes (Branch ceiling) (fun es => (sequence es).shape) e.shape text) :
    Written ceiling e text :=
  ⟨printable, fun h => absurd (Expr.isItem_of_isAtomic h) compound, fun h => absurd h compound,
    fun _ => branch, denotes_pattern branch⟩

theorem written_pattern {ceiling : Nat} {e : Expr} {text : List UInt8} (compound : ¬ e.isBranch)
    (printable : Printable text)
    (pattern : Denotes (Pattern ceiling) shape e.shape text) : Written ceiling e text := by
  have outer : ¬ e.isItem := fun h => compound (Expr.isBranch_of_isItem h)
  exact ⟨printable, fun h => absurd (Expr.isItem_of_isAtomic h) outer, fun h => absurd h outer,
    fun h => absurd h compound, pattern⟩

theorem written_symbol {ceiling : Nat} {e : Expr} {text : List UInt8}
    (printable : Printable text) (symbol : ∀ rest, Symbol (text ++ rest) e rest) :
    Written ceiling e text :=
  written_atom printable fun n rest => ⟨n, e, .symbol n (symbol rest), rfl⟩

theorem reserved_metacharacters : reserved ⊆ Expr.metacharacters := by decide

theorem symbol_code {b : UInt8} {text : List UInt8}
    (h : Expr.CodeText Expr.metacharacters b text) (rest : List UInt8) :
    Symbol (text ++ rest) (.literal b.toNat) rest := by
  cases h with
  | plain printable ordinary =>
    exact .byte (fun member => ordinary (reserved_metacharacters member)) rest
  | escape body =>
    have symbol := Symbol.escape (body.2 rest)
    rwa [List.drop_left] at symbol

theorem written_literal (ceiling : Nat) (b : UInt8) :
    Written ceiling (.literal b.toNat) (Expr.spellCode Expr.metacharacters b.toNat) := by
  have text := Expr.spellCode_text (List.subset_append_left _ Expr.bracketMetacharacters) b
  exact written_symbol (Expr.codeText_printable text) (symbol_code text)

theorem written_set (ceiling : Nat) (set : ByteSet) :
    Written ceiling (.bytes set) (Expr.spellSet set) := by
  apply written_symbol (Expr.spellSet_printable set)
  intro rest
  obtain ⟨body, used, text, read, left⟩ := Expr.read_spellSet set rest
  rw [text, ← left]
  exact .set read

theorem written_capture {ceiling : Nat} {body : Expr} {text : List UInt8} (i : Int)
    (h : Written ceiling body text) :
    Written ceiling (.capture i body) ([Byte.leftParen] ++ (text ++ [Byte.rightParen])) := by
  apply written_atom
  · have closing : Printable (text ++ [Byte.rightParen]) :=
      printable_append.mpr ⟨h.printable, by decide⟩
    exact printable_cons.mpr ⟨by decide, closing⟩
  · intro n rest
    obtain ⟨m, f, pattern, same⟩ := h.pattern (n + 1) (Byte.rightParen :: rest)
    refine ⟨m, .capture (n + 1 : Nat) f, ?_, ?_⟩
    · have group := Atom.group pattern
      simpa using group
    · rw [Expr.shape_capture, Expr.shape_capture, same]

theorem written_repetition {ceiling : Nat} (bound : ceiling ≤ maxCount) {body : Expr}
    {text : List UInt8} {min : Int} {max : Option Int} (greedy : Bool) (atomic : body.isAtomic)
    (allowed : Expr.BoundsAllowed ceiling min max) (h : Written ceiling body text) :
    Written ceiling (.repetition body min max greedy)
      (text ++ Expr.spellQuantifier min max greedy) := by
  obtain ⟨bounds, ⟨printable, reads⟩, low, high⟩ := Expr.spellBounds_text bound allowed
  have view (f : Expr) (same : f.shape = body.shape) :
      (quantified f bounds greedy).shape = (Expr.repetition body min max greedy).shape := by
    rw [quantified, Expr.shape_repetition, Expr.shape_repetition, same, low, high]
  unfold Expr.spellQuantifier
  apply written_piece (by simp [Expr.isAtomic])
  · have mark : Printable (if greedy then [] else [Byte.question]) := by cases greedy <;> decide
    exact printable_append.mpr ⟨h.printable, printable_append.mpr ⟨printable, mark⟩⟩
  · intro n rest
    cases greedy with
    | true =>
      obtain ⟨m, f, atom, same⟩ := h.atom atomic n (Expr.spellBounds min max ++ rest)
      refine ⟨m, _, ?_, view f same⟩
      have piece := Piece.greedy atom (reads rest)
      simpa using piece
    | false =>
      obtain ⟨m, f, atom, same⟩ :=
        h.atom atomic n (Expr.spellBounds min max ++ Byte.question :: rest)
      refine ⟨m, _, ?_, view f same⟩
      have piece := Piece.lazy atom (reads (Byte.question :: rest))
      simpa using piece

theorem joined_shape {node : List Expr → Expr}
    (children : ∀ es, (node es).shape = node (es.map shape)) {es fs : List Expr}
    (several : 2 ≤ es.length) (same : fs.map shape = es.map shape) :
    (joined node fs).shape = (node es).shape := by
  have length := congrArg List.length same
  rw [List.length_map, List.length_map] at length
  match fs with
  | [] | [_] => simp only [List.length_cons, List.length_nil] at length; omega
  | f :: g :: rest => exact (children (f :: g :: rest)).trans (same ▸ (children es).symm)

theorem list_written {α : Type} (phrase : Nat → List UInt8 → α → Nat → List UInt8 → Prop)
    (node : α → Expr) (phrases : Nat → List UInt8 → List Expr → Nat → List UInt8 → Prop)
    (separator : List UInt8)
    (one : ∀ {n s x m rest}, phrase n s x m rest → phrases n s [node x] m rest)
    (cons : ∀ {n s x k t xs m rest}, phrase n s x k (separator ++ t) → phrases k t xs m rest →
      phrases n s (node x :: xs) m rest)
    (visible : Printable separator) {es : List Expr} (nonempty : es ≠ [])
    (each : ∀ e ∈ es, ∃ t, e.spell = .ok t ∧ Printable t ∧
      Denotes phrase (fun x => (node x).shape) e.shape t) :
    ∃ t, spellAll separator es = .ok t ∧ Printable t ∧
      Denotes phrases (List.map shape) (es.map shape) t := by
  induction es with
  | nil => exact absurd rfl nonempty
  | cons e es ih =>
    obtain ⟨t, spelled, printable, denotes⟩ := each e List.mem_cons_self
    cases es with
    | nil =>
      refine ⟨t, by rw [spellAll, spelled], printable, ?_⟩
      intro n rest
      obtain ⟨m, x, first, same⟩ := denotes n rest
      exact ⟨m, [node x], one first, by simp [same]⟩
    | cons f es =>
      have others := fun x member => each x (List.mem_cons_of_mem e member)
      obtain ⟨u, later, visibleLater, denotesLater⟩ := ih (List.cons_ne_nil f es) others
      refine ⟨t ++ (separator ++ u), by rw [spellAll, spelled, later]; rfl, ?_, ?_⟩
      · exact printable_append.mpr
          ⟨printable, printable_append.mpr ⟨visible, visibleLater⟩⟩
      · intro n rest
        obtain ⟨k, x, first, same⟩ := denotes n (separator ++ (u ++ rest))
        obtain ⟨m, xs, tail, sameLater⟩ := denotesLater k rest
        refine ⟨m, node x :: xs, ?_, ?_⟩
        · have all := cons first tail
          simpa using all
        · exact List.cons_eq_cons.mpr ⟨same, sameLater⟩

theorem concat_written {ceiling : Nat} {items : List Expr} (several : 2 ≤ items.length)
    (each : ∀ e ∈ items, e.isItem ∧ ∃ t, e.spell = .ok t ∧ Written ceiling e t) :
    ∃ t, spellAll [] items = .ok t ∧ Written ceiling (.concat items) t := by
  have nonempty : items ≠ [] := List.ne_nil_of_length_pos (by omega)
  have texts : ∀ e ∈ items, ∃ t, e.spell = .ok t ∧ Printable t ∧
      Denotes (Piece ceiling) shape e.shape t := by
    intro e member
    obtain ⟨item, t, spelled, written⟩ := each e member
    exact ⟨t, spelled, written.printable, written.piece item⟩
  obtain ⟨t, spelled, printable, denotes⟩ := list_written (Piece ceiling) (fun e => e)
    (Branch ceiling) [] .one (fun piece later => branch_cons later piece) (by decide) nonempty texts
  refine ⟨t, spelled, written_branch (by simp [Expr.isItem]) printable ?_⟩
  intro n rest
  obtain ⟨m, es, branch, same⟩ := denotes n rest
  exact ⟨m, es, branch, joined_shape Expr.shape_concat several same⟩

theorem alternate_written {ceiling : Nat} {branches : List Expr} (several : 2 ≤ branches.length)
    (each : ∀ e ∈ branches, e.isBranch ∧ ∃ t, e.spell = .ok t ∧ Written ceiling e t) :
    ∃ t, spellAll [Byte.bar] branches = .ok t ∧ Written ceiling (.alternate branches) t := by
  have nonempty : branches ≠ [] := List.ne_nil_of_length_pos (by omega)
  have texts : ∀ e ∈ branches, ∃ t, e.spell = .ok t ∧ Printable t ∧
      Denotes (Branch ceiling) (fun es => (sequence es).shape) e.shape t := by
    intro e member
    obtain ⟨fits, t, spelled, written⟩ := each e member
    exact ⟨t, spelled, written.printable, written.branch fits⟩
  obtain ⟨t, spelled, printable, denotes⟩ := list_written (Branch ceiling) sequence
    (Branches ceiling) [Byte.bar] .one (fun branch later => branches_cons later branch)
    (by decide) nonempty texts
  refine ⟨t, spelled, written_pattern (by simp [Expr.isBranch]) printable ?_⟩
  intro n rest
  obtain ⟨m, es, all, same⟩ := denotes n rest
  exact ⟨m, choice es, .branches all, joined_shape Expr.shape_alternate several same⟩

theorem regular_written {ceiling : Nat} (bound : ceiling ≤ maxCount) {e : Expr}
    (regular : e.Regular ceiling) : ∃ t, e.spell = .ok t ∧ Written ceiling e t := by
  induction e with
  | dot => exact ⟨[Byte.dot], by rw [spell], written_symbol (by decide) .dot⟩
  | empty a =>
    rcases (Expr.regular_iff.mp regular).1 with rfl | rfl | rfl
    · refine ⟨[], by rw [spell]; rfl, written_pattern (by decide) (by decide) ?_⟩
      intro n rest
      exact ⟨n, .empty .none, .nothing n rest, rfl⟩
    · exact ⟨[Byte.caret], by rw [spell]; rfl, written_symbol (by decide) .beginLine⟩
    · exact ⟨[Byte.dollar], by rw [spell]; rfl, written_symbol (by decide) .endLine⟩
  | literal code =>
    obtain ⟨low, high⟩ := (Expr.regular_iff.mp regular).1
    obtain ⟨n, rfl⟩ := Int.eq_ofNat_of_zero_le low
    have small : n < 256 := by omega
    have byte : (UInt8.ofNat n).toNat = n := UInt8.toNat_ofNat_of_lt' small
    have written := written_literal ceiling (UInt8.ofNat n)
    rw [byte] at written
    exact ⟨_, by rw [spell], written⟩
  | bytes set => exact ⟨_, by rw [spell], written_set ceiling set⟩
  | capture i body ih =>
    have below := (Expr.regular_iff.mp regular).2 body List.mem_cons_self
    obtain ⟨t, spelled, written⟩ := ih below
    exact ⟨_, by rw [spell, spelled]; rfl, written_capture i written⟩
  | repetition body min max greedy ih =>
    obtain ⟨⟨atomic, allowed⟩, below⟩ := Expr.regular_iff.mp regular
    obtain ⟨t, spelled, written⟩ := ih (below body List.mem_cons_self)
    refine ⟨_, ?_, written_repetition bound greedy atomic allowed written⟩
    rw [spell, if_pos atomic, spelled]
    rfl
  | concat items ih =>
    obtain ⟨⟨several, fits⟩, below⟩ := Expr.regular_iff.mp regular
    obtain ⟨t, spelled, written⟩ := concat_written several fun e member =>
      ⟨fits e member, ih e member (below e member)⟩
    refine ⟨t, ?_, written⟩
    rw [spell, Expr.find_unfit.mpr fits, spelled]
  | alternate branches ih =>
    obtain ⟨⟨several, fits⟩, below⟩ := Expr.regular_iff.mp regular
    obtain ⟨t, spelled, written⟩ := alternate_written several fun e member =>
      ⟨fits e member, ih e member (below e member)⟩
    refine ⟨t, ?_, written⟩
    rw [spell, Expr.find_unfit.mpr fits, spelled]
  | foreign => exact absurd (Expr.regular_iff.mp regular).1 id

end ByteRegex.Grammar

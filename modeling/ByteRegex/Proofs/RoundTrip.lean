import ByteRegex.Expr.Identity
import ByteRegex.Proofs.Expr.Comparison
import ByteRegex.Proofs.Grammar.Trees
import ByteRegex.Proofs.Spelling.Phrases
import ByteRegex.RoundTrip

/-!
Trees written as patterns and read again. A tree that was read comes back as it was. A tree built by
hand, if it has a pattern, comes back with its shape and with captures numbered in preorder.
-/

namespace ByteRegex

open ByteRegex.Byte (isPrintable)
open ByteRegex.Expr (Printable)

theorem utf8_printable {b : UInt8} (printable : isPrintable b) :
    String.utf8EncodeChar (Char.ofNat b.toNat) = [b] ∧
      0x20 ≤ (Char.ofNat b.toNat).toNat ∧ (Char.ofNat b.toNat).toNat ≤ 0x7E := by
  have codes : ∀ n < 256, isPrintable (UInt8.ofNat n) →
      String.utf8EncodeChar (Char.ofNat n) = [UInt8.ofNat n] ∧
        0x20 ≤ (Char.ofNat n).toNat ∧ (Char.ofNat n).toNat ≤ 0x7E := by
    decide +kernel
  have code := codes b.toNat b.toNat_lt
  rw [UInt8.ofNat_toNat] at code
  exact code printable

theorem bytes_patternText {p : List UInt8} (printable : Printable p) :
    Utf8.bytes (patternText p).toList = p := by
  rw [patternText, String.toList_ofList, Utf8.bytes]
  induction p with
  | nil => rfl
  | cons b p ih =>
    obtain ⟨first, later⟩ := List.forall_mem_cons.mp printable
    rw [List.map_cons, List.flatMap_cons, (utf8_printable first).1, ih later]
    rfl

theorem patternText_printable {p : List UInt8} (printable : Printable p) :
    ∀ c ∈ (patternText p).toList, 0x20 ≤ c.toNat ∧ c.toNat ≤ 0x7E := by
  intro c member
  rw [patternText, String.toList_ofList] at member
  obtain ⟨b, inside, rfl⟩ := List.mem_map.mp member
  exact (utf8_printable (printable b inside)).2

namespace Expr

/-- The values at a node are such as a pattern can write. Nothing is asked of the kinds of its
children, nor of capture numbers. -/
def InRangeNode (ceiling : Nat) : Expr → Prop
  | .literal code => 0 ≤ code ∧ code ≤ 255
  | .repetition _ min max _ => BoundsAllowed ceiling min max
  | .concat items => 2 ≤ items.length
  | .alternate branches => 2 ≤ branches.length
  | _ => True

def InRange (ceiling : Nat) (e : Expr) : Prop := ∀ x ∈ e.nodes, x.InRangeNode ceiling

theorem andThen_ok {first second : Except SpellingError (List UInt8)} {t : List UInt8}
    (h : andThen first second = .ok t) : (∃ u, first = .ok u) ∧ ∃ v, second = .ok v := by
  cases first with
  | error err => cases h
  | ok u =>
    cases second with
    | error err => cases h
    | ok v => exact ⟨⟨u, rfl⟩, ⟨v, rfl⟩⟩

theorem spellAll_ok {separator : List UInt8} {es : List Expr} {t : List UInt8}
    (h : spellAll separator es = .ok t) : ∀ e ∈ es, ∃ u, e.spell = .ok u := by
  induction es generalizing t with
  | nil => intro e member; cases member
  | cons e es ih =>
    cases es with
    | nil =>
      rw [spellAll] at h
      exact List.forall_mem_singleton.mpr ⟨t, h⟩
    | cons f es =>
      rw [spellAll] at h
      obtain ⟨first, later, rest⟩ := andThen_ok h
      obtain ⟨_, u, others⟩ := andThen_ok rest
      exact List.forall_mem_cons.mpr ⟨first, ih others⟩

theorem children_regular {ceiling : Nat} {separator t : List UInt8} {es : List Expr}
    (spelled : spellAll separator es = .ok t)
    (each : ∀ e ∈ es, ∀ u, e.spell = .ok u → e.Regular ceiling) :
    ∀ e ∈ es, e.Regular ceiling := by
  intro e member
  obtain ⟨u, inner⟩ := spellAll_ok spelled e member
  exact each e member u inner

theorem regular_of_spell {ceiling : Nat} {e : Expr} {t : List UInt8} (inRange : e.InRange ceiling)
    (spelled : e.spell = .ok t) : e.Regular ceiling := by
  induction e generalizing t with
  | dot | bytes => exact regular_leaf rfl trivial
  | literal code => exact regular_leaf rfl (inRange _ (self_mem_nodes _))
  | empty a =>
    rw [spell] at spelled
    cases a with
    | none => exact regular_leaf rfl (Or.inl rfl)
    | beginLine => exact regular_leaf rfl (Or.inr (Or.inl rfl))
    | endLine => exact regular_leaf rfl (Or.inr (Or.inr rfl))
    | beginText | endText | wordBoundary | notWordBoundary => cases spelled
  | capture i body ih =>
    have below := (forall_nodes.mp inRange).2 body List.mem_cons_self
    rw [spell] at spelled
    obtain ⟨_, u, rest⟩ := andThen_ok spelled
    obtain ⟨⟨v, inner⟩, _⟩ := andThen_ok rest
    exact regular_iff.mpr ⟨trivial, List.forall_mem_singleton.mpr (ih below inner)⟩
  | repetition body min max greedy ih =>
    obtain ⟨allowed, below⟩ := forall_nodes.mp inRange
    rw [spell] at spelled
    split at spelled
    · rename_i atomic
      obtain ⟨⟨u, inner⟩, _⟩ := andThen_ok spelled
      have regular := ih (below body List.mem_cons_self) inner
      exact regular_iff.mpr ⟨⟨atomic, allowed⟩, List.forall_mem_singleton.mpr regular⟩
    · cases spelled
  | concat items ih =>
    obtain ⟨several, below⟩ := forall_nodes.mp inRange
    rw [spell] at spelled
    split at spelled
    · cases spelled
    · rename_i none
      have regular := children_regular spelled fun e member u => ih e member (below e member)
      exact regular_iff.mpr ⟨⟨several, find_unfit.mp none⟩, regular⟩
  | alternate branches ih =>
    obtain ⟨several, below⟩ := forall_nodes.mp inRange
    rw [spell] at spelled
    split at spelled
    · cases spelled
    · rename_i none
      have regular := children_regular spelled fun e member u => ih e member (below e member)
      exact regular_iff.mpr ⟨⟨several, find_unfit.mp none⟩, regular⟩
  | foreign => rw [spell] at spelled; cases spelled

end Expr

theorem ceiling_le_maxCount (options : Options) : options.ceiling ≤ maxCount := by
  have := options.ceiling_le
  unfold maxCeiling at this
  unfold maxCount
  omega

theorem regular_rereads {options : Options} {t : Expr} (regular : t.Regular options.ceiling) :
    ∃ r, t.pattern = .ok r ∧ Printable r ∧
      ∃ t', options.parse r = .ok t' ∧ t'.shape = t.shape ∧ t'.Numbered := by
  obtain ⟨r, spelled, written⟩ := Grammar.regular_written (ceiling_le_maxCount options) regular
  obtain ⟨m, t', phrase, same⟩ := written.pattern 0 []
  rw [List.append_nil] at phrase
  refine ⟨r, ?_, written.printable, t', Grammar.parse_of_pattern phrase, same, ?_⟩
  · rw [Expr.pattern_eq_spell, spelled]
  · exact Expr.numbered_of_captures (Grammar.pattern_captures phrase).2

/-- A pattern that is read gives a tree with a printable pattern of its own, and that one is read as
the same tree. -/
theorem parse_pattern_of_parse (options : Options) (p : List UInt8) (t : Expr)
    (read : options.parse p = .ok t) :
    ∃ r, t.pattern = .ok r ∧
      (∀ c ∈ (patternText r).toList, 0x20 ≤ c.toNat ∧ c.toNat ≤ 0x7E) ∧
      ∃ t', options.parse (Utf8.bytes (patternText r).toList) = .ok t' ∧ t' = t ∧
        t'.equals t = .ok true := by
  obtain ⟨regular, numbered⟩ := Grammar.parse_regular read
  obtain ⟨r, written, printable, t', again, same, numbered'⟩ := regular_rereads regular
  have identical : t' = t := Expr.eq_of_numbered same numbered' numbered
  have known : .foreign ∉ t.nodes := fun member => regular _ member
  refine ⟨r, written, patternText_printable printable, t', ?_, identical, ?_⟩
  · rw [bytes_patternText printable, again]
  · rw [identical]
    exact Expr.equals_self known

/-- The pattern `(\||[^a-c\n])*?()$` holds an escape, an excluded set, a lazy operator and an empty
group. -/
theorem parse_pattern_of_parse_groups :
    let p : List UInt8 :=
      [40, 92, 124, 124, 91, 94, 97, 45, 99, 92, 110, 93, 41, 42, 63, 40, 41, 36]
    let outside : ByteSet := ByteSet.negate (.ofRanges [.single 10, .between 97 99 (by decide)])
    let t : Expr := .concat
      [.repetition (.capture 1 (.alternate [.literal 124, .bytes outside])) 0 none false,
       .capture 2 (.empty .none), .empty .endLine]
    (Options.traced false).parse p = .ok t ∧
      ∃ r, t.pattern = .ok r ∧
        (∀ c ∈ (patternText r).toList, 0x20 ≤ c.toNat ∧ c.toNat ≤ 0x7E) ∧
        ∃ t', (Options.traced false).parse (Utf8.bytes (patternText r).toList) = .ok t' ∧ t' = t ∧
          t'.equals t = .ok true := by
  intro p outside t
  have read : (Options.traced false).parse p = .ok t := by decide +kernel
  exact ⟨read, parse_pattern_of_parse _ p t read⟩

/-- The pattern of a tree with values in range is read as a tree of the same shape, whose captures
are numbered in preorder. Shape and numbers fix the tree. -/
theorem parse_pattern_numbered (options : Options) (t : Expr) (r : List UInt8)
    (inRange : t.InRange options.ceiling) (written : t.pattern = .ok r) :
    ∃ t', options.parse (Utf8.bytes (patternText r).toList) = .ok t' ∧ t'.shape = t.shape ∧
      t'.captures = Expr.numbers 0 t.captures.length ∧
      (t.captures = Expr.numbers 0 t.captures.length → t' = t) := by
  have spelled : t.spell = .ok r := by rw [← Expr.pattern_eq_spell, written]
  have regular := Expr.regular_of_spell inRange spelled
  obtain ⟨r', same, printable, t', again, shape, numbered⟩ := regular_rereads regular
  rw [written] at same
  cases same
  refine ⟨t', ?_, shape, ?_, ?_⟩
  · rw [bytes_patternText printable, again]
  · rw [← Expr.captures_length_of_shape shape]
    exact numbered
  · intro already
    exact Expr.eq_of_numbered shape numbered already

/-- A concatenation of two groups, numbered 7 and -2, is read with the numbers 1 and 2. -/
theorem parse_pattern_numbered_groups :
    let t : Expr := .concat
      [.capture 7 (.alternate [.literal 124, .concat [.literal 0, .dot]]),
       .repetition (.capture (-2) (.empty .none)) 0 (some 1) false]
    let r : List UInt8 := [40, 92, 124, 124, 92, 120, 48, 48, 46, 41, 40, 41, 63, 63]
    t.InRange (Options.traced false).ceiling ∧ t.pattern = .ok r ∧
      ∃ t', (Options.traced false).parse (Utf8.bytes (patternText r).toList) = .ok t' ∧
        t'.shape = t.shape ∧ t'.captures = Expr.numbers 0 t.captures.length ∧
        (t.captures = Expr.numbers 0 t.captures.length → t' = t) := by
  intro t r
  have inRange : t.InRange (Options.traced false).ceiling := by
    simp [t, Expr.InRange, Expr.nodes, Expr.nodesAll, Expr.InRangeNode, Expr.BoundsAllowed]
  have written : t.pattern = .ok r := by cbv
  exact ⟨inRange, written, parse_pattern_numbered _ t r inRange written⟩

end ByteRegex

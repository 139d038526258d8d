import ByteRegex.Proofs.Expr.Nodes
import ByteRegex.Proofs.Spelling.Recursion

namespace ByteRegex.Expr

def Atomic (e : Expr) : Prop :=
  e = .dot ∨ (∃ code, e = .literal code) ∨ (∃ set, e = .bytes set) ∨
    (∃ i body, e = .capture i body) ∨ ∃ a, e = .empty a ∧ a ≠ .none

def LostInAlternate (e : Expr) : Prop := (∃ branches, e = .alternate branches) ∨ e = .empty .none

def LostInConcat (e : Expr) : Prop := (∃ items, e = .concat items) ∨ LostInAlternate e

/-- The node cannot be written, even where its children can. -/
def Faulty : Expr → Prop
  | .foreign => True
  | .empty a => a ≠ .none ∧ a ≠ .beginLine ∧ a ≠ .endLine
  | .repetition body _ _ _ => ¬ Atomic body
  | .concat items => ∃ e ∈ items, LostInConcat e
  | .alternate branches => ∃ e ∈ branches, LostInAlternate e
  | _ => False

/-- How a faulty node is reported. Of several children without a place the first is named. -/
inductive Fault : Expr → SpellingError → Prop where
  | unknown : Fault .foreign (.foreignNode ⟨⟩)
  | assertion {a : Assertion} (unwritten : a ≠ .none ∧ a ≠ .beginLine ∧ a ≠ .endLine) :
      Fault (.empty a) (.noSyntax a)
  | body {body : Expr} {min : Int} {max : Option Int} {greedy : Bool} (loose : ¬ Atomic body) :
      Fault (.repetition body min max greedy) (.repeatedNode body)
  | item {before after : List Expr} {e : Expr} (kept : ∀ x ∈ before, ¬ LostInConcat x)
      (lost : LostInConcat e) : Fault (.concat (before ++ e :: after)) (.itemNode e)
  | branch {before after : List Expr} {e : Expr} (kept : ∀ x ∈ before, ¬ LostInAlternate x)
      (lost : LostInAlternate e) : Fault (.alternate (before ++ e :: after)) (.branchNode e)

mutual

/-- The text of a tree, put together from the texts of its children. Where a node is faulty it means
nothing. -/
def text : Expr → List UInt8
  | .dot => [Byte.dot]
  | .empty .none => []
  | .empty .beginLine => [Byte.caret]
  | .empty .endLine => [Byte.dollar]
  | .literal code => spellCode metacharacters code
  | .bytes set => spellSet set
  | .capture _ body => Byte.leftParen :: body.text ++ [Byte.rightParen]
  | .repetition body min max greedy => body.text ++ spellQuantifier min max greedy
  | .concat items => (texts items).flatten
  | .alternate branches => [Byte.bar].intercalate (texts branches)
  | _ => []

def texts : List Expr → List (List UInt8)
  | [] => []
  | e :: rest => e.text :: texts rest

end

theorem isAtomic_iff {e : Expr} : e.isAtomic ↔ Atomic e := by
  cases e <;> simp [isAtomic, Atomic]

theorem not_isItem_iff {e : Expr} : (!e.isItem) = true ↔ LostInConcat e := by
  cases e <;> simp [isItem, LostInConcat, LostInAlternate]

theorem not_isBranch_iff {e : Expr} : (!e.isBranch) = true ↔ LostInAlternate e := by
  cases e <;> simp [isBranch, LostInAlternate]

def fault? (e : Expr) : Option SpellingError :=
  match e.pieces with
  | .error err => some err
  | .ok _ => none

theorem fault_repetition (body : Expr) (min : Int) (max : Option Int) (greedy : Bool) :
    (repetition body min max greedy).fault? =
      if body.isAtomic then none else some (.repeatedNode body) := by
  rw [fault?, pieces]
  cases body.isAtomic <;> rfl

theorem fault_concat (items : List Expr) :
    (concat items).fault? = (items.find? fun e => !e.isItem).map .itemNode := by
  rw [fault?, pieces]
  cases items.find? fun e => !e.isItem <;> rfl

theorem fault_alternate (branches : List Expr) :
    (alternate branches).fault? = (branches.find? fun e => !e.isBranch).map .branchNode := by
  rw [fault?, pieces]
  cases branches.find? fun e => !e.isBranch <;> rfl

theorem fault_none_iff {e : Expr} : e.fault? = none ↔ ¬ Faulty e := by
  cases e with
  | dot | literal | bytes | capture | foreign => simp [fault?, pieces, Faulty]
  | empty a => cases a <;> simp [fault?, pieces, spellAssertion, Except.map, Faulty]
  | repetition body min max greedy => simp [fault_repetition, Faulty, isAtomic_iff]
  | concat items => simp [fault_concat, Faulty, ← not_isItem_iff]
  | alternate branches => simp [fault_alternate, Faulty, ← not_isBranch_iff]

theorem find_first {es : List Expr} {test : Expr → Bool} {P : Expr → Prop}
    (means : ∀ {e}, test e = true ↔ P e) {e : Expr} :
    es.find? test = some e ↔
      ∃ before after, es = before ++ e :: after ∧ (∀ x ∈ before, ¬ P x) ∧ P e := by
  simp only [List.find?_eq_some_iff_append, Bool.not_eq_true', ← Bool.not_eq_true, means]
  constructor
  · rintro ⟨holds, before, after, cut, kept⟩
    exact ⟨before, after, cut, kept, holds⟩
  · rintro ⟨before, after, cut, kept, holds⟩
    exact ⟨holds, before, after, cut, kept⟩

theorem fault_iff {e : Expr} {err : SpellingError} : e.fault? = some err ↔ Fault e err := by
  cases e with
  | dot | literal | bytes | capture =>
    constructor
    · intro found; cases found
    · intro fault; cases fault
  | foreign =>
    constructor
    · intro found; cases found; exact .unknown
    · intro fault; cases fault; rfl
  | empty a =>
    constructor
    · intro found
      cases a <;> cases found <;> exact .assertion (by decide)
    · rintro (_ | unwritten)
      cases a <;> simp at unwritten <;> rfl
  | repetition body min max greedy =>
    rw [fault_repetition]
    constructor
    · intro found
      split at found
      · cases found
      · rename_i loose
        cases found
        exact .body fun atomic => loose (isAtomic_iff.mpr atomic)
    · rintro (_ | _ | loose)
      exact if_neg fun atomic => loose (isAtomic_iff.mp atomic)
  | concat items =>
    rw [fault_concat, Option.map_eq_some_iff]
    constructor
    · rintro ⟨e, first, rfl⟩
      obtain ⟨before, after, rfl, kept, lost⟩ := (find_first not_isItem_iff).mp first
      exact .item kept lost
    · rintro (_ | _ | _ | ⟨kept, lost⟩)
      exact ⟨_, (find_first not_isItem_iff).mpr ⟨_, _, rfl, kept, lost⟩, rfl⟩
  | alternate branches =>
    rw [fault_alternate, Option.map_eq_some_iff]
    constructor
    · rintro ⟨e, first, rfl⟩
      obtain ⟨before, after, rfl, kept, lost⟩ := (find_first not_isBranch_iff).mp first
      exact .branch kept lost
    · rintro (_ | _ | _ | _ | ⟨kept, lost⟩)
      exact ⟨_, (find_first not_isBranch_iff).mpr ⟨_, _, rfl, kept, lost⟩, rfl⟩

def barring (fault : Option SpellingError) (t : List UInt8) : Except SpellingError (List UInt8) :=
  match fault with
  | some err => .error err
  | none => .ok t

theorem barring_none (t : List UInt8) : .ok t = barring none t := rfl

theorem andThen_barring (fault later : Option SpellingError) (t u : List UInt8) :
    andThen (barring fault t) (barring later u) = barring (fault.or later) (t ++ u) := by
  cases fault <;> cases later <;> rfl

theorem firstFault_eq (e : Expr) :
    e.nodes.findSome? fault? = e.fault?.or ((e.children.flatMap nodes).findSome? fault?) := by
  rw [nodes_eq, List.findSome?_cons]
  cases e.fault? <;> rfl

theorem intercalate_nothing (ts : List (List UInt8)) : [].intercalate ts = ts.flatten := by
  induction ts with
  | nil => rfl
  | cons t ts ih =>
    cases ts with
    | nil => simp
    | cons u ts =>
      rw [List.intercalate_cons_cons, ih, List.append_nil]
      rfl

theorem spellAll_barring {separator : List UInt8} {es : List Expr}
    (each : ∀ e ∈ es, e.spell = barring (e.nodes.findSome? fault?) e.text) :
    spellAll separator es =
      barring ((es.flatMap nodes).findSome? fault?) (separator.intercalate (texts es)) := by
  induction es with
  | nil => rfl
  | cons e es ih =>
    obtain ⟨first, later⟩ := List.forall_mem_cons.mp each
    cases es with
    | nil => simpa [spellAll, texts] using first
    | cons f es =>
      calc spellAll separator (e :: f :: es)
          = andThen e.spell (andThen (barring none separator) (spellAll separator (f :: es))) := by
            rw [spellAll, barring_none]
        _ = barring ((e.nodes.findSome? fault?).or (((f :: es).flatMap nodes).findSome? fault?))
              (e.text ++ (separator ++ separator.intercalate (texts (f :: es)))) := by
            rw [first, ih later, andThen_barring, andThen_barring, Option.none_or]
        _ = _ := by
            simp only [List.flatMap_cons, List.findSome?_append, texts, List.intercalate_cons_cons,
              List.append_assoc]

theorem spell_barring (e : Expr) : e.spell = barring (e.nodes.findSome? fault?) e.text := by
  induction e with
  | dot | literal | bytes | foreign => rfl
  | empty a => cases a <;> rfl
  | capture i body ih =>
    rw [firstFault_eq, spell, ih, text, barring_none, barring_none, andThen_barring,
      andThen_barring, Option.or_none]
    simp only [children, List.flatMap_singleton]
    rfl
  | repetition body min max greedy ih =>
    rw [firstFault_eq, fault_repetition, spell, ih, text]
    simp only [children, List.flatMap_singleton]
    split
    · rw [barring_none, andThen_barring, Option.or_none, Option.none_or]
    · rfl
  | concat items ih =>
    rw [firstFault_eq, fault_concat, spell, text]
    -- all items are judged before the first of them is written
    cases items.find? fun e => !e.isItem with
    | some item => rfl
    | none =>
      simp only [spellAll_barring ih, children, Option.map_none, Option.none_or,
        intercalate_nothing]
  | alternate branches ih =>
    rw [firstFault_eq, fault_alternate, spell, text]
    cases branches.find? fun e => !e.isBranch with
    | some branch => rfl
    | none => simp only [spellAll_barring ih, children, Option.map_none, Option.none_or]

theorem pattern_error_iff {t : Expr} {err : SpellingError} :
    t.pattern = .error err ↔ t.nodes.findSome? fault? = some err := by
  rw [pattern_eq_spell, spell_barring]
  cases t.nodes.findSome? fault? <;> simp [barring]

theorem pattern_ok_iff {t : Expr} {r : List UInt8} :
    t.pattern = .ok r ↔ t.nodes.findSome? fault? = none ∧ r = t.text := by
  rw [pattern_eq_spell, spell_barring]
  cases t.nodes.findSome? fault? <;> simp [barring, eq_comm]

/-- A tree has no pattern exactly if it has a faulty node, and it is the first faulty node in
preorder that is reported. A tree without faulty nodes has its text for a pattern. -/
theorem pattern_outcome (t : Expr) :
    ((∃ err, t.pattern = .error err) ↔ ∃ x ∈ t.nodes, Faulty x) ∧
    (∀ err, t.pattern = .error err ↔
      ∃ before x after, t.nodes = before ++ x :: after ∧ (∀ y ∈ before, ¬ Faulty y) ∧
        Fault x err) ∧
    ∀ r, t.pattern = .ok r ↔ (∀ x ∈ t.nodes, ¬ Faulty x) ∧ r = t.text := by
  refine ⟨?_, ?_, ?_⟩
  · have refused : (∃ err, t.pattern = .error err) ↔ ¬ ∀ x ∈ t.nodes, ¬ Faulty x := by
      simp only [pattern_error_iff, ← Option.ne_none_iff_exists', ne_eq, fault_none_iff,
        List.findSome?_eq_none_iff]
    rw [refused]
    simp
  · intro err
    simp only [pattern_error_iff, List.findSome?_eq_some_iff, fault_iff, fault_none_iff]
    constructor
    · rintro ⟨before, x, after, nodes, fault, sound⟩
      exact ⟨before, x, after, nodes, sound, fault⟩
    · rintro ⟨before, x, after, nodes, sound, fault⟩
      exact ⟨before, x, after, nodes, fault, sound⟩
  · intro r
    simp only [pattern_ok_iff, List.findSome?_eq_none_iff, fault_none_iff]

end ByteRegex.Expr

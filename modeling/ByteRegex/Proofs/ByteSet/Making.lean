import ByteRegex.Proofs.ByteSet.Sweep

/-!
Sets made one after another, each from numbers or from sets made before. With plain lists of bounds
and with ranges in normal form the same steps make the same sets and fail in the same way, so every
list of bounds that can be made is canonical.
-/

namespace ByteRegex

structure SetOperations (σ : Type) where
  ofNumbers : List (Number × Number) → Except InvalidRange σ
  ofMembers : List Number → Except InvalidRange σ
  empty : σ
  full : σ
  negate : σ → σ
  union : σ → σ → Except InvalidRange σ

/-- An operation, with the places of its operands among the sets made before. -/
inductive SetStep where
  | ofNumbers (pairs : List (Number × Number))
  | ofMembers (members : List Number)
  | empty
  | full
  | negate (place : Nat)
  | union (first second : Nat)

namespace SetOperations

variable {σ τ : Type}

/-- What a step comes to after the sets `made`. A place beyond them stands for the empty set. -/
def outcome (ops : SetOperations σ) (made : List σ) : SetStep → Except InvalidRange σ
  | .ofNumbers pairs => ops.ofNumbers pairs
  | .ofMembers members => ops.ofMembers members
  | .empty => .ok ops.empty
  | .full => .ok ops.full
  | .negate place => .ok (ops.negate (made.getD place ops.empty))
  | .union first second => ops.union (made.getD first ops.empty) (made.getD second ops.empty)

def perform (ops : SetOperations σ) (made : List σ) : List SetStep → List (Except InvalidRange σ)
  | [] => []
  | step :: rest =>
    let result := ops.outcome made step
    result :: ops.perform (made ++ result.toOption.toList) rest

structure Respects (ops : SetOperations σ) (others : SetOperations τ) (f : σ → τ) : Prop where
  ofNumbers : ∀ pairs, others.ofNumbers pairs = (ops.ofNumbers pairs).map f
  ofMembers : ∀ members, others.ofMembers members = (ops.ofMembers members).map f
  empty : others.empty = f ops.empty
  full : others.full = f ops.full
  negate : ∀ s, others.negate (f s) = f (ops.negate s)
  union : ∀ s t, others.union (f s) (f t) = (ops.union s t).map f

section Respects

variable {ops : SetOperations σ} {others : SetOperations τ} {f : σ → τ}

theorem operand_map (h : Respects ops others f) (made : List σ) (place : Nat) :
    (made.map f).getD place others.empty = f (made.getD place ops.empty) := by
  rw [h.empty, List.getD_eq_getElem?_getD, List.getD_eq_getElem?_getD, List.getElem?_map,
    Option.getD_map]

theorem outcome_map (h : Respects ops others f) (made : List σ) (step : SetStep) :
    others.outcome (made.map f) step = (ops.outcome made step).map f := by
  cases step with
  | ofNumbers pairs => exact h.ofNumbers pairs
  | ofMembers members => exact h.ofMembers members
  | empty => exact congrArg Except.ok h.empty
  | full => exact congrArg Except.ok h.full
  | negate place =>
    simp only [outcome, operand_map h, h.negate]
    rfl
  | union first second => simp only [outcome, operand_map h, h.union]

theorem perform_map (h : Respects ops others f) (made : List σ) (steps : List SetStep) :
    others.perform (made.map f) steps = (ops.perform made steps).map (Except.map f) := by
  induction steps generalizing made with
  | nil => rfl
  | cons step rest ih =>
    have grown : made.map f ++ ((ops.outcome made step).map f).toOption.toList =
        (made ++ (ops.outcome made step).toOption.toList).map f := by
      cases ops.outcome made step with
      | error e => simp [Except.map, Except.toOption]
      | ok s => simp [Except.map, Except.toOption]
    simp only [perform, outcome_map h, grown, ih, List.map_cons]

end Respects

end SetOperations

namespace Span

def ofPair? (pair : Number × Number) : Option Span :=
  match pair.1.toInt?, pair.2.toInt? with
  | some low, some high => some ⟨low, high⟩
  | _, _ => none

def ofNumbers (pairs : List (Number × Number)) : Except InvalidRange (List Span) :=
  match firstInvalid? pairs with
  | some pair => .error ⟨pair.1, pair.2⟩
  | none => .ok (sweep (pairs.filterMap ofPair?))

end Span

namespace SetOperations

def byteSets : SetOperations ByteSet where
  ofNumbers := ByteSet.ofNumbers
  ofMembers := ByteSet.ofMembers
  empty := .empty
  full := .full
  negate := .negate
  union s t := .ok (s.union t)

/-- Sets as lists of bounds. A union is made from the bounds of both sets, like any set from
numbers, but the gaps are not checked. -/
def plain : SetOperations (List Span) where
  ofNumbers := Span.ofNumbers
  ofMembers members := Span.ofNumbers (members.map fun x => (x, x))
  empty := []
  full := [⟨0, 255⟩]
  negate := Span.gaps 0
  union s t := Span.ofNumbers ((s ++ t).map Span.pair)

end SetOperations

namespace Span

theorem ofPair_of_range {pair : Number × Number} {r : ByteRange} (h : range? pair = some r) :
    ofPair? pair = some r.span := by
  obtain ⟨first, second⟩ := bounds_of_range h
  unfold ofPair?
  rw [Option.mem_def.mp first, Option.mem_def.mp second]
  rfl

theorem filterMap_ofPair {pairs : List (Number × Number)}
    (valid : ∀ pair ∈ pairs, ¬ Invalid pair) :
    pairs.filterMap ofPair? = (pairs.filterMap range?).map ByteRange.span := by
  induction pairs with
  | nil => rfl
  | cons pair rest ih =>
    obtain ⟨first, later⟩ := List.forall_mem_cons.mp valid
    cases range : range? pair with
    | none => exact absurd (range_none_iff.mp range) first
    | some r =>
      rw [List.filterMap_cons_some (ofPair_of_range range), List.filterMap_cons_some range,
        List.map_cons, ih later]

theorem ofNumbers_spans (pairs : List (Number × Number)) :
    ofNumbers pairs = (ByteSet.ofNumbers pairs).map ByteSet.spans := by
  unfold ofNumbers
  rw [ByteSet.ofNumbers_eq]
  cases first : firstInvalid? pairs with
  | some pair => rfl
  | none =>
    simp only [filterMap_ofPair (firstInvalid_none_iff.mp first), sweep_spans]
    rfl

end Span

theorem ByteSet.union_eq_ofRanges (s t : ByteSet) : s.union t = ofRanges (s.ranges ++ t.ranges) := by
  apply eq_of_holds
  intro x
  rw [union_holds, ofRanges_holds, anyHolds_append]
  exact Iff.rfl

namespace SetOperations

theorem byteSets_respects : Respects byteSets plain ByteSet.spans where
  ofNumbers := Span.ofNumbers_spans
  ofMembers members := Span.ofNumbers_spans (members.map fun x => (x, x))
  empty := rfl
  full := rfl
  negate s := Span.gaps_spans 0 s.ranges
  union s t := by
    have pairs := Span.ofNumbers_pairs (s.ranges ++ t.ranges)
    rw [List.map_append] at pairs
    simp only [plain, Span.ofNumbers_spans, byteSets, ByteSet.spans, pairs,
      ByteSet.union_eq_ofRanges]

/-- Whatever sets are made one after another, the lists of their bounds are canonical, and they are
those of the ranges in normal form. Numbers are refused exactly if a pair of them is invalid, and it
is the first such pair that is named. -/
theorem perform_canonical (steps : List SetStep) :
    plain.perform [] steps = (byteSets.perform [] steps).map (Except.map ByteSet.spans) ∧
    (∀ ranges, .ok ranges ∈ plain.perform [] steps → Span.Canonical ranges) ∧
    ∀ pairs, ((∃ e, ByteSet.ofNumbers pairs = .error e) ↔ ∃ pair ∈ pairs, Invalid pair) ∧
      ∀ e, ByteSet.ofNumbers pairs = .error e ↔
        ∃ before after, pairs = before ++ (e.low, e.high) :: after ∧ Invalid (e.low, e.high) ∧
          ∀ pair ∈ before, ¬ Invalid pair := by
  have same : plain.perform [] steps = _ := perform_map byteSets_respects [] steps
  refine ⟨same, ?_, ?_⟩
  · intro ranges made
    rw [same] at made
    obtain ⟨result, _, spans⟩ := List.mem_map.mp made
    cases result with
    | error e => cases spans
    | ok s =>
      cases spans
      exact Span.spans_canonical s
  · intro pairs
    exact ⟨ByteSet.ofNumbers_fails_iff pairs, ByteSet.ofNumbers_error_iff pairs⟩

theorem perform_canonical_negated :
    let steps : List SetStep :=
      [.ofNumbers [(.finite 110, .finite 255), (.finite 97, .finite 99), (.finite 100, .finite 105)],
        .ofNumbers [(.finite 1, .finite 2), (.finite 5, .finite 3), (.finite 300, .finite 9)],
        .negate 0, .union 1 0]
    plain.perform [] steps =
        [.ok [⟨97, 105⟩, ⟨110, 255⟩], .error ⟨.finite 5, .finite 3⟩, .ok [⟨0, 96⟩, ⟨106, 109⟩],
          .ok [⟨0, 255⟩]] ∧
      Span.Canonical [⟨0, 96⟩, ⟨106, 109⟩] := by
  intro steps
  obtain ⟨same, canonical, _⟩ := perform_canonical steps
  have made : plain.perform [] steps =
      [.ok [⟨97, 105⟩, ⟨110, 255⟩], .error ⟨.finite 5, .finite 3⟩, .ok [⟨0, 96⟩, ⟨106, 109⟩],
        .ok [⟨0, 255⟩]] := by
    rw [same]
    rfl
  refine ⟨made, canonical _ ?_⟩
  rw [made]
  simp

end SetOperations

end ByteRegex

import ByteRegex.Expr.Identity
import ByteRegex.Proofs.Expr.Regular
import ByteRegex.Proofs.Grammar.Soundness

namespace ByteRegex.Grammar

open ByteRegex.Expr (BoundsAllowed Regular regular_iff regular_leaf)
open ByteRegex.Expr (numbers numbers_self numbers_append)

theorem counts_allowed {ceiling low : Nat} {high : Option Nat} (small : low ≤ ceiling)
    (ordered : ∀ n, high = some n → low ≤ n ∧ n ≤ ceiling) :
    BoundsAllowed ceiling low (high.map Int.ofNat) := by
  refine Or.inr (Or.inr (Or.inr ⟨by omega, by omega, ?_⟩))
  intro top eq
  obtain ⟨n, same, rfl⟩ := Option.map_eq_some_iff.mp eq
  obtain ⟨le, below⟩ := ordered n same
  exact ⟨Int.ofNat_le.mpr le, Int.ofNat_le.mpr below⟩

theorem bounds_allowed {ceiling : Nat} {counts : Counts} {bounds : Bounds}
    (h : counts.bounds ceiling = .ok bounds) :
    BoundsAllowed ceiling bounds.min (bounds.max.map Int.ofNat) := by
  cases counts with
  | exactly n =>
    simp only [Counts.bounds] at h
    split at h <;> cases h
    have small : n.value ≤ ceiling := by omega
    apply counts_allowed small
    intro top eq
    cases eq
    exact ⟨Nat.le_refl _, small⟩
  | atLeast n =>
    simp only [Counts.bounds] at h
    split at h <;> cases h
    have small : n.value ≤ ceiling := by omega
    apply counts_allowed small
    intro top eq
    cases eq
  | between low high =>
    simp only [Counts.bounds] at h
    split at h
    · cases h
    · split at h
      · cases h
      · split at h <;> cases h
        have small : low.value ≤ ceiling := by omega
        have ordered : low.value ≤ high.value ∧ high.value ≤ ceiling := by omega
        apply counts_allowed small
        intro top eq
        cases eq
        exact ordered

theorem quantifier_allowed {ceiling : Nat} {s rest : List UInt8} {bounds : Bounds}
    (h : Quantifier ceiling s bounds rest) :
    BoundsAllowed ceiling bounds.min (bounds.max.map Int.ofNat) := by
  cases h with
  | star => exact Or.inl ⟨rfl, rfl⟩
  | plus => exact Or.inr (Or.inl ⟨rfl, rfl⟩)
  | question => exact Or.inr (Or.inr (Or.inl ⟨rfl, rfl⟩))
  | braces body =>
    unfold Bounds.read at body
    split at body
    · cases body
    · split at body
      · cases body
      · rename_i counts _ _ _ _ read
        cases body
        exact bounds_allowed read

theorem code_regular (ceiling : Nat) (b : UInt8) : Regular ceiling (.literal b.toNat) := by
  have := b.toNat_lt
  refine regular_leaf rfl ⟨?_, ?_⟩ <;> omega

theorem symbol_regular {s rest : List UInt8} {e : Expr} (ceiling : Nat) (h : Symbol s e rest) :
    e.isAtomic ∧ e.Regular ceiling := by
  cases h with
  | dot | set => exact ⟨rfl, regular_leaf rfl trivial⟩
  | beginLine => exact ⟨rfl, regular_leaf rfl (Or.inr (Or.inl rfl))⟩
  | endLine => exact ⟨rfl, regular_leaf rfl (Or.inr (Or.inr rfl))⟩
  | escape | byte => exact ⟨rfl, code_regular ceiling _⟩

theorem quantified_regular {ceiling : Nat} {e : Expr} {bounds : Bounds} {greedy : Bool}
    (h : e.isAtomic ∧ e.Regular ceiling)
    (allowed : BoundsAllowed ceiling bounds.min (bounds.max.map Int.ofNat)) :
    (quantified e bounds greedy).isItem ∧ (quantified e bounds greedy).Regular ceiling := by
  refine ⟨rfl, regular_iff.mpr ⟨⟨h.1, allowed⟩, ?_⟩⟩
  intro child member
  rw [List.mem_singleton.mp member]
  exact h.2

theorem sequence_regular {ceiling : Nat} {es : List Expr} (nonempty : es ≠ [])
    (each : ∀ e ∈ es, e.isItem ∧ e.Regular ceiling) :
    (sequence es).isBranch ∧ (sequence es).Regular ceiling := by
  match es with
  | [e] =>
    have one := each e (by simp)
    exact ⟨Expr.isBranch_of_isItem one.1, one.2⟩
  | e :: f :: rest =>
    refine ⟨rfl, regular_iff.mpr ⟨⟨by simp, fun x member => (each x member).1⟩, ?_⟩⟩
    exact fun x member => (each x member).2

theorem choice_regular {ceiling : Nat} {es : List Expr} (nonempty : es ≠ [])
    (each : ∀ e ∈ es, e.isBranch ∧ e.Regular ceiling) :
    choice es ≠ .empty .none ∧ (choice es).Regular ceiling := by
  match es with
  | [e] =>
    have one := each e (by simp)
    exact ⟨(Expr.isBranch_iff.mp one.1).2, one.2⟩
  | e :: f :: rest =>
    have node : Expr.RegularNode ceiling (.alternate (e :: f :: rest)) :=
      ⟨by simp, fun x member => (each x member).1⟩
    exact ⟨by simp [choice, joined], regular_iff.mpr ⟨node, fun x member => (each x member).2⟩⟩

mutual

theorem pattern_regular {ceiling n m : Nat} {s rest : List UInt8} {e : Expr} :
    Pattern ceiling n s e m rest → e.Regular ceiling ∧ (e = .empty .none → s = rest)
  | .nothing _ _ => ⟨regular_leaf rfl (Or.inl rfl), fun _ => rfl⟩
  | .branches all => by
    obtain ⟨nonempty, each⟩ := branches_regular all
    obtain ⟨some, regular⟩ := choice_regular nonempty each
    exact ⟨regular, fun none => absurd none some⟩

theorem branches_regular {ceiling n m : Nat} {s rest : List UInt8} {es : List Expr} :
    Branches ceiling n s es m rest → es ≠ [] ∧ ∀ e ∈ es, e.isBranch ∧ e.Regular ceiling
  | .one branch => by
    obtain ⟨nonempty, each⟩ := branch_regular branch
    refine ⟨by simp, ?_⟩
    intro e member
    rw [List.mem_singleton.mp member]
    exact sequence_regular nonempty each
  | .more earlier branch => by
    obtain ⟨nonempty, each⟩ := branch_regular branch
    refine ⟨by simp, ?_⟩
    intro e member
    rcases List.mem_append.mp member with before | last
    · exact (branches_regular earlier).2 e before
    · rw [List.mem_singleton.mp last]
      exact sequence_regular nonempty each

theorem branch_regular {ceiling n m : Nat} {s rest : List UInt8} {es : List Expr} :
    Branch ceiling n s es m rest → es ≠ [] ∧ ∀ e ∈ es, e.isItem ∧ e.Regular ceiling
  | .one piece => by
    refine ⟨by simp, ?_⟩
    intro e member
    rw [List.mem_singleton.mp member]
    exact piece_regular piece
  | .more earlier piece => by
    refine ⟨by simp, ?_⟩
    intro e member
    rcases List.mem_append.mp member with before | last
    · exact (branch_regular earlier).2 e before
    · rw [List.mem_singleton.mp last]
      exact piece_regular piece

theorem piece_regular {ceiling n m : Nat} {s rest : List UInt8} {e : Expr} :
    Piece ceiling n s e m rest → e.isItem ∧ e.Regular ceiling
  | .plain atom => by
    obtain ⟨atomic, regular⟩ := atom_regular atom
    exact ⟨Expr.isItem_of_isAtomic atomic, regular⟩
  | .greedy atom quantifier =>
    quantified_regular (atom_regular atom) (quantifier_allowed quantifier)
  | .lazy atom quantifier =>
    quantified_regular (atom_regular atom) (quantifier_allowed quantifier)

theorem atom_regular {ceiling n m : Nat} {s rest : List UInt8} {e : Expr} :
    Atom ceiling n s e m rest → e.isAtomic ∧ e.Regular ceiling
  | .symbol _ plain => symbol_regular ceiling plain
  | .group body => by
    refine ⟨rfl, regular_iff.mpr ⟨trivial, ?_⟩⟩
    intro child member
    rw [List.mem_singleton.mp member]
    exact (pattern_regular body).1

end

theorem symbol_captures {s rest : List UInt8} {e : Expr} (h : Symbol s e rest) :
    e.captures = [] := by
  cases h <;> rfl

theorem joined_captures {node : List Expr → Expr}
    (children : ∀ es, (node es).captures = es.flatMap Expr.captures) (es : List Expr) :
    (joined node es).captures = es.flatMap Expr.captures := by
  match es with
  | [] => exact children []
  | [e] => exact (List.flatMap_singleton Expr.captures e).symm
  | e :: f :: rest => exact children (e :: f :: rest)

theorem sequence_captures (es : List Expr) : (sequence es).captures = es.flatMap Expr.captures :=
  joined_captures Expr.captures_concat es

theorem choice_captures (es : List Expr) : (choice es).captures = es.flatMap Expr.captures :=
  joined_captures Expr.captures_alternate es

mutual

theorem pattern_captures {limit : Int} {n m : Nat} {s rest : List UInt8} {e : Expr} :
    Pattern limit n s e m rest → n ≤ m ∧ e.captures = numbers n m
  | .nothing _ _ => ⟨Nat.le_refl n, (numbers_self n).symm⟩
  | .branches all => by
    rw [choice_captures]
    exact branches_captures all

theorem branches_captures {limit : Int} {n m : Nat} {s rest : List UInt8} {es : List Expr} :
    Branches limit n s es m rest → n ≤ m ∧ es.flatMap Expr.captures = numbers n m
  | .one branch => by
    rw [List.flatMap_singleton, sequence_captures]
    exact branch_captures branch
  | .more earlier branch => by
    obtain ⟨low, before⟩ := branches_captures earlier
    obtain ⟨high, last⟩ := branch_captures branch
    refine ⟨Nat.le_trans low high, ?_⟩
    rw [List.flatMap_append, List.flatMap_singleton, sequence_captures, before, last,
      numbers_append low high]

theorem branch_captures {limit : Int} {n m : Nat} {s rest : List UInt8} {es : List Expr} :
    Branch limit n s es m rest → n ≤ m ∧ es.flatMap Expr.captures = numbers n m
  | .one piece => by
    rw [List.flatMap_singleton]
    exact piece_captures piece
  | .more earlier piece => by
    obtain ⟨low, before⟩ := branch_captures earlier
    obtain ⟨high, last⟩ := piece_captures piece
    refine ⟨Nat.le_trans low high, ?_⟩
    rw [List.flatMap_append, List.flatMap_singleton, before, last, numbers_append low high]

theorem piece_captures {limit : Int} {n m : Nat} {s rest : List UInt8} {e : Expr} :
    Piece limit n s e m rest → n ≤ m ∧ e.captures = numbers n m
  | .plain atom => atom_captures atom
  | .greedy atom _ => by
    rw [quantified, Expr.captures_repetition]
    exact atom_captures atom
  | .lazy atom _ => by
    rw [quantified, Expr.captures_repetition]
    exact atom_captures atom

theorem atom_captures {limit : Int} {n m : Nat} {s rest : List UInt8} {e : Expr} :
    Atom limit n s e m rest → n ≤ m ∧ e.captures = numbers n m
  | .symbol _ plain => ⟨Nat.le_refl n, by rw [symbol_captures plain, numbers_self]⟩
  | .group body => by
    obtain ⟨low, inner⟩ := pattern_captures body
    refine ⟨by omega, ?_⟩
    rw [Expr.captures_capture, inner, Expr.numbers_cons low]

end

theorem parse_regular {options : Options} {p : List UInt8} {t : Expr}
    (read : options.parse p = .ok t) : t.Regular options.ceiling ∧ t.Numbered := by
  obtain ⟨n, pattern⟩ := pattern_of_parse read
  exact ⟨(pattern_regular pattern).1, Expr.numbered_of_captures (pattern_captures pattern).2⟩

/-- A tree that is read is well formed, and only the empty pattern is read as the empty match. -/
theorem parse_wellFormed (options : Options) (p : List UInt8) (t : Expr)
    (read : options.parse p = .ok t) :
    t.WellFormed options.ceiling ∧ (t = .empty .none → p = []) := by
  obtain ⟨n, pattern⟩ := pattern_of_parse read
  obtain ⟨regular, numbered⟩ := parse_regular read
  exact ⟨Expr.regular_wellFormed regular numbered, (pattern_regular pattern).2⟩

/-- The pattern `()|(a{2}?)$`: the empty match stands in a group, and the groups are 1 and 2. -/
theorem parse_wellFormed_groups :
    let p : List UInt8 := [40, 41, 124, 40, 97, 123, 50, 125, 63, 41, 36]
    let t : Expr := .alternate
      [.capture 1 (.empty .none),
       .concat [.capture 2 (.repetition (.literal 97) 2 (some 2) false), .empty .endLine]]
    (Options.traced false).parse p = .ok t ∧
      t.WellFormed (Options.traced false).ceiling ∧ (t = .empty .none → p = []) := by
  intro p t
  have read : (Options.traced false).parse p = .ok t := by decide +kernel
  exact ⟨read, parse_wellFormed _ p t read⟩

end ByteRegex.Grammar

import ByteRegex.Proofs.Grammar.Trees

namespace ByteRegex

namespace Expr

def shift (k : Nat) (e : Expr) : Expr := e.renumber fun i => i + k

def branches : Expr → List Expr
  | .alternate es => es
  | e => [e]

def items : Expr → List Expr
  | .concat es => es
  | e => [e]

theorem shift_capture (k : Nat) (i : Int) (body : Expr) :
    (capture i body).shift k = .capture (i + k) (body.shift k) := by
  simp only [shift, renumber]

theorem shift_repetition (k : Nat) (body : Expr) (min : Int) (max : Option Int) (greedy : Bool) :
    (repetition body min max greedy).shift k = .repetition (body.shift k) min max greedy := by
  simp only [shift, renumber]

theorem shift_concat (k : Nat) (es : List Expr) :
    (concat es).shift k = .concat (es.map (shift k)) := by
  rw [shift, renumber, renumberAll_eq]
  rfl

theorem shift_alternate (k : Nat) (es : List Expr) :
    (alternate es).shift k = .alternate (es.map (shift k)) := by
  rw [shift, renumber, renumberAll_eq]
  rfl

end Expr

namespace Grammar

open ByteRegex.Expr (shift shift_capture shift_repetition shift_concat shift_alternate)

theorem symbol_shift {s rest : List UInt8} {e : Expr} (h : Symbol s e rest) (k : Nat) :
    e.shift k = e := by
  cases h <;> simp only [shift, Expr.renumber]

theorem joined_shift {node : List Expr → Expr} {k : Nat}
    (children : ∀ es, (node es).shift k = node (es.map (shift k))) (es : List Expr) :
    (joined node es).shift k = joined node (es.map (shift k)) := by
  match es with
  | [] => exact children []
  | [e] => rfl
  | e :: f :: rest => exact children (e :: f :: rest)

theorem sequence_shift (k : Nat) (es : List Expr) :
    (sequence es).shift k = sequence (es.map (shift k)) :=
  joined_shift (shift_concat k) es

theorem choice_shift (k : Nat) (es : List Expr) :
    (choice es).shift k = choice (es.map (shift k)) :=
  joined_shift (shift_alternate k) es

-- Only the groups count, so each phrase is rebuilt from its moved parts.
mutual

theorem pattern_shift {limit : Int} {n m : Nat} {s rest : List UInt8} {e : Expr} (k : Nat) :
    Pattern limit n s e m rest → Pattern limit (k + n) s (e.shift k) (k + m) rest
  | .nothing _ _ => .nothing (k + n) s
  | .branches all => by
    rw [choice_shift]
    exact .branches (branches_shift k all)

theorem branches_shift {limit : Int} {n m : Nat} {s rest : List UInt8} {es : List Expr} (k : Nat) :
    Branches limit n s es m rest →
    Branches limit (k + n) s (es.map (shift k)) (k + m) rest
  | .one branch => by
    rw [List.map_singleton, sequence_shift]
    exact .one (branch_shift k branch)
  | .more earlier branch => by
    rw [List.map_append, List.map_singleton, sequence_shift]
    exact .more (branches_shift k earlier) (branch_shift k branch)

theorem branch_shift {limit : Int} {n m : Nat} {s rest : List UInt8} {es : List Expr} (k : Nat) :
    Branch limit n s es m rest → Branch limit (k + n) s (es.map (shift k)) (k + m) rest
  | .one piece => .one (piece_shift k piece)
  | .more earlier piece => by
    rw [List.map_append]
    exact .more (branch_shift k earlier) (piece_shift k piece)

theorem piece_shift {limit : Int} {n m : Nat} {s rest : List UInt8} {e : Expr} (k : Nat) :
    Piece limit n s e m rest → Piece limit (k + n) s (e.shift k) (k + m) rest
  | .plain atom => .plain (atom_shift k atom)
  | .greedy atom quantifier => by
    rw [quantified, shift_repetition]
    exact .greedy (atom_shift k atom) quantifier
  | .lazy atom quantifier => by
    rw [quantified, shift_repetition]
    exact .lazy (atom_shift k atom) quantifier

theorem atom_shift {limit : Int} {n m : Nat} {s rest : List UInt8} {e : Expr} (k : Nat) :
    Atom limit n s e m rest → Atom limit (k + n) s (e.shift k) (k + m) rest
  | .symbol _ plain => by
    rw [symbol_shift plain]
    exact .symbol (k + n) plain
  | .group body => by
    have moved : ((n + 1 : Nat) : Int) + k = ((k + n + 1 : Nat) : Int) := by omega
    rw [shift_capture, moved]
    exact .group (pattern_shift k body)

end

theorem branch_settled {limit : Int} {n m : Nat} {s rest : List UInt8} {es : List Expr} :
    Branch limit n s es m rest → Settled s
  | .one piece => piece_settled piece
  | .more earlier _ => branch_settled earlier

theorem branches_settled {limit : Int} {n m : Nat} {s rest : List UInt8} {es : List Expr} :
    Branches limit n s es m rest → Settled s
  | .one branch => branch_settled branch
  | .more earlier _ => branches_settled earlier

theorem pattern_branches {limit : Int} {n m : Nat} {s rest : List UInt8} {e : Expr}
    (h : Pattern limit n s e m rest) (some : s ≠ rest) :
    ∃ es, e = choice es ∧ Branches limit n s es m rest := by
  cases h with
  | nothing => exact absurd rfl some
  | branches all => exact ⟨_, rfl, all⟩

theorem joined_append {node : List Expr → Expr} {es fs : List Expr} (first : es ≠ [])
    (second : fs ≠ []) : joined node (es ++ fs) = node (es ++ fs) := by
  match es, fs with
  | [e], f :: fs => rfl
  | e :: e' :: es, fs => rfl

theorem choice_parts {ceiling n m : Nat} {s rest : List UInt8} {es : List Expr}
    (h : Branches ceiling n s es m rest) : (choice es).branches = es := by
  obtain ⟨nonempty, each⟩ := branches_regular h
  match es with
  | [e] =>
    have plain := (Expr.isBranch_iff.mp (each e (by simp)).1).1
    cases e with
    | alternate fs => exact absurd rfl (plain fs)
    | _ => rfl
  | e :: f :: rest => rfl

theorem sequence_parts {ceiling n m : Nat} {s rest : List UInt8} {es : List Expr}
    (h : Branch ceiling n s es m rest) : (sequence es).items = es := by
  obtain ⟨nonempty, each⟩ := branch_regular h
  match es with
  | [e] =>
    have plain := (Expr.isItem_iff.mp (each e (by simp)).1).1
    cases e with
    | concat fs => exact absurd rfl (plain fs)
    | _ => rfl
  | e :: f :: rest => rfl

theorem branch_append {limit : Int} {n k m : Nat} {s t rest : List UInt8} {es fs : List Expr}
    (first : Branch limit n s es k t) :
    Branch limit k t fs m rest → Branch limit n s (es ++ fs) m rest
  | .one piece => .more first piece
  | .more earlier piece => by
    rw [← List.append_assoc]
    exact .more (branch_append first earlier) piece

theorem branches_append {limit : Int} {n k m : Nat} {s t rest : List UInt8} {es fs : List Expr}
    (first : Branches limit n s es k (Byte.bar :: t)) :
    Branches limit k t fs m rest → Branches limit n s (es ++ fs) m rest
  | .one branch => .more first branch
  | .more earlier branch => by
    rw [← List.append_assoc]
    exact .more (branches_append first earlier) branch

theorem branches_last {limit : Int} {n m : Nat} {s rest : List UInt8} {es : List Expr}
    (h : Branches limit n s es m rest) :
    ∃ init k t items, es = init ++ [sequence items] ∧ Branch limit k t items m rest ∧
      ∀ {j : Nat} {fs : List Expr} {u : List UInt8}, Branch limit k t fs j u →
        Branches limit n s (init ++ [sequence fs]) j u := by
  cases h with
  | one branch => exact ⟨[], _, _, _, rfl, branch, fun other => .one other⟩
  | more earlier branch => exact ⟨_, _, _, _, rfl, branch, fun other => .more earlier other⟩

/-- Two runs of branches side by side: the branches that meet are one. -/
theorem branches_join {limit : Int} {n k m : Nat} {s t rest : List UInt8} {es fs : List Expr}
    (first : Branches limit n s es k t) : Branches limit k t fs m rest →
    ∃ init last next later, es = init ++ [sequence last] ∧ fs = sequence next :: later ∧
      (∃ j u, Branch limit j u last k t) ∧ (∃ j u, Branch limit k t next j u) ∧
      Branches limit n s (init ++ sequence (last ++ next) :: later) m rest
  | .one branch => by
    obtain ⟨init, j, u, last, rfl, before, extend⟩ := branches_last first
    have whole := extend (branch_append before branch)
    exact ⟨init, last, _, [], rfl, rfl, ⟨j, u, before⟩, ⟨m, rest, branch⟩, whole⟩
  | .more earlier branch => by
    obtain ⟨init, last, next, later, rfl, rfl, before, after, whole⟩ := branches_join first earlier
    refine ⟨init, last, next, later ++ [_], rfl, rfl, before, after, ?_⟩
    have all := Branches.more whole branch
    rwa [List.append_assoc, List.cons_append] at all

end Grammar

end ByteRegex

import ByteRegex.Token

/-!
The notation of patterns as a grammar. Every phrase relates the bytes from its start on to the
bytes left after it, because an escape, a bracket expression or a repeat count takes what its
reader takes there. Groups are numbered by the parentheses that open them: a phrase that starts
after `n` of them ends after `m`.
-/

namespace ByteRegex.Grammar

def reserved : List UInt8 :=
  [Byte.backslash, Byte.dot, Byte.star, Byte.plus, Byte.question, Byte.leftParen, Byte.rightParen,
   Byte.bar, Byte.leftBracket, Byte.leftBrace, Byte.caret, Byte.dollar]

def operators : List UInt8 := [Byte.star, Byte.plus, Byte.question, Byte.leftBrace]

def joined (node : List Expr → Expr) : List Expr → Expr
  | [e] => e
  | es => node es

def sequence : List Expr → Expr := joined .concat

def choice : List Expr → Expr := joined .alternate

def quantified (e : Expr) (bounds : Bounds) (greedy : Bool) : Expr :=
  .repetition e bounds.min (bounds.max.map Int.ofNat) greedy

inductive Quantifier (limit : Int) : List UInt8 → Bounds → List UInt8 → Prop where
  | star (rest : List UInt8) : Quantifier limit (Byte.star :: rest) ⟨0, none⟩ rest
  | plus (rest : List UInt8) : Quantifier limit (Byte.plus :: rest) ⟨1, none⟩ rest
  | question (rest : List UInt8) : Quantifier limit (Byte.question :: rest) ⟨0, some 1⟩ rest
  | braces {s : List UInt8} {bounds : Bounds} {used : Nat}
      (body : Bounds.read limit s = .ok (bounds, used)) :
      Quantifier limit (Byte.leftBrace :: s) bounds (s.drop used)

/-- An atom without a group in it. -/
inductive Symbol : List UInt8 → Expr → List UInt8 → Prop where
  | dot (rest : List UInt8) : Symbol (Byte.dot :: rest) .dot rest
  | beginLine (rest : List UInt8) : Symbol (Byte.caret :: rest) (.empty .beginLine) rest
  | endLine (rest : List UInt8) : Symbol (Byte.dollar :: rest) (.empty .endLine) rest
  | set {s : List UInt8} {set : ByteSet} {used : Nat} (body : Bracket.read s = .ok (set, used)) :
      Symbol (Byte.leftBracket :: s) (.bytes set) (s.drop used)
  | escape {s : List UInt8} {b : UInt8} {used : Nat} (body : Escape.read s = .ok (b, used)) :
      Symbol (Byte.backslash :: s) (.literal b.toNat) (s.drop used)
  | byte {b : UInt8} (plain : b ∉ reserved) (rest : List UInt8) :
      Symbol (b :: rest) (.literal b.toNat) rest

mutual

/-- Nothing, or branches with bars between them. -/
inductive Pattern (limit : Int) : Nat → List UInt8 → Expr → Nat → List UInt8 → Prop where
  | nothing (n : Nat) (s : List UInt8) : Pattern limit n s (.empty .none) n s
  | branches {n m : Nat} {s rest : List UInt8} {es : List Expr}
      (all : Branches limit n s es m rest) : Pattern limit n s (choice es) m rest

inductive Branches (limit : Int) : Nat → List UInt8 → List Expr → Nat → List UInt8 → Prop where
  | one {n m : Nat} {s rest : List UInt8} {es : List Expr}
      (branch : Branch limit n s es m rest) : Branches limit n s [sequence es] m rest
  | more {n k m : Nat} {s t rest : List UInt8} {es items : List Expr}
      (earlier : Branches limit n s es k (Byte.bar :: t)) (branch : Branch limit k t items m rest) :
      Branches limit n s (es ++ [sequence items]) m rest

/-- One or more pieces. -/
inductive Branch (limit : Int) : Nat → List UInt8 → List Expr → Nat → List UInt8 → Prop where
  | one {n m : Nat} {s rest : List UInt8} {e : Expr}
      (piece : Piece limit n s e m rest) : Branch limit n s [e] m rest
  | more {n k m : Nat} {s t rest : List UInt8} {es : List Expr} {e : Expr}
      (earlier : Branch limit n s es k t) (piece : Piece limit k t e m rest) :
      Branch limit n s (es ++ [e]) m rest

/-- An atom with at most one quantifier, which a question mark makes lazy. -/
inductive Piece (limit : Int) : Nat → List UInt8 → Expr → Nat → List UInt8 → Prop where
  | plain {n m : Nat} {s rest : List UInt8} {e : Expr}
      (atom : Atom limit n s e m rest) : Piece limit n s e m rest
  | greedy {n m : Nat} {s t rest : List UInt8} {e : Expr} {bounds : Bounds}
      (atom : Atom limit n s e m t) (quantifier : Quantifier limit t bounds rest) :
      Piece limit n s (quantified e bounds true) m rest
  | lazy {n m : Nat} {s t rest : List UInt8} {e : Expr} {bounds : Bounds}
      (atom : Atom limit n s e m t)
      (quantifier : Quantifier limit t bounds (Byte.question :: rest)) :
      Piece limit n s (quantified e bounds false) m rest

inductive Atom (limit : Int) : Nat → List UInt8 → Expr → Nat → List UInt8 → Prop where
  | symbol {s rest : List UInt8} {e : Expr} (n : Nat) (plain : Symbol s e rest) :
      Atom limit n s e n rest
  | group {n m : Nat} {s rest : List UInt8} {e : Expr}
      (body : Pattern limit (n + 1) s e m (Byte.rightParen :: rest)) :
      Atom limit n (Byte.leftParen :: s) (.capture (n + 1 : Nat) e) m rest

end

def Settled (s : List UInt8) : Prop := ∀ b ∈ s.head?, b ∉ operators

theorem settled_cons {b : UInt8} {s : List UInt8} : Settled (b :: s) ↔ b ∉ operators := by
  simp [Settled]

theorem operators_reserved : operators ⊆ reserved := by decide

theorem symbol_settled {s rest : List UInt8} {e : Expr} (h : Symbol s e rest) : Settled s := by
  cases h with
  | byte plain => exact settled_cons.mpr fun operator => plain (operators_reserved operator)
  | dot | beginLine | endLine | set | escape => exact settled_cons.mpr (by decide)

theorem atom_settled {limit : Int} {n m : Nat} {s rest : List UInt8} {e : Expr}
    (h : Atom limit n s e m rest) : Settled s := by
  cases h with
  | symbol n plain => exact symbol_settled plain
  | group body => exact settled_cons.mpr (by decide)

theorem piece_settled {limit : Int} {n m : Nat} {s rest : List UInt8} {e : Expr}
    (h : Piece limit n s e m rest) : Settled s := by
  cases h with
  | plain atom | greedy atom | lazy atom => exact atom_settled atom

end ByteRegex.Grammar

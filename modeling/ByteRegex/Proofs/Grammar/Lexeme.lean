import ByteRegex.Parse
import ByteRegex.Proofs.Grammar

namespace ByteRegex.Grammar

inductive Lexeme (limit : Int) : List UInt8 → Token → List UInt8 → Prop where
  | symbol {s rest : List UInt8} {e : Expr} (plain : Symbol s e rest) :
      Lexeme limit s (.atom e) rest
  | opening (rest : List UInt8) : Lexeme limit (Byte.leftParen :: rest) .openGroup rest
  | closing (rest : List UInt8) : Lexeme limit (Byte.rightParen :: rest) .closeGroup rest
  | bar (rest : List UInt8) : Lexeme limit (Byte.bar :: rest) .bar rest
  | greedy {s rest : List UInt8} {bounds : Bounds} (quantifier : Quantifier limit s bounds rest)
      (settled : rest.head? ≠ some Byte.question) : Lexeme limit s (.quantifier bounds true) rest
  | lazy {s rest : List UInt8} {bounds : Bounds}
      (quantifier : Quantifier limit s bounds (Byte.question :: rest)) :
      Lexeme limit s (.quantifier bounds false) rest

theorem quantify_lexeme {limit : Int} {s t : List UInt8} {bounds : Bounds} {used n : Nat}
    {token : Token} (quantifier : Quantifier limit s bounds (t.drop used))
    (h : Token.quantify bounds used (t.drop used) = (token, n)) :
    Lexeme limit s token (t.drop n) := by
  unfold Token.quantify at h
  split at h
  · rename_i rest eq
    obtain ⟨rfl, rfl⟩ := Prod.mk.inj h
    have after : t.drop (used + 1) = rest := by rw [← List.drop_drop, eq]; rfl
    rw [after]
    exact .lazy (eq ▸ quantifier)
  · rename_i other
    obtain ⟨rfl, rfl⟩ := Prod.mk.inj h
    apply Lexeme.greedy quantifier
    intro head
    obtain ⟨rest, eq⟩ := List.head?_eq_some_iff.mp head
    exact other rest eq

theorem read_lexeme {limit : Int} {b : UInt8} {s : List UInt8} {token : Token} {used : Nat}
    (h : Token.read limit b s = .ok (token, used)) : Lexeme limit (b :: s) token (s.drop used) := by
  unfold Token.read at h
  split at h
  · cases h; exact .opening s
  · cases h; exact .closing s
  · cases h; exact .bar s
  · exact quantify_lexeme (.star s) (Except.ok.inj h)
  · exact quantify_lexeme (.plus s) (Except.ok.inj h)
  · exact quantify_lexeme (.question s) (Except.ok.inj h)
  · cases body : Bounds.read limit s with
    | error fault => rw [body] at h; cases h
    | ok read => rw [body] at h; exact quantify_lexeme (.braces body) (Except.ok.inj h)
  · cases h; exact .symbol (.dot s)
  · cases h; exact .symbol (.beginLine s)
  · cases h; exact .symbol (.endLine s)
  · cases body : Bracket.read s with
    | error fault => rw [body] at h; cases h
    | ok read => rw [body] at h; cases h; exact .symbol (.set body)
  · cases body : Escape.read s with
    | error fault => rw [body] at h; cases h
    | ok read => rw [body] at h; cases h; exact .symbol (.escape body)
  · cases h
    apply Lexeme.symbol
    apply Symbol.byte
    simp only [reserved, List.mem_cons, List.not_mem_nil, or_false, not_or]
    refine ⟨?_, ?_, ?_, ?_, ?_, ?_, ?_, ?_, ?_, ?_, ?_, ?_⟩ <;> assumption

theorem symbol_read (limit : Int) {b : UInt8} {s rest : List UInt8} {e : Expr}
    (h : Symbol (b :: s) e rest) :
    ∃ used, Token.read limit b s = .ok (.atom e, used) ∧ s.drop used = rest := by
  cases h with
  | dot | beginLine | endLine => exact ⟨0, rfl, rfl⟩
  | @set _ set used body => exact ⟨used, by simp only [Token.read, body]; rfl, rfl⟩
  | @escape _ c used body => exact ⟨used, by simp only [Token.read, body]; rfl, rfl⟩
  | byte plain =>
    refine ⟨0, ?_, rfl⟩
    simp only [reserved, List.mem_cons, List.not_mem_nil, or_false, not_or] at plain
    unfold Token.read
    split
    case h_13 => rfl
    all_goals simp_all

theorem quantifier_read {limit : Int} {b : UInt8} {s rest : List UInt8} {bounds : Bounds}
    (h : Quantifier limit (b :: s) bounds rest) :
    ∃ used, Token.read limit b s = .ok (Token.quantify bounds used (s.drop used)) ∧
      s.drop used = rest := by
  cases h with
  | star | plus | question => exact ⟨0, rfl, rfl⟩
  | @braces _ bounds used body => exact ⟨used, by simp only [Token.read, body]; rfl, rfl⟩

theorem quantifier_nonempty {limit : Int} {s rest : List UInt8} {bounds : Bounds}
    (h : Quantifier limit s bounds rest) : s ≠ [] := by
  cases h <;> simp

theorem lexeme_nonempty {limit : Int} {s rest : List UInt8} {token : Token}
    (h : Lexeme limit s token rest) : s ≠ [] := by
  cases h with
  | symbol plain => cases plain <;> simp
  | opening | closing | bar => simp
  | greedy quantifier | lazy quantifier => exact quantifier_nonempty quantifier

theorem lexeme_read {limit : Int} {b : UInt8} {s rest : List UInt8} {token : Token}
    (h : Lexeme limit (b :: s) token rest) :
    ∃ used, Token.read limit b s = .ok (token, used) ∧ s.drop used = rest := by
  cases h with
  | symbol plain => exact symbol_read limit plain
  | opening | closing | bar => exact ⟨0, rfl, rfl⟩
  | greedy quantifier settled =>
    obtain ⟨used, read, eq⟩ := quantifier_read quantifier
    refine ⟨used, ?_, eq⟩
    rw [read, eq]
    unfold Token.quantify
    split
    · simp at settled
    · rfl
  | lazy quantifier =>
    obtain ⟨used, read, eq⟩ := quantifier_read quantifier
    refine ⟨used + 1, ?_, ?_⟩
    · rw [read, eq]; rfl
    · rw [← List.drop_drop, eq]; rfl

theorem advance_lexeme {limit : Int} {m next : Machine}
    (h : m.advance? limit = some (.ok next)) :
    ∃ token, Lexeme limit m.rest token next.rest ∧
      m.table.add m.index token = .ok next.table := by
  unfold Machine.advance? at h
  split at h
  · cases h
  · rename_i b s eq
    split at h
    · cases h
    · rename_i token used read
      split at h
      · cases h
      · rename_i table added
        cases h
        exact ⟨token, by rw [eq]; exact read_lexeme read, added⟩

theorem lexeme_advance {limit : Int} {i : Nat} {s rest : List UInt8} {w table : Worktable}
    {token : Token} (lexeme : Lexeme limit s token rest) (added : w.add i token = .ok table) :
    ∃ j, Machine.advance? limit ⟨i, s, w⟩ = some (.ok ⟨j, rest, table⟩) := by
  cases s with
  | nil => exact absurd rfl (lexeme_nonempty lexeme)
  | cons b s =>
    obtain ⟨used, read, eq⟩ := lexeme_read lexeme
    refine ⟨i + 1 + used, ?_⟩
    simp only [Machine.advance?, read, added, eq]

inductive Reaches (limit : Int) : Machine → Machine → Prop where
  | refl (m : Machine) : Reaches limit m m
  | step {m k l : Machine} (first : m.advance? limit = some (.ok k))
      (later : Reaches limit k l) : Reaches limit m l

theorem reaches_trans {limit : Int} {m k l : Machine} (h : Reaches limit m k)
    (later : Reaches limit k l) : Reaches limit m l := by
  induction h with
  | refl m => exact later
  | step first _ ih => exact .step first (ih later)

theorem reaches_run {limit : Int} {m k : Machine} (h : Reaches limit m k) :
    m.run limit = k.run limit := by
  induction h with
  | refl m => rfl
  | step first _ ih =>
    rw [← ih, Machine.run]
    split
    · rename_i none; rw [first] at none; cases none
    · rename_i failed; rw [first] at failed; cases failed
    · rename_i next eq; rw [first] at eq; cases eq; rfl

end ByteRegex.Grammar

import ByteRegex.Expr.Spelling

namespace ByteRegex.Expr

def andThen (first second : Except SpellingError (List UInt8)) :
    Except SpellingError (List UInt8) :=
  match first with
  | .error err => .error err
  | .ok t => second.map (t ++ ·)

mutual

def spell : Expr → Except SpellingError (List UInt8)
  | .dot => .ok [Byte.dot]
  | .empty a => spellAssertion a
  | .literal code => .ok (spellCode metacharacters code)
  | .bytes set => .ok (spellSet set)
  | .capture _ body => andThen (.ok [Byte.leftParen]) (andThen body.spell (.ok [Byte.rightParen]))
  | .repetition body min max greedy =>
    if body.isAtomic then andThen body.spell (.ok (spellQuantifier min max greedy))
    else .error (.repeatedNode body)
  | .concat items =>
    match items.find? fun e => !e.isItem with
    | some item => .error (.itemNode item)
    | none => spellAll [] items
  | .alternate branches =>
    match branches.find? fun e => !e.isBranch with
    | some branch => .error (.branchNode branch)
    | none => spellAll [Byte.bar] branches
  | .foreign => .error (.foreignNode ⟨⟩)

def spellAll (separator : List UInt8) : List Expr → Except SpellingError (List UInt8)
  | [] => .ok []
  | [e] => e.spell
  | e :: f :: rest => andThen e.spell (andThen (.ok separator) (spellAll separator (f :: rest)))

end

theorem find_unfit {es : List Expr} {fits : Expr → Bool} :
    (es.find? fun e => !fits e) = none ↔ ∀ e ∈ es, fits e := by
  simp

theorem nil_andThen (second : Except SpellingError (List UInt8)) :
    andThen (.ok []) second = second := by
  cases second <;> rfl

theorem andThen_nil (first : Except SpellingError (List UInt8)) :
    andThen first (.ok []) = first := by
  cases first with
  | error err => rfl
  | ok t => exact congrArg Except.ok (List.append_nil t)

theorem andThen_assoc (first second third : Except SpellingError (List UInt8)) :
    andThen (andThen first second) third = andThen first (andThen second third) := by
  cases first with
  | error err => rfl
  | ok t =>
    cases second with
    | error err => rfl
    | ok u =>
      cases third with
      | error err => rfl
      | ok v => exact congrArg Except.ok (List.append_assoc t u v)

def emit : List Piece → Except SpellingError (List UInt8)
  | [] => .ok []
  | .text t :: rest => andThen (.ok t) (emit rest)
  | .node e :: rest => andThen e.spell (emit rest)

theorem emit_append (ps qs : List Piece) : emit (ps ++ qs) = andThen (emit ps) (emit qs) := by
  induction ps with
  | nil => exact (nil_andThen _).symm
  | cons p ps ih =>
    cases p with
    | text t => rw [List.cons_append, emit, emit, ih, andThen_assoc]
    | node e => rw [List.cons_append, emit, emit, ih, andThen_assoc]

theorem emit_nodes (items : List Expr) : emit (items.map .node) = spellAll [] items := by
  induction items with
  | nil => rfl
  | cons e items ih =>
    cases items with
    | nil => rw [List.map_cons, List.map_nil, emit, emit, andThen_nil, spellAll]
    | cons f items =>
      rw [List.map_cons, emit, ih, spellAll, nil_andThen]

theorem emit_branches (separator : List UInt8) (branches : List Expr) :
    emit ((branches.map Piece.node).intersperse (.text separator)) =
      spellAll separator branches := by
  induction branches with
  | nil => rfl
  | cons e branches ih =>
    cases branches with
    | nil => exact andThen_nil e.spell
    | cons f branches =>
      rw [List.map_cons, List.map_cons, List.intersperse_cons_cons, emit, emit, ← List.map_cons, ih,
        spellAll]

/-- A node that has pieces is written as they are, and its fault is found before theirs. -/
theorem spell_eq_pieces (e : Expr) : e.spell = e.pieces.bind emit := by
  cases e with
  | dot | literal | bytes => rw [spell]; exact (andThen_nil _).symm
  | empty a =>
    rw [spell, pieces]
    cases spellAssertion a with
    | error err => rfl
    | ok t => exact (andThen_nil _).symm
  | capture i body => rw [spell]; rfl
  | repetition body min max greedy =>
    rw [spell, pieces]
    split
    · exact congrArg (andThen body.spell) (andThen_nil _).symm
    · rfl
  | concat items =>
    rw [spell, pieces]
    cases items.find? fun e => !e.isItem with
    | some item => rfl
    | none => exact (emit_nodes items).symm
  | alternate branches =>
    rw [spell, pieces]
    cases branches.find? fun e => !e.isBranch with
    | some branch => rfl
    | none => exact (emit_branches _ branches).symm
  | foreign => rw [spell]; rfl

theorem write_eq_emit (pending : List Piece) (written : List UInt8) :
    write pending written = andThen (.ok written.reverse) (emit pending) := by
  fun_induction write pending written with
  | case1 written => exact (andThen_nil _).symm
  | case2 written t rest ih =>
    rw [List.unattach_reverse, List.unattach_attach] at ih
    have order : (t.reverse ++ written).reverse = written.reverse ++ t := by simp
    rw [ih, order, emit, ← andThen_assoc]
    rfl
  | case3 written e rest err fault => rw [emit, spell_eq_pieces, fault]; rfl
  | case4 written e rest ps h ih => rw [ih, emit_append, emit, spell_eq_pieces, h]; rfl

theorem pattern_eq_spell (e : Expr) : e.pattern = e.spell := by
  rw [pattern, write_eq_emit, List.reverse_nil, nil_andThen, emit, emit, andThen_nil]

end ByteRegex.Expr

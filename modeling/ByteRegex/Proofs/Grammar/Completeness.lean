import ByteRegex.Proofs.Grammar.Lexeme

namespace ByteRegex.Grammar

theorem ofItems_sequence {items : List Expr} (nonempty : items ≠ []) :
    Expr.ofItems items = some (sequence items) := by
  match items with
  | [e] => rfl
  | e :: f :: rest => rfl

theorem ofBranches_choice (last : Expr) (earlier : List Expr) :
    Expr.ofBranches last earlier = choice (earlier.reverse ++ [last]) := by
  cases earlier with
  | nil => rfl
  | cons e rest =>
    have shape : ∃ f g more, (e :: rest).reverse ++ [last] = f :: g :: more := by
      match eq : (e :: rest).reverse with
      | [] => simp at eq
      | [f] => exact ⟨f, last, [], rfl⟩
      | f :: g :: more => exact ⟨f, g, more ++ [last], rfl⟩
    obtain ⟨f, g, more, eq⟩ := shape
    have several : Expr.ofBranches last (e :: rest) =
        .alternate ((e :: rest).reverse ++ [last]) := by
      simp [Expr.ofBranches, several?]
    rw [several, eq]
    rfl

theorem branch_items {level : Level} {es : List Expr}
    (items : level.items.map Item.expr = es.reverse) (nonempty : es ≠ []) :
    level.branch? = some (sequence es) := by
  rw [Level.branch?, items, List.reverse_reverse]
  exact ofItems_sequence nonempty

theorem reduce_branch {level : Level} {last : Expr} (branch : level.branch? = some last) :
    level.reduce = .ok (choice (level.branches.reverse ++ [last])) := by
  rw [Level.reduce, branch]
  exact congrArg Except.ok (ofBranches_choice last level.branches)

/-- Wherever a reader with this worktable stands, it gets past the bytes up to `t` with that one. -/
def Leads (limit : Int) (s : List UInt8) (w : Worktable) (t : List UInt8) (v : Worktable) : Prop :=
  ∀ i, ∃ j, Reaches limit ⟨i, s, w⟩ ⟨j, t, v⟩

theorem leads_refl (limit : Int) (s : List UInt8) (w : Worktable) : Leads limit s w s w :=
  fun i => ⟨i, .refl _⟩

theorem leads_trans {limit : Int} {s t u : List UInt8} {w v x : Worktable}
    (h : Leads limit s w t v) (later : Leads limit t v u x) : Leads limit s w u x := by
  intro i
  obtain ⟨j, first⟩ := h i
  obtain ⟨k, second⟩ := later j
  exact ⟨k, reaches_trans first second⟩

theorem leads_token {limit : Int} {s rest : List UInt8} {w v : Worktable} {token : Token}
    (lexeme : Lexeme limit s token rest) (added : ∀ i, w.add i token = .ok v) :
    Leads limit s w rest v := by
  intro i
  obtain ⟨j, step⟩ := lexeme_advance lexeme (added i)
  exact ⟨j, .step step (.refl _)⟩

theorem leads_quantifier {limit : Int} {s rest : List UInt8} {bounds : Bounds} {greedy : Bool}
    {n : Nat} {groups : List Group} {level : Level} {e : Expr}
    (lexeme : Lexeme limit s (.quantifier bounds greedy) rest) :
    Leads limit s ⟨n, groups, level.push e false⟩ rest
      ⟨n, groups, level.push (quantified e bounds greedy) true⟩ :=
  leads_token lexeme fun _ => rfl

theorem leads_bar {limit : Int} {rest : List UInt8} {n : Nat} {groups : List Group} {level : Level}
    {last : Expr} (done : level.branch? = some last) :
    Leads limit (Byte.bar :: rest) ⟨n, groups, level⟩ rest
      ⟨n, groups, ⟨last :: level.branches, []⟩⟩ :=
  leads_token (.bar rest) fun _ => by simp only [Worktable.add, done]

theorem leads_closing {limit : Int} {rest : List UInt8} {n : Nat} {g : Group} {groups : List Group}
    {level : Level} {e : Expr} (reduced : level.reduce = .ok e) :
    Leads limit (Byte.rightParen :: rest) ⟨n, g :: groups, level⟩ rest
      ⟨n, groups, g.outer.push (.capture g.capture e) false⟩ :=
  leads_token (.closing rest) fun _ => by simp only [Worktable.add, reduced]

theorem bar_settled (s : List UInt8) : Settled (Byte.bar :: s) := settled_cons.mpr (by decide)

theorem closing_settled (s : List UInt8) : Settled (Byte.rightParen :: s) :=
  settled_cons.mpr (by decide)

theorem settled_question {s : List UInt8} (settled : Settled s) :
    s.head? ≠ some Byte.question := by
  intro head
  exact settled Byte.question head (by decide)

-- The phrases nest through groups only, so the five statements are proved together.
mutual

theorem pattern_leads {limit : Int} {n m : Nat} {s rest : List UInt8} {e : Expr} :
    Pattern limit n s e m rest → Settled rest → ∀ groups : List Group,
    ∃ level : Level, level.reduce = .ok e ∧
      Leads limit s ⟨n, groups, .fresh⟩ rest ⟨m, groups, level⟩
  | .nothing _ _, _, _ => ⟨.fresh, rfl, leads_refl _ _ _⟩
  | .branches all, settled, groups => by
    obtain ⟨level, last, branch, eq, leads⟩ := branches_leads all settled groups
    exact ⟨level, by rw [reduce_branch branch, eq], leads⟩

theorem branches_leads {limit : Int} {n m : Nat} {s rest : List UInt8} {es : List Expr} :
    Branches limit n s es m rest → Settled rest → ∀ groups : List Group,
    ∃ (level : Level) (last : Expr), level.branch? = some last ∧
      level.branches.reverse ++ [last] = es ∧
      Leads limit s ⟨n, groups, .fresh⟩ rest ⟨m, groups, level⟩
  | .one branch, settled, groups => by
    obtain ⟨items, eq, nonempty, leads⟩ := branch_leads branch settled groups []
    exact ⟨⟨[], items⟩, _, branch_items eq nonempty, rfl, leads⟩
  | .more earlier branch, settled, groups => by
    obtain ⟨level, last, done, eq, leads⟩ := branches_leads earlier (bar_settled _) groups
    obtain ⟨items, same, nonempty, later⟩ :=
      branch_leads branch settled groups (last :: level.branches)
    refine ⟨⟨last :: level.branches, items⟩, _, branch_items same nonempty, ?_,
      leads_trans leads (leads_trans (leads_bar done) later)⟩
    rw [← eq, List.reverse_cons]

theorem branch_leads {limit : Int} {n m : Nat} {s rest : List UInt8} {es : List Expr} :
    Branch limit n s es m rest → Settled rest → ∀ (groups : List Group) (branches : List Expr),
    ∃ items : List Item, items.map Item.expr = es.reverse ∧ es ≠ [] ∧
      Leads limit s ⟨n, groups, ⟨branches, []⟩⟩ rest ⟨m, groups, ⟨branches, items⟩⟩
  | .one piece, settled, groups, branches => by
    obtain ⟨repeated, leads⟩ := piece_leads piece settled groups ⟨branches, []⟩
    exact ⟨[⟨_, repeated⟩], rfl, by simp, leads⟩
  | .more earlier piece, settled, groups, branches => by
    obtain ⟨items, eq, _, leads⟩ := branch_leads earlier (piece_settled piece) groups branches
    obtain ⟨repeated, later⟩ := piece_leads piece settled groups ⟨branches, items⟩
    exact ⟨⟨_, repeated⟩ :: items, by simp [eq], by simp, leads_trans leads later⟩

theorem piece_leads {limit : Int} {n m : Nat} {s rest : List UInt8} {e : Expr} :
    Piece limit n s e m rest → Settled rest → ∀ (groups : List Group) (level : Level),
    ∃ repeated, Leads limit s ⟨n, groups, level⟩ rest ⟨m, groups, level.push e repeated⟩
  | .plain atom, _, groups, level => ⟨false, atom_leads atom groups level⟩
  | .greedy atom quantifier, settled, groups, level => by
    have lexeme := Lexeme.greedy quantifier (settled_question settled)
    exact ⟨true, leads_trans (atom_leads atom groups level) (leads_quantifier lexeme)⟩
  | .lazy atom quantifier, _, groups, level =>
    ⟨true, leads_trans (atom_leads atom groups level) (leads_quantifier (.lazy quantifier))⟩

theorem atom_leads {limit : Int} {n m : Nat} {s rest : List UInt8} {e : Expr} :
    Atom limit n s e m rest → ∀ (groups : List Group) (level : Level),
    Leads limit s ⟨n, groups, level⟩ rest ⟨m, groups, level.push e false⟩
  | .symbol _ plain, _, _ => leads_token (.symbol plain) fun _ => rfl
  | .group body, groups, level => by
    intro i
    -- the group keeps the offset of its parenthesis until it is closed
    let opened : Group := ⟨n + 1, i, level⟩
    obtain ⟨inner, reduced, leads⟩ := pattern_leads body (closing_settled rest) (opened :: groups)
    have added : Worktable.add ⟨n, groups, level⟩ i .openGroup =
        .ok ⟨n + 1, opened :: groups, .fresh⟩ := rfl
    obtain ⟨j, step⟩ := lexeme_advance (.opening _) added
    obtain ⟨k, later⟩ := leads_trans leads (leads_closing reduced) j
    exact ⟨k, .step step later⟩

end

theorem parse_of_pattern {limit : Int} {p : List UInt8} {e : Expr} {n : Nat}
    (h : Pattern limit 0 p e n []) : parse limit p = .ok e := by
  obtain ⟨level, reduced, leads⟩ := pattern_leads h (by simp [Settled]) []
  obtain ⟨j, reaches⟩ := leads 0
  have finished : Machine.run limit ⟨j, [], ⟨n, [], level⟩⟩ = .ok e := by
    rw [Machine.run]
    simp only [Machine.advance?, Worktable.finish, List.getLast?_nil, reduced]
    rfl
  rw [parse, Machine.start, Worktable.fresh, reaches_run reaches, finished]
  rfl

end ByteRegex.Grammar

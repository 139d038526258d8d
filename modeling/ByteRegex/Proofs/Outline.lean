import ByteRegex.Proofs.Expr.Comparison
import ByteRegex.Proofs.Grammar.Trees
import ByteRegex.Proofs.Outline.Lines

/-!
An outline tells everything about a tree but its capture numbers. The lines are read one after the
other, as they were written: the depth of a line says how many of the pending nodes are children of
the node before. Trees that come from patterns are numbered in preorder, so for them the outline
tells the numbers too.
-/

namespace ByteRegex.Expr

theorem mapM_ok_iff {α β ε : Type} {f : α → Except ε β} {xs : List α} {ys : List β} :
    xs.mapM f = .ok ys ↔ xs.map f = ys.map .ok := by
  induction xs generalizing ys with
  | nil => cases ys <;> simp [pure, Except.pure]
  | cons x xs ih =>
    rw [List.mapM_cons, List.map_cons]
    cases f x with
    | error err => cases ys <;> simp [bind, Except.bind]
    | ok y =>
      cases later : xs.mapM f with
      | error err => cases ys <;> simp [bind, Except.bind, ← ih, later]
      | ok zs => cases ys <;> simp [bind, Except.bind, pure, Except.pure, ← ih, later]

theorem mapM_exists {α β ε : Type} {f : α → Except ε β} {xs : List α}
    (each : ∀ x ∈ xs, ∃ y, f x = .ok y) : ∃ ys, xs.mapM f = .ok ys := by
  induction xs with
  | nil => exact ⟨[], rfl⟩
  | cons x xs ih =>
    obtain ⟨⟨y, first⟩, later⟩ := List.forall_mem_cons.mp each
    obtain ⟨ys, rest⟩ := ih later
    exact ⟨y :: ys, by rw [List.mapM_cons, first, rest]; rfl⟩

def inner (depth : Nat) (e : Expr) : List (Nat × Expr) :=
  e.children.map fun child => (depth + 1, child)

theorem sizeAll_inner (depth : Nat) (e : Expr) (rest : List (Nat × Expr)) :
    sizeAll ((inner depth e ++ rest).map Prod.snd) <
      sizeAll (((depth, e) :: rest).map Prod.snd) := by
  have children : (inner depth e).map Prod.snd = e.children := by simp [inner, Function.comp_def]
  rw [List.map_append, children, sizeAll_append, List.map_cons, sizeAll, size_children e]
  omega

theorem visit_visited (pending visited : List (Nat × Expr)) :
    visit pending visited = visited.reverse ++ visit pending [] := by
  induction size : sizeAll (pending.map Prod.snd) using Nat.strongRecOn
    generalizing pending visited with
  | ind n ih =>
    cases pending with
    | nil => rw [visit, visit, List.reverse_nil, List.append_nil]
    | cons p rest =>
      have next := ih _ (size ▸ sizeAll_inner p.1 p.2 rest)
      have first := next (inner p.1 p.2 ++ rest) (p :: visited) rfl
      have alone := next (inner p.1 p.2 ++ rest) [p] rfl
      rw [visit, visit]
      rw [inner] at first alone
      rw [first, alone]
      simp

theorem visit_cons (depth : Nat) (e : Expr) (rest : List (Nat × Expr)) :
    visit ((depth, e) :: rest) [] = (depth, e) :: visit (inner depth e ++ rest) [] := by
  rw [visit, visit_visited]
  rfl

theorem visit_nodes (pending visited : List (Nat × Expr)) :
    (visit pending visited).map Prod.snd =
      visited.reverse.map Prod.snd ++ pending.flatMap fun p => p.2.nodes := by
  fun_induction visit pending visited with
  | case1 visited => simp
  | case2 visited depth e rest ih =>
    have children : (e.children.map fun child => (depth + 1, child)).flatMap (fun p => p.2.nodes) =
        e.children.flatMap nodes := by
      rw [List.flatMap_map]
    rw [ih, List.flatMap_append, children, List.flatMap_cons, nodes_eq e]
    simp

def Descending (pending : List (Nat × Expr)) : Prop := pending.Pairwise fun p q => q.1 ≤ p.1

theorem descending_inner {depth : Nat} {e : Expr} {rest : List (Nat × Expr)}
    (descending : Descending ((depth, e) :: rest)) : Descending (inner depth e ++ rest) := by
  obtain ⟨later, tail⟩ := List.pairwise_cons.mp descending
  refine List.pairwise_append.mpr ⟨?_, tail, ?_⟩
  · exact List.pairwise_map.mpr (List.pairwise_of_forall fun _ _ => Nat.le_refl _)
  · intro p member q behind
    obtain ⟨child, _, rfl⟩ := List.mem_map.mp member
    exact Nat.le_succ_of_le (later q behind)

def outlined (p : Nat × Expr) : Nat × Expr := (p.1, p.2.shape)

theorem outlined_inner (depth : Nat) (e : Expr) :
    (inner depth e).map outlined = (e.children.map shape).map fun child => (depth + 1, child) := by
  rw [inner, List.map_map, List.map_map]
  rfl

/-- The children of a node are the pending nodes that stand deeper than it. -/
theorem filter_deeper {depth : Nat} {e : Expr} {rest : List (Nat × Expr)}
    (later : ∀ p ∈ rest, p.1 ≤ depth) :
    ((inner depth e ++ rest).map outlined).filter (fun p => depth < p.1) =
      (inner depth e).map outlined := by
  have children : ∀ p ∈ (inner depth e).map outlined, decide (depth < p.1) = true := by
    rw [outlined_inner]
    intro p member
    obtain ⟨child, _, rfl⟩ := List.mem_map.mp member
    exact decide_eq_true (Nat.lt_succ_self depth)
  have others : ∀ p ∈ rest.map outlined, ¬ decide (depth < p.1) = true := by
    intro p member
    obtain ⟨q, behind, rfl⟩ := List.mem_map.mp member
    exact fun deeper => Nat.not_lt.mpr (later q behind) (of_decide_eq_true deeper)
  rw [List.map_append, List.filter_append, List.filter_eq_self.mpr children,
    List.filter_eq_nil_iff.mpr others, List.append_nil]

theorem inner_cancel {depth : Nat} {x y : Expr} {ps qs : List (Nat × Expr)}
    (left : ∀ p ∈ ps, p.1 ≤ depth) (right : ∀ q ∈ qs, q.1 ≤ depth)
    (same : (inner depth x ++ ps).map outlined = (inner depth y ++ qs).map outlined) :
    x.children.map shape = y.children.map shape ∧ ps.map outlined = qs.map outlined := by
  have deeper : (inner depth x).map outlined = (inner depth y).map outlined := by
    rw [← filter_deeper left, same, filter_deeper right]
  constructor
  · rw [outlined_inner, outlined_inner] at deeper
    exact (List.map_inj_right fun _ _ pair => (Prod.mk.inj pair).2).mp deeper
  · rw [List.map_append, List.map_append, deeper] at same
    exact List.append_cancel_left same

theorem line_cases {p : Nat × Expr} {line : List Char} (shown : outlineLine p = .ok line) :
    ∃ text, p.2.outlineNode = .ok text ∧ line = List.replicate p.1 ' ' ++ text := by
  obtain ⟨depth, e⟩ := p
  rw [outlineLine] at shown
  cases node : e.outlineNode with
  | error err => rw [node] at shown; cases shown
  | ok text =>
    rw [node] at shown
    cases shown
    exact ⟨text, rfl, rfl⟩

theorem line_shows {p q : Nat × Expr} {line : List Char} (left : outlineLine p = .ok line)
    (right : outlineLine q = .ok line) :
    p.1 = q.1 ∧ ∃ text, p.2.outlineNode = .ok text ∧ q.2.outlineNode = .ok text := by
  obtain ⟨t, first, indented⟩ := line_cases left
  obtain ⟨u, second, indented'⟩ := line_cases right
  obtain ⟨depth, text⟩ := indent_cancel (outlineNode_line first).2 (outlineNode_line second).2
    (indented.symm.trans indented')
  exact ⟨depth, t, first, text ▸ second⟩

theorem visit_eq_nil {pending : List (Nat × Expr)} (none : visit pending [] = []) :
    pending = [] := by
  cases pending with
  | nil => rfl
  | cons p rest => rw [visit_cons] at none; cases none

theorem outlined_of_lines {ps qs : List (Nat × Expr)} {lines : List (List Char)}
    (descending : Descending ps) (descending' : Descending qs)
    (left : (visit ps []).map outlineLine = lines.map .ok)
    (right : (visit qs []).map outlineLine = lines.map .ok) :
    ps.map outlined = qs.map outlined := by
  -- line by line: with its line a node is visited, and its children become pending
  induction lines generalizing ps qs with
  | nil =>
    rw [visit_eq_nil (List.map_eq_nil_iff.mp left), visit_eq_nil (List.map_eq_nil_iff.mp right)]
  | cons line lines ih =>
    cases ps with
    | nil => rw [visit] at left; cases left
    | cons p ps =>
      cases qs with
      | nil => rw [visit] at right; cases right
      | cons q qs =>
        obtain ⟨d, x⟩ := p
        obtain ⟨k, y⟩ := q
        rw [visit_cons, List.map_cons, List.map_cons] at left right
        obtain ⟨first, others⟩ := List.cons.inj left
        obtain ⟨first', others'⟩ := List.cons.inj right
        obtain ⟨depth, text, node, node'⟩ := line_shows first first'
        cases depth
        have next := ih (descending_inner descending) (descending_inner descending') others others'
        obtain ⟨children, rest⟩ := inner_cancel (List.pairwise_cons.mp descending).1
          (List.pairwise_cons.mp descending').1 next
        rw [List.map_cons, List.map_cons, rest, outlined, outlined,
          shape_of_line node node' children]

theorem shape_of_outlineLines {s t : Expr} {lines : List (List Char)}
    (left : s.outlineLines = .ok lines) (right : t.outlineLines = .ok lines) :
    s.shape = t.shape := by
  have single (e : Expr) : Descending [(0, e)] := List.pairwise_singleton _ _
  have same := outlined_of_lines (single s) (single t) (mapM_ok_iff.mp left) (mapM_ok_iff.mp right)
  exact (Prod.mk.inj (List.cons.inj same).1).2

theorem outlineLines_split {e : Expr} {lines : List (List Char)}
    (shown : e.outlineLines = .ok lines) :
    (['\n'].intercalate lines).splitOn '\n' = lines := by
  have each := mapM_ok_iff.mp shown
  apply List.splitOn_intercalate
  · intro line member
    have made : .ok line ∈ e.preorder.map outlineLine := each ▸ List.mem_map_of_mem member
    obtain ⟨p, _, node⟩ := List.mem_map.mp made
    obtain ⟨text, written, rfl⟩ := line_cases node
    have := (outlineNode_line written).1
    simp [this]
  · rintro rfl
    rw [preorder, visit_cons] at each
    cases each

theorem shape_of_outline {s t : Expr} {text : String} (left : s.outline = .ok text)
    (right : t.outline = .ok text) : s.shape = t.shape := by
  have text_lines {e : Expr} (shown : e.outline = .ok text) :
      e.outlineLines = .ok (text.toList.splitOn '\n') := by
    rw [outline] at shown
    cases lines : e.outlineLines with
    | error err => rw [lines] at shown; cases shown
    | ok found =>
      rw [lines] at shown
      cases shown
      rw [String.toList_ofList, outlineLines_split lines]
  exact shape_of_outlineLines (text_lines left) (text_lines right)

theorem exists_line {p : Nat × Expr} (known : p.2 ≠ .foreign) :
    ∃ line, outlineLine p = .ok line := by
  obtain ⟨depth, e⟩ := p
  cases e with
  | foreign => exact absurd rfl known
  | _ => exact ⟨_, rfl⟩

theorem preorder_nodes (e : Expr) : e.preorder.map Prod.snd = e.nodes := by
  rw [preorder, visit_nodes]
  simp

theorem outline_known {e : Expr} (known : .foreign ∉ e.nodes) : ∃ text, e.outline = .ok text := by
  have each : ∀ p ∈ e.preorder, ∃ line, outlineLine p = .ok line := by
    intro p member
    apply exists_line
    intro same
    have node : p.2 ∈ e.nodes := preorder_nodes e ▸ List.mem_map_of_mem member
    exact known (same ▸ node)
  obtain ⟨lines, made⟩ := mapM_exists each
  exact ⟨String.ofList (['\n'].intercalate lines), by rw [outline, outlineLines, made]; rfl⟩

end ByteRegex.Expr

namespace ByteRegex

/-- Known trees have an outline, and two of them with the same outline are the same tree but for
capture numbers. Patterns whose trees have the same outline, whatever options they were read with,
denote the same tree. -/
theorem outline_tells_tree :
    (∀ s t : Expr, .foreign ∉ s.nodes → .foreign ∉ t.nodes →
      (∃ text, s.outline = .ok text) ∧ (s.outline = t.outline → s.shape = t.shape)) ∧
    ∀ (options others : Options) (p q : List UInt8) (s t : Expr), options.parse p = .ok s →
      others.parse q = .ok t → s.outline = t.outline → s = t ∧ s.equals t = .ok true := by
  have trees (s t : Expr) (left : .foreign ∉ s.nodes) (same : s.outline = t.outline) :
      s.shape = t.shape := by
    obtain ⟨text, shown⟩ := Expr.outline_known left
    exact Expr.shape_of_outline shown (same ▸ shown)
  refine ⟨?_, ?_⟩
  · intro s t left _
    exact ⟨Expr.outline_known left, trees s t left⟩
  · intro options others p q s t first second same
    obtain ⟨regular, numbered⟩ := Grammar.parse_regular first
    obtain ⟨_, numbered'⟩ := Grammar.parse_regular second
    have known : .foreign ∉ s.nodes := fun member => regular _ member
    have identical := Expr.eq_of_numbered (trees s t known same) numbered numbered'
    exact ⟨identical, identical ▸ Expr.equals_self known⟩

/-- The set of the bytes `-` and `[` to `]` is shown as `bset([---][[-]])`. Two trees that differ in
a capture number have one outline, and so have the patterns `a{1,}[a-c]` and `a+[cba]`. -/
theorem outline_tells_tree_brackets :
    let set : ByteSet := .ofRanges [.between 91 93 (by decide), .single 45]
    let tree (i : Int) : Expr := .concat [.capture i (.bytes set), .repetition .dot 2 none false]
    let p : List UInt8 := [97, 123, 49, 44, 125, 91, 97, 45, 99, 93]
    let q : List UInt8 := [97, 43, 91, 99, 98, 97, 93]
    let u : Expr := .concat
      [.repetition (.literal 97) 1 none true, .bytes (.ofRanges [.between 97 99 (by decide)])]
    (.foreign ∉ (tree 7).nodes ∧ .foreign ∉ (tree 1).nodes ∧
      (tree 7).outline = .ok "cat\n cap\n  bset([---][[-]])\n rep(\x7b2,\x7d?)\n  dot" ∧
      (tree 7).outline = (tree 1).outline ∧ (tree 7).shape = (tree 1).shape) ∧
    ((Options.traced false).parse p = .ok u ∧ (Options.traced true).parse q = .ok u ∧
      u.equals u = .ok true) := by
  intro set tree p q u
  obtain ⟨trees, patterns⟩ := outline_tells_tree
  have left : .foreign ∉ (tree 7).nodes := by decide +kernel
  have right : .foreign ∉ (tree 1).nodes := by decide +kernel
  have shown : (tree 7).outline =
      .ok "cat\n cap\n  bset([---][[-]])\n rep(\x7b2,\x7d?)\n  dot" := by decide +kernel
  have other : (tree 1).outline =
      .ok "cat\n cap\n  bset([---][[-]])\n rep(\x7b2,\x7d?)\n  dot" := by decide +kernel
  have same : (tree 7).outline = (tree 1).outline := shown.trans other.symm
  have first : (Options.traced false).parse p = .ok u := by decide +kernel
  have second : (Options.traced true).parse q = .ok u := by decide +kernel
  refine ⟨⟨left, right, shown, same, (trees _ _ left right).2 same⟩, first, second, ?_⟩
  exact (patterns _ _ p q u u first second rfl).2

end ByteRegex

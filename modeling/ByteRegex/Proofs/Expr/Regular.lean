import ByteRegex.Expr.Spelling
import ByteRegex.Proofs.Expr.Nodes

namespace ByteRegex.Expr

def BoundsAllowed (ceiling : Nat) (min : Int) (max : Option Int) : Prop :=
  (min = 0 ∧ max = none) ∨ (min = 1 ∧ max = none) ∨ (min = 0 ∧ max = some 1) ∨
    (0 ≤ min ∧ min ≤ ceiling ∧ ∀ high, max = some high → min ≤ high ∧ high ≤ ceiling)

def RegularNode (ceiling : Nat) : Expr → Prop
  | .dot => True
  | .empty a => a = .none ∨ a = .beginLine ∨ a = .endLine
  | .literal code => 0 ≤ code ∧ code ≤ 255
  | .bytes _ => True
  | .capture _ _ => True
  | .repetition body min max _ => body.isAtomic ∧ BoundsAllowed ceiling min max
  | .concat items => 2 ≤ items.length ∧ ∀ e ∈ items, e.isItem
  | .alternate branches => 2 ≤ branches.length ∧ ∀ e ∈ branches, e.isBranch
  | .foreign => False

def Regular (ceiling : Nat) (e : Expr) : Prop := ∀ x ∈ e.nodes, x.RegularNode ceiling

theorem regular_iff {ceiling : Nat} {e : Expr} :
    e.Regular ceiling ↔ e.RegularNode ceiling ∧ ∀ child ∈ e.children, child.Regular ceiling :=
  forall_nodes

theorem regular_leaf {ceiling : Nat} {e : Expr} (leaf : e.children = [])
    (node : e.RegularNode ceiling) : e.Regular ceiling := by
  refine regular_iff.mpr ⟨node, ?_⟩
  rw [leaf]
  intro child member
  cases member

theorem isItem_iff {e : Expr} :
    e.isItem ↔ (∀ es, e ≠ .concat es) ∧ (∀ es, e ≠ .alternate es) ∧ e ≠ .empty .none := by
  cases e <;> simp [isItem]

theorem isBranch_iff {e : Expr} :
    e.isBranch ↔ (∀ es, e ≠ .alternate es) ∧ e ≠ .empty .none := by
  cases e <;> simp [isBranch]

theorem isItem_of_isAtomic {e : Expr} (h : e.isAtomic) : e.isItem := by
  cases e <;> simp_all [isAtomic, isItem]

theorem isBranch_of_isItem {e : Expr} (h : e.isItem) : e.isBranch :=
  isBranch_iff.mpr (isItem_iff.mp h).2

/-- The tree of a pattern, clause by clause. -/
structure WellFormed (ceiling : Nat) (t : Expr) : Prop where
  concat_items : ∀ items, .concat items ∈ t.nodes → 2 ≤ items.length ∧
    ∀ e ∈ items, (∀ es, e ≠ .concat es) ∧ (∀ es, e ≠ .alternate es) ∧ e ≠ .empty .none
  alternate_branches : ∀ branches, .alternate branches ∈ t.nodes → 2 ≤ branches.length ∧
    ∀ e ∈ branches, (∀ es, e ≠ .alternate es) ∧ e ≠ .empty .none
  repeat_body : ∀ body min max greedy, .repetition body min max greedy ∈ t.nodes →
    (∀ e low high lazy, body ≠ .repetition e low high lazy) ∧ (∀ es, body ≠ .concat es) ∧
      (∀ es, body ≠ .alternate es) ∧ body ≠ .empty .none
  repeat_bounds : ∀ body min max greedy, .repetition body min max greedy ∈ t.nodes →
    BoundsAllowed ceiling min max
  /-- the empty match stands in a capture, or it is the whole tree -/
  empty_parent : ∀ e ∈ t.nodes, .empty .none ∈ e.children → ∃ i, e = .capture i (.empty .none)
  assertion : ∀ a, .empty a ∈ t.nodes → a = .none ∨ a = .beginLine ∨ a = .endLine
  code : ∀ code, .literal code ∈ t.nodes → 0 ≤ code ∧ code ≤ 255
  set : ∀ set, .bytes set ∈ t.nodes →
    set.ranges.Pairwise (fun r s => r.max + 1 < s.min) ∧
      ∀ r ∈ set.ranges, r.min ≤ r.max ∧ r.max ≤ 255
  known : .foreign ∉ t.nodes
  numbered : t.captures = numbers 0 t.captures.length

theorem regular_wellFormed {ceiling : Nat} {t : Expr} (regular : t.Regular ceiling)
    (numbered : t.Numbered) : t.WellFormed ceiling where
  concat_items := by
    intro items member
    obtain ⟨several, each⟩ := regular _ member
    exact ⟨several, fun e mem => isItem_iff.mp (each e mem)⟩
  alternate_branches := by
    intro branches member
    obtain ⟨several, each⟩ := regular _ member
    exact ⟨several, fun e mem => isBranch_iff.mp (each e mem)⟩
  repeat_body := by
    intro body min max greedy member
    have item := isItem_iff.mp (isItem_of_isAtomic (regular _ member).1)
    refine ⟨?_, item⟩
    intro e low high lazy same
    have atomic := (regular _ member).1
    rw [same] at atomic
    cases atomic
  repeat_bounds := fun body min max greedy member => (regular _ member).2
  empty_parent := by
    intro e member child
    have node := regular e member
    cases e with
    | capture i body =>
      rw [List.mem_singleton.mp child]
      exact ⟨i, rfl⟩
    | repetition body min max greedy =>
      have atomic := node.1
      rw [← List.mem_singleton.mp child] at atomic
      cases atomic
    | concat items => cases node.2 _ child
    | alternate branches => cases node.2 _ child
    | dot | empty | literal | bytes | foreign => cases child
  assertion := fun a member => regular _ member
  code := fun code member => regular _ member
  set := fun set _ => ⟨set.normal, fun r _ => ⟨r.min_le_max, r.max_le⟩⟩
  known := fun member => regular _ member
  numbered := numbered

end ByteRegex.Expr

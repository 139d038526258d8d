import ByteRegex.Expr.Comparison
import ByteRegex.Expr.Identity
import ByteRegex.Proofs.ByteSet.Laws
import ByteRegex.Proofs.Expr.Nodes

namespace ByteRegex.Expr

def andAlso (first second : Except ForeignNode Bool) : Except ForeignNode Bool :=
  match first with
  | .ok true => second
  | other => other

mutual

/-- Compares two nodes and then what is below them, up to the first pair of nodes that differ or
cannot be compared. -/
def contrast : Expr → Expr → Except ForeignNode Bool
  | .foreign, _ => .error ⟨⟩
  | .dot, .dot => .ok true
  | .empty a, .empty b => .ok (a = b)
  | .literal c, .literal d => .ok (c = d)
  | .bytes s, .bytes t => .ok (s = t)
  | .capture i e, .capture j f => if i = j then contrast e f else .ok false
  | .repetition e m n g, .repetition f k l h =>
    if m = k ∧ n = l ∧ g = h then contrast e f else .ok false
  | .concat es, .concat fs => if es.length = fs.length then contrastAll es fs else .ok false
  | .alternate es, .alternate fs => if es.length = fs.length then contrastAll es fs else .ok false
  | _, _ => .ok false

def contrastAll : List Expr → List Expr → Except ForeignNode Bool
  | e :: es, f :: fs => andAlso (contrastAll es fs) (contrast e f)
  | _, _ => .ok true

end

theorem andAlso_true (first : Except ForeignNode Bool) : andAlso first (.ok true) = first := by
  match first with
  | .error err => rfl
  | .ok true => rfl
  | .ok false => rfl

theorem andAlso_assoc (first second third : Except ForeignNode Bool) :
    andAlso (andAlso first second) third = andAlso first (andAlso second third) := by
  match first with
  | .error err => rfl
  | .ok true => rfl
  | .ok false => rfl

def contrastPairs : List (Expr × Expr) → Except ForeignNode Bool
  | [] => .ok true
  | (left, right) :: rest => andAlso (contrast left right) (contrastPairs rest)

theorem contrastPairs_append (ps qs : List (Expr × Expr)) :
    contrastPairs (ps ++ qs) = andAlso (contrastPairs ps) (contrastPairs qs) := by
  induction ps with
  | nil => rfl
  | cons p ps ih => rw [List.cons_append, contrastPairs, contrastPairs, ih, andAlso_assoc]

theorem contrastPairs_zip (es fs : List Expr) :
    contrastPairs (es.zip fs).reverse = contrastAll es fs := by
  induction es generalizing fs with
  | nil => rw [List.zip_nil_left, contrastAll.eq_2 _ _ (by simp)]; rfl
  | cons e es ih =>
    cases fs with
    | nil => rw [List.zip_nil_right, contrastAll.eq_2 _ _ (by simp)]; rfl
    | cons f fs =>
      rw [List.zip_cons_cons, List.reverse_cons, contrastPairs_append, ih, contrastAll]
      simp only [contrastPairs, andAlso_true]

def goOn : Except ForeignNode (Option (List (Expr × Expr))) → Except ForeignNode Bool
  | .error err => .error err
  | .ok none => .ok false
  | .ok (some pairs) => contrastPairs pairs.reverse

theorem goOn_agree (agree : Prop) [Decidable agree] :
    goOn (.ok (if agree then some [] else none)) = .ok (decide agree) := by
  split <;> simp [goOn, contrastPairs, *]

theorem goOn_child (agree : Prop) [Decidable agree] (e f : Expr) :
    goOn (.ok (if agree then some [(e, f)] else none)) =
      if agree then contrast e f else .ok false := by
  split
  · exact andAlso_true _
  · rfl

theorem goOn_zip (es fs : List Expr) :
    goOn (.ok (zip? es fs)) =
      if es.length = fs.length then contrastAll es fs else .ok false := by
  unfold zip?
  split
  · exact contrastPairs_zip es fs
  · rfl

theorem contrast_eq (left right : Expr) : contrast left right = goOn (matchNode left right) := by
  unfold matchNode
  split
  · rw [contrast]; rfl
  · rw [contrast]; rfl
  · rw [contrast, goOn_agree]
  · rw [contrast, goOn_agree]
  · rw [contrast, goOn_agree]
  · rw [contrast, goOn_child]
  · rw [contrast, goOn_child]
  · rw [contrast, goOn_zip]
  · rw [contrast, goOn_zip]
  · rw [contrast]
    · rfl
    all_goals assumption

theorem compare_eq (pending : List (Expr × Expr)) : compare pending = contrastPairs pending := by
  fun_induction compare pending with
  | case1 => rfl
  | case2 left right rest err fault => rw [contrastPairs, contrast_eq, fault]; rfl
  | case3 left right rest differ => rw [contrastPairs, contrast_eq, differ]; rfl
  | case4 left right rest pairs agree ih =>
    -- what is below the first pair comes before the pairs that were pending with it
    rw [ih, contrastPairs_append, contrastPairs, contrast_eq, agree]
    rfl

theorem equals_eq (left right : Expr) : left.equals right = contrast left right := by
  rw [equals, compare_eq]
  exact andAlso_true _

theorem andAlso_known (p q : Prop) [Decidable p] [Decidable q] :
    andAlso (.ok (decide q)) (.ok (decide p)) = .ok (decide (p ∧ q)) := by
  by_cases q <;> simp [andAlso, *]

theorem contrastAll_known {es fs : List Expr} (length : es.length = fs.length)
    (each : ∀ e ∈ es, ∀ f, contrast e f = .ok (decide (e = f))) :
    contrastAll es fs = .ok (decide (es = fs)) := by
  induction es generalizing fs with
  | nil =>
    cases fs with
    | nil => rfl
    | cons f fs => cases length
  | cons e es ih =>
    cases fs with
    | nil => cases length
    | cons f fs =>
      obtain ⟨first, later⟩ := List.forall_mem_cons.mp each
      rw [contrastAll, first f, ih (Nat.succ.inj length) later, andAlso_known]
      simp only [List.cons.injEq]

theorem known_child {e child : Expr} (known : .foreign ∉ e.nodes) (member : child ∈ e.children) :
    .foreign ∉ child.nodes :=
  fun inside => known (mem_nodes.mpr (Or.inr ⟨child, member, inside⟩))

theorem ok_and (p q : Prop) [Decidable p] [Decidable q] :
    (if p then .ok (decide q) else .ok false : Except ForeignNode Bool) = .ok (decide (p ∧ q)) := by
  by_cases p <;> simp [*]

theorem contrastAll_same {es fs : List Expr}
    (each : ∀ e ∈ es, ∀ f, contrast e f = .ok (decide (e = f))) :
    (if es.length = fs.length then contrastAll es fs else .ok false) =
      .ok (decide (es = fs)) := by
  split
  · rename_i length
    exact contrastAll_known length each
  · rename_i length
    have different : es ≠ fs := fun same => length (congrArg List.length same)
    rw [decide_eq_false different]

theorem contrast_known {e : Expr} (known : .foreign ∉ e.nodes) (f : Expr) :
    contrast e f = .ok (decide (e = f)) := by
  induction e generalizing f with
  | foreign => exact absurd (self_mem_nodes _) known
  | dot | empty | literal | bytes => cases f <;> simp [contrast]
  | capture i body ih =>
    have below := known_child known List.mem_cons_self
    cases f with
    | capture j other => rw [contrast, ih below, ok_and]; simp only [capture.injEq]
    | _ => simp [contrast]
  | repetition body min max greedy ih =>
    have below := known_child known List.mem_cons_self
    cases f with
    | repetition other => rw [contrast, ih below, ok_and]; simp only [repetition.injEq, and_comm]
    | _ => simp [contrast]
  | concat items ih =>
    cases f with
    | concat others =>
      rw [contrast, contrastAll_same fun e member => ih e member (known_child known member)]
      simp only [concat.injEq]
    | _ => simp [contrast]
  | alternate branches ih =>
    cases f with
    | alternate others =>
      rw [contrast, contrastAll_same fun e member => ih e member (known_child known member)]
      simp only [alternate.injEq]
    | _ => simp [contrast]

theorem equals_self {e : Expr} (known : .foreign ∉ e.nodes) : e.equals e = .ok true := by
  rw [equals_eq, contrast_known known, decide_eq_true rfl]

/-- The answer is that of the recursion, and on trees of known nodes it is whether they are the same
tree. Sets in a tree are the same if they contain the same bytes. -/
theorem equals_decides (left right : Expr) :
    left.equals right = contrast left right ∧
    (.foreign ∉ left.nodes → .foreign ∉ right.nodes →
      left.equals right = .ok (decide (left = right))) ∧
    ∀ s t : ByteSet,
      bytes s = bytes t ↔ ∀ b : UInt8, s.contains b.toNat = t.contains b.toNat := by
  refine ⟨equals_eq left right, ?_, ?_⟩
  · intro known _
    rw [equals_eq, contrast_known known]
  · intro s t
    rw [bytes.injEq]
    constructor
    · rintro rfl b
      rfl
    · exact ByteSet.eq_of_contains

/-- A set and the complement of its gaps are the same set, so the first two trees are the same. In
the other two the last items differ, so the unknown node before them is never reached; the other way
round it is. -/
theorem equals_decides_last :
    let set : ByteSet := .ofRanges [.between 100 101 (by decide), .between 97 99 (by decide)]
    let left : Expr := .concat [.capture 1 (.bytes set), .repetition .dot 0 none false]
    let right : Expr :=
      .concat [.capture 1 (.bytes set.negate.negate), .repetition .dot 0 none false]
    (.foreign ∉ left.nodes ∧ .foreign ∉ right.nodes ∧ left.equals right = .ok true) ∧
      (concat [.foreign, .dot]).equals (concat [.foreign, .literal 97]) = .ok false ∧
      (concat [.dot, .foreign]).equals (concat [.literal 97, .foreign]) = .error ⟨⟩ := by
  intro set left right
  have leftKnown : .foreign ∉ left.nodes := by decide +kernel
  have rightKnown : .foreign ∉ right.nodes := by decide +kernel
  have same : decide (left = right) = true := by decide +kernel
  have answer := (equals_decides left right).2.1 leftKnown rightKnown
  rw [same] at answer
  exact ⟨⟨leftKnown, rightKnown, answer⟩, (equals_decides _ _).1, (equals_decides _ _).1⟩

end ByteRegex.Expr

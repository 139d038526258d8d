import ByteRegex.Expr

namespace ByteRegex.Expr

theorem size_le_sizeAll {e : Expr} {es : List Expr} (member : e ∈ es) : e.size ≤ sizeAll es := by
  induction es with
  | nil => cases member
  | cons f fs ih =>
    rcases List.mem_cons.mp member with same | later
    · rw [same, sizeAll]; omega
    · have := ih later
      rw [sizeAll]; omega

theorem size_child_lt {child e : Expr} (member : child ∈ e.children) : child.size < e.size := by
  have := size_le_sizeAll member
  rw [size_children e]
  omega

@[induction_eliminator]
theorem induct {motive : Expr → Prop} (dot : motive .dot) (empty : ∀ a, motive (.empty a))
    (literal : ∀ code, motive (.literal code)) (bytes : ∀ set, motive (.bytes set))
    (capture : ∀ i body, motive body → motive (.capture i body))
    (repetition : ∀ body min max greedy, motive body → motive (.repetition body min max greedy))
    (concat : ∀ items, (∀ e ∈ items, motive e) → motive (.concat items))
    (alternate : ∀ branches, (∀ e ∈ branches, motive e) → motive (.alternate branches))
    (foreign : motive .foreign) (e : Expr) : motive e := by
  -- trees nest through lists, so the induction is on their size
  induction h : e.size using Nat.strongRecOn generalizing e with
  | ind n ih =>
    have below : ∀ child ∈ e.children, motive child := by
      intro child member
      exact ih child.size (h ▸ size_child_lt member) child rfl
    cases e with
    | dot => exact dot
    | empty a => exact empty a
    | literal code => exact literal code
    | bytes set => exact bytes set
    | capture i body => exact capture i body (below body (List.mem_singleton_self body))
    | repetition body min max greedy =>
      exact repetition body min max greedy (below body (List.mem_singleton_self body))
    | concat items => exact concat items below
    | alternate branches => exact alternate branches below
    | foreign => exact foreign

mutual

def nodes : Expr → List Expr
  | .capture i body => .capture i body :: body.nodes
  | .repetition body min max greedy => .repetition body min max greedy :: body.nodes
  | .concat items => .concat items :: nodesAll items
  | .alternate branches => .alternate branches :: nodesAll branches
  | e => [e]

def nodesAll : List Expr → List Expr
  | [] => []
  | e :: rest => e.nodes ++ nodesAll rest

end

theorem nodesAll_eq (es : List Expr) : nodesAll es = es.flatMap nodes := by
  induction es with
  | nil => rfl
  | cons e es ih => rw [nodesAll, ih, List.flatMap_cons]

theorem nodes_eq (e : Expr) : e.nodes = e :: e.children.flatMap nodes := by
  cases e <;> simp [nodes, nodesAll_eq, children]

theorem mem_nodes {x e : Expr} : x ∈ e.nodes ↔ x = e ∨ ∃ child ∈ e.children, x ∈ child.nodes := by
  rw [nodes_eq, List.mem_cons, List.mem_flatMap]

theorem self_mem_nodes (e : Expr) : e ∈ e.nodes := mem_nodes.mpr (Or.inl rfl)

theorem forall_nodes {e : Expr} {P : Expr → Prop} :
    (∀ x ∈ e.nodes, P x) ↔ P e ∧ ∀ child ∈ e.children, ∀ x ∈ child.nodes, P x := by
  constructor
  · intro all
    refine ⟨all e (self_mem_nodes e), ?_⟩
    intro child member x below
    exact all x (mem_nodes.mpr (Or.inr ⟨child, member, below⟩))
  · rintro ⟨root, below⟩ x member
    rcases mem_nodes.mp member with same | ⟨child, mem, inside⟩
    · rw [same]; exact root
    · exact below child mem x inside

def captureIndex? : Expr → Option Int
  | .capture i _ => some i
  | _ => none

def captures (e : Expr) : List Int := e.nodes.filterMap captureIndex?

theorem captures_eq (e : Expr) :
    e.captures = e.captureIndex?.toList ++ e.children.flatMap captures := by
  unfold captures
  rw [nodes_eq, List.filterMap_cons, List.filterMap_flatMap]
  cases e.captureIndex? <;> rfl

theorem captures_capture (i : Int) (body : Expr) :
    (capture i body).captures = i :: body.captures := by
  rw [captures_eq]; simp [captureIndex?, children]

theorem captures_repetition (body : Expr) (min : Int) (max : Option Int) (greedy : Bool) :
    (repetition body min max greedy).captures = body.captures := by
  rw [captures_eq]; simp [captureIndex?, children]

theorem captures_concat (items : List Expr) :
    (concat items).captures = items.flatMap captures := by
  rw [captures_eq]; rfl

theorem captures_alternate (branches : List Expr) :
    (alternate branches).captures = branches.flatMap captures := by
  rw [captures_eq]; rfl

/-- The numbers after `n` up to `m`. -/
def numbers (n m : Nat) : List Int := (List.range' (n + 1) (m - n)).map Int.ofNat

theorem numbers_self (n : Nat) : numbers n n = [] := by simp [numbers]

theorem numbers_append {n k m : Nat} (first : n ≤ k) (second : k ≤ m) :
    numbers n k ++ numbers k m = numbers n m := by
  have start : k + 1 = n + 1 + (k - n) := by omega
  have total : m - n = (k - n) + (m - k) := by omega
  rw [numbers, numbers, numbers, ← List.map_append, total, start, List.range'_append_1]

theorem numbers_cons {n m : Nat} (h : n + 1 ≤ m) :
    numbers n m = ((n + 1 : Nat) : Int) :: numbers (n + 1) m := by
  rw [← numbers_append (Nat.le_succ n) h]
  simp [numbers]

def Numbered (e : Expr) : Prop := e.captures = numbers 0 e.captures.length

theorem numbered_of_captures {e : Expr} {n : Nat} (h : e.captures = numbers 0 n) : e.Numbered := by
  have length : e.captures.length = n := by rw [h]; simp [numbers]
  rw [Numbered, length, h]

mutual

def renumber (f : Int → Int) : Expr → Expr
  | .capture i body => .capture (f i) (body.renumber f)
  | .repetition body min max greedy => .repetition (body.renumber f) min max greedy
  | .concat items => .concat (renumberAll f items)
  | .alternate branches => .alternate (renumberAll f branches)
  | e => e

def renumberAll (f : Int → Int) : List Expr → List Expr
  | [] => []
  | e :: rest => e.renumber f :: renumberAll f rest

end

theorem renumberAll_eq (f : Int → Int) (es : List Expr) :
    renumberAll f es = es.map (renumber f) := by
  induction es with
  | nil => rfl
  | cons e es ih => rw [renumberAll, ih, List.map_cons]

theorem renumberAll_captures {f : Int → Int} {es : List Expr}
    (each : ∀ e ∈ es, (e.renumber f).captures = e.captures.map f) :
    (renumberAll f es).flatMap captures = (es.flatMap captures).map f := by
  induction es with
  | nil => rfl
  | cons e es ih =>
    obtain ⟨first, later⟩ := List.forall_mem_cons.mp each
    rw [renumberAll, List.flatMap_cons, List.flatMap_cons, List.map_append, first, ih later]

theorem captures_renumber (f : Int → Int) (e : Expr) :
    (e.renumber f).captures = e.captures.map f := by
  induction e with
  | dot | empty | literal | bytes | foreign => rfl
  | capture i body ih => rw [renumber, captures_capture, captures_capture, ih, List.map_cons]
  | repetition body min max greedy ih =>
    rw [renumber, captures_repetition, captures_repetition, ih]
  | concat items ih => rw [renumber, captures_concat, captures_concat, renumberAll_captures ih]
  | alternate branches ih =>
    rw [renumber, captures_alternate, captures_alternate, renumberAll_captures ih]

def shape (e : Expr) : Expr := e.renumber fun _ => 0

theorem shape_capture (i : Int) (body : Expr) : (capture i body).shape = .capture 0 body.shape := by
  rw [shape, renumber]; rfl

theorem shape_repetition (body : Expr) (min : Int) (max : Option Int) (greedy : Bool) :
    (repetition body min max greedy).shape = .repetition body.shape min max greedy := by
  rw [shape, renumber]; rfl

theorem shape_concat (items : List Expr) : (concat items).shape = .concat (items.map shape) := by
  rw [shape, renumber, renumberAll_eq]; rfl

theorem shape_alternate (branches : List Expr) :
    (alternate branches).shape = .alternate (branches.map shape) := by
  rw [shape, renumber, renumberAll_eq]; rfl

theorem captures_length_of_shape {e f : Expr} (same : e.shape = f.shape) :
    e.captures.length = f.captures.length := by
  have left := congrArg List.length (captures_renumber (fun _ => 0) e)
  have right := congrArg List.length (captures_renumber (fun _ => 0) f)
  rw [List.length_map] at left right
  rw [← left, ← right]
  exact congrArg (fun t => t.captures.length) same

theorem children_eq_of_shape {es fs : List Expr}
    (each : ∀ e ∈ es, ∀ f : Expr, e.shape = f.shape → e.captures = f.captures → e = f)
    (same : es.map shape = fs.map shape)
    (numbers : es.flatMap captures = fs.flatMap captures) : es = fs := by
  induction es generalizing fs with
  | nil => exact (List.map_eq_nil_iff.mp same.symm).symm
  | cons e es ih =>
    cases fs with
    | nil => cases same
    | cons f fs =>
      obtain ⟨first, later⟩ := List.forall_mem_cons.mp each
      obtain ⟨head, tail⟩ := List.cons.inj same
      rw [List.flatMap_cons, List.flatMap_cons] at numbers
      -- one shape, so as many captures: the numbers divide at the same place
      obtain ⟨mine, others⟩ := List.append_inj numbers (captures_length_of_shape head)
      rw [first f head mine, ih later tail others]

theorem eq_of_shape {e f : Expr} (same : e.shape = f.shape) (numbers : e.captures = f.captures) :
    e = f := by
  induction e generalizing f with
  | dot | empty | literal | bytes | foreign =>
    cases f <;> simp [shape, renumber] at same ⊢ <;> exact same
  | capture i body ih =>
    cases f with
    | capture j other =>
      rw [shape_capture, shape_capture] at same
      rw [captures_capture, captures_capture] at numbers
      obtain ⟨index, later⟩ := List.cons.inj numbers
      injection same with _ inner
      rw [index, ih inner later]
    | _ => simp [shape, renumber] at same
  | repetition body min max greedy ih =>
    cases f with
    | repetition other =>
      rw [shape_repetition, shape_repetition] at same
      rw [captures_repetition, captures_repetition] at numbers
      injection same with inner sameMin sameMax sameGreedy
      rw [ih inner numbers, sameMin, sameMax, sameGreedy]
    | _ => simp [shape, renumber] at same
  | concat items ih =>
    cases f with
    | concat others =>
      rw [shape_concat, shape_concat] at same
      rw [captures_concat, captures_concat] at numbers
      injection same with inner
      rw [children_eq_of_shape (fun e member f => ih e member) inner numbers]
    | _ => simp [shape, renumber] at same
  | alternate branches ih =>
    cases f with
    | alternate others =>
      rw [shape_alternate, shape_alternate] at same
      rw [captures_alternate, captures_alternate] at numbers
      injection same with inner
      rw [children_eq_of_shape (fun e member f => ih e member) inner numbers]
    | _ => simp [shape, renumber] at same

theorem eq_of_numbered {e f : Expr} (same : e.shape = f.shape) (left : e.Numbered)
    (right : f.Numbered) : e = f := by
  have captures : e.captures = f.captures := by
    rw [Numbered, ← captures_length_of_shape same] at right
    exact left.trans right.symm
  exact eq_of_shape same captures

end ByteRegex.Expr

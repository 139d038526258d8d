import ByteRegex.Cursor
import ByteRegex.Proofs.Extent.Bounds
import ByteRegex.Proofs.Extent.Bracket

namespace ByteRegex

/-- An operation on a cursor. The last three read a construct whose opening byte has been passed. -/
inductive Operation where
  | peek (distance : Int)
  | next
  | eat (code : Int)
  | skipWhile (test : UInt8 → Bool)
  | escape
  | bracket
  | bounds (limit : Int)

namespace Operation

def taken (s : List UInt8) : Operation → Nat
  | .peek _ => 0
  | .next => if s.isEmpty then 0 else 1
  | .eat code => if s.head?.any (fun b => (b.toNat : Int) = code) then 1 else 0
  | .skipWhile test => runLength test s
  | .escape => (Escape.read s).used
  | .bracket => (Bracket.read s).used
  | .bounds limit => (Bounds.read limit s).used

def total (s : List UInt8) : List Operation → Nat
  | [] => 0
  | op :: ops => op.taken s + total (s.drop (op.taken s)) ops

theorem total_single (s : List UInt8) (op : Operation) : total s [op] = op.taken s := rfl

theorem taken_le (s : List UInt8) (op : Operation) : op.taken s ≤ s.length := by
  cases op with
  | peek distance => exact Nat.zero_le _
  | next =>
    cases s with
    | nil => exact Nat.le_refl _
    | cons b s => exact Nat.le_add_left _ _
  | eat code =>
    cases s with
    | nil => exact Nat.le_refl _
    | cons b s =>
      simp only [taken, List.length_cons]
      split <;> omega
  | skipWhile test => exact runLength_le test s
  | escape => exact Escape.read_within s
  | bracket => exact Bracket.read_within s
  | bounds limit => exact Bounds.read_within limit s

theorem total_le (s : List UInt8) (ops : List Operation) : total s ops ≤ s.length := by
  induction ops generalizing s with
  | nil => exact Nat.zero_le _
  | cons op ops ih =>
    have first := taken_le s op
    have later := ih (s.drop (op.taken s))
    rw [List.length_drop] at later
    unfold total
    omega

end Operation

namespace Cursor

def perform (c : Cursor) : Operation → Cursor
  | .peek _ => c
  | .next => c.next.2
  | .eat code => (c.eat code).2
  | .skipWhile test => c.skipWhile test
  | .escape => (c.read Escape.read).2
  | .bracket => (c.read Bracket.read).2
  | .bounds limit => (c.read (Bounds.read limit)).2

def performAll (c : Cursor) (ops : List Operation) : Cursor := ops.foldl perform c

/-- A construct takes at least one byte whenever it can be read at the cursor. -/
def Consumes {α : Type} (c : Cursor) (reader : List UInt8 → Reading α) : Prop :=
  ∀ value d, c.read reader = (.ok value, d) → c.index < d.index

theorem read_moves {α : Type} (c : Cursor) (reader : List UInt8 → Reading α) :
    (c.read reader).2 = c.advance (reader c.ahead).used := by
  unfold read
  split
  · rename_i found
    rw [found]
    rfl
  · rename_i failed
    rw [failed]
    rfl

theorem eat_moves (c : Cursor) (code : Int) :
    (c.eat code).2 = c.advance ((Operation.eat code).taken c.ahead) := by
  unfold eat Operation.taken
  cases c.ahead with
  | nil => rfl
  | cons b s =>
    by_cases same : (b.toNat : Int) = code
    · simp [same]
    · simp [same, advance]

theorem next_moves (c : Cursor) : c.next.2 = c.advance (Operation.next.taken c.ahead) := by
  unfold next Operation.taken
  cases eq : c.ahead with
  | nil => simp only [advance, eq]; rfl
  | cons b s => rfl

theorem perform_moves (c : Cursor) (op : Operation) :
    c.perform op = c.advance (op.taken c.ahead) := by
  cases op with
  | peek distance => rfl
  | next => exact next_moves c
  | eat code => exact eat_moves c code
  | skipWhile test => rfl
  | escape => exact read_moves c Escape.read
  | bracket => exact read_moves c Bracket.read
  | bounds limit => exact read_moves c (Bounds.read limit)

theorem performAll_moves (c : Cursor) (ops : List Operation) :
    c.performAll ops = c.advance (Operation.total c.ahead ops) := by
  induction ops generalizing c with
  | nil => rfl
  | cons op ops ih =>
    have later : c.performAll (op :: ops) = (c.perform op).performAll ops := rfl
    rw [later, ih, perform_moves, advance_advance, ahead_advance, Operation.total]

theorem performAll_index (c : Cursor) (ops : List Operation) :
    (c.performAll ops).index = c.index + Operation.total c.ahead ops := by
  rw [performAll_moves]
  exact index_passed (Operation.total_le c.ahead ops)

theorem performAll_ahead (c : Cursor) (ops : List Operation) :
    (c.performAll ops).ahead = c.ahead.drop (Operation.total c.ahead ops) := by
  rw [performAll_moves, ahead_advance]

theorem performAll_bytes (c : Cursor) (ops : List Operation) :
    (c.performAll ops).bytes = c.bytes := by
  rw [performAll_moves, bytes_advance]

theorem consumes_of_need {α : Type} {reader : List UInt8 → Reading α}
    (within : ∀ s, (reader s).used ≤ s.length) (need : ∀ s, 0 < (reader s).need) (c : Cursor) :
    c.Consumes reader := by
  intro value d found
  have moved : d = c.advance (reader c.ahead).used := by rw [← read_moves, found]
  rw [moved, index_passed (within c.ahead)]
  unfold read at found
  split at found
  · rename_i used eq
    have positive := need c.ahead
    rw [eq] at positive ⊢
    exact Nat.lt_add_of_pos_right positive
  · cases found

end Cursor

theorem Escape.need_pos (s : List UInt8) : 0 < (Escape.read s).need := by
  cases s with
  | nil => exact Nat.one_pos
  | cons b s => exact Nat.lt_of_lt_of_le (read_used b s) (Reading.used_le_need _)

theorem Bracket.need_pos (s : List UInt8) : 0 < (Bracket.read s).need := by
  by_cases negated : s.head? = some Byte.caret
  · obtain ⟨t, rfl⟩ := List.head?_eq_some_iff.mp negated
    have := members_need true 1 [] t
    rw [read_negated, Reading.need_map (by simp)]
    omega
  · have := members_need true 0 [] s
    rw [read_plain negated, Reading.need_map (by simp)]
    omega

theorem Bounds.need_pos (limit : Int) (s : List UInt8) : 0 < (Bounds.read limit s).need := by
  have spelled := Counts.read_need s
  have checked := Bounds.read_need limit s
  omega

namespace Cursor

theorem escape_consumes (c : Cursor) : c.Consumes Escape.read :=
  consumes_of_need Escape.read_within Escape.need_pos c

theorem bracket_consumes (c : Cursor) : c.Consumes Bracket.read :=
  consumes_of_need Bracket.read_within Bracket.need_pos c

theorem bounds_consumes (limit : Int) (c : Cursor) : c.Consumes (Bounds.read limit) :=
  consumes_of_need (Bounds.read_within limit) (Bounds.need_pos limit) c

end Cursor

end ByteRegex

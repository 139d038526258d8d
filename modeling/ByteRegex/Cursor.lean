import ByteRegex.PatternError

namespace ByteRegex

/-- The bytes before the place, nearest first, and those from it on. -/
structure Cursor where
  behind : List UInt8
  ahead : List UInt8

namespace Cursor

def start (bytes : List UInt8) : Cursor := ⟨[], bytes⟩

def index (c : Cursor) : Nat := c.behind.length

def bytes (c : Cursor) : List UInt8 := c.behind.reverse ++ c.ahead

def isDone (c : Cursor) : Bool := c.ahead.isEmpty

/-- The byte at a distance, which is negative for the bytes before the place. -/
def peek (c : Cursor) (distance : Int) : Option UInt8 :=
  if 0 ≤ distance then c.ahead[distance.toNat]? else c.behind[(-distance - 1).toNat]?

def advance (c : Cursor) : Nat → Cursor
  | 0 => c
  | n + 1 =>
    match c.ahead with
    | [] => c
    | b :: rest => advance ⟨b :: c.behind, rest⟩ n

def next (c : Cursor) : Option UInt8 × Cursor := (c.ahead.head?, c.advance 1)

def eat (c : Cursor) (code : Int) : Bool × Cursor :=
  match c.ahead with
  | b :: _ => if (b.toNat : Int) = code then (true, c.advance 1) else (false, c)
  | [] => (false, c)

def skipWhile (c : Cursor) (test : UInt8 → Bool) : Cursor := c.advance (runLength test c.ahead)

def read {α : Type} (c : Cursor) (reader : List UInt8 → Reading α) :
    Except PatternError α × Cursor :=
  match reader c.ahead with
  | .ok (value, used) => (.ok value, c.advance used)
  | .error f => (.error ⟨f.kind, c.index - 1 + f.offset⟩, c.advance f.used)

theorem bytes_start (p : List UInt8) : (start p).bytes = p := rfl

theorem bytes_advance (c : Cursor) (n : Nat) : (c.advance n).bytes = c.bytes := by
  induction n generalizing c with
  | zero => rfl
  | succ n ih =>
    unfold advance
    split
    · rfl
    · rename_i b rest eq
      rw [ih]
      simp [bytes, eq]

theorem index_advance (c : Cursor) (n : Nat) :
    (c.advance n).index = c.index + Nat.min n c.ahead.length := by
  induction n generalizing c with
  | zero => simp [advance]
  | succ n ih =>
    unfold advance
    split
    · rename_i eq; simp [eq]
    · rename_i b rest eq
      rw [ih]
      simp only [index, eq, List.length_cons, Nat.min_def]
      split <;> split <;> omega

theorem ahead_advance (c : Cursor) (n : Nat) : (c.advance n).ahead = c.ahead.drop n := by
  induction n generalizing c with
  | zero => rfl
  | succ n ih =>
    unfold advance
    split
    · rename_i eq
      rw [eq, List.drop_nil]
    · rename_i b rest eq
      rw [ih, eq, List.drop_succ_cons]

theorem advance_advance (c : Cursor) (m n : Nat) : (c.advance m).advance n = c.advance (m + n) := by
  induction m generalizing c with
  | zero => rw [Nat.zero_add, advance]
  | succ m ih =>
    rw [Nat.add_right_comm, advance, advance]
    split
    · rename_i eq
      cases n with
      | zero => rfl
      | succ n => rw [advance, eq]
    · exact ih _

theorem index_passed {c : Cursor} {n : Nat} (there : n ≤ c.ahead.length) :
    (c.advance n).index = c.index + n := by
  rw [index_advance]
  exact congrArg (c.index + ·) (Nat.min_eq_left there)

theorem length_bytes (c : Cursor) : c.bytes.length = c.index + c.ahead.length := by
  rw [bytes, List.length_append, List.length_reverse, index]

theorem index_le_bytes (c : Cursor) : c.index ≤ c.bytes.length := by
  rw [length_bytes]
  exact Nat.le_add_right _ _

end Cursor

end ByteRegex

import ByteRegex.Expr.Identity
import ByteRegex.Proofs.Cursor
import ByteRegex.Proofs.Run

/-!
The turns of a reader's loop, one for each token. A token is read by operations on a cursor, and the
next token starts where they leave it. Each turn passes a byte at least, so there are no more turns
than bytes.
-/

namespace ByteRegex

namespace Token

/-- The operations by which the token with the first byte `b` is read, before the bytes `s`. That
byte is passed first. Behind a quantifier a question mark is passed, if its bounds could be read. -/
def operations (limit : Int) (b : UInt8) (s : List UInt8) : List Operation :=
  .next ::
    match b with
    | Byte.star | Byte.plus | Byte.question => [.eat Byte.question.toNat]
    | Byte.leftBrace =>
      match Bounds.read limit s with
      | .ok _ => [.bounds limit, .eat Byte.question.toNat]
      | .error _ => [.bounds limit]
    | Byte.leftBracket => [.bracket]
    | Byte.backslash => [.escape]
    | _ => []

end Token

structure Turn where
  start : Nat
  operations : List Operation

namespace Machine

def turn (limit : Int) (m : Machine) : Turn :=
  match m.rest with
  | [] => ⟨m.index, []⟩
  | b :: s => ⟨m.index, Token.operations limit b s⟩

/-- The turns of a reader from here on, up to the end of the pattern or the first error. The last
one may be of a token in error. -/
def turns (limit : Int) (m : Machine) : List Turn :=
  match _h : m.advance? limit with
  | none => []
  | some (.error _) => [m.turn limit]
  | some (.ok next) => m.turn limit :: next.turns limit
termination_by m.rest.length
decreasing_by exact advance_rest _h

end Machine

namespace Token

theorem taken_question (bounds : Bounds) (n : Nat) (s : List UInt8) :
    n + (Operation.eat Byte.question.toNat).taken s = (quantify bounds n s).2 := by
  by_cases lazy : s.head? = some Byte.question
  · rw [quantify_lazy bounds n lazy]
    simp [Operation.taken, lazy]
  · rw [quantify_greedy bounds n lazy]
    cases s with
    | nil => rfl
    | cons b s =>
      have other : ¬ (b.toNat : Int) = Byte.question.toNat := by
        intro same
        apply lazy
        rw [List.head?_cons, UInt8.toNat_inj.mp (Int.ofNat.inj same)]
      simp only [Operation.taken, List.head?_cons, Option.any_some, other, decide_false,
        Bool.false_eq_true, if_false, Nat.add_zero]

theorem taken_bracket (limit : Int) (s : List UInt8) :
    Operation.bracket.taken s = (read limit Byte.leftBracket s).used := by
  rw [read_bracket, Reading.used_map (by simp)]
  rfl

theorem taken_escape (limit : Int) (s : List UInt8) :
    Operation.escape.taken s = (read limit Byte.backslash s).used := by
  rw [read_backslash, Reading.used_map (by simp)]
  rfl

theorem total_braces (limit : Int) (s : List UInt8) :
    Operation.total s
        (match Bounds.read limit s with
        | .ok _ => [.bounds limit, .eat Byte.question.toNat]
        | .error _ => [.bounds limit]) =
      (read limit Byte.leftBrace s).used := by
  rw [read_brace]
  cases body : Bounds.read limit s with
  | error f =>
    rw [Operation.total_single, Operation.taken, body]
    rfl
  | ok pair =>
    obtain ⟨bounds, n⟩ := pair
    have braces : (Operation.bounds limit).taken s = n := by rw [Operation.taken, body]; rfl
    rw [Operation.total, Operation.total_single, braces]
    exact taken_question bounds n (s.drop n)

theorem total_operations (limit : Int) (b : UInt8) (s : List UInt8) :
    Operation.total (b :: s) (operations limit b s) = 1 + (read limit b s).used := by
  have first (ops : List Operation) :
      Operation.total (b :: s) (.next :: ops) = 1 + Operation.total s ops := rfl
  have question (bounds : Bounds) : Operation.total s [.eat Byte.question.toNat] =
      (quantify bounds 0 s).2 := by
    rw [Operation.total_single, ← taken_question, Nat.zero_add]
  unfold operations
  rw [first]
  congr 1
  split
  · exact question ⟨0, none⟩
  · exact question ⟨1, none⟩
  · exact question ⟨0, some 1⟩
  · exact total_braces limit s
  · exact taken_bracket limit s
  · exact taken_escape limit s
  · rename_i star plus question brace bracket backslash
    -- any other byte is a token of its own
    unfold read
    split <;> try rfl
    · exact absurd rfl star
    · exact absurd rfl plus
    · exact absurd rfl question
    · exact absurd rfl brace
    · exact absurd rfl bracket
    · exact absurd rfl backslash

end Token

namespace Turn

/-- Turns that move a cursor from one place to another: each starts where the cursor stands and
passes a byte at least, and the next one starts where it leaves the cursor. -/
inductive Follow : Cursor → List Turn → Cursor → Prop where
  | nil (c : Cursor) : Follow c [] c
  | cons {c d : Cursor} {turn : Turn} {turns : List Turn} (starts : turn.start = c.index)
      (forward : c.index < (c.performAll turn.operations).index)
      (later : Follow (c.performAll turn.operations) turns d) : Follow c (turn :: turns) d

theorem follow_bytes {c d : Cursor} {turns : List Turn} (follow : Follow c turns d) :
    d.bytes = c.bytes := by
  induction follow with
  | nil c => rfl
  | cons starts forward later ih => rw [ih, Cursor.performAll_bytes]

theorem follow_length {c d : Cursor} {turns : List Turn} (follow : Follow c turns d) :
    c.index + turns.length ≤ d.index := by
  induction follow with
  | nil c => exact Nat.le_refl _
  | cons starts forward later ih =>
    rw [List.length_cons]
    omega

theorem follow_start_le {c d : Cursor} {turns : List Turn} (follow : Follow c turns d) :
    ∀ turn ∈ turns, c.index ≤ turn.start := by
  induction follow with
  | nil c =>
    intro turn member
    cases member
  | cons starts forward later ih =>
    intro turn member
    rcases List.mem_cons.mp member with rfl | inside
    · exact Nat.le_of_eq starts.symm
    · have := ih turn inside
      omega

theorem follow_increasing {c d : Cursor} {turns : List Turn} (follow : Follow c turns d) :
    turns.Pairwise fun earlier later => earlier.start < later.start := by
  induction follow with
  | nil c => exact .nil
  | cons starts forward later ih =>
    refine .cons ?_ ih
    intro turn member
    have := follow_start_le later turn member
    omega

end Turn

namespace Machine

structure At (c : Cursor) (m : Machine) : Prop where
  index : c.index = m.index
  ahead : c.ahead = m.rest

theorem start_at (p : List UInt8) : (start p).At (Cursor.start p) := ⟨rfl, rfl⟩

theorem turn_cons {limit : Int} {m : Machine} {b : UInt8} {s : List UInt8}
    (rest : m.rest = b :: s) : m.turn limit = ⟨m.index, Token.operations limit b s⟩ := by
  rw [turn, rest]

theorem turn_start (limit : Int) (m : Machine) : (m.turn limit).start = m.index := by
  unfold turn
  split <;> rfl

theorem turn_at {limit : Int} {c : Cursor} {m : Machine} (here : m.At c) :
    (m.turn limit).start = c.index := by
  rw [turn_start, here.index]

theorem turn_index (limit : Int) {c : Cursor} {m : Machine} {b : UInt8} {s : List UInt8}
    (here : m.At c) (rest : m.rest = b :: s) :
    (c.performAll (m.turn limit).operations).index =
      m.index + 1 + (Token.read limit b s).used := by
  rw [Cursor.performAll_index, here.index, here.ahead, rest, turn_cons rest,
    Token.total_operations, Nat.add_assoc]

theorem turn_ahead (limit : Int) {c : Cursor} {m : Machine} {b : UInt8} {s : List UInt8}
    (here : m.At c) (rest : m.rest = b :: s) :
    (c.performAll (m.turn limit).operations).ahead = s.drop (Token.read limit b s).used := by
  rw [Cursor.performAll_ahead, here.ahead, rest, turn_cons rest, Token.total_operations,
    Nat.add_comm, List.drop_succ_cons]

theorem turn_taken {limit : Int} {c : Cursor} {m next : Machine} (here : m.At c)
    (step : m.advance? limit = some (.ok next)) :
    next.At (c.performAll (m.turn limit).operations) ∧ c.index < next.index := by
  have outcome := advance_outcome limit m
  rw [step] at outcome
  cases outcome with
  | taken rest read added =>
    have index := turn_index limit here rest
    have ahead := turn_ahead limit here rest
    rw [read] at index ahead
    refine ⟨⟨index, ahead⟩, ?_⟩
    have := here.index
    simp only
    omega

theorem turn_failed {limit : Int} {c : Cursor} {m : Machine} {f : Failure} (here : m.At c)
    (step : m.advance? limit = some (.error f)) :
    (c.performAll (m.turn limit).operations).index = f.stop ∧ c.index < f.stop := by
  have index := here.index
  have outcome := advance_outcome limit m
  rw [step] at outcome
  cases outcome with
  | misread rest read | refused rest read added =>
    have stop := turn_index limit here rest
    rw [read] at stop
    refine ⟨stop, ?_⟩
    simp only
    omega

/-- The cursor stands where a run of the reader leaves off: behind the last byte, or where an error
has stopped it. -/
def Leaves (limit : Int) (m : Machine) (c : Cursor) : Prop :=
  match m.run limit with
  | .ok _ => c.isDone
  | .error f => c.index = f.stop

theorem leaves_ended {limit : Int} {c : Cursor} {m : Machine} (here : m.At c)
    (ended : m.advance? limit = none) : m.Leaves limit c := by
  unfold Leaves
  rw [run_eq, ended]
  simp only
  cases m.table.finish m.index with
  | error e => exact here.index
  | ok e =>
    have done : c.isDone = true := by
      rw [Cursor.isDone, here.ahead, rest_of_ended ended]
      rfl
    exact done

theorem leaves_failed {limit : Int} {c : Cursor} {m : Machine} {f : Failure}
    (step : m.advance? limit = some (.error f)) (stop : c.index = f.stop) : m.Leaves limit c := by
  unfold Leaves
  rw [run_failed step]
  exact stop

theorem leaves_taken {limit : Int} {c : Cursor} {m next : Machine}
    (step : m.advance? limit = some (.ok next)) (later : next.Leaves limit c) :
    m.Leaves limit c := by
  unfold Leaves
  rw [run_taken step]
  exact later

theorem turns_follow (limit : Int) {c : Cursor} {m : Machine} (here : m.At c) :
    ∃ stop, Turn.Follow c (m.turns limit) stop ∧ m.Leaves limit stop := by
  -- along the loop, the cursor being the one that the operations so far have left
  fun_induction turns limit m generalizing c with
  | case1 m ended => exact ⟨c, .nil c, leaves_ended here ended⟩
  | case2 m f step =>
    obtain ⟨stop, forward⟩ := turn_failed here step
    exact ⟨_, .cons (turn_at here) (by rwa [stop]) (.nil _), leaves_failed step stop⟩
  | case3 m next step ih =>
    obtain ⟨there, forward⟩ := turn_taken here step
    obtain ⟨stop, follow, leaves⟩ := ih there
    exact ⟨stop, .cons (turn_at here) (by rwa [there.index]) follow, leaves_taken step leaves⟩

theorem turns_taken {limit : Int} {m next : Machine} (step : m.advance? limit = some (.ok next)) :
    m.turns limit = m.turn limit :: next.turns limit := by
  rw [turns]
  split
  · rename_i ended
    rw [step] at ended
    cases ended
  · rename_i failed
    rw [step] at failed
    cases failed
  · rename_i other
    rw [step] at other
    cases other
    rfl

theorem after_turns {limit : Int} {k : Nat} {m l : Machine}
    (reached : after (advance? limit) k m = some l) : k ≤ (m.turns limit).length := by
  induction k generalizing m with
  | zero => exact Nat.zero_le _
  | succ k ih =>
    obtain ⟨next, taken, later⟩ := after_succ reached
    rw [turns_taken taken, List.length_cons]
    exact Nat.succ_le_succ (ih later)

/-- The log has the starts of the tokens; only one in error is left out. -/
theorem turns_logged (limit : Int) (m : Machine) :
    (m.steps limit []).map Step.index <+: (m.turns limit).map Turn.start ∧
      (m.turns limit).length ≤ (m.steps limit []).length + 1 := by
  fun_induction turns limit m with
  | case1 m ended =>
    rw [steps_stuck (by rw [ended]; simp)]
    exact ⟨List.prefix_refl _, Nat.le_succ _⟩
  | case2 m f step =>
    rw [steps_stuck (by rw [step]; simp)]
    exact ⟨List.nil_prefix, Nat.le_refl _⟩
  | case3 m next step ih =>
    rw [steps_cons step]
    simp only [List.map_cons, List.length_cons, turn_start]
    exact ⟨(List.prefix_cons_inj _).mpr ih.1, Nat.succ_le_succ ih.2⟩

end Machine

/-- Whatever is done with a cursor, it keeps to its bytes and never goes back: it passes those that
the operations take by their own count. A construct that can be read takes at least one byte. The
tokens of a run start one behind the other, each where the operations on the one before it end, and
the run stops after no more turns than there are bytes. -/
theorem cursor_always_forward (limit : Int) (p : List UInt8) :
    (∀ earlier later : List Operation,
      let c := (Cursor.start p).performAll earlier
      let d := c.performAll later
      d.bytes = p ∧ d.index = c.index + Operation.total c.ahead later ∧ c.index ≤ d.index ∧
        d.index ≤ p.length) ∧
    (∀ earlier : List Operation,
      let c := (Cursor.start p).performAll earlier
      c.Consumes Escape.read ∧ c.Consumes Bracket.read ∧
        ∀ ceiling, c.Consumes (Bounds.read ceiling)) ∧
    (let turns := (Machine.start p).turns limit;
      (∃ stop, Turn.Follow (Cursor.start p) turns stop ∧ (Machine.start p).Leaves limit stop) ∧
        (trace limit p).map Step.index <+: turns.map Turn.start ∧
        turns.length ≤ (trace limit p).length + 1 ∧
        (turns.map Turn.start).Pairwise (· < ·) ∧ turns.length ≤ p.length ∧
        ∀ k, turns.length < k → after (Machine.advance? limit) k (Machine.start p) = none) := by
  refine ⟨?_, ?_, ?_⟩
  · intro earlier later c d
    have bytes : d.bytes = p := by
      rw [Cursor.performAll_bytes, Cursor.performAll_bytes, Cursor.bytes_start]
    have index : d.index = c.index + Operation.total c.ahead later := c.performAll_index later
    have inside := d.index_le_bytes
    rw [bytes] at inside
    exact ⟨bytes, index, by omega, inside⟩
  · intro earlier c
    exact ⟨c.escape_consumes, c.bracket_consumes, fun ceiling => c.bounds_consumes ceiling⟩
  · obtain ⟨stop, follow, leaves⟩ := Machine.turns_follow limit (Machine.start_at p)
    obtain ⟨logged, count⟩ := Machine.turns_logged limit (Machine.start p)
    refine ⟨⟨stop, follow, leaves⟩, logged, count, ?_, ?_, ?_⟩
    · exact List.pairwise_map.mpr (Turn.follow_increasing follow)
    · have spent := Turn.follow_length follow
      have inside := stop.index_le_bytes
      rw [Turn.follow_bytes follow, Cursor.bytes_start] at inside
      omega
    · intro k more
      cases reached : after (Machine.advance? limit) k (Machine.start p) with
      | none => rfl
      | some m =>
        have := Machine.after_turns reached
        omega

/-- In `[]-a]{2}?\xg` three tokens start, and the third is read up to the `g`. -/
theorem cursor_always_forward_digit :
    let p : List UInt8 := [91, 93, 45, 97, 93, 123, 50, 125, 63, 92, 120, 103]
    let c := (Cursor.start p).performAll (List.replicate 6 .next)
    let turns := (Machine.start p).turns 1000
    (c.read (Bounds.read 1000)).1 = .ok ⟨2, some 2⟩ ∧
      c.index < (c.read (Bounds.read 1000)).2.index ∧ turns.map Turn.start = [0, 5, 9] ∧
      (∃ stop, Turn.Follow (Cursor.start p) turns stop ∧ stop.index = 11) ∧
      after (Machine.advance? 1000) 4 (Machine.start p) = none := by
  intro p c turns
  obtain ⟨_, consumes, ⟨stop, follow, leaves⟩, _, _, _, _, ends⟩ := cursor_always_forward 1000 p
  have starts : turns.map Turn.start = [0, 5, 9] := by decide +kernel
  have failed : (Machine.start p).run 1000 = .error ⟨⟨.invalidHexDigit, 11⟩, 11⟩ := by
    decide +kernel
  have count : turns.length = 3 := by rw [← List.length_map Turn.start, starts]; rfl
  have braces := (consumes (List.replicate 6 .next)).2.2 1000
  unfold Machine.Leaves at leaves
  rw [failed] at leaves
  exact ⟨rfl, braces _ _ rfl, starts, ⟨stop, follow, leaves⟩, ends 4 (by rw [count]; decide)⟩

end ByteRegex

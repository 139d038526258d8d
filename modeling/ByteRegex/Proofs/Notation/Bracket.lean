import ByteRegex.Proofs.ByteSet.Laws
import ByteRegex.Proofs.Extent.Bracket
import ByteRegex.Proofs.Notation.Escape

namespace ByteRegex

def ByteRange.ends (r : ByteRange) : UInt8 × UInt8 := (UInt8.ofNat r.min, UInt8.ofNat r.max)

namespace Bracket

/-! ### Grammar -/

inductive Endpoint (k : Nat) : List UInt8 → UInt8 → Nat → List UInt8 → Prop where
  | raw {b : UInt8} (plain : b ≠ Byte.backslash) (rest : List UInt8) :
      Endpoint k (b :: rest) b (k + 1) rest
  | escape {code rest : List UInt8} {c : UInt8}
      (meaning : Escape.Meaning k (code ++ rest) (.ok c) (k + 1 + code.length)) :
      Endpoint k (Byte.backslash :: (code ++ rest)) c (k + 1 + code.length) rest

inductive BadEndpoint (k : Nat) : List UInt8 → PatternError → Nat → Prop where
  | escape {s : List UInt8} {e : PatternError} {stop : Nat}
      (meaning : Escape.Meaning k s (.error e) stop) : BadEndpoint k (Byte.backslash :: s) e stop

/-- A member at the index `k`: its first and last byte, the index behind it, and the rest. A dash
makes a range unless the closing bracket comes next. -/
inductive Listed (k : Nat) : List UInt8 → UInt8 × UInt8 → Nat → List UInt8 → Prop where
  | single {s rest : List UInt8} {c : UInt8} {next : Nat} (only : Endpoint k s c next rest)
      (alone : ∀ t, rest = Byte.dash :: t → t.head? = some Byte.rightBracket) :
      Listed k s (c, c) next rest
  | range {s t rest : List UInt8} {low high : UInt8} {dash next : Nat}
      (first : Endpoint k s low dash (Byte.dash :: t))
      (inside : t.head? ≠ some Byte.rightBracket)
      (second : Endpoint (dash + 1) t high next rest) : Listed k s (low, high) next rest

/-- What is wrong with a member at the index `k`, and the index at which that is seen. -/
inductive Problem (opening k : Nat) : List UInt8 → PatternError → Nat → Prop where
  | low {s : List UInt8} {e : PatternError} {stop : Nat} (bad : BadEndpoint k s e stop) :
      Problem opening k s e stop
  | ended {s : List UInt8} {low : UInt8} {dash : Nat} (first : Endpoint k s low dash [Byte.dash]) :
      Problem opening k s ⟨.unclosedBrackets, opening⟩ (dash + 1)
  | high {s t : List UInt8} {low : UInt8} {dash stop : Nat} {e : PatternError}
      (first : Endpoint k s low dash (Byte.dash :: t))
      (inside : t.head? ≠ some Byte.rightBracket) (bad : BadEndpoint (dash + 1) t e stop) :
      Problem opening k s e stop
  | reversed {s rest : List UInt8} {range : UInt8 × UInt8} {next : Nat}
      (listed : Listed k s range next rest) (wrong : range.2 < range.1) :
      Problem opening k s ⟨.invalidClassRange, k⟩ next

/-- The members from the index `k` on, up to the closing bracket, which is a member where the first
one should be. -/
inductive Body (opening : Nat) : Bool → Nat → List UInt8 →
    Except PatternError (List (UInt8 × UInt8)) → Nat → Prop where
  | ended (first : Bool) (k : Nat) :
      Body opening first k [] (.error ⟨.unclosedBrackets, opening⟩) k
  | closed (k : Nat) (rest : List UInt8) :
      Body opening false k (Byte.rightBracket :: rest) (.ok []) (k + 1)
  | listed {first : Bool} {k next stop : Nat} {s rest : List UInt8} {range : UInt8 × UInt8}
      {outcome : Except PatternError (List (UInt8 × UInt8))}
      (inside : first = true ∨ s.head? ≠ some Byte.rightBracket)
      (here : Listed k s range next rest) (ordered : range.1 ≤ range.2)
      (later : Body opening false next rest outcome stop) :
      Body opening first k s (outcome.map (range :: ·)) stop
  | problem {first : Bool} {k stop : Nat} {s : List UInt8} {e : PatternError}
      (inside : first = true ∨ s.head? ≠ some Byte.rightBracket)
      (wrong : Problem opening k s e stop) : Body opening first k s (.error e) stop

inductive Start (i : Nat) : List UInt8 → Bool → Nat → List UInt8 → Prop where
  | plain {s : List UInt8} (noCaret : s.head? ≠ some Byte.caret) : Start i s false (i + 1) s
  | negated (s : List UInt8) : Start i (Byte.caret :: s) true (i + 2) s

def lies (members : List (UInt8 × UInt8)) (b : UInt8) : Bool :=
  members.any fun m => m.1 ≤ b && b ≤ m.2

/-- What comes of a bracket at the index `i` with the given bytes behind it, and the index of the
first byte that is left. -/
inductive Meaning (i : Nat) : List UInt8 → Except PatternError ByteSet → Nat → Prop where
  | set {s body : List UInt8} {negated : Bool} {k stop : Nat} {members : List (UInt8 × UInt8)}
      {set : ByteSet} (start : Start i s negated k body)
      (read : Body i true k body (.ok members) stop)
      (denoted : ∀ b : UInt8, set.contains b.toNat = (lies members b != negated)) :
      Meaning i s (.ok set) stop
  | broken {s body : List UInt8} {negated : Bool} {k stop : Nat} {e : PatternError}
      (start : Start i s negated k body) (read : Body i true k body (.error e) stop) :
      Meaning i s (.error e) stop

/-! ### Endpoints -/

theorem endpoint_iff {k next : Nat} {b c : UInt8} {s rest : List UInt8} :
    Endpoint k (b :: s) c next rest ↔
      ∃ n, endpoint b s = .ok (c, n) ∧ next = k + 1 + n ∧ rest = s.drop n := by
  constructor
  · intro found
    cases found with
    | raw plain => exact ⟨0, if_neg plain, rfl, rfl⟩
    | @escape code _ _ meaning =>
      obtain ⟨n, read, length⟩ := Reading.of_placed_ok (Escape.placed_iff.mpr meaning)
      obtain rfl : n = code.length := by omega
      exact ⟨code.length, read, rfl, List.drop_left.symm⟩
  · rintro ⟨n, read, rfl, rfl⟩
    by_cases escape : b = Byte.backslash
    · subst escape
      have within : n ≤ s.length := endpoint_end read
      have meaning := Escape.placed_iff.mp (Reading.placed_ok (i := k) read rfl)
      have found := @Endpoint.escape k (s.take n) (s.drop n) c
      rw [List.take_append_drop, List.length_take_of_le within] at found
      exact found meaning
    · rw [endpoint, if_neg escape] at read
      cases read
      exact .raw escape s

theorem badEndpoint_iff {k stop : Nat} {b : UInt8} {s : List UInt8} {e : PatternError} :
    BadEndpoint k (b :: s) e stop ↔
      ∃ f, endpoint b s = .error f ∧ e = ⟨f.kind, (k + f.offset : Nat)⟩ ∧
        stop = k + 1 + f.used := by
  constructor
  · intro bad
    cases bad with
    | escape meaning =>
      have placed := Escape.placed_iff.mpr meaning
      cases read : Escape.read s with
      | ok pair =>
        rw [read] at placed
        cases placed
      | error f =>
        rw [read] at placed
        cases placed
        exact ⟨f, read, rfl, rfl⟩
  · rintro ⟨f, read, rfl, rfl⟩
    by_cases escape : b = Byte.backslash
    · subst escape
      exact .escape (Escape.placed_iff.mp (Reading.placed_error read rfl rfl))
    · rw [endpoint, if_neg escape] at read
      cases read

/-! ### Members -/

theorem ends_single (c : UInt8) : (ByteRange.single c).ends = (c, c) := by
  simp [ByteRange.ends, ByteRange.single]

theorem ends_between {low high : UInt8} (ordered : low ≤ high) :
    (ByteRange.between low high ordered).ends = (low, high) := by
  simp [ByteRange.ends, ByteRange.between]

theorem endpoint_cons {k next : Nat} {s rest : List UInt8} {c : UInt8}
    (found : Endpoint k s c next rest) : ∃ b t, s = b :: t := by
  cases found with
  | raw => exact ⟨_, _, rfl⟩
  | escape => exact ⟨_, _, rfl⟩

theorem badEndpoint_cons {k stop : Nat} {s : List UInt8} {e : PatternError}
    (bad : BadEndpoint k s e stop) : ∃ b t, s = b :: t := by
  cases bad
  exact ⟨_, _, rfl⟩

theorem listed_cons {k next : Nat} {s rest : List UInt8} {range : UInt8 × UInt8}
    (listed : Listed k s range next rest) : ∃ b t, s = b :: t := by
  cases listed with
  | single only => exact endpoint_cons only
  | range first => exact endpoint_cons first

theorem problem_cons {opening k stop : Nat} {s : List UInt8} {e : PatternError}
    (wrong : Problem opening k s e stop) : ∃ b t, s = b :: t := by
  cases wrong with
  | low bad => exact badEndpoint_cons bad
  | ended first => exact endpoint_cons first
  | high first => exact endpoint_cons first
  | reversed listed => exact listed_cons listed

theorem range_rest {b c : UInt8} {s t : List UInt8} {n : Nat} (m : Nat)
    (rest : s.drop n = b :: c :: t) : s.drop (n + m + 2) = t.drop m := by
  have place : n + m + 2 = n + (m + 2) := by omega
  rw [place, ← List.drop_drop, rest]
  rfl

section Place

variable {opening taken : Nat} {b : UInt8} {s : List UInt8}

theorem listed_range (k : Nat) {low high c : UInt8} {n m : Nat} {t : List UInt8}
    (first : endpoint b s = .ok (low, n)) (rest : s.drop n = Byte.dash :: c :: t)
    (inside : c ≠ Byte.rightBracket) (second : endpoint c t = .ok (high, m)) :
    Listed k (b :: s) (low, high) (k + 1 + (n + m + 2)) (t.drop m) :=
  .range (endpoint_iff.mpr ⟨n, first, rfl, rest.symm⟩) (by simpa using inside)
    (endpoint_iff.mpr ⟨m, second, by omega, rfl⟩)

theorem range_ends {k dash next : Nat} {low high : UInt8} {t rest : List UInt8}
    (first : Endpoint k (b :: s) low dash (Byte.dash :: t))
    (inside : t.head? ≠ some Byte.rightBracket)
    (second : Endpoint (dash + 1) t high next rest) :
    ∃ n m c u, endpoint b s = .ok (low, n) ∧ s.drop n = Byte.dash :: c :: u ∧
      c ≠ Byte.rightBracket ∧ endpoint c u = .ok (high, m) ∧ next = k + 1 + (n + m + 2) ∧
      rest = s.drop (n + m + 2) := by
  obtain ⟨n, low, rfl, rest⟩ := endpoint_iff.mp first
  obtain ⟨c, u, rfl⟩ := endpoint_cons second
  obtain ⟨m, high, rfl, rfl⟩ := endpoint_iff.mp second
  refine ⟨n, m, c, u, low, rest.symm, by simpa using inside, high, by omega, ?_⟩
  rw [range_rest m rest.symm]

theorem member_of_listed {next : Nat} {rest : List UInt8} {range : UInt8 × UInt8}
    (listed : Listed (opening + 1 + taken) (b :: s) range next rest)
    (ordered : range.1 ≤ range.2) :
    ∃ r n, member taken b s = .ok (r, n) ∧ r.ends = range ∧
      next = opening + 1 + (taken + 1 + n) ∧ rest = s.drop n := by
  cases listed with
  | @single _ c _ only alone =>
    obtain ⟨n, low, rfl, rfl⟩ := endpoint_iff.mp only
    refine ⟨ByteRange.single c, n, ?_, ends_single c, by omega, rfl⟩
    apply member_eq
    by_cases dash : (s.drop n).head? = some Byte.dash
    · obtain ⟨t, rest⟩ := List.head?_eq_some_iff.mp dash
      obtain ⟨u, rfl⟩ := List.head?_eq_some_iff.mp (alone t rest)
      exact .lastDash low rest
    · exact .single low dash
  | range first inside second =>
    obtain ⟨n, m, c, u, low, rest, inside, high, rfl, rfl⟩ := range_ends first inside second
    refine ⟨ByteRange.between _ _ ordered, n + m + 2, ?_, ends_between ordered, by omega, rfl⟩
    exact member_eq (.range low rest inside high ordered)

theorem member_of_problem {stop : Nat} {e : PatternError}
    (wrong : Problem opening (opening + 1 + taken) (b :: s) e stop) :
    ∃ f, member taken b s = .error f ∧ e = ⟨f.kind, (opening + f.offset : Nat)⟩ ∧
      stop = opening + 1 + f.used := by
  cases wrong with
  | low bad =>
    obtain ⟨f, low, rfl, rfl⟩ := badEndpoint_iff.mp bad
    refine ⟨_, member_eq (.badLow low), ?_, ?_⟩
    · simp only [Fault.shift, PatternError.mk.injEq, true_and]
      omega
    · simp only [Fault.shift]
      omega
  | ended first =>
    obtain ⟨n, low, rfl, rest⟩ := endpoint_iff.mp first
    refine ⟨_, member_eq (.unclosed low rest.symm), rfl, ?_⟩
    simp only
    omega
  | high first inside bad =>
    obtain ⟨n, low, rfl, rest⟩ := endpoint_iff.mp first
    obtain ⟨c, t, rfl⟩ := badEndpoint_cons bad
    obtain ⟨f, high, rfl, rfl⟩ := badEndpoint_iff.mp bad
    refine ⟨_, member_eq (.badHigh low rest.symm (by simpa using inside) high), ?_, ?_⟩
    · simp only [Fault.shift, PatternError.mk.injEq, true_and]
      omega
    · simp only [Fault.shift]
      omega
  | reversed listed wrong =>
    cases listed with
    | single => exact absurd wrong (UInt8.lt_irrefl _)
    | range first inside second =>
      obtain ⟨n, m, c, u, low, rest, inside, high, rfl, rfl⟩ := range_ends first inside second
      refine ⟨_, member_eq (.reversed low rest inside high (UInt8.not_le.mpr wrong)), ?_, ?_⟩
      · simp only [PatternError.mk.injEq, true_and]
        omega
      · simp only
        omega

theorem listed_of_member {r : ByteRange} {n : Nat} (outcome : Member taken b s (.ok (r, n))) :
    Listed (opening + 1 + taken) (b :: s) r.ends (opening + 1 + (taken + 1 + n)) (s.drop n) := by
  have place : opening + 1 + (taken + 1 + n) = opening + 1 + taken + 1 + n := by omega
  rw [place]
  cases outcome with
  | single low rest =>
    rw [ends_single]
    refine .single (endpoint_iff.mpr ⟨n, low, rfl, rfl⟩) ?_
    intro t dash
    exact absurd (congrArg List.head? dash) rest
  | lastDash low rest =>
    rw [ends_single]
    refine .single (endpoint_iff.mpr ⟨n, low, rfl, rfl⟩) ?_
    intro t dash
    rw [rest] at dash
    rw [← (List.cons.inj dash).2]
    rfl
  | @range _ _ _ n m t low rest inside high ordered =>
    rw [ends_between, range_rest m rest]
    exact listed_range _ low rest inside high

theorem problem_of_member {f : Fault} (outcome : Member taken b s (.error f)) :
    ∃ e stop, Problem opening (opening + 1 + taken) (b :: s) e stop := by
  cases outcome with
  | badLow low => exact ⟨_, _, .low (badEndpoint_iff.mpr ⟨_, low, rfl, rfl⟩)⟩
  | unclosed low rest => exact ⟨_, _, .ended (endpoint_iff.mpr ⟨_, low, rfl, rest.symm⟩)⟩
  | badHigh low rest inside high =>
    exact ⟨_, _, .high (endpoint_iff.mpr ⟨_, low, rfl, rest.symm⟩) (by simpa using inside)
      (badEndpoint_iff.mpr ⟨_, high, rfl, rfl⟩)⟩
  | reversed low rest inside high reversed =>
    exact ⟨_, _, .reversed (listed_range _ low rest inside high) (UInt8.not_le.mp reversed)⟩

end Place

theorem ends_ordered (r : ByteRange) : r.ends.1 ≤ r.ends.2 := by
  have := r.min_le_max
  have := r.max_le
  simp only [ByteRange.ends, UInt8.le_iff_toNat_le, UInt8.toNat_ofNat']
  omega

theorem inside_iff {first : Bool} {b : UInt8} {s : List UInt8} :
    first = true ∨ (b :: s).head? ≠ some Byte.rightBracket ↔
      ¬ (b = Byte.rightBracket ∧ first = false) := by
  cases first <;> simp

def written (r : Reading (List ByteRange)) : Reading (List (UInt8 × UInt8)) :=
  r.map fun (ranges, n) => (ranges.map ByteRange.ends, n)

theorem members_of_body {opening k stop : Nat} {first : Bool} {s : List UInt8}
    {outcome : Except PatternError (List (UInt8 × UInt8))}
    (body : Body opening first k s outcome stop) {taken : Nat} (place : k = opening + 1 + taken)
    (found : List ByteRange) :
    (written (members first taken found s)).placed opening =
      (outcome.map (found.reverse.map ByteRange.ends ++ ·), stop) := by
  induction body generalizing taken found with
  | ended first k =>
    rw [members, place]
    rfl
  | closed k rest =>
    rw [members_closing, place]
    simp only [written, Except.map, Reading.placed, List.append_nil]
    rfl
  | @listed first k next stop s rest range outcome inside here ordered later ih =>
    subst place
    obtain ⟨b, s, rfl⟩ := listed_cons here
    obtain ⟨r, n, read, rfl, there, rfl⟩ := member_of_listed here ordered
    rw [members_cons (inside_iff.mp inside), read]
    simp only
    rw [ih there]
    cases outcome <;> simp [Except.map]
  | problem inside wrong =>
    subst place
    obtain ⟨b, s, rfl⟩ := problem_cons wrong
    obtain ⟨f, failed, rfl, rfl⟩ := member_of_problem wrong
    rw [members_cons (inside_iff.mp inside), failed]
    rfl

theorem exists_body (opening : Nat) (first : Bool) (taken : Nat) (found : List ByteRange)
    (s : List UInt8) : ∃ outcome stop, Body opening first (opening + 1 + taken) s outcome stop := by
  fun_induction members first taken found s with
  | case1 first taken found => exact ⟨_, _, .ended first _⟩
  | case2 first taken found b s closing =>
    obtain ⟨rfl, rfl⟩ := closing
    exact ⟨_, _, .closed _ s⟩
  | case3 first taken found b s inside f failed =>
    have outcome := member_outcome taken b s
    rw [failed] at outcome
    obtain ⟨e, stop, wrong⟩ := problem_of_member outcome
    exact ⟨_, _, .problem (inside_iff.mpr inside) wrong⟩
  | case4 first taken found b s inside r n read ih =>
    have outcome := member_outcome taken b s
    rw [read] at outcome
    obtain ⟨later, stop, body⟩ := ih
    exact ⟨_, _, .listed (inside_iff.mpr inside) (listed_of_member outcome) (ends_ordered r) body⟩

/-! ### The set -/

theorem contains_ofRanges (ranges : List ByteRange) (b : UInt8) :
    (ByteSet.ofRanges ranges).contains b.toNat = lies (ranges.map ByteRange.ends) b := by
  have within (r : ByteRange) :
      (decide (r.ends.1 ≤ b) && decide (b ≤ r.ends.2)) = true ↔ r.Holds b.toNat := by
    have := r.min_le_max
    have := r.max_le
    simp only [ByteRange.ends, ByteRange.Holds, Bool.and_eq_true, decide_eq_true_eq,
      UInt8.le_iff_toNat_le, UInt8.toNat_ofNat']
    omega
  rw [Bool.eq_iff_iff, ByteSet.contains_iff, ByteSet.ofRanges_holds, lies, List.any_map,
    List.any_eq_true]
  simp only [Function.comp, within]
  rfl

theorem contains_negate (set : ByteSet) (b : UInt8) :
    set.negate.contains b.toNat = !set.contains b.toNat := by
  have small := b.toNat_lt
  rw [Bool.eq_iff_iff, Bool.not_eq_true', ByteSet.contains_iff, ByteSet.negate_holds,
    ByteSet.contains_false_iff]
  constructor
  · rintro ⟨-, -, outside⟩
    exact outside
  · intro outside
    exact ⟨by omega, by omega, outside⟩

def denoted (negated : Bool) (ranges : List ByteRange) : ByteSet :=
  if negated then (ByteSet.ofRanges ranges).negate else ByteSet.ofRanges ranges

theorem contains_denoted (negated : Bool) (ranges : List ByteRange) (b : UInt8) :
    (denoted negated ranges).contains b.toNat =
      (lies (ranges.map ByteRange.ends) b != negated) := by
  cases negated with
  | false => simp [denoted, contains_ofRanges]
  | true => simp [denoted, contains_negate, contains_ofRanges]

theorem read_of_start {i k : Nat} {negated : Bool} {s body : List UInt8}
    (start : Start i s negated k body) :
    ∃ taken, k = i + 1 + taken ∧
      read s = (members true taken [] body).map fun (ranges, n) => (denoted negated ranges, n) := by
  cases start with
  | plain noCaret => exact ⟨0, rfl, read_plain noCaret⟩
  | negated => exact ⟨1, rfl, read_negated body⟩

theorem ranges_of_body {i taken stop : Nat} {s : List UInt8} {listed : List (UInt8 × UInt8)}
    (body : Body i true (i + 1 + taken) s (.ok listed) stop) :
    ∃ ranges n, members true taken [] s = .ok (ranges, n) ∧ ranges.map ByteRange.ends = listed ∧
      i + 1 + n = stop := by
  have placed := members_of_body body rfl []
  cases found : members true taken [] s with
  | error f =>
    rw [found] at placed
    cases placed
  | ok pair =>
    rw [found] at placed
    cases placed
    exact ⟨pair.1, pair.2, rfl, rfl, rfl⟩

theorem fault_of_body {i taken stop : Nat} {s : List UInt8} {e : PatternError}
    (body : Body i true (i + 1 + taken) s (.error e) stop) :
    ∃ f, members true taken [] s = .error f ∧ e = ⟨f.kind, (i + f.offset : Nat)⟩ ∧
      i + 1 + f.used = stop := by
  have placed := members_of_body body rfl []
  cases found : members true taken [] s with
  | error f =>
    rw [found] at placed
    cases placed
    exact ⟨f, rfl, rfl, rfl⟩
  | ok pair =>
    rw [found] at placed
    cases placed

theorem read_of_meaning {i stop : Nat} {s : List UInt8} {outcome : Except PatternError ByteSet}
    (meaning : Meaning i s outcome stop) : (read s).placed i = (outcome, stop) := by
  cases meaning with
  | set start body denotes =>
    obtain ⟨taken, rfl, same⟩ := read_of_start start
    obtain ⟨ranges, n, found, rfl, left⟩ := ranges_of_body body
    rw [found] at same
    rw [Reading.placed_ok same left]
    apply congrArg fun set => (Except.ok set, stop)
    apply ByteSet.eq_of_contains
    intro b
    rw [contains_denoted, denotes]
  | broken start body =>
    obtain ⟨taken, rfl, same⟩ := read_of_start start
    obtain ⟨f, failed, rfl, left⟩ := fault_of_body body
    rw [failed] at same
    exact Reading.placed_error same rfl left

theorem exists_start (i : Nat) (s : List UInt8) :
    ∃ negated taken body, Start i s negated (i + 1 + taken) body := by
  by_cases caret : s.head? = some Byte.caret
  · obtain ⟨body, rfl⟩ := List.head?_eq_some_iff.mp caret
    exact ⟨true, 1, body, .negated body⟩
  · exact ⟨false, 0, s, .plain caret⟩

theorem exists_meaning (i : Nat) (s : List UInt8) : ∃ outcome stop, Meaning i s outcome stop := by
  obtain ⟨negated, taken, t, start⟩ := exists_start i s
  obtain ⟨outcome, stop, body⟩ := exists_body i true taken [] t
  cases outcome with
  | error e => exact ⟨_, _, .broken start body⟩
  | ok listed =>
    obtain ⟨ranges, _, _, rfl, _⟩ := ranges_of_body body
    exact ⟨_, _, .set start body (contains_denoted negated ranges)⟩

theorem placed_iff {i stop : Nat} {s : List UInt8} {outcome : Except PatternError ByteSet} :
    (read s).placed i = (outcome, stop) ↔ Meaning i s outcome stop :=
  Reading.placed_iff (exists_meaning i s) read_of_meaning

/-- A bracket expression anywhere in the bytes is read as what it means. -/
theorem outcome_iff_denotes (before rest : List UInt8) (outcome : Except PatternError ByteSet)
    (stop : Nat) :
    (Cursor.past before Byte.leftBracket rest).outcome read = (outcome, stop) ↔
      Meaning before.length rest outcome stop := by
  rw [Cursor.outcome_past (read_within rest)]
  exact placed_iff

end Bracket

end ByteRegex

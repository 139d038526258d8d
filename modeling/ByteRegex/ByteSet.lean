import ByteRegex.ByteRange

/-!
Sets of bytes as lists of ranges in normal form: ascending, with a gap between neighbours. Every
set has one such list, so equal sets have equal lists.
-/

namespace ByteRegex

def Normal (ranges : List ByteRange) : Prop := ranges.Pairwise ByteRange.Before

instance (ranges : List ByteRange) : Decidable (Normal ranges) :=
  inferInstanceAs (Decidable (List.Pairwise _ _))

/-- Adds a range to a list in normal form, swallowing the ranges that it touches. -/
def insertRange (r : ByteRange) : List ByteRange → List ByteRange
  | [] => [r]
  | s :: rest =>
    if r.Before s then r :: s :: rest
    else if s.Before r then s :: insertRange r rest
    else insertRange (r.hull s) rest

/-- The ranges between those of a list, from `next` up to the last byte. -/
def gaps (next : Nat) : List ByteRange → List ByteRange
  | [] => if h : next ≤ 255 then [.onward next h] else []
  | r :: rest =>
    if h : next < r.min then .upTo next r h :: gaps (r.max + 1) rest
    else gaps (r.max + 1) rest

theorem before_hull (q r s : ByteRange) (hr : q.Before r) (hs : q.Before s) :
    q.Before (r.hull s) := by
  simp only [ByteRange.Before, ByteRange.hull, Nat.min_def] at *
  split <;> omega

theorem before_insert (q r : ByteRange) (ranges : List ByteRange) (hr : q.Before r)
    (below : ∀ s ∈ ranges, q.Before s) : ∀ s ∈ insertRange r ranges, q.Before s := by
  induction ranges generalizing r with
  | nil => simpa [insertRange] using hr
  | cons s rest ih =>
    have head := below s (by simp)
    have tail : ∀ t ∈ rest, q.Before t := fun t ht => below t (by simp [ht])
    unfold insertRange
    split
    · intro t ht
      rcases List.mem_cons.mp ht with eq | mem
      · exact eq ▸ hr
      · exact below t mem
    · split
      · intro t ht
        rcases List.mem_cons.mp ht with eq | mem
        · exact eq ▸ head
        · exact ih r hr tail t mem
      · exact ih (r.hull s) (before_hull q r s hr head) tail

theorem insert_normal (r : ByteRange) (ranges : List ByteRange) (normal : Normal ranges) :
    Normal (insertRange r ranges) := by
  induction ranges generalizing r with
  | nil => simp [insertRange, Normal]
  | cons s rest ih =>
    obtain ⟨above, rest_normal⟩ := List.pairwise_cons.mp normal
    unfold insertRange
    split
    · rename_i before
      refine List.pairwise_cons.mpr ⟨?_, normal⟩
      intro t ht
      rcases List.mem_cons.mp ht with eq | mem
      · exact eq ▸ before
      · have := above t mem
        have := s.min_le_max
        simp only [ByteRange.Before] at *
        omega
    · split
      · rename_i after
        exact List.pairwise_cons.mpr ⟨before_insert s r rest after above, ih r rest_normal⟩
      · exact ih (r.hull s) rest_normal

theorem gaps_min_le (next : Nat) (ranges : List ByteRange) (normal : Normal ranges)
    (above : ∀ r ∈ ranges, next ≤ r.min) : ∀ g ∈ gaps next ranges, next ≤ g.min := by
  induction ranges generalizing next with
  | nil => unfold gaps; split <;> simp [ByteRange.onward]
  | cons r rest ih =>
    obtain ⟨before, rest_normal⟩ := List.pairwise_cons.mp normal
    have head := above r (by simp)
    have tail := ih (r.max + 1) rest_normal fun t ht => Nat.le_of_lt (before t ht)
    have := r.min_le_max
    unfold gaps
    split
    · intro g hg
      rcases List.mem_cons.mp hg with eq | mem
      · simp [eq, ByteRange.upTo]
      · have := tail g mem; omega
    · intro g hg
      have := tail g hg; omega

theorem gaps_normal (next : Nat) (ranges : List ByteRange) (normal : Normal ranges)
    (above : ∀ r ∈ ranges, next ≤ r.min) : Normal (gaps next ranges) := by
  induction ranges generalizing next with
  | nil => unfold gaps; split <;> simp [Normal]
  | cons r rest ih =>
    obtain ⟨before, rest_normal⟩ := List.pairwise_cons.mp normal
    have start : ∀ t ∈ rest, r.max + 1 ≤ t.min := fun t ht => Nat.le_of_lt (before t ht)
    have tail := ih (r.max + 1) rest_normal start
    unfold gaps
    split
    · refine List.pairwise_cons.mpr ⟨?_, tail⟩
      intro g hg
      have := gaps_min_le (r.max + 1) rest rest_normal start g hg
      have := r.min_le_max
      simp only [ByteRange.Before, ByteRange.upTo]
      omega
    · exact tail

structure ByteSet where
  ranges : List ByteRange
  normal : Normal ranges
deriving DecidableEq

structure InvalidRange where
  low : Number
  high : Number
deriving DecidableEq

namespace ByteSet

def empty : ByteSet := ⟨[], List.Pairwise.nil⟩

def full : ByteSet := ⟨[ByteRange.full], List.pairwise_singleton _ _⟩

def insert (s : ByteSet) (r : ByteRange) : ByteSet :=
  ⟨insertRange r s.ranges, insert_normal r s.ranges s.normal⟩

def ofRanges (ranges : List ByteRange) : ByteSet := ranges.foldl insert empty

def collect (s : ByteSet) : List (Number × Number) → Except InvalidRange ByteSet
  | [] => .ok s
  | (low, high) :: rest =>
    match ByteRange.ofNumbers? low high with
    | none => .error ⟨low, high⟩
    | some r => collect (s.insert r) rest

def ofNumbers (pairs : List (Number × Number)) : Except InvalidRange ByteSet := collect empty pairs

def ofMembers (members : List Number) : Except InvalidRange ByteSet :=
  ofNumbers (members.map fun x => (x, x))

def negate (s : ByteSet) : ByteSet :=
  ⟨gaps 0 s.ranges, gaps_normal 0 s.ranges s.normal fun _ _ => Nat.zero_le _⟩

def union (s t : ByteSet) : ByteSet := t.ranges.foldl insert s

def Holds (s : ByteSet) (x : Int) : Prop := ∃ r ∈ s.ranges, r.Holds x

def search (x : Int) (ranges : List ByteRange) : Bool :=
  match h : ranges.drop ((ranges.length - 1) / 2) with
  | [] => false
  | r :: later =>
    if x < r.min then search x (ranges.take ((ranges.length - 1) / 2))
    else if r.max < x then search x later
    else true
termination_by ranges.length
decreasing_by
  all_goals
    have split := congrArg List.length h
    simp only [List.length_drop, List.length_cons] at split
    try simp only [List.length_take]
    omega

def contains (s : ByteSet) (x : Int) : Bool := search x s.ranges

/-- Whether a number lies within a range of the set: the whole numbers on both sides of it do. -/
def covers (s : ByteSet) : Number → Bool
  | .finite x => s.contains x.floor && s.contains x.ceil
  | .negativeZero => s.contains 0
  | .infinite _ => false

def isEmpty (s : ByteSet) : Bool := s.ranges.isEmpty

def size (s : ByteSet) : Nat := s.ranges.foldl (fun n r => n + r.size) 0

end ByteSet

end ByteRegex

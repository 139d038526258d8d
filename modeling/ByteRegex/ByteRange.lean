import ByteRegex.Number

namespace ByteRegex

structure ByteRange where
  min : Nat
  max : Nat
  min_le_max : min ≤ max
  max_le : max ≤ 255
deriving DecidableEq

namespace ByteRange

def single (b : UInt8) : ByteRange :=
  ⟨b.toNat, b.toNat, Nat.le_refl _, by have := b.toNat_lt; omega⟩

def between (low high : UInt8) (ordered : low ≤ high) : ByteRange :=
  ⟨low.toNat, high.toNat, ordered, by have := high.toNat_lt; omega⟩

def full : ByteRange := ⟨0, 255, by omega, by omega⟩

def onward (low : Nat) (h : low ≤ 255) : ByteRange := ⟨low, 255, h, Nat.le_refl 255⟩

def upTo (low : Nat) (r : ByteRange) (h : low < r.min) : ByteRange :=
  ⟨low, r.min - 1, by omega, by have := r.min_le_max; have := r.max_le; omega⟩

def Holds (r : ByteRange) (x : Int) : Prop := r.min ≤ x ∧ x ≤ r.max

instance (r : ByteRange) (x : Int) : Decidable (r.Holds x) :=
  inferInstanceAs (Decidable (_ ∧ _))

def Before (r s : ByteRange) : Prop := r.max + 1 < s.min

instance (r s : ByteRange) : Decidable (r.Before s) := inferInstanceAs (Decidable (_ < _))

def hull (r s : ByteRange) : ByteRange :=
  ⟨Nat.min r.min s.min, Nat.max r.max s.max,
   by have := r.min_le_max; simp only [Nat.min_def, Nat.max_def]; split <;> split <;> omega,
   by have := r.max_le; have := s.max_le; simp only [Nat.max_def]; split <;> omega⟩

theorem hull_holds (r s : ByteRange) (right : ¬ r.Before s) (left : ¬ s.Before r) (x : Int) :
    (r.hull s).Holds x ↔ r.Holds x ∨ s.Holds x := by
  have := r.min_le_max
  have := s.min_le_max
  simp only [Holds, hull, Before, Nat.min_def, Nat.max_def] at *
  split <;> split <;> omega

def size (r : ByteRange) : Nat := r.max - r.min + 1

def ofNumbers? (low high : Number) : Option ByteRange :=
  match low.toInt?, high.toInt? with
  | some low, some high =>
    if h : 0 ≤ low ∧ low ≤ high ∧ high ≤ 255 then
      some ⟨low.toNat, high.toNat, by omega, by omega⟩
    else none
  | _, _ => none

end ByteRange

end ByteRegex

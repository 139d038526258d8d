import ByteRegex.Parse
import ByteRegex.Proofs.Extent.Bounds
import ByteRegex.Proofs.Extent.Bracket

namespace ByteRegex

/-- Nothing at the start of `t` could be drawn into the token `s`. -/
def Seam (s t : List UInt8) : Prop :=
  t.head? ≠ some Byte.question ∧
    ∀ digits, s = Byte.backslash :: digits → Escape.ShortOctal digits →
      ∀ b ∈ t.head?, Byte.isOctal b = false

namespace Token

theorem read_kind (limit : Int) (b : UInt8) :
    (∃ token, ∀ s, read limit b s = .ok (token, 0)) ∨
      (∃ bounds, ∀ s, read limit b s = .ok (quantify bounds 0 s)) ∨
      b = Byte.leftBrace ∨ b = Byte.leftBracket ∨ b = Byte.backslash := by
  unfold read
  split
  · exact .inl ⟨_, fun _ => rfl⟩
  · exact .inl ⟨_, fun _ => rfl⟩
  · exact .inl ⟨_, fun _ => rfl⟩
  · exact .inr (.inl ⟨_, fun _ => rfl⟩)
  · exact .inr (.inl ⟨_, fun _ => rfl⟩)
  · exact .inr (.inl ⟨_, fun _ => rfl⟩)
  · exact .inr (.inr (.inl rfl))
  · exact .inl ⟨_, fun _ => rfl⟩
  · exact .inl ⟨_, fun _ => rfl⟩
  · exact .inl ⟨_, fun _ => rfl⟩
  · exact .inr (.inr (.inr (.inl rfl)))
  · exact .inr (.inr (.inr (.inr rfl)))
  · exact .inl ⟨_, fun _ => rfl⟩

theorem read_brace (limit : Int) (s : List UInt8) :
    read limit Byte.leftBrace s =
      (Bounds.read limit s).map fun (bounds, n) => quantify bounds n (s.drop n) := rfl

theorem read_bracket (limit : Int) (s : List UInt8) :
    read limit Byte.leftBracket s =
      (Bracket.read s).map fun (set, n) => (.atom (.bytes set), n) := rfl

theorem read_backslash (limit : Int) (s : List UInt8) :
    read limit Byte.backslash s =
      (Escape.read s).map fun (c, n) => (.atom (.literal c.toNat), n) := rfl

theorem quantify_lazy (bounds : Bounds) (n : Nat) {s : List UInt8}
    (lazy : s.head? = some Byte.question) :
    quantify bounds n s = (.quantifier bounds false, n + 1) := by
  obtain ⟨t, rfl⟩ := List.head?_eq_some_iff.mp lazy
  rfl

theorem quantify_greedy (bounds : Bounds) (n : Nat) {s : List UInt8}
    (greedy : s.head? ≠ some Byte.question) :
    quantify bounds n s = (.quantifier bounds true, n) := by
  unfold quantify
  split
  · exact absurd rfl greedy
  · rfl

theorem quantify_head (bounds : Bounds) (n : Nat) {s t : List UInt8} (same : t.head? = s.head?) :
    quantify bounds n t = quantify bounds n s := by
  by_cases lazy : s.head? = some Byte.question
  · rw [quantify_lazy bounds n lazy, quantify_lazy bounds n (same.trans lazy)]
  · rw [quantify_greedy bounds n lazy, quantify_greedy bounds n (by rwa [same])]

theorem quantify_used (bounds : Bounds) (n : Nat) (s : List UInt8) :
    n ≤ (quantify bounds n s).2 ∧ (quantify bounds n s).2 ≤ n + s.length := by
  by_cases lazy : s.head? = some Byte.question
  · obtain ⟨t, rfl⟩ := List.head?_eq_some_iff.mp lazy
    simp only [quantify_lazy bounds n lazy, List.length_cons]
    omega
  · simp only [quantify_greedy bounds n lazy]
    omega

theorem quantify_known {bounds : Bounds} {n : Nat} {u v w : List UInt8}
    (known : (quantify bounds n ((u ++ v).drop n)).2 ≤ u.length)
    (ends : (quantify bounds n ((u ++ v).drop n)).2 = u.length → w.head? ≠ some Byte.question) :
    quantify bounds n ((u ++ w).drop n) = quantify bounds n ((u ++ v).drop n) := by
  have taken := (quantify_used bounds n ((u ++ v).drop n)).1
  by_cases inside : n < u.length
  · exact quantify_head bounds n (head_known inside)
  · have exact : n = u.length := by omega
    subst exact
    rw [List.drop_left] at known ends ⊢
    rw [List.drop_left]
    by_cases lazy : v.head? = some Byte.question
    · rw [quantify_lazy bounds _ lazy] at known
      omega
    · rw [quantify_greedy bounds _ lazy] at ends ⊢
      exact quantify_greedy bounds _ (ends rfl)

theorem read_known {limit : Int} {b : UInt8} {u v w : List UInt8}
    (known : (read limit b (u ++ v)).need ≤ u.length)
    (ends : (read limit b (u ++ v)).used = u.length → Seam (b :: u) w) :
    read limit b (u ++ w) = read limit b (u ++ v) := by
  rcases read_kind limit b with ⟨token, plain⟩ | ⟨bounds, operator⟩ | rfl | rfl | rfl
  · rw [plain, plain]
  · rw [operator] at known ends
    rw [operator, operator]
    exact congrArg Except.ok (quantify_known (n := 0) known fun full => (ends full).1)
  · rw [read_brace] at known ends
    cases body : Bounds.read limit (u ++ v) with
    | error f =>
      have same : Bounds.read limit (u ++ w) = Bounds.read limit (u ++ v) :=
        Bounds.read_known (by rw [body]; rwa [body] at known)
      rw [read_brace, read_brace, same, body]
      rfl
    | ok pair =>
      obtain ⟨bounds, n⟩ := pair
      rw [body] at known ends
      have taken := (quantify_used bounds n ((u ++ v).drop n)).1
      have within : n ≤ u.length := Nat.le_trans taken known
      have same : Bounds.read limit (u ++ w) = Bounds.read limit (u ++ v) :=
        Bounds.read_known (by rw [body]; exact within)
      rw [read_brace, read_brace, same, body]
      exact congrArg Except.ok (quantify_known known fun full => (ends full).1)
  · rw [read_bracket, Reading.need_map (by simp)] at known
    rw [read_bracket, read_bracket, Bracket.read_known known]
  · rw [read_backslash, Reading.need_map (by simp)] at known
    rw [read_backslash, Reading.used_map (by simp)] at ends
    rw [read_backslash, read_backslash, Escape.read_known known]
    intro full short
    exact (ends full).2 u rfl short

theorem read_local {limit : Int} {b : UInt8} {u v w : List UInt8}
    (known : (read limit b (u ++ v)).used < u.length) :
    read limit b (u ++ w) = read limit b (u ++ v) := by
  have := Reading.need_le_used (read limit b (u ++ v))
  exact read_known (by omega) (by intro full; omega)

theorem read_within (limit : Int) (b : UInt8) (s : List UInt8) :
    (read limit b s).used ≤ s.length := by
  rcases read_kind limit b with ⟨token, plain⟩ | ⟨bounds, operator⟩ | rfl | rfl | rfl
  · rw [plain]
    exact Nat.zero_le _
  · have := (quantify_used bounds 0 s).2
    rw [operator]
    simp only [Reading.used]
    omega
  · have within := Bounds.read_within limit s
    rw [read_brace]
    cases body : Bounds.read limit s with
    | error f => rwa [body] at within
    | ok pair =>
      obtain ⟨bounds, n⟩ := pair
      have := (quantify_used bounds n (s.drop n)).2
      rw [body] at within
      rw [List.length_drop] at this
      simp only [Reading.used, Except.map] at within ⊢
      omega
  · rw [read_bracket, Reading.used_map (by simp)]
    exact Bracket.read_within s
  · rw [read_backslash, Reading.used_map (by simp)]
    exact Escape.read_within s

end Token

end ByteRegex

import ByteRegex.Numeral

namespace ByteRegex

theorem separator_cancel {α : Type} {separator : α} {a b r s : List α} (left : separator ∉ a)
    (right : separator ∉ b) (same : a ++ separator :: r = b ++ separator :: s) :
    a = b ∧ r = s := by
  induction a generalizing b with
  | nil =>
    cases b with
    | nil => exact ⟨rfl, (List.cons.inj same).2⟩
    | cons y b => exact absurd ((List.cons.inj same).1 ▸ List.mem_cons_self) right
  | cons x a ih =>
    cases b with
    | nil => exact absurd ((List.cons.inj same).1 ▸ List.mem_cons_self) left
    | cons y b =>
      obtain ⟨head, tail⟩ := List.cons.inj same
      obtain ⟨word, rest⟩ := ih (List.not_mem_of_not_mem_cons left)
        (List.not_mem_of_not_mem_cons right) tail
      exact ⟨by rw [head, word], rest⟩

namespace Numeral

theorem digitCode_injective {d e : Nat} (same : digitCode d = digitCode e) : d = e := by
  unfold digitCode at same
  split at same <;> split at same <;> omega

theorem map_digitCode_injective {ds es : List Nat} (same : ds.map digitCode = es.map digitCode) :
    ds = es :=
  (List.map_inj_right fun _ _ => digitCode_injective).mp same

theorem digits_injective {base m n : Nat} (same : digits base m = digits base n) : m = n := by
  rw [← value_digits base m, same, value_digits]

theorem digitCode_not_sign (d : Nat) : digitCode d ≠ 45 ∧ digitCode d ≠ 46 := by
  unfold digitCode
  split <;> omega

theorem sign_notMem (ds : List Nat) : 45 ∉ ds.map digitCode := by
  intro member
  obtain ⟨d, _, sign⟩ := List.mem_map.mp member
  exact (digitCode_not_sign d).1 sign

theorem signed_injective {m n : Int} {a b : List Nat} (left : 45 ∉ a) (right : 45 ∉ b)
    (same : (if m < 0 then 45 :: a else a) = if n < 0 then 45 :: b else b) :
    a = b ∧ (m < 0 ↔ n < 0) := by
  by_cases first : m < 0
  · by_cases second : n < 0
    · rw [if_pos first, if_pos second] at same
      exact ⟨(List.cons.inj same).2, iff_of_true first second⟩
    · rw [if_pos first, if_neg second] at same
      exact absurd (same ▸ List.mem_cons_self) right
  · by_cases second : n < 0
    · rw [if_neg first, if_pos second] at same
      exact absurd (same ▸ List.mem_cons_self) left
    · rw [if_neg first, if_neg second] at same
      exact ⟨same, iff_of_false first second⟩

theorem codes_injective {base : Nat} {m n : Int} (same : codes base m = codes base n) : m = n := by
  obtain ⟨magnitude, sign⟩ := signed_injective (sign_notMem _) (sign_notMem _) same
  have := digits_injective (map_digitCode_injective magnitude)
  omega

theorem codes_unsigned {base : Nat} {n : Int} (positive : 0 ≤ n) : 45 ∉ codes base n := by
  rw [codes, if_neg (by omega)]
  exact sign_notMem _

def figures : List Nat :=
  [43, 45, 46, 48, 49, 50, 51, 52, 53, 54, 55, 56, 57, 97, 98, 99, 100, 101, 102]

theorem digitCode_figure {d : Nat} (small : d < 16) : digitCode d ∈ figures := by
  revert d
  decide

theorem map_digitCode_figures {ds : List Nat} (small : ∀ d ∈ ds, d < 16) :
    ds.map digitCode ⊆ figures := by
  intro c member
  obtain ⟨d, inside, rfl⟩ := List.mem_map.mp member
  exact digitCode_figure (small d inside)

theorem signed_figures {n : Int} {a : List Nat} (written : a ⊆ figures) :
    (if n < 0 then 45 :: a else a) ⊆ figures := by
  split
  · exact List.cons_subset.mpr ⟨by decide, written⟩
  · exact written

theorem codes_figures {base : Nat} (proper : 2 ≤ base) (small : base ≤ 16) (n : Int) :
    codes base n ⊆ figures := by
  apply signed_figures
  apply map_digitCode_figures
  intro d member
  exact Nat.lt_of_lt_of_le (digits_lt base n.natAbs proper d member) small

def pointed (ds : List Nat) : List Nat :=
  (ds.take 1).map digitCode ++ if ds.length = 1 then [] else 46 :: (ds.drop 1).map digitCode

theorem filter_pointed (ds : List Nat) :
    (pointed ds).filter (fun c => c ≠ 46) = ds.map digitCode := by
  have kept (es : List Nat) :
      (es.map digitCode).filter (fun c => c ≠ 46) = es.map digitCode := by
    apply List.filter_eq_self.mpr
    intro c member
    obtain ⟨d, _, rfl⟩ := List.mem_map.mp member
    exact decide_eq_true (digitCode_not_sign d).2
  rw [pointed, List.filter_append, kept]
  split
  · rename_i single
    obtain ⟨d, rfl⟩ := List.length_eq_one_iff.mp single
    rfl
  · rw [List.filter_cons_of_neg (by simp), kept, ← List.map_append, List.take_append_drop]

theorem pointed_injective {ds es : List Nat} (same : pointed ds = pointed es) : ds = es := by
  apply map_digitCode_injective
  rw [← filter_pointed, same, filter_pointed]

theorem decimal_code {d : Nat} (decimal : d < 10) :
    digitCode d ∈ figures ∧ digitCode d ≠ 45 ∧ digitCode d ≠ 101 := by
  revert d
  decide

theorem decimal_codes {ds : List Nat} (decimal : ∀ d ∈ ds, d < 10) :
    ∀ c ∈ ds.map digitCode, c ∈ figures ∧ c ≠ 45 ∧ c ≠ 101 := by
  intro c member
  obtain ⟨d, inside, rfl⟩ := List.mem_map.mp member
  exact decimal_code (decimal d inside)

theorem pointed_codes {ds : List Nat} (decimal : ∀ d ∈ ds, d < 10) :
    ∀ c ∈ pointed ds, c ∈ figures ∧ c ≠ 45 ∧ c ≠ 101 := by
  have first : ∀ d ∈ ds.take 1, d < 10 := fun d member => decimal d (List.mem_of_mem_take member)
  have others : ∀ d ∈ ds.drop 1, d < 10 := fun d member => decimal d (List.mem_of_mem_drop member)
  refine List.forall_mem_append.mpr ⟨decimal_codes first, ?_⟩
  split
  · exact List.forall_mem_nil _
  · exact List.forall_mem_cons.mpr ⟨by decide, decimal_codes others⟩

theorem scientific_eq {ds : List Nat} {exponent : Int} (positive : 0 ≤ exponent) :
    scientific ds exponent = pointed ds ++ 101 :: 43 :: codes 10 exponent := by
  have sign : ¬ exponent < 0 := by omega
  simp only [scientific, pointed, if_neg sign, List.append_assoc]
  rfl

theorem scientific_injective {ds es : List Nat} {i j : Int} (left : ∀ d ∈ ds, d < 10)
    (right : ∀ d ∈ es, d < 10) (first : 0 ≤ i) (second : 0 ≤ j)
    (same : scientific ds i = scientific es j) : ds = es ∧ i = j := by
  rw [scientific_eq first, scientific_eq second] at same
  obtain ⟨fraction, exponent⟩ := separator_cancel (fun mark => (pointed_codes left _ mark).2.2 rfl)
    (fun mark => (pointed_codes right _ mark).2.2 rfl) same
  exact ⟨pointed_injective fraction, codes_injective (List.cons.inj exponent).2⟩

theorem significant_append (ds : List Nat) :
    ∃ k, ds = significant ds ++ List.replicate k 0 := by
  have zeros : (ds.reverse.takeWhile (· = 0)).reverse =
      List.replicate (ds.reverse.takeWhile (· = 0)).length 0 := by
    rw [List.eq_replicate_iff]
    refine ⟨List.length_reverse, ?_⟩
    intro d member
    have zero := List.all_eq_true.mp List.all_takeWhile d (List.mem_reverse.mp member)
    exact of_decide_eq_true zero
  refine ⟨(ds.reverse.takeWhile (· = 0)).length, ?_⟩
  rw [← zeros, significant, ← List.reverse_append, List.takeWhile_append_dropWhile,
    List.reverse_reverse]

theorem significant_injective {ds es : List Nat} (length : ds.length = es.length)
    (same : significant ds = significant es) : ds = es := by
  obtain ⟨k, left⟩ := significant_append ds
  obtain ⟨l, right⟩ := significant_append es
  have zeros : k = l := by
    rw [left, right, same, List.length_append, List.length_append, List.length_replicate,
      List.length_replicate] at length
    omega
  rw [left, right, same, zeros]

theorem significant_subset (ds : List Nat) : significant ds ⊆ ds := by
  obtain ⟨k, whole⟩ := significant_append ds
  intro d member
  rw [whole]
  exact List.mem_append_left _ member

def magnitude (n : Nat) : List Nat :=
  let all := digits 10 n
  if n < positionalLimit then all.map digitCode else scientific (significant all) (all.length - 1)

theorem decimalCodes_eq (n : Int) :
    decimalCodes n = if n < 0 then 45 :: magnitude n.natAbs else magnitude n.natAbs := by
  unfold decimalCodes magnitude
  by_cases small : n.natAbs < positionalLimit
  · rw [if_pos small, if_pos small]
    rfl
  · rw [if_neg small, if_neg small]

theorem digits_ne_nil (base n : Nat) : digits base n ≠ [] := by
  unfold digits
  split <;> simp

theorem exponent_nonneg (n : Nat) : (0 : Int) ≤ (digits 10 n).length - 1 := by
  have := List.length_pos_iff.mpr (digits_ne_nil 10 n)
  omega

theorem magnitude_large {n : Nat} (large : ¬ n < positionalLimit) :
    magnitude n = pointed (significant (digits 10 n)) ++
      101 :: 43 :: codes 10 ((digits 10 n).length - 1) := by
  rw [magnitude, if_neg large, scientific_eq (exponent_nonneg n)]

theorem significant_decimal (n : Nat) : ∀ d ∈ significant (digits 10 n), d < 10 :=
  fun d member => digits_lt 10 n (by omega) d (significant_subset _ member)

theorem magnitude_codes (n : Nat) : ∀ c ∈ magnitude n, c ∈ figures ∧ c ≠ 45 := by
  by_cases small : n < positionalLimit
  · rw [magnitude, if_pos small]
    intro c member
    obtain ⟨figure, unsigned, _⟩ := decimal_codes (digits_lt 10 n (by omega)) c member
    exact ⟨figure, unsigned⟩
  · rw [magnitude_large small]
    refine List.forall_mem_append.mpr ⟨?_, ?_⟩
    · intro c member
      obtain ⟨figure, unsigned, _⟩ := pointed_codes (significant_decimal n) c member
      exact ⟨figure, unsigned⟩
    · have exponent : ∀ c ∈ codes 10 ((digits 10 n).length - 1), c ∈ figures ∧ c ≠ 45 := by
        intro c member
        refine ⟨codes_figures (by omega) (by omega) _ member, ?_⟩
        rintro rfl
        exact codes_unsigned (exponent_nonneg n) member
      exact List.forall_mem_cons.mpr ⟨by decide, List.forall_mem_cons.mpr ⟨by decide, exponent⟩⟩

theorem mark_mem_iff (n : Nat) : 101 ∈ magnitude n ↔ ¬ n < positionalLimit := by
  by_cases small : n < positionalLimit
  · rw [magnitude, if_pos small]
    refine iff_of_false ?_ (not_not_intro small)
    exact fun mark => (decimal_codes (digits_lt 10 n (by omega)) _ mark).2.2 rfl
  · rw [magnitude_large small]
    exact iff_of_true (List.mem_append_right _ List.mem_cons_self) small

theorem magnitude_injective {m n : Nat} (same : magnitude m = magnitude n) : m = n := by
  have kind : ¬ m < positionalLimit ↔ ¬ n < positionalLimit := by
    rw [← mark_mem_iff, ← mark_mem_iff, same]
  by_cases small : m < positionalLimit
  · have other : n < positionalLimit := Decidable.not_not.mp fun large => kind.mpr large small
    rw [magnitude, magnitude, if_pos small, if_pos other] at same
    exact digits_injective (map_digitCode_injective same)
  · rw [magnitude, magnitude, if_neg small, if_neg (kind.mp small)] at same
    obtain ⟨digits, exponent⟩ := scientific_injective (significant_decimal m)
      (significant_decimal n) (exponent_nonneg m) (exponent_nonneg n) same
    exact digits_injective (significant_injective (by omega) digits)

theorem decimalCodes_injective {m n : Int} (same : decimalCodes m = decimalCodes n) : m = n := by
  rw [decimalCodes_eq, decimalCodes_eq] at same
  obtain ⟨magnitude, sign⟩ := signed_injective (fun sign => (magnitude_codes _ _ sign).2 rfl)
    (fun sign => (magnitude_codes _ _ sign).2 rfl) same
  have := magnitude_injective magnitude
  omega

theorem decimalCodes_figures (n : Int) : decimalCodes n ⊆ figures := by
  rw [decimalCodes_eq]
  exact signed_figures fun c member => (magnitude_codes _ c member).1

theorem decimalCodes_ne_nil (n : Int) : decimalCodes n ≠ [] := by
  have nonempty : magnitude n.natAbs ≠ [] := by
    by_cases small : n.natAbs < positionalLimit
    · rw [magnitude, if_pos small]
      exact fun empty => digits_ne_nil _ _ (List.map_eq_nil_iff.mp empty)
    · rw [magnitude_large small]
      simp
  rw [decimalCodes_eq]
  split
  · simp
  · exact nonempty

theorem char_toNat {n : Nat} (ascii : n < 128) : (Char.ofNat n).toNat = n := by
  revert n
  decide

theorem figure_char {n : Nat} (figure : n ∈ figures) : (Char.ofNat n).toNat = n := by
  have ascii : ∀ m ∈ figures, m < 128 := by decide
  exact char_toNat (ascii n figure)

theorem text_injective {a b : List Nat} (left : a ⊆ figures) (right : b ⊆ figures)
    (same : text a = text b) : a = b := by
  have back (c : List Nat) (written : c ⊆ figures) : (text c).map Char.toNat = c := by
    rw [text, List.map_map]
    exact (List.map_congr_left fun n member => figure_char (written member)).trans (List.map_id' c)
  rw [← back a left, same, back b right]

theorem notMem_text {a : List Nat} {c : Char} (written : a ⊆ figures) (other : c.toNat ∉ a) :
    c ∉ text a := by
  intro member
  obtain ⟨n, inside, rfl⟩ := List.mem_map.mp member
  rw [figure_char (written inside)] at other
  exact other inside

theorem notMem_figures {a : List Nat} {c : Char} (written : a ⊆ figures)
    (other : c.toNat ∉ figures) : c ∉ text a :=
  notMem_text written fun member => other (written member)

end Numeral

end ByteRegex

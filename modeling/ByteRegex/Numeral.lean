namespace ByteRegex.Numeral

def value (base : Nat) (digits : List Nat) : Nat :=
  digits.foldl (fun v d => v * base + d) 0

def digits (base n : Nat) : List Nat :=
  if n < base ∨ base < 2 then [n] else digits base (n / base) ++ [n % base]
termination_by n
decreasing_by exact Nat.div_lt_self (by omega) (by omega)

theorem value_append (base d : Nat) (ds : List Nat) :
    value base (ds ++ [d]) = value base ds * base + d := by
  simp [value]

theorem value_digits (base n : Nat) : value base (digits base n) = n := by
  fun_induction digits base n with
  | case1 n => simp [value]
  | case2 n h ih => rw [value_append, ih]; exact Nat.div_add_mod' n base

theorem digits_lt (base n : Nat) (proper : 2 ≤ base) : ∀ d ∈ digits base n, d < base := by
  fun_induction digits base n with
  | case1 n h => intro d hd; simp at hd; omega
  | case2 n h ih =>
    intro d hd
    rcases List.mem_append.mp hd with early | last
    · exact ih d early
    · simp at last; rw [last]; exact Nat.mod_lt _ (by omega)

def digitCode (d : Nat) : Nat := if d < 10 then 48 + d else 87 + d

def codes (base : Nat) (n : Int) : List Nat :=
  let magnitude := (digits base n.natAbs).map digitCode
  if n < 0 then 45 :: magnitude else magnitude

def hexPair (n : Int) : List Nat :=
  match codes 16 n with
  | [single] => [48, single]
  | written => written

def text (written : List Nat) : List Char := written.map Char.ofNat

def bytes (written : List Nat) : List UInt8 := written.map UInt8.ofNat

def significant (digits : List Nat) : List Nat := (digits.reverse.dropWhile (· = 0)).reverse

def scientific (digits : List Nat) (exponent : Int) : List Nat :=
  let fraction := if digits.length = 1 then [] else 46 :: (digits.drop 1).map digitCode
  let sign := if exponent < 0 then [] else [43]
  (digits.take 1).map digitCode ++ fraction ++ 101 :: sign ++ codes 10 exponent

def positionalLimit : Nat := 1000000000000000000000

/-- The decimal numeral of a number. Up to twenty-one digits are all written; of more, the zeros at
the end are left to a power of ten. -/
def decimalCodes (n : Int) : List Nat :=
  if n.natAbs < positionalLimit then codes 10 n
  else
    let all := digits 10 n.natAbs
    let magnitude := scientific (significant all) (all.length - 1)
    if n < 0 then 45 :: magnitude else magnitude

def decimal (n : Int) : String := String.ofList (text (decimalCodes n))

end ByteRegex.Numeral

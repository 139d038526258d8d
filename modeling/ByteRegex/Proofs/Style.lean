import ByteRegex.Diagnostic

namespace ByteRegex.Style

def isParameter (c : Char) : Bool := c.isDigit || c == ';'

def afterSequence? : List Char → Option (List Char)
  | '\x1b' :: '[' :: rest =>
    match rest.dropWhile isParameter with
    | 'm' :: after => some after
    | _ => none
  | _ => none

theorem afterSequence_length {text after : List Char} (h : afterSequence? text = some after) :
    after.length < text.length := by
  unfold afterSequence? at h
  split at h
  · rename_i rest
    have shorter := (List.dropWhile_suffix isParameter (l := rest)).length_le
    split at h
    · rename_i found
      cases h
      rw [found] at shorter
      simp only [List.length_cons] at shorter ⊢
      omega
    · cases h
  · cases h

def strip (text : List Char) : List Char :=
  match _h : afterSequence? text with
  | some after => strip after
  | none =>
    match text with
    | [] => []
    | c :: rest => c :: strip rest
termination_by text.length
decreasing_by
  · exact afterSequence_length _h
  · exact Nat.lt_succ_self _

def IsSequence (s : List Char) : Prop :=
  ∃ parameters, s = '\x1b' :: '[' :: parameters ++ ['m'] ∧ ∀ c ∈ parameters, isParameter c

theorem strip_sequence {s : List Char} (sequence : IsSequence s) (rest : List Char) :
    strip (s ++ rest) = strip rest := by
  obtain ⟨parameters, rfl, each⟩ := sequence
  have after : afterSequence? ('\x1b' :: '[' :: parameters ++ ['m'] ++ rest) = some rest := by
    have skipped : (parameters ++ ['m'] ++ rest).dropWhile isParameter = 'm' :: rest := by
      rw [List.append_assoc, List.dropWhile_append_of_pos each]
      rfl
    simp only [List.cons_append, afterSequence?, skipped]
  rw [strip]
  split
  · rename_i found
    rw [after] at found
    cases found
    rfl
  · rename_i none
    rw [after] at none
    cases none

theorem strip_char {c : Char} (plain : c ≠ '\x1b') (rest : List Char) :
    strip (c :: rest) = c :: strip rest := by
  have none : afterSequence? (c :: rest) = none := by
    unfold afterSequence?
    split
    · rename_i same
      exact absurd (List.cons.inj same).1 plain
    · rfl
  rw [strip]
  split
  · rename_i found
    rw [none] at found
    cases found
  · rfl

/-- The second text is the first with escape sequences inserted anywhere. -/
inductive Painted : List Char → List Char → Prop where
  | nil : Painted [] []
  | char (c : Char) {text painted : List Char} (later : Painted text painted) :
      Painted (c :: text) (c :: painted)
  | sequence {s text painted : List Char} (inserted : IsSequence s) (later : Painted text painted) :
      Painted text (s ++ painted)

theorem painted_self (text : List Char) : Painted text text := by
  induction text with
  | nil => exact .nil
  | cons c text ih => exact .char c ih

theorem painted_append {t u v w : List Char} (first : Painted t u) (second : Painted v w) :
    Painted (t ++ v) (u ++ w) := by
  induction first with
  | nil => exact second
  | char c later ih => exact .char c ih
  | sequence inserted later ih =>
    rw [List.append_assoc]
    exact .sequence inserted ih

theorem strip_painted {text painted : List Char} (h : Painted text painted)
    (plain : '\x1b' ∉ text) : strip painted = text := by
  induction h with
  | nil => rw [strip]; rfl
  | char c later ih =>
    have first := List.ne_of_not_mem_cons plain
    rw [strip_char first.symm, ih (List.not_mem_of_not_mem_cons plain)]
  | sequence inserted later ih => rw [strip_sequence inserted, ih plain]

theorem sequence_isSequence (code : Nat) : IsSequence (sequence code) := by
  have digit : ∀ d < 10, isParameter (Char.ofNat (Numeral.digitCode d)) := by decide
  refine ⟨Numeral.text (Numeral.codes 10 code), rfl, ?_⟩
  intro c member
  rw [Numeral.text, Numeral.codes, if_neg (by omega), List.map_map] at member
  obtain ⟨d, inside, rfl⟩ := List.mem_map.mp member
  exact digit d (Numeral.digits_lt 10 _ (by omega) d inside)

theorem painted_sequences (codes : List Nat) : Painted [] (codes.flatMap sequence) := by
  induction codes with
  | nil => exact .nil
  | cons code codes ih => exact .sequence (sequence_isSequence code) ih

theorem painted_on (s : Style) : Painted [] s.on := by
  have codes : s.on = (s.codes.map Prod.fst).flatMap sequence := by rw [on, List.flatMap_map]
  rw [codes]
  exact painted_sequences _

theorem painted_off (s : Style) : Painted [] s.off := by
  have codes : s.off = (s.codes.reverse.map Prod.snd).flatMap sequence := by
    rw [off, List.flatMap_map]
  rw [codes]
  exact painted_sequences _

theorem painted_paint (s : Style) (text : List Char) : Painted text (s.paint text) := by
  have inside : Painted text
      (text.flatMap fun c => if c = '\n' then s.off ++ '\n' :: s.on else [c]) := by
    induction text with
    | nil => exact .nil
    | cons c text ih =>
      refine painted_append (t := [c]) ?_ ih
      by_cases newline : c = '\n'
      · rw [newline]
        exact painted_append (painted_off s) (.char '\n' (painted_on s))
      · simp only [newline, if_false]
        exact painted_self [c]
  have whole := painted_append (painted_append (painted_on s) inside) (painted_off s)
  simpa [paint] using whole

end ByteRegex.Style

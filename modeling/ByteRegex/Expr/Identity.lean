import ByteRegex.Expr

namespace ByteRegex.Expr

mutual

def same : Expr → Expr → Bool
  | .dot, .dot => true
  | .empty a, .empty b => a = b
  | .literal c, .literal d => c = d
  | .bytes s, .bytes t => s = t
  | .capture i e, .capture j f => i = j && same e f
  | .repetition e m n g, .repetition f k l h => m = k && n = l && g = h && same e f
  | .concat es, .concat fs => sameAll es fs
  | .alternate es, .alternate fs => sameAll es fs
  | .foreign, .foreign => true
  | _, _ => false

def sameAll : List Expr → List Expr → Bool
  | [], [] => true
  | e :: es, f :: fs => same e f && sameAll es fs
  | _, _ => false

end

mutual

theorem same_iff : ∀ e f : Expr, same e f = true ↔ e = f
  | .dot, f | .empty _, f | .literal _, f | .bytes _, f | .foreign, f => by
    cases f <;> simp [same]
  | .capture i e, f => by cases f <;> simp [same, same_iff e]
  | .repetition e m n g, f => by
    cases f <;> simp [same, same_iff e]
    constructor
    · rintro ⟨⟨⟨hm, hn⟩, hg⟩, he⟩
      exact ⟨he, hm, hn, hg⟩
    · rintro ⟨he, hm, hn, hg⟩
      exact ⟨⟨⟨hm, hn⟩, hg⟩, he⟩
  | .concat es, f => by cases f <;> simp [same, sameAll_iff es]
  | .alternate es, f => by cases f <;> simp [same, sameAll_iff es]

theorem sameAll_iff : ∀ es fs : List Expr, sameAll es fs = true ↔ es = fs
  | [], fs => by cases fs <;> simp [sameAll]
  | e :: es, fs => by cases fs <;> simp [sameAll, same_iff e, sameAll_iff es]

end

instance : DecidableEq Expr := fun e f => decidable_of_iff _ (same_iff e f)

end ByteRegex.Expr

import Mathlib.Data.List.Infix

/-! The patterns of `SCAN ... MATCH`, which are matched byte by byte. -/

namespace AiPrReview.Redis

inductive Token : Type where
  | star
  | one
  | oneOf (negated : Bool) (ranges : List (UInt8 × UInt8))
  | byte (b : UInt8)

def Token.test : Token → UInt8 → Bool
  | star, _ => true
  | one, _ => true
  | oneOf negated ranges, c =>
    negated != ranges.any fun r => (r.1 ≤ c && c ≤ r.2) || (r.2 ≤ c && c ≤ r.1)
  | byte b, c => b == c

/-- The bytes of `*`, `?`, `[`, `]`, `^`, `-` and the backslash. -/
def starByte : UInt8 := 42
def anyByte : UInt8 := 63
def openByte : UInt8 := 91
def closeByte : UInt8 := 93
def caretByte : UInt8 := 94
def dashByte : UInt8 := 45
def escapeByte : UInt8 := 92

/-- The tokens of a pattern; inside brackets, with what was seen of them. -/
def lex : Option (Bool × List (UInt8 × UInt8)) → List UInt8 → List Token
  | none, [] => []
  | some (negated, ranges), [] => [.oneOf negated ranges]
  | none, b :: p =>
    if b = starByte then .star :: lex none p
    else if b = anyByte then .one :: lex none p
    else if b = openByte then
      match p with
      | [] => lex (some (false, [])) []
      | c :: q => if c = caretByte then lex (some (true, [])) q else lex (some (false, [])) (c :: q)
    else if b = escapeByte then
      match p with
      | [] => [.byte b]
      | c :: q => .byte c :: lex none q
    else .byte b :: lex none p
  | some (negated, ranges), b :: p =>
    if b = closeByte then .oneOf negated ranges :: lex none p
    else
      match p with
      | [] => lex (some (negated, (b, b) :: ranges)) []
      | c :: q =>
        if b = escapeByte then lex (some (negated, (c, c) :: ranges)) q
        else
          match q with
          | [] => lex (some (negated, (b, b) :: ranges)) [c]
          | d :: r =>
            if c = dashByte then lex (some (negated, (b, d) :: ranges)) r
            else lex (some (negated, (b, b) :: ranges)) (c :: d :: r)

def accepts : List Token → List UInt8 → Bool
  | [], s => s.isEmpty
  | .star :: ts, s => s.tails.any (accepts ts)
  | _ :: _, [] => false
  | t :: ts, c :: s => t.test c && accepts ts s

def glob (pattern key : List UInt8) : Bool := accepts (lex none pattern) key

example (b : UInt8) : glob [starByte, anyByte] [b] = true := by
  simp [glob, lex, accepts, starByte, anyByte, Token.test]

def Ordinary (b : UInt8) : Prop := b ≠ starByte ∧ b ≠ anyByte ∧ b ≠ openByte ∧ b ≠ escapeByte

instance (b : UInt8) : Decidable (Ordinary b) := inferInstanceAs (Decidable (_ ∧ _ ∧ _ ∧ _))

theorem lex_ordinary {l : List UInt8} (h : ∀ b ∈ l, Ordinary b) (p : List UInt8) :
    lex none (l ++ p) = l.map .byte ++ lex none p := by
  induction l with
  | nil => rfl
  | cons b l ih =>
    obtain ⟨hstar, hany, hopen, hescape⟩ := h b (by simp)
    rw [List.cons_append, lex.eq_def]
    simp only [if_neg hstar, if_neg hany, if_neg hopen, if_neg hescape, List.map_cons, List.cons_append]
    rw [ih fun b' hb' => h b' (by simp [hb'])]

theorem accepts_bytes {l : List UInt8} {ts : List Token} {s : List UInt8} :
    accepts (l.map .byte ++ ts) s = true ↔ ∃ r, s = l ++ r ∧ accepts ts r = true := by
  induction l generalizing s with
  | nil => simp
  | cons b l ih =>
    cases s with
    | nil => simp [accepts]
    | cons c s =>
      rw [List.map_cons, List.cons_append, accepts, Bool.and_eq_true, ih]
      · simp only [Token.test, beq_iff_eq, List.cons_append, List.cons.injEq]
        constructor
        · intro h
          obtain ⟨rfl, r, rfl, hr⟩ := h
          exact ⟨r, ⟨rfl, rfl⟩, hr⟩
        · intro h
          obtain ⟨r, ⟨rfl, rfl⟩, hr⟩ := h
          exact ⟨rfl, r, rfl, hr⟩
      · intro h
        cases h

theorem accepts_star {ts : List Token} {s : List UInt8} :
    accepts (.star :: ts) s = true ↔ ∃ u v, s = u ++ v ∧ accepts ts v = true := by
  rw [accepts, List.any_eq_true]
  constructor
  · intro h
    obtain ⟨v, hv, hacc⟩ := h
    obtain ⟨u, rfl⟩ := (List.mem_tails _ _).mp hv
    exact ⟨u, v, rfl, hacc⟩
  · intro h
    obtain ⟨u, v, rfl, hacc⟩ := h
    exact ⟨v, (List.mem_tails _ _).mpr ⟨u, rfl⟩, hacc⟩

theorem glob_between {pre mid key : List UInt8} (hpre : ∀ b ∈ pre, Ordinary b) (hmid : ∀ b ∈ mid, Ordinary b) :
    glob (pre ++ starByte :: (mid ++ [starByte])) key = true ↔ ∃ u v, key = pre ++ u ++ mid ++ v := by
  have hstar : ∀ p, lex none (starByte :: p) = .star :: lex none p := by
    intro p
    rw [lex.eq_def]
    simp
  rw [glob, lex_ordinary hpre, hstar, lex_ordinary hmid, hstar, accepts_bytes]
  simp only [accepts_star, accepts_bytes]
  constructor
  · intro h
    obtain ⟨_, rfl, u, _, rfl, v, rfl, _⟩ := h
    exact ⟨u, v, by simp⟩
  · intro h
    obtain ⟨u, v, rfl⟩ := h
    exact ⟨u ++ (mid ++ v), by simp, u, mid ++ v, rfl, v, rfl, v, [], by simp, rfl⟩

end AiPrReview.Redis

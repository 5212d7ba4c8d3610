import Mathlib.Data.Char
import Mathlib.Data.Int.Log
import Mathlib.Data.List.Lex
import Mathlib.Data.Rat.Floor
import Mathlib.Data.List.DropRight
import Mathlib.Tactic.Linarith
import Mathlib.Tactic.Positivity

/-! Python strings and floats. A string is the list of its code points; a
float is the rational it denotes, and every float operation is rounded. -/

namespace AiPrReview

abbrev Text := List Char

instance : LawfulBEq Text := inferInstance

/-- `str.isspace` on one character; `\s` in a pattern is the same class. -/
def isSpace (c : Char) : Bool :=
  let n := c.toNat
  (9 ≤ n && n ≤ 13) || (28 ≤ n && n ≤ 32) || n == 0x85 || n == 0xA0 || n == 0x1680 ||
    (0x2000 ≤ n && n ≤ 0x200A) || n == 0x2028 || n == 0x2029 || n == 0x202F || n == 0x205F ||
    n == 0x3000

/-- The characters `str.splitlines` breaks a line after. -/
def isLineBreak (c : Char) : Bool :=
  let n := c.toNat
  (10 ≤ n && n ≤ 13) || (28 ≤ n && n ≤ 30) || n == 0x85 || n == 0x2028 || n == 0x2029

def splitlinesKeep : Text → List Text
  | [] => []
  | '\r' :: '\n' :: rest => ['\r', '\n'] :: splitlinesKeep rest
  | c :: rest =>
    if isLineBreak c then [c] :: splitlinesKeep rest
    else
      match splitlinesKeep rest with
      | [] => [[c]]
      | line :: lines => (c :: line) :: lines

example : splitlinesKeep ['a', '\r', '\n', '\n', 'b'] = [['a', '\r', '\n'], ['\n'], ['b']] := by
  simp [splitlinesKeep, isLineBreak]

/-- `str.splitlines()`: a line of `splitlinesKeep` holds no break but its own end. -/
def splitlines (t : Text) : List Text :=
  (splitlinesKeep t).map (List.rdropWhile isLineBreak)

def rstrip (t : Text) : Text := t.rdropWhile isSpace

def strip (t : Text) : Text := (rstrip t).dropWhile isSpace

def joinWith (sep : Text) (parts : List Text) : Text := sep.intercalate parts

def intText (n : Int) : Text := (toString n).toList

/-- `str.upper` on ASCII text. -/
def upper (t : Text) : Text := t.map Char.toUpper

theorem intText_natCast (n : Nat) : intText n = Nat.toDigits 10 n := by
  show (Nat.repr n).toList = _
  exact Nat.toList_repr

theorem intText_negSucc (n : Nat) : intText (.negSucc n) = '-' :: Nat.toDigits 10 (n + 1) := by
  show ("-" ++ Nat.repr (n + 1)).toList = _
  rw [String.toList_append, Nat.toList_repr]
  rfl

theorem isDigit_of_mem_toDigits {n : Nat} {c : Char} (h : c ∈ Nat.toDigits 10 n) : c.isDigit = true :=
  Nat.isDigit_of_mem_toDigits (by decide) (by decide) h

theorem mem_intText {i : Int} {c : Char} (h : c ∈ intText i) : c = '-' ∨ c.isDigit = true := by
  cases i with
  | ofNat n => exact .inr (isDigit_of_mem_toDigits (intText_natCast n ▸ h))
  | negSucc n =>
    rw [intText_negSucc] at h
    exact (List.mem_cons.mp h).imp_right isDigit_of_mem_toDigits

theorem isSpace_of_isLineBreak {c : Char} (h : isLineBreak c = true) : isSpace c = true := by
  simp only [isLineBreak, Bool.or_eq_true, Bool.and_eq_true, decide_eq_true_eq, beq_iff_eq] at h
  simp only [isSpace, Bool.or_eq_true, Bool.and_eq_true, decide_eq_true_eq, beq_iff_eq]
  omega

theorem isSpace_of_isDigit {c : Char} (h : c.isDigit = true) : isSpace c = false := by
  have hn := Char.isDigit_iff_toNat.mp h
  have h0 : '0'.toNat = 48 := rfl
  have h9 : '9'.toNat = 57 := rfl
  rw [← Bool.not_eq_true]
  simp only [isSpace, Bool.or_eq_true, Bool.and_eq_true, decide_eq_true_eq, beq_iff_eq]
  omega

theorem strip_eq_nil_iff {t : Text} : strip t = [] ↔ ∀ c ∈ t, isSpace c = true := by
  rw [strip, List.dropWhile_eq_nil_iff, rstrip]
  constructor
  · intro h
    apply List.rdropWhile_eq_nil_iff.mp
    by_contra hne
    exact List.rdropWhile_last_not isSpace t hne (h _ (List.getLast_mem hne))
  · intro h c hc
    exact h c ((List.rdropWhile_prefix isSpace t).subset hc)

theorem flatten_splitlinesKeep (t : Text) : (splitlinesKeep t).flatten = t := by
  fun_induction splitlinesKeep t with
  | case1 => rfl
  | case2 rest ih => simp [ih]
  | case3 c rest _ h ih => simp [ih]
  | case4 c rest _ h hn ih => simp_all
  | case5 c rest _ h line lines hl ih =>
    rw [hl] at ih
    simp [← ih]

/-- A carriage return and the newline after it are one break. -/
def CrLf (c : Char) (t : Text) : Prop := c = '\r' ∧ ∃ rest, t = '\n' :: rest

theorem splitlinesKeep_break {c : Char} {t : Text} (hc : isLineBreak c = true) (h : ¬CrLf c t) :
    splitlinesKeep (c :: t) = [c] :: splitlinesKeep t := by
  rw [splitlinesKeep, if_pos hc]
  intro rest hr ht
  exact h ⟨hr, rest, ht⟩

theorem splitlinesKeep_solid {c : Char} {t : Text} (hc : isLineBreak c = false) :
    splitlinesKeep (c :: t) = (c :: (splitlinesKeep t).headD []) :: (splitlinesKeep t).tail := by
  rw [splitlinesKeep, if_neg (by simp [hc])]
  · cases splitlinesKeep t <;> rfl
  · rintro _ rfl _
    cases hc

theorem splitlinesKeep_append (line rest : Text) :
    splitlinesKeep (line ++ '\n' :: rest) = splitlinesKeep (line ++ ['\n']) ++ splitlinesKeep rest := by
  have hnewline : ∀ t, splitlinesKeep ('\n' :: t) = ['\n'] :: splitlinesKeep t :=
    fun t => splitlinesKeep_break (by decide) fun h => absurd h.1 (by decide)
  induction line with
  | nil => exact (hnewline rest).trans (congrArg (· ++ splitlinesKeep rest) (hnewline [])).symm
  | cons c line ih =>
    by_cases hc : isLineBreak c = true
    · by_cases hr : c = '\r'
      · subst hr
        cases line with
        | nil => simp [splitlinesKeep]
        | cons d line =>
          by_cases hd : d = '\n'
          · subst hd
            simp only [List.cons_append, hnewline, List.cons.injEq, true_and] at ih
            simp only [List.cons_append, splitlinesKeep, ih]
          · have hno : ∀ t, ¬CrLf '\r' (d :: t) := fun t h => hd (List.cons.inj h.2.choose_spec).1
            simp only [List.cons_append] at ih ⊢
            rw [splitlinesKeep_break hc (hno _), splitlinesKeep_break hc (hno _), ih, List.cons_append]
      · have hno : ∀ t, ¬CrLf c t := fun t h => hr h.1
        rw [List.cons_append, List.cons_append, splitlinesKeep_break hc (hno _), splitlinesKeep_break hc (hno _), ih,
          List.cons_append]
    · rw [Bool.not_eq_true] at hc
      have hne : splitlinesKeep (line ++ ['\n']) ≠ [] := by
        intro he
        have hh := flatten_splitlinesKeep (line ++ ['\n'])
        rw [he] at hh
        exact absurd hh.symm (by simp)
      obtain ⟨first, others, he⟩ := List.exists_cons_of_ne_nil hne
      rw [List.cons_append, List.cons_append, splitlinesKeep_solid hc, splitlinesKeep_solid hc, ih, he]
      rfl

/-! Floats. -/

def roundHalfEven (q : ℚ) : ℤ :=
  let f := ⌊q⌋
  if q - f < 1 / 2 then f
  else if 1 / 2 < q - f then f + 1
  else if f % 2 = 0 then f else f + 1

/-- The nearest double, ties to even, below the overflow threshold. -/
def toDouble (q : ℚ) : ℚ :=
  if q = 0 then 0
  else
    let e := max (Int.log 2 |q| - 52) (-1074)
    roundHalfEven (q / 2 ^ e) * 2 ^ e

/-- `statistics.fmean`: `fsum` rounds the exact sum once, and so does the division. -/
def fmean (qs : List ℚ) : ℚ := toDouble (toDouble qs.sum / qs.length)

/-- `f"{q:.2f}"`. -/
def fixed2 (q : ℚ) : Text :=
  let n := (roundHalfEven (|q| * 100)).toNat
  (if q < 0 then ['-'] else []) ++ intText (n / 100 : Nat) ++ '.' ::
    (intText (n / 10 % 10 : Nat) ++ intText (n % 10 : Nat))

theorem roundHalfEven_le {q : ℚ} {n : ℤ} (h : q ≤ n) : roundHalfEven q ≤ n := by
  have hf : ⌊q⌋ ≤ n := Int.cast_le.mp ((Int.floor_le q).trans h)
  have hlt : (1 : ℚ) / 2 ≤ q - ⌊q⌋ → ⌊q⌋ + 1 ≤ n := by
    intro hd
    have hq : ((⌊q⌋ : ℤ) : ℚ) < n := by linarith
    exact Int.cast_lt.mp hq
  unfold roundHalfEven
  dsimp only
  split_ifs with h₁ h₂ h₃
  · exact hf
  · exact hlt h₂.le
  · exact hf
  · exact hlt (not_lt.mp h₁)

theorem le_roundHalfEven {q : ℚ} {n : ℤ} (h : (n : ℚ) ≤ q) : n ≤ roundHalfEven q := by
  have hf : n ≤ ⌊q⌋ := Int.le_floor.mpr h
  unfold roundHalfEven
  dsimp only
  split_ifs <;> omega

theorem roundHalfEven_mono {p q : ℚ} (h : p ≤ q) : roundHalfEven p ≤ roundHalfEven q := by
  have hf : ⌊p⌋ ≤ ⌊q⌋ := Int.floor_mono h
  have hp : roundHalfEven p ≤ ⌊p⌋ + 1 := roundHalfEven_le (by
    push_cast
    exact (Int.lt_floor_add_one p).le)
  have hq : ⌊q⌋ ≤ roundHalfEven q := le_roundHalfEven (Int.floor_le q)
  rcases hf.lt_or_eq with hlt | heq
  · omega
  -- the same floor: the larger fraction is rounded up if the smaller one is
  · unfold roundHalfEven
    dsimp only
    rw [heq]
    have hd : p - ((⌊q⌋ : ℤ) : ℚ) ≤ q - ((⌊q⌋ : ℤ) : ℚ) := by linarith
    split_ifs <;> first | omega | (exfalso; linarith)

theorem roundHalfEven_nonneg {q : ℚ} (h : 0 ≤ q) : 0 ≤ roundHalfEven q := by
  have hf : 0 ≤ ⌊q⌋ := Int.floor_nonneg.mpr h
  unfold roundHalfEven
  dsimp only
  split_ifs <;> omega

theorem toDouble_nonneg {q : ℚ} (h : 0 ≤ q) : 0 ≤ toDouble q := by
  unfold toDouble
  split_ifs with hq
  · exact le_rfl
  · have hn := roundHalfEven_nonneg
      (div_nonneg h (zpow_nonneg (by norm_num : (0 : ℚ) ≤ 2) (max (Int.log 2 |q| - 52) (-1074))))
    exact mul_nonneg (by exact_mod_cast hn) (zpow_nonneg (by norm_num) _)

theorem toDouble_le_zpow {q : ℚ} {l : ℤ} (h₀ : 0 ≤ q) (h : q ≤ 2 ^ l) (hl : -1074 ≤ l) :
    toDouble q ≤ 2 ^ l := by
  unfold toDouble
  split_ifs with hq
  · exact zpow_nonneg (by norm_num) l
  · have hpos : 0 < q := lt_of_le_of_ne h₀ (Ne.symm hq)
    have hlog : Int.log 2 |q| ≤ l := by
      rw [abs_of_pos hpos]
      have hm := Int.log_mono_right (b := 2) hpos h
      have hz : Int.log 2 ((2 : ℚ) ^ l) = l := by
        exact_mod_cast Int.log_zpow (R := ℚ) (b := 2) (by norm_num) l
      rwa [hz] at hm
    dsimp only
    generalize hE : max (Int.log 2 |q| - 52) (-1074) = e
    have hle : e ≤ l := by omega
    obtain ⟨n, hn⟩ : ∃ n : ℕ, l = e + n := ⟨(l - e).toNat, by omega⟩
    have hpow : (0 : ℚ) < 2 ^ e := zpow_pos (by norm_num) e
    have hsplit : (2 : ℚ) ^ l = 2 ^ n * 2 ^ e := by
      rw [hn, zpow_add₀ (by norm_num), zpow_natCast, mul_comm]
    have hdiv : q / 2 ^ e ≤ ((2 ^ n : ℤ) : ℚ) := by
      rw [div_le_iff₀ hpow]
      push_cast
      rw [← hsplit]
      exact h
    have hr : ((roundHalfEven (q / 2 ^ e) : ℤ) : ℚ) ≤ 2 ^ n := by
      exact_mod_cast roundHalfEven_le hdiv
    rw [hsplit]
    exact mul_le_mul_of_nonneg_right hr hpow.le

theorem toDouble_le_one {q : ℚ} (h₀ : 0 ≤ q) (h₁ : q ≤ 1) : toDouble q ≤ 1 := by
  simpa using toDouble_le_zpow (l := 0) h₀ (by simpa using h₁) (by norm_num)

theorem toDouble_mono {p q : ℚ} (hp : 0 ≤ p) (h : p ≤ q) : toDouble p ≤ toDouble q := by
  by_cases hp0 : p = 0
  · rw [hp0]
    have hz : toDouble 0 = 0 := if_pos rfl
    rw [hz]
    exact toDouble_nonneg (hp.trans h)
  have hppos : 0 < p := lt_of_le_of_ne hp (Ne.symm hp0)
  have hqpos : 0 < q := hppos.trans_le h
  have hlog : Int.log 2 p ≤ Int.log 2 q := Int.log_mono_right hppos h
  by_cases he : max (Int.log 2 p - 52) (-1074) = max (Int.log 2 q - 52) (-1074)
  · unfold toDouble
    rw [if_neg hp0, if_neg hqpos.ne', abs_of_pos hppos, abs_of_pos hqpos]
    dsimp only
    rw [he]
    have hpow : (0 : ℚ) < 2 ^ max (Int.log 2 q - 52) (-1074) := zpow_pos (by norm_num) _
    refine mul_le_mul_of_nonneg_right ?_ hpow.le
    exact_mod_cast roundHalfEven_mono (div_le_div_of_nonneg_right h hpow.le)
  -- different exponents: a power of two lies between the two
  · have hlt : Int.log 2 p < Int.log 2 q := by omega
    have hbig : -1074 < Int.log 2 q - 52 := by omega
    have hmid : p ≤ 2 ^ Int.log 2 q := by
      have hlt' := Int.lt_zpow_succ_log_self (b := 2) (by norm_num) p
      push_cast at hlt'
      exact hlt'.le.trans (zpow_le_zpow_right₀ (by norm_num) (by omega))
    refine (toDouble_le_zpow hp hmid (by omega)).trans ?_
    unfold toDouble
    rw [if_neg hqpos.ne', abs_of_pos hqpos]
    dsimp only
    rw [max_eq_left hbig.le]
    have hpow : (0 : ℚ) < 2 ^ (Int.log 2 q - 52) := zpow_pos (by norm_num) _
    have hsplit : (2 : ℚ) ^ Int.log 2 q = 2 ^ 52 * 2 ^ (Int.log 2 q - 52) := by
      rw [← zpow_natCast, ← zpow_add₀ (by norm_num)]
      congr 1
      push_cast
      omega
    have hdiv : ((2 ^ 52 : ℤ) : ℚ) ≤ q / 2 ^ (Int.log 2 q - 52) := by
      have hcast : ((2 ^ 52 : ℤ) : ℚ) = 2 ^ 52 := by norm_num
      rw [le_div_iff₀ hpow, hcast, ← hsplit]
      exact_mod_cast Int.zpow_log_le_self (b := 2) (by norm_num) hqpos
    have hr : (2 : ℚ) ^ 52 ≤ ((roundHalfEven (q / 2 ^ (Int.log 2 q - 52)) : ℤ) : ℚ) := by
      exact_mod_cast le_roundHalfEven hdiv
    rw [hsplit]
    exact mul_le_mul_of_nonneg_right hr hpow.le

example : fixed2 (1999 / 1000) = "2.00".toList := by decide +kernel

theorem roundHalfEven_neg (q : ℚ) : roundHalfEven (-q) = -roundHalfEven q := by
  by_cases hint : q = (⌊q⌋ : ℤ)
  · have hround : ∀ n : ℤ, roundHalfEven (n : ℚ) = n := fun n =>
      le_antisymm (roundHalfEven_le le_rfl) (le_roundHalfEven le_rfl)
    rw [hint, ← Int.cast_neg, hround, hround]
  · have hlt : ((⌊q⌋ : ℤ) : ℚ) < q := lt_of_le_of_ne (Int.floor_le q) (Ne.symm hint)
    have hlt' := Int.lt_floor_add_one q
    have hfloor : ⌊-q⌋ = -⌊q⌋ - 1 := by
      rw [Int.floor_eq_iff]
      push_cast
      constructor <;> linarith
    unfold roundHalfEven
    dsimp only
    rw [hfloor]
    push_cast
    split_ifs <;> first | omega | (exfalso; linarith)

theorem toDouble_neg (q : ℚ) : toDouble (-q) = -toDouble q := by
  unfold toDouble
  by_cases hq : q = 0
  · rw [if_pos hq, if_pos (neg_eq_zero.mpr hq), neg_zero]
  · rw [if_neg hq, if_neg (neg_ne_zero.mpr hq), abs_neg]
    dsimp only
    rw [neg_div, roundHalfEven_neg, Int.cast_neg, neg_mul]

theorem toDouble_monotone : Monotone toDouble := by
  intro p q h
  rcases le_total 0 p with hp | hp
  · exact toDouble_mono hp h
  · have hnegp : toDouble p = -toDouble (-p) := by rw [toDouble_neg, neg_neg]
    rcases le_total 0 q with hq | hq
    · have hp' := toDouble_nonneg (neg_nonneg.mpr hp)
      have hq' := toDouble_nonneg hq
      linarith
    · have hnegq : toDouble q = -toDouble (-q) := by rw [toDouble_neg, neg_neg]
      rw [hnegp, hnegq]
      exact neg_le_neg (toDouble_mono (neg_nonneg.mpr hq) (neg_le_neg h))

end AiPrReview

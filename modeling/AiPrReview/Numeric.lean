import Mathlib.Algebra.Order.Round
import Mathlib.Data.Rat.Floor
import Mathlib.Data.Nat.Log
import Mathlib.Tactic.FieldSimp
import Mathlib.Tactic.Linarith
import Mathlib.Tactic.NormNum
import Mathlib.Tactic.Positivity
import Mathlib.Tactic.Ring

/-! Quotients of the SQL type `numeric`. They are rounded to a number of decimals that
grows with the divisor, so small differences between sums of quotients can be lost. -/

namespace AiPrReview.Numeric

/-- `1.0 / d` to `scale` decimals. -/
def rounded (scale d : ℕ) : ℚ := round ((10 : ℚ) ^ scale / d) / 10 ^ scale

/-- The decimals that `1.0 / d` is given: sixteen, and four for every four digits of `d`. -/
def divScale (d : ℕ) : ℕ := 20 + 4 * Nat.log 10000 d

/-- `1.0 / d`. -/
def oneOver (d : ℕ) : ℚ := rounded (divScale d) d

theorem oneOver_near (d : ℕ) : |1 / (d : ℚ) - oneOver d| ≤ 1 / 2 / 10 ^ 20 := by
  have hpow : (0 : ℚ) < 10 ^ divScale d := by positivity
  have hscale : (10 : ℚ) ^ 20 ≤ 10 ^ divScale d := pow_le_pow_right₀ (by norm_num) (Nat.le_add_right 20 _)
  have hdiff : 1 / (d : ℚ) - oneOver d =
      ((10 : ℚ) ^ divScale d / d - round ((10 : ℚ) ^ divScale d / d)) / 10 ^ divScale d := by
    rw [oneOver, rounded, sub_div, div_right_comm, div_self hpow.ne']
  rw [hdiff, abs_div, abs_of_pos hpow]
  calc |(10 : ℚ) ^ divScale d / d - round ((10 : ℚ) ^ divScale d / d)| / 10 ^ divScale d
      ≤ 1 / 2 / 10 ^ divScale d := div_le_div_of_nonneg_right (abs_sub_round _) hpow.le
    _ ≤ 1 / 2 / 10 ^ 20 := div_le_div_of_nonneg_left (by norm_num) (by positivity) hscale

example : oneOver 61 = 1639344262295081967 / 10 ^ 20 := by decide +kernel

/-! A larger divisor never has a larger quotient, although it may have more decimals. -/

theorem rounded_antitone (scale : ℕ) {a b : ℕ} (ha : 0 < a) (h : a ≤ b) : rounded scale b ≤ rounded scale a := by
  have hquot : (10 : ℚ) ^ scale / b ≤ (10 : ℚ) ^ scale / a :=
    div_le_div_of_nonneg_left (by positivity) (by exact_mod_cast ha) (by exact_mod_cast h)
  have hround : round ((10 : ℚ) ^ scale / b) ≤ round ((10 : ℚ) ^ scale / a) := by
    rw [round_eq, round_eq]
    exact Int.floor_le_floor (by linarith)
  exact div_le_div_of_nonneg_right (by exact_mod_cast hround) (by positivity)

theorem rounded_pow {scale m : ℕ} (h : m ≤ scale) : rounded scale (10 ^ m) = 1 / 10 ^ m := by
  have hsplit : (10 : ℚ) ^ scale = 10 ^ (scale - m) * 10 ^ m := by rw [← pow_add, Nat.sub_add_cancel h]
  have hquot : (10 : ℚ) ^ scale / ((10 ^ m : ℕ) : ℚ) = ((10 ^ (scale - m) : ℕ) : ℚ) := by
    push_cast
    rw [hsplit, mul_div_assoc, div_self (by positivity), mul_one]
  rw [rounded, hquot, round_natCast, hsplit]
  push_cast
  field_simp

theorem oneOver_antitone {a b : ℕ} (ha : 0 < a) (h : a ≤ b) : oneOver b ≤ oneOver a := by
  have hlog : Nat.log 10000 a ≤ Nat.log 10000 b := Nat.log_mono_right h
  rcases hlog.eq_or_lt with he | hlt
  · have hscale : divScale a = divScale b := by rw [divScale, divScale, he]
    rw [oneOver, oneOver, hscale]
    exact rounded_antitone _ ha h
  · -- a power of ten stands between the divisors, and both scales hold its inverse
    let m := 4 * (Nat.log 10000 a + 1)
    have hpow : 10 ^ m = 10000 ^ (Nat.log 10000 a + 1) := by rw [pow_mul]; norm_num
    have hbelow : a ≤ 10 ^ m := by
      rw [hpow]
      exact (Nat.lt_pow_succ_log_self (by norm_num) a).le
    have habove : 10 ^ m ≤ b := by
      rw [hpow]
      exact (Nat.pow_le_pow_right (by norm_num) hlt).trans (Nat.pow_log_le_self 10000 (by omega))
    calc oneOver b ≤ rounded (divScale b) (10 ^ m) := rounded_antitone _ (by positivity) habove
      _ = 1 / 10 ^ m := rounded_pow (by unfold m divScale; omega)
      _ = rounded (divScale a) (10 ^ m) := (rounded_pow (by unfold m divScale; omega)).symm
      _ ≤ oneOver a := rounded_antitone _ ha hbelow

/-! Sums of two quotients are in the order of the exact sums when the divisors are not
too large. -/

theorem oneOver_lt {a b : ℕ} (ha : 0 < a) (h : a < b) (hsmall : a * b < 10 ^ 20) : oneOver b < oneOver a := by
  have ha' : (0 : ℚ) < a := by exact_mod_cast ha
  have hb' : (0 : ℚ) < b := by exact_mod_cast ha.trans h
  have hsmall' : (a : ℚ) * b < 10 ^ 20 := by exact_mod_cast hsmall
  have hstep : (a : ℚ) + 1 ≤ b := by exact_mod_cast h
  have hgap : 1 / 10 ^ 20 < 1 / (a : ℚ) - 1 / b := by
    calc 1 / 10 ^ 20 < 1 / ((a : ℚ) * b) := one_div_lt_one_div_of_lt (by positivity) hsmall'
      _ ≤ (b - a) / (a * b) := div_le_div_of_nonneg_right (by linarith) (by positivity)
      _ = 1 / (a : ℚ) - 1 / b := by field_simp
  have hna := abs_le.mp (oneOver_near a)
  have hnb := abs_le.mp (oneOver_near b)
  linarith [hna.2, hnb.1]

theorem oneOver_add_lt {a b c d : ℕ} (ha : 0 < a) (hb : 0 < b) (hc : 0 < c) (hd : 0 < d)
    (h : 1 / (c : ℚ) + 1 / d < 1 / a + 1 / b) (hsmall : a * b * (c * d) < 5 * 10 ^ 19) :
    oneOver c + oneOver d < oneOver a + oneOver b := by
  have ha' : (0 : ℚ) < a := by exact_mod_cast ha
  have hb' : (0 : ℚ) < b := by exact_mod_cast hb
  have hc' : (0 : ℚ) < c := by exact_mod_cast hc
  have hd' : (0 : ℚ) < d := by exact_mod_cast hd
  have hsmall' : (a : ℚ) * b * (c * d) < 5 * 10 ^ 19 := by exact_mod_cast hsmall
  have hab : 1 / (a : ℚ) + 1 / b = (((a + b) * (c * d) : ℕ) : ℚ) / (a * b * (c * d)) := by
    push_cast
    field_simp
    ring
  have hcd : 1 / (c : ℚ) + 1 / d = (((c + d) * (a * b) : ℕ) : ℚ) / (a * b * (c * d)) := by
    push_cast
    field_simp
    ring
  have hpos : (0 : ℚ) < a * b * (c * d) := by positivity
  rw [hab, hcd, div_lt_div_iff_of_pos_right hpos] at h
  -- the numerators are integers, so the sums differ by the inverse of the product at least
  have hstep : (((c + d) * (a * b) : ℕ) : ℚ) + 1 ≤ (((a + b) * (c * d) : ℕ) : ℚ) := by
    exact_mod_cast Nat.succ_le_of_lt (by exact_mod_cast h)
  have hgap : 1 / (5 * 10 ^ 19) < (1 / (a : ℚ) + 1 / b) - (1 / c + 1 / d) := by
    rw [hab, hcd, ← sub_div]
    calc 1 / (5 * 10 ^ 19) < 1 / ((a : ℚ) * b * (c * d)) := one_div_lt_one_div_of_lt hpos hsmall'
      _ ≤ _ := div_le_div_of_nonneg_right (by linarith) hpos.le
  have hna := abs_le.mp (oneOver_near a)
  have hnb := abs_le.mp (oneOver_near b)
  have hnc := abs_le.mp (oneOver_near c)
  have hnd := abs_le.mp (oneOver_near d)
  linarith [hna.2, hnb.2, hnc.1, hnd.1]

theorem le_of_oneOver_le {a b : ℕ} (ha : 0 < a) (hb : 0 < b) (hsmall : a * b < 10 ^ 20)
    (h : oneOver b ≤ oneOver a) : 1 / (b : ℚ) ≤ 1 / a := by
  have ha' : (0 : ℚ) < a := by exact_mod_cast ha
  have hle : a ≤ b := by
    by_contra hgt
    have hlt := oneOver_lt hb (Nat.lt_of_not_le hgt) (by rwa [Nat.mul_comm])
    exact absurd h hlt.not_ge
  exact one_div_le_one_div_of_le ha' (by exact_mod_cast hle)

/-- A divisor that is at most `small`, or else the one `large` divisor. -/
structure Divisor (small large d : ℕ) : Prop where
  pos : 0 < d
  le : d ≤ large
  bound : d ≤ small ∨ d = large

/-- The order of the rounded sums is that of the exact sums. -/
theorem add_le_of_oneOver_add_le {a b c d small large : ℕ} (ha : Divisor small large a) (hb : Divisor small large b)
    (hc : Divisor small large c) (hd : Divisor small large d) (hlarge : large * large < 10 ^ 20)
    (hsmall : small * small * (large * large) < 5 * 10 ^ 19)
    (h : oneOver a + oneOver b ≤ oneOver c + oneOver d) : 1 / (a : ℚ) + 1 / b ≤ 1 / c + 1 / d := by
  have hpair : ∀ {x y}, Divisor small large x → Divisor small large y → oneOver x ≤ oneOver y →
      1 / (x : ℚ) ≤ 1 / y := fun hx hy hle =>
    le_of_oneOver_le hy.pos hx.pos ((Nat.mul_le_mul hy.le hx.le).trans_lt hlarge) hle
  have hproduct : a * b ≤ small * small ∨ c * d ≤ small * small → 1 / (a : ℚ) + 1 / b ≤ 1 / c + 1 / d := by
    intro hone
    have hbound : c * d * (a * b) ≤ small * small * (large * large) := by
      rcases hone with hab | hcd
      · rw [Nat.mul_comm]
        exact Nat.mul_le_mul hab (Nat.mul_le_mul hc.le hd.le)
      · exact Nat.mul_le_mul hcd (Nat.mul_le_mul ha.le hb.le)
    by_contra hgt
    have hlt := oneOver_add_lt ha.pos hb.pos hc.pos hd.pos (not_le.mp hgt)
      (by rw [Nat.mul_comm]; exact hbound.trans_lt hsmall)
    exact absurd h hlt.not_ge
  -- a large divisor on either side is taken away from both
  rcases ha.bound with has | rfl
  · rcases hb.bound with hbs | rfl
    · exact hproduct (.inl (Nat.mul_le_mul has hbs))
    · rcases hc.bound with hcs | rfl
      · rcases hd.bound with hds | rfl
        · exact hproduct (.inr (Nat.mul_le_mul hcs hds))
        · linarith [hpair ha hc (by linarith)]
      · linarith [hpair ha hd (by linarith)]
  · rcases hc.bound with hcs | rfl
    · rcases hd.bound with hds | rfl
      · exact hproduct (.inr (Nat.mul_le_mul hcs hds))
      · linarith [hpair hb hc (by linarith)]
    · linarith [hpair hb hd (by linarith)]

end AiPrReview.Numeric

import Mathlib

namespace CloudBurrow.Float64

def Holds (n : Nat) : Prop := ∃ m e, m < 2 ^ 53 ∧ n = m * 2 ^ e

def round (n : Nat) : Nat :=
  if n < 2 ^ 53 then n
  else
    let unit := 2 ^ (n.log2 - 52)
    let m := n / unit
    if unit < 2 * (n % unit) ∨ unit = 2 * (n % unit) ∧ m % 2 = 1 then (m + 1) * unit else m * unit

def mul (a b : Nat) : Nat := round (round a * round b)

section Rounding
variable {a b n : Nat}

theorem log2_ge (h : 2 ^ 53 ≤ n) : 53 ≤ n.log2 :=
  (Nat.le_log2 (by omega)).mpr h

theorem significand_bounds (h : 2 ^ 53 ≤ n) :
    2 ^ 52 ≤ n / 2 ^ (n.log2 - 52) ∧ n / 2 ^ (n.log2 - 52) < 2 ^ 53 := by
  have hne : n ≠ 0 := by omega
  have hlog := log2_ge h
  constructor
  · rw [Nat.le_div_iff_mul_le (by positivity), ← pow_add, Nat.add_sub_cancel' (by omega)]
    exact Nat.log2_self_le hne
  · rw [Nat.div_lt_iff_lt_mul (by positivity), ← pow_add]
    have hexp : 53 + (n.log2 - 52) = n.log2 + 1 := by omega
    rw [hexp]
    exact Nat.lt_log2_self

theorem holds_round (n : Nat) : Holds (round n) := by
  rw [round]
  split_ifs with hsmall
  · exact ⟨n, 0, hsmall, by simp⟩
  · obtain ⟨-, hlt⟩ := significand_bounds (not_lt.mp hsmall)
    simp only
    split_ifs
    · rcases Nat.lt_or_ge (n / 2 ^ (n.log2 - 52) + 1) (2 ^ 53) with hfits | hcarry
      · exact ⟨_, _, hfits, rfl⟩
      · -- all ones, so the carry is a power of two
        have hpow : n / 2 ^ (n.log2 - 52) + 1 = 2 ^ 52 * 2 := by omega
        refine ⟨2 ^ 52, n.log2 - 52 + 1, by norm_num, ?_⟩
        rw [hpow, Nat.mul_assoc, ← pow_succ']
    · exact ⟨_, _, hlt, rfl⟩

theorem round_eq_self (h : Holds n) : round n = n := by
  rw [round]
  split_ifs with hsmall
  · rfl
  · have hlarge := not_lt.mp hsmall
    have hlog := log2_ge hlarge
    obtain ⟨m, e, hm, rfl⟩ := h
    have hunit : (m * 2 ^ e).log2 - 52 ≤ e := by
      have hle := Nat.log2_self_le (n := m * 2 ^ e) (by omega)
      have hlt : m * 2 ^ e < 2 ^ (53 + e) := by
        rw [pow_add]
        exact Nat.mul_lt_mul_of_pos_right hm (by positivity)
      have hexp := (Nat.pow_lt_pow_iff_right (by norm_num)).mp (lt_of_le_of_lt hle hlt)
      omega
    have hdvd : 2 ^ ((m * 2 ^ e).log2 - 52) ∣ m * 2 ^ e :=
      Dvd.dvd.mul_left (pow_dvd_pow 2 hunit) m
    have hzero := Nat.mod_eq_zero_of_dvd hdvd
    have hpos : 0 < 2 ^ ((m * 2 ^ e).log2 - 52) := by positivity
    simp only [hzero, Nat.mul_zero]
    rw [if_neg (by omega), Nat.div_mul_cancel hdvd]

theorem holds_of_mul (h : Holds (a * b)) (hb : b ≠ 0) : Holds a := by
  rcases Nat.eq_zero_or_pos a with rfl | ha
  · exact ⟨0, 0, by norm_num, rfl⟩
  · obtain ⟨m, e, hm, hprod⟩ := h
    obtain ⟨i, odd, hodd, ha'⟩ := Nat.exists_eq_two_pow_mul_odd ha.ne'
    have hcoprime : Nat.Coprime odd (2 ^ e) := hodd.coprime_two_right.pow_right e
    have hdvd : odd ∣ m := by
      refine hcoprime.dvd_of_dvd_mul_right ?_
      rw [← hprod, ha']
      exact Dvd.dvd.mul_right (Dvd.intro_left _ rfl) b
    have hpos : 0 < m := by
      rcases Nat.eq_zero_or_pos m with rfl | hm'
      · rw [Nat.zero_mul] at hprod
        exact absurd hprod (Nat.mul_ne_zero ha.ne' hb)
      · exact hm'
    exact ⟨odd, i, lt_of_le_of_lt (Nat.le_of_dvd hpos hdvd) hm, by rw [ha', Nat.mul_comm]⟩

theorem mul_eq_iff : mul a b = a * b ↔ Holds (a * b) := by
  constructor
  · intro h
    rw [← h]
    exact holds_round _
  · intro h
    rcases Nat.eq_zero_or_pos a with rfl | ha
    · simp [mul, round]
    · rcases Nat.eq_zero_or_pos b with rfl | hb
      · simp [mul, round]
      · have hswap : Holds (b * a) := Nat.mul_comm a b ▸ h
        rw [mul, round_eq_self (holds_of_mul h hb.ne'), round_eq_self (holds_of_mul hswap ha.ne'),
          round_eq_self h]

end Rounding

def nearestEven (x : ℚ) : Int :=
  if 1 < 2 * (x - ⌊x⌋) ∨ 2 * (x - ⌊x⌋) = 1 ∧ ⌊x⌋ % 2 = 1 then ⌊x⌋ + 1 else ⌊x⌋

-- of a quotient that is neither too small nor too large for the format
def quotient (q : ℚ) : ℚ := nearestEven (q / 2 ^ (Int.log 2 q - 52)) * 2 ^ (Int.log 2 q - 52)

theorem nearestEven_le (x : ℚ) : nearestEven x ≤ x + 1 := by
  have hfloor := Int.floor_le x
  unfold nearestEven
  split_ifs
  · push_cast
    linarith
  · linarith

theorem quotient_le {q : ℚ} (h : 0 < q) : quotient q ≤ 2 * q := by
  have hunit : (2 : ℚ) ^ (Int.log 2 q - 52) ≤ q :=
    (zpow_le_zpow_right₀ (by norm_num) (sub_le_self _ (by norm_num))).trans (Int.zpow_log_le_self (by norm_num) h)
  have hpos : (0 : ℚ) < 2 ^ (Int.log 2 q - 52) := by positivity
  calc quotient q ≤ (q / 2 ^ (Int.log 2 q - 52) + 1) * 2 ^ (Int.log 2 q - 52) :=
        mul_le_mul_of_nonneg_right (nearestEven_le _) hpos.le
    _ = q + 2 ^ (Int.log 2 q - 52) := by rw [add_mul, div_mul_cancel₀ _ hpos.ne', one_mul]
    _ ≤ 2 * q := by linarith

end CloudBurrow.Float64

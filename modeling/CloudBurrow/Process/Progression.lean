import Mathlib

namespace CloudBurrow.Progression

def Term (next period t : Int) : Prop := ∃ k : ℕ, t = next + k * period

def firstAfter (next period now : Int) : Int :=
  if now < next then next else next + ((now - next) / period + 1) * period

def stepPast (period now : Int) (h : 0 < period) (next : Int) : Int :=
  if next ≤ now then stepPast period now h (next + period) else next
termination_by (now + 1 - next).toNat
decreasing_by omega

section Terms
variable {next period now t : Int}

theorem firstAfter_of_lt (h : now < next) : firstAfter next period now = next := if_pos h

theorem lt_firstAfter (hperiod : 0 < period) : now < firstAfter next period now := by
  rw [firstAfter]
  split_ifs with h
  · exact h
  · have hlt := Int.lt_ediv_add_one_mul_self (now - next) hperiod
    linarith

theorem firstAfter_le_add (hperiod : 0 < period) (h : next ≤ now) :
    firstAfter next period now ≤ now + period := by
  rw [firstAfter, if_neg (not_lt.mpr h)]
  have hle := Int.ediv_mul_le (now - next) hperiod.ne'
  linarith

theorem dvd_firstAfter_sub : period ∣ firstAfter next period now - next := by
  rw [firstAfter]
  split_ifs
  · rw [sub_self]
    exact dvd_zero period
  · rw [add_sub_cancel_left]
    exact dvd_mul_left period _

theorem next_le_firstAfter (hperiod : 0 < period) : next ≤ firstAfter next period now := by
  rw [firstAfter]
  split_ifs with h
  · exact le_refl next
  · have hquotient : 0 ≤ (now - next) / period := Int.ediv_nonneg (by linarith) hperiod.le
    have hjump : 0 ≤ ((now - next) / period + 1) * period :=
      mul_nonneg (by linarith) hperiod.le
    linarith

theorem term_of_dvd (hperiod : 0 < period) (hle : next ≤ t) (hdvd : period ∣ t - next) :
    Term next period t := by
  obtain ⟨k, hk⟩ := hdvd
  have hnonneg : 0 ≤ k := by
    by_contra hneg
    have hlt : period * k < 0 := mul_neg_of_pos_of_neg hperiod (not_le.mp hneg)
    linarith
  refine ⟨k.toNat, ?_⟩
  rw [Int.toNat_of_nonneg hnonneg, mul_comm]
  linarith

theorem Term.dvd (h : Term next period t) : period ∣ t - next := by
  obtain ⟨k, rfl⟩ := h
  rw [add_sub_cancel_left]
  exact dvd_mul_left period _

theorem eq_of_window {s t : Int} (hs : now < s ∧ s ≤ now + period) (ht : now < t ∧ t ≤ now + period)
    (hdvd : period ∣ s - t) : s = t := by
  have habs : |s - t| < period := by
    rw [abs_lt]
    omega
  have hzero := Int.eq_zero_of_abs_lt_dvd hdvd habs
  linarith

theorem isLeast_firstAfter (hperiod : 0 < period) :
    IsLeast {t | now < t ∧ Term next period t} (firstAfter next period now) := by
  refine ⟨⟨lt_firstAfter hperiod, ?_⟩, ?_⟩
  · exact term_of_dvd hperiod (next_le_firstAfter hperiod) dvd_firstAfter_sub
  · rintro t ⟨hlt, hterm⟩
    by_cases h : now < next
    · rw [firstAfter_of_lt h]
      obtain ⟨k, rfl⟩ := hterm
      have hjump : 0 ≤ (k : Int) * period := mul_nonneg (Int.natCast_nonneg k) hperiod.le
      linarith
    · by_contra hbefore
      -- an earlier term would be in the same period after `now`
      have hle := firstAfter_le_add hperiod (not_lt.mp h)
      have hdvd : period ∣ t - firstAfter next period now := by
        have hfirst : period ∣ firstAfter next period now - next := dvd_firstAfter_sub
        have hboth := dvd_sub hterm.dvd hfirst
        rwa [sub_sub_sub_cancel_right] at hboth
      have hsame : t = firstAfter next period now :=
        eq_of_window ⟨hlt, by linarith⟩ ⟨lt_firstAfter hperiod, hle⟩ hdvd
      exact hbefore (le_of_eq hsame.symm)

theorem eq_firstAfter_iff (hperiod : 0 < period) :
    IsLeast {t | now < t ∧ Term next period t} t ↔ t = firstAfter next period now :=
  ⟨fun h => h.unique (isLeast_firstAfter hperiod), fun h => h ▸ isLeast_firstAfter hperiod⟩

theorem firstAfter_of_window (hperiod : 0 < period) (hle : next ≤ now)
    (ht : now < t ∧ t ≤ now + period) : t = firstAfter next period now ↔ period ∣ t - next := by
  constructor
  · rintro rfl
    exact dvd_firstAfter_sub
  · intro hdvd
    have hfirst : period ∣ firstAfter next period now - next := dvd_firstAfter_sub
    have hboth := dvd_sub hdvd hfirst
    rw [sub_sub_sub_cancel_right] at hboth
    exact eq_of_window ht ⟨lt_firstAfter hperiod, firstAfter_le_add hperiod hle⟩ hboth

theorem stepPast_eq (hperiod : 0 < period) (next : Int) :
    stepPast period now hperiod next = firstAfter next period now := by
  induction next using stepPast.induct period now hperiod with
  | case1 next hle ih =>
    rw [stepPast, if_pos hle, ih]
    have hwindow : firstAfter (next + period) period now ≤ now + period := by
      by_cases h : now < next + period
      · rw [firstAfter_of_lt h]
        linarith
      · exact firstAfter_le_add hperiod (not_lt.mp h)
    have hdvd : period ∣ firstAfter (next + period) period now - (next + period) :=
      dvd_firstAfter_sub
    refine (firstAfter_of_window hperiod hle ⟨lt_firstAfter hperiod, hwindow⟩).mpr ?_
    have hstep := dvd_add hdvd (dvd_refl period)
    rwa [sub_add, add_sub_cancel_right] at hstep
  | case2 next hgt =>
    rw [stepPast, if_neg hgt, firstAfter_of_lt (not_le.mp hgt)]

end Terms

end CloudBurrow.Progression

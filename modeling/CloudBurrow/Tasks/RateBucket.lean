import CloudBurrow.Codec.Float64
import CloudBurrow.Process.CellRate

namespace CloudBurrow.Tasks

open CellRate

structure Pace where
  interval : Nat
  burst : Nat
  interval_pos : 0 < interval
  burst_pos : 0 < burst

def toleranceLimit : Nat := 2 ^ 61

def Pace.tolerance (p : Pace) : Nat := min (Float64.mul p.interval (p.burst - 1)) toleranceLimit

structure RateBucket where
  next : Nat := 0
deriving DecidableEq

def RateBucket.take (b : RateBucket) (p : Pace) (now : Nat) : Bool × RateBucket :=
  if now + p.tolerance < b.next then (false, b)
  else
    let next := if b.next < now then now else b.next
    (true, ⟨next + p.interval⟩)

def RateBucket.calls (p : Pace) : List Nat → RateBucket × List Nat :=
  List.foldl (fun s now =>
    match s.1.take p now with
    | (true, b) => (b, s.2 ++ [now])
    | (false, b) => (b, s.2)) ({}, [])

namespace Pace
variable (p : Pace)

def allowed (s t : Nat) : Nat := p.burst + (t - s) / p.interval

structure IsTokenBucket : Prop where
  bounded : ∀ ts : List Nat, ts.Pairwise (· ≤ ·) → ∀ s t, s ≤ t →
    Rate.within s t (RateBucket.calls p ts).2 ≤ p.allowed s t
  refuses : ∀ (ts : List Nat) (now : Nat), (ts ++ [now]).Pairwise (· ≤ ·) →
    ((RateBucket.calls p ts).1.take p now).1 = false →
    ∃ s ≤ now, p.allowed s now < Rate.within s now (RateBucket.calls p ts).2 + 1
  full : ∀ (ts : List Nat) (now : Nat), (ts ++ [now]).Pairwise (· ≤ ·) →
    (RateBucket.calls p ts).1.next ≤ now →
    (RateBucket.calls p (ts ++ List.replicate p.burst now)).2 =
      (RateBucket.calls p ts).2 ++ List.replicate p.burst now

def rate : Rate := ⟨p.interval, p.burst, p.tolerance, p.interval_pos, p.burst_pos⟩

variable {p}

theorem take_refused {b : RateBucket} {now : Nat} :
    (b.take p now).1 = false ↔ p.rate.take b.next now = none := by
  rw [Rate.take_eq_none, RateBucket.take]
  split_ifs with h
  · simp only [true_iff]
    exact h
  · simp only [false_iff]
    exact h

theorem calls_eq (ts : List Nat) :
    RateBucket.calls p ts = (⟨(p.rate.after ts).next⟩, (p.rate.after ts).grants) := by
  induction ts using List.reverseRecOn with
  | nil => rfl
  | append_singleton ts now ih =>
    rw [RateBucket.calls, List.foldl_append, ← RateBucket.calls, ih, Rate.after_snoc,
      List.foldl_cons, List.foldl_nil]
    by_cases h : now + p.tolerance < (p.rate.after ts).next
    · rw [Rate.call_refused h, RateBucket.take, if_pos h]
    · have hmax : (if (p.rate.after ts).next < now then now else (p.rate.after ts).next) =
          max (p.rate.after ts).next now := by
        split_ifs with hidle
        · exact (max_eq_right hidle.le).symm
        · exact (max_eq_left (not_lt.mp hidle)).symm
      rw [Rate.call_granted (not_lt.mp h), RateBucket.take, if_neg h]
      simp only [hmax]
      rfl

theorem isTokenBucket_iff_rate : p.IsTokenBucket ↔ p.rate.IsBucket := by
  constructor
  · intro h
    refine ⟨fun ts hts s t hst => ?_, fun ts now hts hnone => ?_, fun ts now hts hidle => ?_⟩
    · have hbounded := h.bounded ts hts s t hst
      rw [calls_eq] at hbounded
      exact hbounded
    · have hrefuses := h.refuses ts now hts (by rwa [take_refused, calls_eq])
      rw [calls_eq] at hrefuses
      exact hrefuses
    · have hfull := h.full ts now hts (by rwa [calls_eq])
      rw [calls_eq, calls_eq] at hfull
      exact hfull
  · intro h
    refine ⟨fun ts hts s t hst => ?_, fun ts now hts hfalse => ?_, fun ts now hts hidle => ?_⟩
    · rw [calls_eq]
      exact h.window ts hts s t hst
    · rw [take_refused, calls_eq] at hfalse
      rw [calls_eq]
      exact h.refusal ts now hts hfalse
    · rw [calls_eq] at hidle
      rw [calls_eq, calls_eq]
      exact h.idle ts now hts hidle

theorem tolerance_eq_iff : p.tolerance = (p.burst - 1) * p.interval ↔
      Float64.Holds ((p.burst - 1) * p.interval) ∧ (p.burst - 1) * p.interval ≤ 2 ^ 61 := by
  rw [tolerance, toleranceLimit, Nat.mul_comm (p.burst - 1)]
  constructor
  · intro h
    refine ⟨?_, h ▸ min_le_right _ _⟩
    rcases min_choice (Float64.mul p.interval (p.burst - 1)) (2 ^ 61) with hmin | hmin
    · rw [← h, hmin]
      exact Float64.holds_round _
    · rw [← h, hmin]
      exact ⟨1, 61, by norm_num, by norm_num⟩
  · rintro ⟨hholds, hle⟩
    rw [Float64.mul_eq_iff.mpr hholds, min_eq_left hle]

theorem isTokenBucket_iff (p : Pace) : p.IsTokenBucket ↔
      Float64.Holds ((p.burst - 1) * p.interval) ∧ (p.burst - 1) * p.interval ≤ 2 ^ 61 := by
  rw [isTokenBucket_iff_rate, Rate.isBucket_iff, ← tolerance_eq_iff]
  rfl

def fine : Pace := ⟨1, 2 ^ 53 + 2, by decide, by decide⟩

theorem fine_not_tokenBucket : ¬ fine.IsTokenBucket := by
  rw [isTokenBucket_iff_rate, Rate.isBucket_iff]
  decide

end Pace

inductive DispatchRate where
  | nan
  | inf (negative : Bool)
  | finite (perSecond : ℚ)

namespace DispatchRate

def maxInt32 : Nat := 2 ^ 31 - 1

def orDefault : DispatchRate → Option ℚ
  | .inf false => none
  | .finite q => some (if 0 < q then q else 500)
  | _ => some 500

def burstSize (rate : DispatchRate) : Nat :=
  match rate.orDefault with
  | none => maxInt32
  | some q => if maxInt32 < q then maxInt32 else max 1 ⌈q⌉₊

def interval (rate : DispatchRate) : Nat :=
  match rate.orDefault with
  | none => 1
  | some q => max 1 ⌊min (Float64.quotient (10 ^ 9 / q)) toleranceLimit⌋₊

theorem burstSize_pos (rate : DispatchRate) : 0 < rate.burstSize := by
  unfold burstSize
  split
  · decide
  · split_ifs
    · decide
    · exact Nat.lt_of_lt_of_le Nat.one_pos (le_max_left _ _)

theorem interval_pos (rate : DispatchRate) : 0 < rate.interval := by
  unfold interval
  split
  · decide
  · exact Nat.lt_of_lt_of_le Nat.one_pos (le_max_left _ _)

def pace (rate : DispatchRate) : Pace := ⟨rate.interval, rate.burstSize, rate.interval_pos, rate.burstSize_pos⟩

theorem orDefault_pos {rate : DispatchRate} {q : ℚ} (h : rate.orDefault = some q) : 0 < q := by
  cases rate with
  | nan => cases h; norm_num
  | inf negative => cases negative <;> cases h; norm_num
  | finite perSecond =>
    cases h
    split_ifs with hpos
    · exact hpos
    · norm_num

theorem burstSize_le (rate : DispatchRate) : rate.burstSize ≤ maxInt32 := by
  unfold burstSize
  split
  · exact le_rfl
  · split_ifs with hlarge
    · exact le_rfl
    · exact max_le (by decide) (Nat.ceil_le.mpr (not_lt.mp hlarge))

theorem burstSize_lt {rate : DispatchRate} {q : ℚ} (h : rate.orDefault = some q) : ((rate.burstSize - 1 : Nat) : ℚ) < q := by
  have hq := orDefault_pos h
  simp only [burstSize, h]
  split_ifs with hlarge
  · exact lt_of_le_of_lt (Nat.cast_le.mpr (Nat.sub_le _ _)) hlarge
  · rcases Nat.eq_zero_or_pos (⌈q⌉₊ - 1) with hzero | hpos
    · rw [show max 1 ⌈q⌉₊ - 1 = 0 by omega]
      exact_mod_cast hq
    · rw [show max 1 ⌈q⌉₊ - 1 = ⌈q⌉₊ - 1 by omega]
      exact Nat.lt_ceil.mp (by omega)

theorem interval_le {rate : DispatchRate} {q : ℚ} (h : rate.orDefault = some q) :
    (rate.interval : ℚ) ≤ 1 + 2 * (10 ^ 9 / q) := by
  have hq := orDefault_pos h
  have hpos : (0 : ℚ) < 10 ^ 9 / q := by positivity
  simp only [interval, h, Nat.cast_max, Nat.cast_one]
  refine max_le (by linarith) ?_
  rcases le_total 0 (min (Float64.quotient (10 ^ 9 / q)) (toleranceLimit : ℚ)) with hmin | hmin
  · have hfloor := (Nat.floor_le hmin).trans (min_le_left _ _)
    have hquotient := Float64.quotient_le hpos
    linarith
  · rw [Nat.floor_of_nonpos hmin, Nat.cast_zero]
    linarith

theorem tolerance_small (rate : DispatchRate) : (rate.burstSize - 1) * rate.interval < 2 ^ 53 := by
  have hburst := rate.burstSize_le
  cases h : rate.orDefault with
  | none =>
    have hone : rate.interval = 1 := by simp only [interval, h]
    rw [hone, Nat.mul_one]
    unfold maxInt32 at hburst
    omega
  | some q =>
    have hq := orDefault_pos h
    have hle : ((rate.burstSize - 1 : Nat) : ℚ) ≤ 2 ^ 31 := by
      unfold maxInt32 at hburst
      exact_mod_cast (show rate.burstSize - 1 ≤ 2 ^ 31 by omega)
    have hproduct : (((rate.burstSize - 1) * rate.interval : Nat) : ℚ) < 2 ^ 53 := by
      calc (((rate.burstSize - 1) * rate.interval : Nat) : ℚ)
          ≤ ((rate.burstSize - 1 : Nat) : ℚ) * (1 + 2 * (10 ^ 9 / q)) := by
            rw [Nat.cast_mul]
            exact mul_le_mul_of_nonneg_left (interval_le h) (Nat.cast_nonneg _)
        _ = ((rate.burstSize - 1 : Nat) : ℚ) + ((rate.burstSize - 1 : Nat) : ℚ) / q * (2 * 10 ^ 9) := by ring
        _ ≤ 2 ^ 31 + 1 * (2 * 10 ^ 9) := by
            gcongr
            exact (div_le_one hq).mpr (burstSize_lt h).le
        _ < 2 ^ 53 := by norm_num
    exact_mod_cast hproduct

theorem pace_isTokenBucket (rate : DispatchRate) : rate.pace.IsTokenBucket := by
  have hsmall := rate.tolerance_small
  exact (Pace.isTokenBucket_iff rate.pace).mpr ⟨⟨_, 0, hsmall, by simp [pace]⟩, hsmall.le.trans (by norm_num)⟩

end DispatchRate

end CloudBurrow.Tasks

import CloudBurrow.Process.Duration
import CloudBurrow.Process.Progression

namespace CloudBurrow.Kms

open ParseInt Duration Progression

inductive Refusal where
  | badRotationPeriod (d : Message)
  | rotationPeriodOutOfRange (period : Int)
  | badNextRotationTime (t : Timestamp)
  | nextRotationTimeNeeded
deriving DecidableEq

def hour : Int := 3600 * second

def minRotationPeriod : Int := 24 * hour

def maxRotationPeriod : Int := 876000 * hour

def rotationPeriodOf (P : Wellknown) : Option Message → Except Refusal Int
  | none => .ok 0
  | some d =>
    if !P.checkDuration d then .error (.badRotationPeriod d)
    else if P.asDuration d < minRotationPeriod ∨ maxRotationPeriod < P.asDuration d then
      .error (.rotationPeriodOutOfRange (P.asDuration d))
    else .ok (P.asDuration d)

def nextRotationOf (P : Wellknown) : Option Timestamp → Except Refusal Int
  | none => .ok 0
  | some t => if !P.checkTime t then .error (.badNextRotationTime t) else .ok (P.asTime t)

def checkSchedule (period next : Int) : Except Refusal Unit :=
  if 0 < period ∧ next = 0 then .error .nextRotationTimeNeeded else .ok ()

def advance (next period now : Int) : Int :=
  if h : 0 < period then
    let behind := saturate (now - next)
    let next := if 0 ≤ behind then next + wrap ((behind / period + 1) * period) else next
    stepPast period now h next
  else 0

structure Schedule (P : Wellknown) where
  rotationPeriod : Message
  nextRotationTime : Timestamp
  period : Int
  next : Int
  periodOf : rotationPeriodOf P (some rotationPeriod) = .ok period
  nextOf : nextRotationOf P (some nextRotationTime) = .ok next
  checked : checkSchedule period next = .ok ()

theorem period_bounds {P : Wellknown} {d : Message} {period : Int} (h : rotationPeriodOf P (some d) = .ok period) :
    minRotationPeriod ≤ period ∧ period ≤ maxRotationPeriod := by
  rw [rotationPeriodOf] at h
  split_ifs at h with hvalid hrange
  cases h
  push Not at hrange
  exact hrange

namespace Schedule
variable {P : Wellknown} (s : Schedule P)

theorem period_pos : 0 < s.period := by
  have hmin := (period_bounds s.periodOf).1
  rw [minRotationPeriod, hour, second] at hmin
  omega

theorem period_lt : s.period < 2 ^ 62 := by
  have hmax := (period_bounds s.periodOf).2
  rw [maxRotationPeriod, hour, second] at hmax
  omega

def Keeps (now : Int) : Prop :=
  IsLeast {t | now < t ∧ Term s.next s.period t} (advance s.next s.period now)

def jump (now : Int) : Int := ((now - s.next) / s.period + 1) * s.period

variable {s} {now : Int}

theorem advance_ahead (h : now < s.next) : advance s.next s.period now = firstAfter s.next s.period now := by
  have hbehind : ¬ 0 ≤ saturate (now - s.next) := not_le.mpr (saturate_neg (by omega))
  rw [advance, dif_pos s.period_pos]
  simp only [if_neg hbehind]
  exact stepPast_eq s.period_pos s.next

theorem advance_behind (h : s.next ≤ now) : advance s.next s.period now =
      firstAfter (s.next + wrap ((min (now - s.next) longest / s.period + 1) * s.period)) s.period now := by
  have hbehind : saturate (now - s.next) = min (now - s.next) longest := saturate_nonneg (by omega)
  have hnonneg : 0 ≤ min (now - s.next) longest := by
    rw [longest]
    omega
  rw [advance, dif_pos s.period_pos]
  simp only [hbehind, if_pos hnonneg]
  exact stepPast_eq s.period_pos _

theorem lt_jump : now - s.next < s.jump now := Int.lt_ediv_add_one_mul_self _ s.period_pos

theorem advance_within (h : s.next ≤ now) (hjump : s.jump now < 2 ^ 63) :
    advance s.next s.period now = firstAfter s.next s.period now := by
  have hlt : now - s.next < s.jump now := lt_jump
  have hmin : min (now - s.next) longest = now - s.next := by
    rw [longest]
    omega
  have hfits : Fits (s.jump now) := by
    unfold Fits
    omega
  rw [advance_behind h, hmin, ← jump, wrap_eq hfits, firstAfter_of_lt (by omega), firstAfter,
    if_neg (not_lt.mpr h), jump]

theorem advance_beyond (h : s.next ≤ now) (hjump : 2 ^ 63 ≤ s.jump now) :
    advance s.next s.period now = firstAfter s.next s.period now ↔ s.period ∣ 2 ^ 64 := by
  have hperiod := s.period_pos
  have hshort := s.period_lt
  rw [advance_behind h]
  generalize hspan : min (now - s.next) longest = span
  have hlower : span < (span / s.period + 1) * s.period := Int.lt_ediv_add_one_mul_self _ hperiod
  have hupper : (span / s.period + 1) * s.period ≤ span + s.period := by
    have hle := Int.ediv_mul_le span hperiod.ne'
    linarith
  have hlong : 2 ^ 63 ≤ (span / s.period + 1) * s.period := by
    rcases le_or_gt (now - s.next) longest with hle | hgt
    · rw [min_eq_left hle] at hspan
      rw [← hspan]
      exact hjump
    · rw [min_eq_right hgt.le, longest] at hspan
      omega
  have hspan_le : span ≤ 2 ^ 63 - 1 := hspan ▸ min_le_right _ _
  have hwrap : wrap ((span / s.period + 1) * s.period) =
      (span / s.period + 1) * s.period - 2 ^ 64 := wrap_over ⟨hlong, by omega⟩
  rw [hwrap]
  generalize hback : s.next + ((span / s.period + 1) * s.period - 2 ^ 64) = back
  have hle : back ≤ now := by omega
  have hdvd : s.period ∣ firstAfter back s.period now - back := dvd_firstAfter_sub
  have hwindow := firstAfter_of_window hperiod h ⟨lt_firstAfter hperiod, firstAfter_le_add hperiod hle⟩
  have hsplit : firstAfter back s.period now - s.next =
      (firstAfter back s.period now - back) + (span / s.period + 1) * s.period - 2 ^ 64 := by
    omega
  rw [hwindow, hsplit]
  exact dvd_sub_right (dvd_add hdvd (dvd_mul_left _ _))

theorem advance_keeps_schedule_iff (P : Wellknown) (s : Schedule P) (now : Int) :
    s.Keeps now ↔ now < s.next ∨ s.jump now < 2 ^ 63 ∨ s.period ∣ 2 ^ 64 := by
  rw [Keeps, eq_firstAfter_iff s.period_pos]
  by_cases h : now < s.next
  · exact iff_of_true (advance_ahead h) (Or.inl h)
  · by_cases hjump : s.jump now < 2 ^ 63
    · exact iff_of_true (advance_within (not_lt.mp h) hjump) (Or.inr (Or.inl hjump))
    · rw [advance_beyond (not_lt.mp h) (not_lt.mp hjump), or_iff_right h, or_iff_right hjump]

def daily : Schedule protobuf where
  rotationPeriod := ⟨86400, 0⟩
  nextRotationTime := ⟨946684800, 0⟩
  period := 86400 * second
  next := 63082281600 * second
  periodOf := by decide
  nextOf := by decide
  checked := by decide

theorem daily_off_schedule : ¬ daily.Keeps (72549388800 * second) := by
  rw [Keeps, eq_firstAfter_iff daily.period_pos, advance_behind (by decide)]
  decide

end Schedule

end CloudBurrow.Kms

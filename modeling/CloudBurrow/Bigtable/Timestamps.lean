import CloudBurrow.Process.Duration

namespace CloudBurrow.Bigtable

open ParseInt Duration

inductive DatePart where
  | nanosecond | microsecond | millisecond | second | minute | hour | day | week | month | quarter | year
  | dayOfWeek | dayOfYear | isoWeek | isoYear | date
deriving DecidableEq

inductive Refusal where
  | unsupportedDatePart (u : DatePart)
deriving DecidableEq

def unitDuration : DatePart → Except Refusal Int
  | .nanosecond => .ok 1
  | .microsecond => .ok 1000
  | .millisecond => .ok 1000000
  | .second => .ok Duration.second
  | .minute => .ok (60 * Duration.second)
  | .hour => .ok (3600 * Duration.second)
  | .day => .ok (24 * (3600 * Duration.second))
  | u => .error (.unsupportedDatePart u)

structure Timestamp where
  time : Int
  years : 0 ≤ time ∧ time < 315537897600 * Duration.second

structure Interval where
  n : Int
  unit : DatePart
  int64 : Fits n

def addInterval (t : Int) (iv : Interval) (sign : Int) : Except Refusal Int := do
  let u ← unitDuration iv.unit
  return t + wrap (wrap (sign * iv.n) * u)

def timestampAdd (t : Int) (iv : Interval) : Except Refusal Int := addInterval t iv 1

def timestampSub (t : Int) (iv : Interval) : Except Refusal Int := addInterval t iv (-1)

def timestampDiff (t t' : Int) (part : DatePart) : Except Refusal Int := do
  let d := saturate (t - t')
  let u ← unitDuration part
  return d.tdiv u

structure ExactOrRefused (t t' : Timestamp) (iv : Interval) : Prop where
  add : ∀ u r, unitDuration iv.unit = .ok u → timestampAdd t.time iv = .ok r → r = t.time + iv.n * u
  sub : ∀ u r, unitDuration iv.unit = .ok u → timestampSub t.time iv = .ok r → r = t.time - iv.n * u
  diff : ∀ u, unitDuration iv.unit = .ok u →
    timestampDiff t.time t'.time iv.unit = .ok ((t.time - t'.time).tdiv u)
  back : ∀ r, timestampAdd t.time iv = .ok r → timestampDiff r t.time iv.unit = .ok iv.n

structure Representable (t t' : Timestamp) (iv : Interval) (u : Int) : Prop where
  add : Fits (iv.n * u)
  sub : Fits (-(iv.n * u))
  diff : (-2 ^ 63 : Int).tdiv u ≤ (t.time - t'.time).tdiv u ∧ (t.time - t'.time).tdiv u ≤ longest.tdiv u

section Durations

variable {n u d : Int}

theorem fits_wrap (n : Int) : Fits (wrap n) := by
  have hle : -((2 ^ 64 : ℕ) / 2 : Int) ≤ n.bmod (2 ^ 64) := Int.le_bmod (by decide)
  have hlt : n.bmod (2 ^ 64) < (((2 ^ 64 : ℕ) : Int) + 1) / 2 := Int.bmod_lt (by decide)
  unfold Fits wrap
  omega

theorem wrap_eq_iff : wrap n = n ↔ Fits n := by
  constructor
  · intro h
    rw [← h]
    exact fits_wrap n
  · exact wrap_eq

theorem wrap_wrap_mul (n u : Int) : wrap (wrap n * u) = wrap (n * u) := Int.bmod_mul_bmod

theorem saturate_eq (h : Fits d) : saturate d = d := by
  unfold Fits at h
  rw [saturate, longest]
  omega

theorem saturate_tdiv_iff (hu : 0 < u) : (saturate d).tdiv u = d.tdiv u ↔
    (-2 ^ 63 : Int).tdiv u ≤ d.tdiv u ∧ d.tdiv u ≤ longest.tdiv u := by
  constructor
  · intro h
    rw [← h]
    have hleast : -2 ^ 63 ≤ saturate d := le_max_left _ _
    have hmost : saturate d ≤ longest := max_le (by decide) (min_le_right _ _)
    exact ⟨Int.tdiv_le_tdiv hu hleast, Int.tdiv_le_tdiv hu hmost⟩
  · rintro ⟨hleast, hmost⟩
    rcases lt_or_ge d (-2 ^ 63) with hlow | hlow
    · have heq : saturate d = -2 ^ 63 := by
        rw [saturate, longest]
        omega
      rw [heq]
      exact le_antisymm hleast (Int.tdiv_le_tdiv hu hlow.le)
    · rcases lt_or_ge longest d with hhigh | hhigh
      · have heq : saturate d = longest := by
          rw [longest] at hhigh
          rw [saturate, longest]
          omega
        rw [heq]
        exact le_antisymm (Int.tdiv_le_tdiv hu hhigh.le) hmost
      · have hfits : Fits d := by
          rw [longest] at hhigh
          unfold Fits
          omega
        rw [saturate_eq hfits]

theorem unitDuration_pos {part : DatePart} (h : unitDuration part = .ok u) : 0 < u := by
  cases part <;> cases h <;> decide

end Durations

section Exactness

variable {t : Int} {iv : Interval} {u : Int} (hu : unitDuration iv.unit = .ok u)

include hu

theorem timestampAdd_eq : timestampAdd t iv = .ok (t + wrap (iv.n * u)) := by
  rw [timestampAdd, addInterval, hu]
  change Except.ok (t + wrap (wrap (1 * iv.n) * u)) = _
  rw [wrap_wrap_mul, one_mul]

theorem timestampSub_eq : timestampSub t iv = .ok (t + wrap (-(iv.n * u))) := by
  rw [timestampSub, addInterval, hu]
  change Except.ok (t + wrap (wrap (-1 * iv.n) * u)) = _
  rw [wrap_wrap_mul, neg_one_mul, neg_mul]

theorem timestampDiff_eq {t' : Int} : timestampDiff t t' iv.unit = .ok ((saturate (t - t')).tdiv u) := by
  rw [timestampDiff, hu]
  rfl

theorem timestampDiff_add (hfits : Fits (iv.n * u)) : timestampDiff (t + iv.n * u) t iv.unit = .ok iv.n := by
  have hpos := unitDuration_pos hu
  rw [timestampDiff_eq hu, add_sub_cancel_left, saturate_eq hfits, Int.mul_tdiv_cancel _ hpos.ne']

end Exactness

theorem timestamp_arithmetic_exact_iff (t t' : Timestamp) (iv : Interval) :
    ExactOrRefused t t' iv ↔ ∀ u, unitDuration iv.unit = .ok u → Representable t t' iv u := by
  constructor
  · intro h u hu
    have hadd := h.add u _ hu (timestampAdd_eq hu)
    have hsub := h.sub u _ hu (timestampSub_eq hu)
    have hdiff := Except.ok.inj ((timestampDiff_eq hu).symm.trans (h.diff u hu))
    refine ⟨wrap_eq_iff.mp (by linarith), wrap_eq_iff.mp (by linarith), ?_⟩
    exact (saturate_tdiv_iff (unitDuration_pos hu)).mp hdiff
  · intro h
    constructor
    · intro u r hu hr
      rw [timestampAdd_eq hu, wrap_eq (h u hu).add] at hr
      exact (Except.ok.inj hr).symm
    · intro u r hu hr
      rw [timestampSub_eq hu, wrap_eq (h u hu).sub, ← sub_eq_add_neg] at hr
      exact (Except.ok.inj hr).symm
    · intro u hu
      rw [timestampDiff_eq hu, (saturate_tdiv_iff (unitDuration_pos hu)).mpr (h u hu).diff]
    · intro r hr
      cases hu : unitDuration iv.unit with
      | error e =>
        rw [timestampAdd, addInterval, hu] at hr
        cases hr
      | ok u =>
        rw [timestampAdd_eq hu, wrap_eq (h u hu).add] at hr
        cases hr
        exact timestampDiff_add hu (h u hu).add

def millennium : Timestamp := ⟨63082281600 * Duration.second, by decide⟩

def threeCenturies : Interval := ⟨109573, .day, by decide⟩

theorem three_centuries_wrapped : ¬ ExactOrRefused millennium millennium threeCenturies := by
  intro h
  have hadd := h.add _ _ rfl rfl
  exact absurd hadd (by decide)

end CloudBurrow.Bigtable

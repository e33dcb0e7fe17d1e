import CloudBurrow.Codec.ParseInt

namespace CloudBurrow.Duration

open ParseInt

def second : Int := 1000000000

def longest : Int := 2 ^ 63 - 1

def saturate (d : Int) : Int := max (-2 ^ 63) (min d longest)

structure Message where
  seconds : Int
  nanos : Int
deriving DecidableEq

def Message.exact (d : Message) : Int := d.seconds * second + d.nanos

structure Timestamp where
  seconds : Int
  nanos : Int
deriving DecidableEq

structure Wellknown where
  checkDuration : Message → Bool
  asDuration : Message → Int
  checkTime : Timestamp → Bool
  asTime : Timestamp → Int
  saturates : ∀ d, checkDuration d = true → asDuration d = saturate d.exact

def protobuf : Wellknown where
  checkDuration d := (-315576000000 ≤ d.seconds ∧ d.seconds ≤ 315576000000) ∧
    (-1000000000 < d.nanos ∧ d.nanos < 1000000000) ∧
    ¬ (0 < d.seconds ∧ d.nanos < 0) ∧ ¬ (d.seconds < 0 ∧ 0 < d.nanos)
  asDuration d := saturate d.exact
  checkTime t := (-62135596800 ≤ t.seconds ∧ t.seconds ≤ 253402300799) ∧ 0 ≤ t.nanos ∧ t.nanos < 1000000000
  asTime t := (t.seconds + 62135596800) * second + t.nanos
  saturates _ _ := rfl

section Saturation
variable {d : Int}

theorem saturate_nonneg (h : 0 ≤ d) : saturate d = min d longest := by
  rw [saturate, longest]
  omega

theorem saturate_neg (h : d < 0) : saturate d < 0 := by
  rw [saturate, longest]
  omega

theorem wrap_over (h : 2 ^ 63 ≤ d ∧ d < 2 ^ 64) : wrap d = d - 2 ^ 64 := by
  have hsub : wrap d = wrap (d - 2 ^ 64) := by
    rw [wrap, wrap]
    exact (Int.sub_bmod_right ..).symm
  rw [hsub, wrap_eq]
  unfold Fits
  omega

end Saturation

end CloudBurrow.Duration

import CloudBurrow.Codec.JsonText

namespace CloudBurrow.ParseInt
open Utf8 JsonText

def magnitude (digits : Bytes) : Nat := Nat.ofDigits 10 (digits.map fun d => d.toNat - 48).reverse

def unsigned (text : Bytes) : Option Nat :=
  if text ≠ [] ∧ text.all isDigit then some (magnitude text) else none

def signedText : Bytes → Option Int
  | 43 :: digits => (unsigned digits).map Int.ofNat
  | 45 :: digits => (unsigned digits).map fun n : Nat => -(n : Int)
  | digits => (unsigned digits).map Int.ofNat

def Fits (n : Int) : Prop := -2 ^ 63 ≤ n ∧ n < 2 ^ 63

instance (n : Int) : Decidable (Fits n) := inferInstanceAs (Decidable (_ ∧ _))

def parseInt (text : Bytes) : Option Int :=
  (signedText text).filter fun n => decide (Fits n)

def wrap (n : Int) : Int := n.bmod (2 ^ 64)

variable {n : Int}

theorem wrap_eq (h : Fits n) : wrap n = n := by
  unfold Fits at h
  exact Int.bmod_eq_of_le (by omega) (by omega)

variable {text : Bytes}

theorem fits_of_parseInt (h : parseInt text = some n) : Fits n := by
  simp only [parseInt, Option.filter_eq_some_iff, decide_eq_true_eq] at h
  exact h.2

theorem signedText_of_parseInt (h : parseInt text = some n) : signedText text = some n := by
  simp only [parseInt, Option.filter_eq_some_iff] at h
  exact h.1

theorem parseInt_nil : parseInt [] = none := rfl

theorem unsigned_decimal (n : Nat) : unsigned (decimal n) = some n := by
  obtain ⟨b, u, hbu, -, -⟩ := decimal_head n
  have hne : decimal n ≠ [] := by simp [hbu]
  have hall : (decimal n).all isDigit = true := List.all_eq_true.mpr (decimal_digits n)
  rw [unsigned, if_pos ⟨hne, hall⟩, magnitude, decimal_value]

theorem signedText_digit {b : UInt8} {u : Bytes} (hb : isDigit b = true) :
    signedText (b :: u) = (unsigned (b :: u)).map Int.ofNat := by
  have hplus : b ≠ 43 := by
    rintro rfl
    exact absurd hb (by decide)
  have hminus : b ≠ 45 := by
    rintro rfl
    exact absurd hb (by decide)
  unfold signedText
  split
  · simp_all
  · simp_all
  · rfl

theorem signedText_decimal (n : Nat) : signedText (decimal n) = some (n : Int) := by
  obtain ⟨b, u, hbu, hb, -⟩ := decimal_head n
  rw [hbu, signedText_digit hb, ← hbu, unsigned_decimal]
  rfl

theorem parseInt_decimal {n : Nat} (h : n < 2 ^ 63) : parseInt (decimal n) = some (n : Int) := by
  have hfits : Fits n := ⟨by omega, by exact_mod_cast h⟩
  simp [parseInt, signedText_decimal, hfits]

theorem nonneg_of_parseInt (hminus : 45 ∉ text) (h : parseInt text = some n) : 0 ≤ n := by
  have hs := signedText_of_parseInt h
  unfold signedText at hs
  split at hs
  · obtain ⟨m, -, rfl⟩ := Option.map_eq_some_iff.mp hs
    exact Int.natCast_nonneg m
  · exact absurd List.mem_cons_self hminus
  · obtain ⟨m, -, rfl⟩ := Option.map_eq_some_iff.mp hs
    exact Int.natCast_nonneg m

inductive Failure where
  | invalid | range
deriving DecidableEq

def scan : Nat → Bytes → Except Failure Nat
  | acc, [] => .ok acc
  | acc, d :: t =>
    if !isDigit d then .error .invalid
    else if 2 ^ 64 ≤ acc * 10 + (d.toNat - 48) then .error .range
    else scan (acc * 10 + (d.toNat - 48)) t

def parseUint (text : Bytes) : Except Failure Nat :=
  if text = [] then .error .invalid else scan 0 text

def clamp (negative : Bool) (n : Nat) : Int × Option Failure :=
  if !negative ∧ 2 ^ 63 ≤ n then (2 ^ 63 - 1, some .range)
  else if negative ∧ 2 ^ 63 < n then (-2 ^ 63, some .range)
  else (if negative then -(n : Int) else n, none)

def signOf : Bytes → Bool × Bytes
  | 43 :: digits => (false, digits)
  | 45 :: digits => (true, digits)
  | digits => (false, digits)

def parseInt64 (text : Bytes) : Int × Option Failure :=
  let (negative, digits) := signOf text
  match parseUint digits with
  | .error .invalid => (0, some .invalid)
  | .error .range => clamp negative (2 ^ 64 - 1)
  | .ok n => clamp negative n

theorem magnitude_cons (d : UInt8) (t : Bytes) :
    magnitude (d :: t) = (d.toNat - 48) * 10 ^ t.length + magnitude t := by
  simp only [magnitude, List.map_cons, List.reverse_cons, Nat.ofDigits_append, List.length_reverse,
    List.length_map, Nat.ofDigits_singleton]
  ring

theorem scan_ok {acc n : Nat} (hdigits : text.all isDigit = true)
    (hn : n = acc * 10 ^ text.length + magnitude text) (hsmall : n < 2 ^ 64) :
    scan acc text = .ok n := by
  induction text generalizing acc with
  | nil => simp [scan, hn, magnitude]
  | cons d t ih =>
    rw [List.all_cons, Bool.and_eq_true] at hdigits
    have hstep : n = (acc * 10 + (d.toNat - 48)) * 10 ^ t.length + magnitude t := by
      rw [hn, magnitude_cons, List.length_cons, pow_succ]
      ring
    have hle : acc * 10 + (d.toNat - 48) ≤ n := by
      rw [hstep]
      exact (Nat.le_mul_of_pos_right _ (by positivity)).trans (Nat.le_add_right _ _)
    rw [scan, if_neg (by simp [hdigits.1]), if_neg (by omega)]
    exact ih hdigits.2 hstep

theorem parseUint_ok {n : Nat} (h : unsigned text = some n) (hsmall : n < 2 ^ 64) : parseUint text = .ok n := by
  unfold unsigned at h
  split_ifs at h with htext
  rw [parseUint, if_neg htext.1]
  refine scan_ok htext.2 ?_ hsmall
  rw [zero_mul, zero_add]
  exact (Option.some.inj h).symm

theorem signedText_signOf (text : Bytes) : signedText text = (unsigned (signOf text).2).map fun n : Nat =>
      if (signOf text).1 then -(n : Int) else (n : Int) := by
  unfold signedText signOf
  split <;> rfl

theorem parseInt64_of_parseInt (h : parseInt text = some n) : parseInt64 text = (n, none) := by
  have hfits : -2 ^ 63 ≤ n ∧ n < 2 ^ 63 := fits_of_parseInt h
  have htext := signedText_of_parseInt h
  rw [signedText_signOf] at htext
  obtain ⟨m, hm, rfl⟩ := Option.map_eq_some_iff.mp htext
  simp only [parseInt64]
  cases hsign : (signOf text).1 with
  | false | true =>
    simp only [hsign] at hfits ⊢
    rw [parseUint_ok hm (by simp at hfits; omega)]
    simp only [clamp]
    simp at hfits ⊢
    omega

theorem scan_inv {acc n : Nat} (h : scan acc text = .ok n) :
    text.all isDigit = true ∧ n = acc * 10 ^ text.length + magnitude text := by
  induction text generalizing acc with
  | nil =>
    obtain rfl : acc = n := by simpa [scan] using h
    simp [magnitude]
  | cons d t ih =>
    rw [scan] at h
    split_ifs at h with hdigit hsmall
    obtain ⟨hdigits, hn⟩ := ih h
    refine ⟨by simpa [hdigits] using hdigit, ?_⟩
    rw [hn, magnitude_cons, List.length_cons, pow_succ]
    ring

theorem unsigned_of_parseUint {n : Nat} (h : parseUint text = .ok n) : unsigned text = some n := by
  unfold parseUint at h
  split_ifs at h with hnil
  obtain ⟨hdigits, hn⟩ := scan_inv h
  rw [unsigned, if_pos ⟨hnil, hdigits⟩, hn, zero_mul, zero_add]

theorem clamp_inv {negative : Bool} {m : Nat} (h : clamp negative m = (n, none)) :
    n = (if negative then -(m : Int) else (m : Int)) ∧ Fits n := by
  unfold clamp at h
  split_ifs at h with hbig hsmall hneg
  all_goals
    obtain ⟨rfl, herr⟩ := Prod.mk.inj h
  · cases herr
  · cases herr
  · have hm : (m : Int) ≤ 2 ^ 63 := by exact_mod_cast not_lt.mp fun hlt => hsmall ⟨hneg, hlt⟩
    exact ⟨(if_pos hneg).symm, by omega, by omega⟩
  · have hm : (m : Int) < 2 ^ 63 := by
      exact_mod_cast not_le.mp fun hle => hbig ⟨by simpa using hneg, hle⟩
    exact ⟨(if_neg hneg).symm, by omega, hm⟩

theorem parseInt64_ok_iff : parseInt64 text = (n, none) ↔ parseInt text = some n := by
  constructor
  · intro h
    simp only [parseInt64] at h
    cases hdigits : parseUint (signOf text).2 with
    | error e =>
      cases e with
      | invalid => simp [hdigits] at h
      | range =>
        simp only [hdigits] at h
        obtain ⟨hn, hlow, hhigh⟩ := clamp_inv h
        split_ifs at hn <;> omega
    | ok m =>
      simp only [hdigits] at h
      obtain ⟨hn, hfits⟩ := clamp_inv h
      rw [parseInt, signedText_signOf, unsigned_of_parseUint hdigits]
      simp [← hn, hfits]
  · exact parseInt64_of_parseInt

end CloudBurrow.ParseInt

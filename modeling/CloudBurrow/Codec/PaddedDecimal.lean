import CloudBurrow.Codec.ParseInt

namespace CloudBurrow.PaddedDecimal

open Utf8 JsonText ParseInt

def padded (width n : Nat) : Bytes := List.replicate (width - (decimal n).length) 48 ++ decimal n

theorem digit_range {d : UInt8} (h : isDigit d = true) : 48 ≤ d.toNat ∧ d.toNat ≤ 57 := by
  simpa [isDigit, inRange, UInt8.le_iff_toNat_le] using h

theorem mul_add_lt_iff {a b x y place : Nat} (hx : x < place) (hy : y < place) :
    a * place + x < b * place + y ↔ a < b ∨ a = b ∧ x < y := by
  rcases lt_trichotomy a b with hlt | rfl | hgt
  · have hstep : (a + 1) * place ≤ b * place := Nat.mul_le_mul_right place hlt
    rw [Nat.succ_mul] at hstep
    exact ⟨fun _ => Or.inl hlt, fun _ => by omega⟩
  · simp
  · have hstep : (b + 1) * place ≤ a * place := Nat.mul_le_mul_right place hgt
    rw [Nat.succ_mul] at hstep
    constructor <;> intro <;> omega

theorem magnitude_lt (u : Bytes) (h : ∀ d ∈ u, isDigit d = true) : magnitude u < 10 ^ u.length := by
  induction u with
  | nil => simp [magnitude]
  | cons d u ih =>
    have hd := digit_range (h d List.mem_cons_self)
    have hu := ih fun c hc => h c (List.mem_cons_of_mem d hc)
    rw [magnitude_cons, List.length_cons, pow_succ]
    have hmul : (d.toNat - 48) * 10 ^ u.length ≤ 9 * 10 ^ u.length :=
      Nat.mul_le_mul_right _ (by omega)
    omega

theorem lt_iff_magnitude_lt (u v : Bytes) (hu : ∀ d ∈ u, isDigit d = true)
    (hv : ∀ d ∈ v, isDigit d = true) (hlen : u.length = v.length) :
    u < v ↔ magnitude u < magnitude v := by
  induction u generalizing v with
  | nil =>
    rw [List.eq_nil_of_length_eq_zero hlen.symm]
    simp
  | cons c u ih =>
    obtain ⟨d, v, rfl⟩ := List.exists_cons_of_length_eq_add_one hlen.symm
    have hc := digit_range (hu c List.mem_cons_self)
    have hd := digit_range (hv d List.mem_cons_self)
    have hu' : ∀ e ∈ u, isDigit e = true := fun e he => hu e (List.mem_cons_of_mem c he)
    have hv' : ∀ e ∈ v, isDigit e = true := fun e he => hv e (List.mem_cons_of_mem d he)
    have hlen' : u.length = v.length := by simpa using hlen
    have hmu := magnitude_lt u hu'
    have hmv := magnitude_lt v hv'
    have hsame : c = d ↔ c.toNat - 48 = d.toNat - 48 := by
      rw [← UInt8.toNat_inj]
      omega
    rw [hlen'] at hmu
    rw [List.cons_lt_cons_iff, ih v hu' hv' hlen', magnitude_cons, magnitude_cons, hlen',
      mul_add_lt_iff hmu hmv, hsame, UInt8.lt_iff_toNat_lt]
    omega

theorem padded_digits (width n : Nat) : ∀ d ∈ padded width n, isDigit d = true := by
  intro d hd
  rcases List.mem_append.mp hd with hzero | hdecimal
  · rw [List.eq_of_mem_replicate hzero]
    rfl
  · exact decimal_digits n d hdecimal

theorem magnitude_padded (width n : Nat) : magnitude (padded width n) = n := by
  have hzeros (k : Nat) (u : Bytes) : magnitude (List.replicate k 48 ++ u) = magnitude u := by
    induction k with
    | zero => rfl
    | succ k ih => rw [List.replicate_succ, List.cons_append, magnitude_cons, ih]; simp
  rw [padded, hzeros, magnitude, decimal_value]

theorem length_decimal_le {width n : Nat} (hwidth : 0 < width) (h : n < 10 ^ width) :
    (decimal n).length ≤ width := by
  unfold decimal
  split_ifs with hzero
  · exact hwidth
  · rw [List.length_reverse, List.length_map]
    exact (Nat.digits_length_le_iff (by norm_num) n).mpr h

theorem length_padded {width n : Nat} (hwidth : 0 < width) (h : n < 10 ^ width) :
    (padded width n).length = width := by
  have hle := length_decimal_le hwidth h
  rw [padded, List.length_append, List.length_replicate]
  omega

theorem padded_lt_padded {width m n : Nat} (hwidth : 0 < width) (hm : m < 10 ^ width)
    (hn : n < 10 ^ width) : padded width m < padded width n ↔ m < n := by
  have hlen : (padded width m).length = (padded width n).length := by
    rw [length_padded hwidth hm, length_padded hwidth hn]
  rw [lt_iff_magnitude_lt _ _ (padded_digits width m) (padded_digits width n) hlen, magnitude_padded,
    magnitude_padded]

theorem valid_padded (width n : Nat) : Valid (padded width n) := by
  refine valid_ascii _ fun d hd => ?_
  have hrange := digit_range (padded_digits width n d hd)
  rw [UInt8.lt_iff_toNat_lt]
  exact lt_of_le_of_lt hrange.2 (by decide)

theorem padded_ne_nil (width n : Nat) : padded width n ≠ [] := by
  obtain ⟨b, u, hbu, -⟩ := decimal_head n
  simp [padded, hbu]

end CloudBurrow.PaddedDecimal

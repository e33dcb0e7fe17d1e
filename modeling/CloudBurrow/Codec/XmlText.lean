import CloudBurrow.Codec.Utf8

namespace CloudBurrow.XmlText
open Utf8

def outside : Bytes → Bool
  | [b] => decide (b < 0x20) && b != 9 && b != 10 && b != 13
  | c => c == [0xEF, 0xBF, 0xBE] || c == [0xEF, 0xBF, 0xBF]

def carryRune : Option Bytes → Bytes
  | none => replacement
  | some c => if outside c then replacement else c

def carry (s : Bytes) : Bytes := (runes s).flatMap carryRune

def Carried (s : Bytes) : Prop := carry s = s

instance (s : Bytes) : Decidable (Carried s) := inferInstanceAs (Decidable (_ = _))

theorem carry_invalid {b : UInt8} {t : Bytes} (h : width (b :: t) = 0) :
    carry (b :: t) = replacement ++ carry t := by
  simp [carry, runes_invalid h, carryRune]

theorem carry_chunk {c : Bytes} (hne : c ≠ []) (h : width c = c.length) (t : Bytes) :
    carry (c ++ t) = carryRune (some c) ++ carry t := by
  simp [carry, runes_chunk hne h]

theorem carry_replacement (t : Bytes) : carry (replacement ++ t) = replacement ++ carry t := by
  rw [carry_chunk (by simp [replacement]) (by decide)]
  rfl

theorem carry_carry (s : Bytes) : carry (carry s) = carry s := by
  induction s using runes_induction with
  | nil => rfl
  | invalid b t hw ih => rw [carry_invalid hw, carry_replacement, ih]
  | chunk c t hne hc ih =>
    rw [carry_chunk hne hc, carryRune]
    split_ifs with hout
    · rw [carry_replacement, ih]
    · rw [carry_chunk hne hc, carryRune, if_neg hout, ih]

theorem carried_carry (s : Bytes) : Carried (carry s) := carry_carry s

theorem valid_carry (s : Bytes) : Valid (carry s) := by
  induction s using runes_induction with
  | nil => simp [carry, Valid]
  | invalid b t hw ih =>
    rw [carry_invalid hw]
    exact (valid_chunk (by simp [replacement]) (by decide) _).mpr ih
  | chunk c t hne hc ih =>
    rw [carry_chunk hne hc, carryRune]
    split_ifs
    · exact (valid_chunk (by simp [replacement]) (by decide) _).mpr ih
    · exact (valid_chunk hne hc _).mpr ih

theorem Carried.toValid {s : Bytes} (h : Carried s) : toValid s = s := by
  have hvalid : Valid s := h ▸ valid_carry s
  exact toValid_of_valid s hvalid

end CloudBurrow.XmlText

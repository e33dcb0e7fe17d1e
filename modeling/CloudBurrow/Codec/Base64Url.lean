import CloudBurrow.Codec.Base64

namespace CloudBurrow.Base64Url

open Utf8
open Base64 (first middle last first_bits middle_bits last_bits lineBreak)

def digit (n : Nat) : UInt8 :=
  if n = 62 then 45
  else if n = 63 then 95
  else Base64.digit n

def value (c : UInt8) : Option Nat :=
  if c = 45 then some 62
  else if c = 95 then some 63
  else if c = 43 ∨ c = 47 then none
  else Base64.value c

def encode : Bytes → Bytes
  | [] => []
  | [a] => [digit (a.toNat / 4), digit (a.toNat % 4 * 16)]
  | [a, b] => [digit (a.toNat / 4), digit (a.toNat % 4 * 16 + b.toNat / 16), digit (b.toNat % 16 * 4)]
  | a :: b :: c :: t =>
    digit (a.toNat / 4) :: digit (a.toNat % 4 * 16 + b.toNat / 16) ::
      digit (b.toNat % 16 * 4 + c.toNat / 64) :: digit (c.toNat % 64) :: encode t

def decodeQuads : Bytes → Option Bytes
  | [] => some []
  | [_] => none
  | [a, b] => do
    let x ← value a
    let y ← value b
    some [first x y]
  | [a, b, c] => do
    let x ← value a
    let y ← value b
    let z ← value c
    some [first x y, middle y z]
  | a :: b :: c :: d :: t => do
    let x ← value a
    let y ← value b
    let z ← value c
    let w ← value d
    let r ← decodeQuads t
    some (first x y :: middle y z :: last z w :: r)

def decode (s : Bytes) : Option Bytes := decodeQuads (s.filter fun c => !lineBreak c)

theorem value_digit {n : Nat} (h : n < 64) : value (digit n) = some n := by
  revert n
  decide

theorem decodeQuads_encode (s : Bytes) : decodeQuads (encode s) = some s := by
  induction s using encode.induct with
  | case1 => rfl
  | case2 a =>
    have ha := a.toNat_lt
    have h := first_bits a 0 (by omega)
    simp only [encode, decodeQuads]
    rw [value_digit (by omega), value_digit (by omega)]
    simpa using h
  | case3 a b =>
    have ha := a.toNat_lt
    have hb := b.toNat_lt
    have h1 := first_bits a (b.toNat / 16) (by omega)
    have h2 := middle_bits (a.toNat % 4) b 0 (by omega)
    simp only [encode, decodeQuads]
    rw [value_digit (by omega), value_digit (by omega), value_digit (by omega)]
    simpa [h1] using h2
  | case4 a b c t ih =>
    have ha := a.toNat_lt
    have hb := b.toNat_lt
    have hc := c.toNat_lt
    have h1 := first_bits a (b.toNat / 16) (by omega)
    have h2 := middle_bits (a.toNat % 4) b (c.toNat / 64) (by omega)
    have h3 := last_bits (b.toNat % 16) c
    simp only [encode, decodeQuads]
    rw [value_digit (by omega), value_digit (by omega), value_digit (by omega), value_digit (by omega), ih]
    simp [h1, h2, h3]

theorem digit_not_lineBreak (n : Nat) : lineBreak (digit n) = false := by
  rcases Nat.lt_or_ge n 64 with hlt | hge
  · revert n
    decide
  · rw [digit, if_neg (by omega), if_neg (by omega), Base64.digit_of_ge hge]
    rfl

theorem encode_no_lineBreak (s : Bytes) : ∀ c ∈ encode s, lineBreak c = false := by
  induction s using encode.induct with
  | case4 a b c t ih => simpa [encode, digit_not_lineBreak] using ih
  | _ => simp [encode, digit_not_lineBreak]

theorem decode_encode (s : Bytes) : decode (encode s) = some s := by
  have h : (encode s).filter (fun c => !lineBreak c) = encode s := by
    rw [List.filter_eq_self]
    intro c hc
    simp [encode_no_lineBreak s c hc]
  rw [decode, h, decodeQuads_encode]

end CloudBurrow.Base64Url

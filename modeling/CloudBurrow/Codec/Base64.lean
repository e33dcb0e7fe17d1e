import CloudBurrow.Codec.Utf8

namespace CloudBurrow.Base64

open Utf8

def digit (n : Nat) : UInt8 :=
  if n < 26 then UInt8.ofNat (65 + n)
  else if n < 52 then UInt8.ofNat (71 + n)
  else if n < 62 then UInt8.ofNat (n - 4)
  else if n = 62 then 43
  else 47

def value (c : UInt8) : Option Nat :=
  if inRange 65 90 c then some (c.toNat - 65)
  else if inRange 97 122 c then some (c.toNat - 71)
  else if inRange 48 57 c then some (c.toNat + 4)
  else if c = 43 then some 62
  else if c = 47 then some 63
  else none

def pad : UInt8 := 61

def encode : Bytes → Bytes
  | [] => []
  | [a] => [digit (a.toNat / 4), digit (a.toNat % 4 * 16), pad, pad]
  | [a, b] =>
    [digit (a.toNat / 4), digit (a.toNat % 4 * 16 + b.toNat / 16), digit (b.toNat % 16 * 4), pad]
  | a :: b :: c :: t =>
    digit (a.toNat / 4) :: digit (a.toNat % 4 * 16 + b.toNat / 16) ::
      digit (b.toNat % 16 * 4 + c.toNat / 64) :: digit (c.toNat % 64) :: encode t

def first (x y : Nat) : UInt8 := UInt8.ofNat (x * 4 + y / 16)

def middle (y z : Nat) : UInt8 := UInt8.ofNat (y % 16 * 16 + z / 4)

def last (z w : Nat) : UInt8 := UInt8.ofNat (z % 4 * 64 + w)

def decodeQuads : Bytes → Option Bytes
  | [] => some []
  | a :: b :: c :: d :: t => do
    let x ← value a
    let y ← value b
    if c = pad then
      if d = pad ∧ t = [] then some [first x y] else none
    else
      let z ← value c
      if d = pad then
        if t = [] then some [first x y, middle y z] else none
      else
        let w ← value d
        let r ← decodeQuads t
        some (first x y :: middle y z :: last z w :: r)
  | _ => none

def lineBreak (c : UInt8) : Bool := c == 10 || c == 13

def decode (s : Bytes) : Option Bytes := decodeQuads (s.filter fun c => !lineBreak c)

theorem value_digit {n : Nat} (h : n < 64) : value (digit n) = some n := by
  revert n
  decide

theorem digit_ne_pad {n : Nat} (h : n < 64) : digit n ≠ pad := by
  revert n
  decide

theorem first_bits (a : UInt8) (k : Nat) (hk : k < 16) : first (a.toNat / 4) (a.toNat % 4 * 16 + k) = a := by
  have h : a.toNat / 4 * 4 + (a.toNat % 4 * 16 + k) / 16 = a.toNat := by omega
  rw [first, h, UInt8.ofNat_toNat]

theorem middle_bits (j : Nat) (b : UInt8) (k : Nat) (hk : k < 4) :
    middle (j * 16 + b.toNat / 16) (b.toNat % 16 * 4 + k) = b := by
  have hb := b.toNat_lt
  have h : (j * 16 + b.toNat / 16) % 16 * 16 + (b.toNat % 16 * 4 + k) / 4 = b.toNat := by omega
  rw [middle, h, UInt8.ofNat_toNat]

theorem last_bits (j : Nat) (c : UInt8) : last (j * 4 + c.toNat / 64) (c.toNat % 64) = c := by
  have hc := c.toNat_lt
  have h : (j * 4 + c.toNat / 64) % 4 * 64 + c.toNat % 64 = c.toNat := by omega
  rw [last, h, UInt8.ofNat_toNat]

theorem decodeQuads_encode (s : Bytes) : decodeQuads (encode s) = some s := by
  induction s using encode.induct with
  | case1 => rfl
  | case2 a =>
    have ha := a.toNat_lt
    have h := first_bits a 0 (by omega)
    simp only [encode, decodeQuads]
    rw [value_digit (by omega), value_digit (by omega)]
    simpa using h
  | case3 a b =>
    have ha := a.toNat_lt
    have hb := b.toNat_lt
    have h1 := first_bits a (b.toNat / 16) (by omega)
    have h2 := middle_bits (a.toNat % 4) b 0 (by omega)
    simp only [encode, decodeQuads]
    rw [value_digit (by omega), value_digit (by omega), value_digit (by omega)]
    simpa [digit_ne_pad (show b.toNat % 16 * 4 < 64 by omega), h1] using h2
  | case4 a b c t ih =>
    have ha := a.toNat_lt
    have hb := b.toNat_lt
    have hc := c.toNat_lt
    have h1 := first_bits a (b.toNat / 16) (by omega)
    have h2 := middle_bits (a.toNat % 4) b (c.toNat / 64) (by omega)
    have h3 := last_bits (b.toNat % 16) c
    have h4 := digit_ne_pad (show b.toNat % 16 * 4 + c.toNat / 64 < 64 by omega)
    have h5 := digit_ne_pad (show c.toNat % 64 < 64 by omega)
    simp only [encode, decodeQuads]
    rw [value_digit (by omega), value_digit (by omega), value_digit (by omega), value_digit (by omega), ih]
    simp [h1, h2, h3, h4, h5]

theorem digit_of_ge {n : Nat} (h : 64 ≤ n) : digit n = 47 := by
  unfold digit
  rw [if_neg (by omega), if_neg (by omega), if_neg (by omega), if_neg (by omega)]

theorem digit_forall {P : UInt8 → Prop} (h : ∀ n < 64, P (digit n)) (n : Nat) : P (digit n) := by
  rcases Nat.lt_or_ge n 64 with hlt | hge
  · exact h n hlt
  · rw [digit_of_ge hge]
    exact h 63 (by decide)

theorem encode_forall {P : UInt8 → Prop} (hdigit : ∀ n < 64, P (digit n)) (hpad : P pad)
    (s : Bytes) : ∀ c ∈ encode s, P c := by
  induction s using encode.induct with
  | case4 a b c t ih => simpa [encode, digit_forall hdigit] using ih
  | _ => simp [encode, digit_forall hdigit, hpad]

theorem encode_no_lineBreak (s : Bytes) : ∀ c ∈ encode s, lineBreak c = false :=
  encode_forall (by decide) (by decide) s

theorem encode_ascii (s : Bytes) : ∀ c ∈ encode s, c < 0x80 :=
  encode_forall (by decide) (by decide) s

theorem decode_encode (s : Bytes) : decode (encode s) = some s := by
  have h : (encode s).filter (fun c => !lineBreak c) = encode s := by
    rw [List.filter_eq_self]
    intro c hc
    simp [encode_no_lineBreak s c hc]
  rw [decode, h, decodeQuads_encode]

theorem length_encode (s : Bytes) : (encode s).length = 4 * ((s.length + 2) / 3) := by
  induction s using encode.induct with
  | case1 => rfl
  | case2 a => simp [encode]
  | case3 a b => simp [encode]
  | case4 a b c t ih =>
    simp only [encode, List.length_cons, ih]
    omega

end CloudBurrow.Base64

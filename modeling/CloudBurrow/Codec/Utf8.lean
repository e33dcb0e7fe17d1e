import Mathlib

namespace CloudBurrow.Utf8

abbrev Bytes := List UInt8

instance instLawfulBEqBytes : LawfulBEq Bytes := inferInstance

def ascii (s : String) : Bytes := s.toList.map fun c => UInt8.ofNat c.toNat

def inRange (lo hi b : UInt8) : Bool := decide (lo ≤ b) && decide (b ≤ hi)

def upperByte (b : UInt8) : UInt8 := if inRange 97 122 b then b - 32 else b

-- of the letters outside ASCII, which keep their case here, ı and ſ have their upper case in it
def toUpper : Bytes → Bytes
  | 0xC4 :: 0xB1 :: rest => 73 :: toUpper rest
  | 0xC5 :: 0xBF :: rest => 83 :: toUpper rest
  | b :: rest => upperByte b :: toUpper rest
  | [] => []

-- and the Kelvin sign and ſ fold to letters in it
def folded : Bytes → Bytes
  | 0xE2 :: 0x84 :: 0xAA :: rest => 75 :: folded rest
  | 0xC5 :: 0xBF :: rest => 83 :: folded rest
  | b :: rest => upperByte b :: folded rest
  | [] => []

def equalFold (s t : Bytes) : Bool := folded s = folded t

def continuation (b : UInt8) : Bool := inRange 0x80 0xBF b

def leadSize (b : UInt8) : Nat :=
  if b < 0x80 then 1
  else if b < 0xC2 then 0
  else if b < 0xE0 then 2
  else if b < 0xF0 then 3
  else if b < 0xF5 then 4
  else 0

def second (lead b : UInt8) : Bool :=
  if lead = 0xE0 then inRange 0xA0 0xBF b
  else if lead = 0xED then inRange 0x80 0x9F b
  else if lead = 0xF0 then inRange 0x90 0xBF b
  else if lead = 0xF4 then inRange 0x80 0x8F b
  else continuation b

def width : Bytes → Nat
  | [] => 0
  | b :: t =>
    match leadSize b, t with
    | 1, _ => 1
    | 2, b1 :: _ => if second b b1 then 2 else 0
    | 3, b1 :: b2 :: _ => if second b b1 && continuation b2 then 3 else 0
    | 4, b1 :: b2 :: b3 :: _ =>
      if second b b1 && continuation b2 && continuation b3 then 4 else 0
    | _, _ => 0

theorem width_le_length (s : Bytes) : width s ≤ s.length := by
  unfold width
  split
  · simp
  · rename_i b t
    split <;> simp <;> split <;> omega

theorem width_ascii {b : UInt8} (h : b < 0x80) (t : Bytes) : width (b :: t) = 1 := by
  simp [width, leadSize, h]

theorem width_append {c : Bytes} (h : width c ≠ 0) (r : Bytes) : width (c ++ r) = width c := by
  cases c with
  | nil => simp [width] at h
  | cons b t =>
    revert h
    simp only [List.cons_append, width]
    rcases t with _ | ⟨b1, _ | ⟨b2, _ | ⟨b3, t⟩⟩⟩ <;>
      rcases hb : leadSize b with _ | _ | _ | _ | _ | n <;> simp

theorem width_take (s : Bytes) : width (s.take (width s)) = width s := by
  cases s with
  | nil => rfl
  | cons b t =>
    simp only [width]
    rcases t with _ | ⟨b1, _ | ⟨b2, _ | ⟨b3, t⟩⟩⟩ <;>
      rcases hb : leadSize b with _ | _ | _ | _ | _ | n <;> simp [hb] <;>
      split_ifs <;> simp_all

theorem continuation_high {b : UInt8} (h : continuation b = true) : 0x80 ≤ b := by
  simp only [continuation, inRange, Bool.and_eq_true, decide_eq_true_eq] at h
  exact h.1

theorem second_high {lead b : UInt8} (h : second lead b = true) : 0x80 ≤ b := by
  have hrange : ∀ lo hi : UInt8, 0x80 ≤ lo → inRange lo hi b = true → 0x80 ≤ b := by
    intro lo hi hlo hin
    simp only [inRange, Bool.and_eq_true, decide_eq_true_eq] at hin
    exact UInt8.le_trans hlo hin.1
  unfold second at h
  split_ifs at h
  · exact hrange _ _ (by decide) h
  · exact hrange _ _ (by decide) h
  · exact hrange _ _ (by decide) h
  · exact hrange _ _ (by decide) h
  · exact continuation_high h

theorem chunk_high {b : UInt8} {u : Bytes} (hu : u ≠ [])
    (hw : width (b :: u) = (b :: u).length) : ∀ c ∈ b :: u, 0x80 ≤ c := by
  have hlead : 0x80 ≤ b := by
    by_contra h
    rw [width_ascii (UInt8.not_le.mp h), List.length_cons] at hw
    exact hu (List.length_eq_zero_iff.mp (by omega))
  have hrest : ∀ c ∈ u, 0x80 ≤ c := by
    revert hw
    simp only [width]
    rcases u with _ | ⟨b1, _ | ⟨b2, _ | ⟨b3, t⟩⟩⟩ <;> rcases leadSize b with _ | _ | _ | _ | _ | n <;> simp
    · exact second_high
    · split_ifs <;> simp
    · exact fun h2 h3 => ⟨second_high h2, continuation_high h3⟩
    · split_ifs <;> simp
    · split_ifs <;> simp
    · split_ifs with h
      · intro ht
        obtain rfl : t = [] := List.length_eq_zero_iff.mp (by omega)
        exact ⟨second_high h.1.1, continuation_high h.1.2, continuation_high h.2, by simp⟩
      · simp
  exact List.forall_mem_cons.mpr ⟨hlead, hrest⟩

def runesFrom : Nat → Bytes → List (Option Bytes)
  | _, [] => []
  | k + 1, _ :: t => runesFrom k t
  | 0, b :: t =>
    match width (b :: t) with
    | 0 => none :: runesFrom 0 t
    | w + 1 => some ((b :: t).take (w + 1)) :: runesFrom w t

def runes (s : Bytes) : List (Option Bytes) := runesFrom 0 s

def replacement : Bytes := [0xEF, 0xBF, 0xBD]

def toValid (s : Bytes) : Bytes := (runes s).flatMap fun r => r.getD replacement

def Valid (s : Bytes) : Prop := none ∉ runes s

instance (s : Bytes) : Decidable (Valid s) := inferInstanceAs (Decidable (¬ _))

theorem runesFrom_drop (k : Nat) (s : Bytes) : runesFrom k s = runes (s.drop k) := by
  induction k generalizing s with
  | zero => simp [runes]
  | succ k ih =>
    cases s with
    | nil => rfl
    | cons b t => simpa [runesFrom] using ih t

@[simp] theorem runes_nil : runes [] = [] := rfl

theorem runes_invalid {b : UInt8} {t : Bytes} (h : width (b :: t) = 0) :
    runes (b :: t) = none :: runes t := by
  simp [runes, runesFrom, h]

theorem runes_chunk {c : Bytes} (hne : c ≠ []) (h : width c = c.length) (t : Bytes) :
    runes (c ++ t) = some c :: runes t := by
  obtain ⟨b, u, rfl⟩ := List.exists_cons_of_ne_nil hne
  have hw : width (b :: (u ++ t)) = u.length + 1 := by
    rw [← List.cons_append, width_append (by simp [h]), h, List.length_cons]
  simp only [List.cons_append]
  rw [runes, runesFrom, hw]
  simp [runesFrom_drop]

theorem runes_induction {P : Bytes → Prop} (nil : P [])
    (invalid : ∀ b t, width (b :: t) = 0 → P t → P (b :: t))
    (chunk : ∀ c t, c ≠ [] → width c = c.length → P t → P (c ++ t)) (s : Bytes) : P s := by
  induction hn : s.length using Nat.strong_induction_on generalizing s with
  | _ n ih =>
    cases s with
    | nil => exact nil
    | cons b t =>
      by_cases hw : width (b :: t) = 0
      · exact invalid b t hw (ih t.length (by simp [← hn]) t rfl)
      · have hle := width_le_length (b :: t)
        have hc := chunk ((b :: t).take (width (b :: t))) ((b :: t).drop (width (b :: t)))
          (by simpa using hw) (by rw [width_take, List.length_take]; omega)
          (ih _ (by simp [← hn] at hle ⊢; omega) _ rfl)
        simpa using hc

theorem toValid_of_valid (s : Bytes) : Valid s → toValid s = s := by
  induction s using runes_induction with
  | nil => intro _; rfl
  | invalid b t hw ih => simp [Valid, runes_invalid hw]
  | chunk c t hne hc ih =>
    simp only [Valid, toValid, runes_chunk hne hc, List.mem_cons, not_or, List.flatMap_cons, Option.getD_some]
    rintro ⟨-, h⟩
    rw [← toValid, ih h]

theorem valid_ascii (s : Bytes) (h : ∀ b ∈ s, b < 0x80) : Valid s := by
  induction s with
  | nil => simp [Valid]
  | cons b t ih =>
    obtain ⟨hb, ht⟩ := List.forall_mem_cons.mp h
    have hr := runes_chunk (c := [b]) (by simp) (width_ascii hb []) t
    rw [List.singleton_append] at hr
    simpa [Valid, hr] using ih ht

theorem valid_chunk {c : Bytes} (hne : c ≠ []) (hc : width c = c.length) (t : Bytes) :
    Valid (c ++ t) ↔ Valid t := by
  simp [Valid, runes_chunk hne hc]

theorem valid_toValid (s : Bytes) : Valid (toValid s) := by
  induction s using runes_induction with
  | nil => simp [toValid, Valid]
  | invalid b t hw ih =>
    have h : toValid (b :: t) = replacement ++ toValid t := by
      simp [toValid, runes_invalid hw]
    rw [h]
    exact (valid_chunk (by simp [replacement]) (by decide) _).mpr ih
  | chunk c t hne hc ih =>
    have h : toValid (c ++ t) = c ++ toValid t := by
      simp [toValid, runes_chunk hne hc]
    rw [h]
    exact (valid_chunk hne hc _).mpr ih

theorem toValid_eq_self {s : Bytes} : toValid s = s ↔ Valid s :=
  ⟨fun h => h ▸ valid_toValid s, toValid_of_valid s⟩

@[simp] theorem toValid_toValid (s : Bytes) : toValid (toValid s) = toValid s :=
  toValid_of_valid _ (valid_toValid s)

theorem valid_append {s : Bytes} (t : Bytes) : Valid s → (Valid (s ++ t) ↔ Valid t) := by
  induction s using runes_induction with
  | nil => intro _; rfl
  | invalid b u hw ih =>
    intro h
    simp [Valid, runes_invalid hw] at h
  | chunk c u hne hc ih =>
    intro h
    rw [List.append_assoc, valid_chunk hne hc]
    exact ih ((valid_chunk hne hc u).mp h)

end CloudBurrow.Utf8

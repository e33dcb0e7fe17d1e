import CloudBurrow.Codec.Words
import CloudBurrow.Process.Undo

namespace CloudBurrow.Kms

open Utf8 Words Undo

abbrev Cipher := Equiv.Perm (UInt64 × UInt64)

inductive KwpError where
  | keyLength
  | badLength
  | badIntegrityValue
  | badLengthIndicator
  | badPadding
deriving DecidableEq

def integrityValue (length : Nat) : UInt64 := .ofNat (0xA65959A6 * 2 ^ 32 + length % 2 ^ 32)

section Passes
variable (cipher : Cipher)

def wrapPass : Nat → UInt64 → List UInt64 → UInt64 × List UInt64
  | _, a, [] => (a, [])
  | t, a, r :: rs =>
    let b := cipher (a, r)
    let out := wrapPass (t + 1) (b.1 ^^^ .ofNat (t + 1)) rs
    (out.1, b.2 :: out.2)

def unwrapPass : Nat → UInt64 → List UInt64 → UInt64 × List UInt64
  | _, a, [] => (a, [])
  | t, a, r :: rs =>
    let out := unwrapPass (t + 1) a rs
    let b := cipher.symm (out.1 ^^^ .ofNat (t + 1), r)
    (b.1, b.2 :: out.2)

theorem unwrapPass_wrapPass (t : Nat) (a : UInt64) (rs : List UInt64) :
    unwrapPass cipher t (wrapPass cipher t a rs).1 (wrapPass cipher t a rs).2 = (a, rs) := by
  induction rs generalizing t a with
  | nil => rfl
  | cons r rs ih => simp [wrapPass, unwrapPass, ih]

theorem wrapPass_unwrapPass (t : Nat) (a : UInt64) (rs : List UInt64) :
    wrapPass cipher t (unwrapPass cipher t a rs).1 (unwrapPass cipher t a rs).2 = (a, rs) := by
  induction rs generalizing t a with
  | nil => rfl
  | cons r rs ih => simp [wrapPass, unwrapPass, ih]

theorem length_wrapPass (t : Nat) (a : UInt64) (rs : List UInt64) :
    (wrapPass cipher t a rs).2.length = rs.length := by
  induction rs generalizing t a with
  | nil => rfl
  | cons r rs ih => rw [wrapPass, List.length_cons, ih, List.length_cons]

theorem length_unwrapPass (t : Nat) (a : UInt64) (rs : List UInt64) :
    (unwrapPass cipher t a rs).2.length = rs.length := by
  induction rs generalizing t a with
  | nil => rfl
  | cons r rs ih => rw [unwrapPass, List.length_cons, ih, List.length_cons]

def wrapRounds (n : Nat) : UInt64 × List UInt64 → UInt64 × List UInt64 :=
  run (fun j s => wrapPass cipher (n * j) s.1 s.2) (List.range 6)

def unwrapRounds (n : Nat) : UInt64 × List UInt64 → UInt64 × List UInt64 :=
  run (fun j s => unwrapPass cipher (n * j) s.1 s.2) (List.range 6).reverse

theorem unwrapRounds_wrapRounds (n : Nat) (s : UInt64 × List UInt64) :
    unwrapRounds cipher n (wrapRounds cipher n s) = s :=
  run_undone (fun j s => unwrapPass_wrapPass cipher (n * j) s.1 s.2) _ s

theorem wrapRounds_unwrapRounds (n : Nat) (s : UInt64 × List UInt64) :
    wrapRounds cipher n (unwrapRounds cipher n s) = s :=
  run_redone (fun j s => wrapPass_unwrapPass cipher (n * j) s.1 s.2) _ s

theorem length_wrapRounds (n : Nat) (s : UInt64 × List UInt64) :
    (wrapRounds cipher n s).2.length = s.2.length := by
  refine run_keeps (P := fun s' : UInt64 × List UInt64 => s'.2.length = s.2.length) (fun j s' hs' => ?_) rfl
  rw [length_wrapPass, hs']

theorem length_unwrapRounds (n : Nat) (s : UInt64 × List UInt64) :
    (unwrapRounds cipher n s).2.length = s.2.length := by
  refine run_keeps (P := fun s' : UInt64 × List UInt64 => s'.2.length = s.2.length) (fun j s' hs' => ?_) rfl
  rw [length_unwrapPass, hs']

end Passes

section Wrapping
variable (cipher : Cipher)

def wrapBlocks (n : Nat) (a : UInt64) : List UInt64 → UInt64 × List UInt64
  | [r] => ((cipher (a, r)).1, [(cipher (a, r)).2])
  | rs => wrapRounds cipher n (a, rs)

def unwrapBlocks (n : Nat) (a : UInt64) : List UInt64 → UInt64 × List UInt64
  | [r] => ((cipher.symm (a, r)).1, [(cipher.symm (a, r)).2])
  | rs => unwrapRounds cipher n (a, rs)

def wrapKWP (p : Bytes) : Except KwpError Bytes :=
  if p.length = 0 ∨ 2 ^ 32 - 1 < p.length then .error .keyLength
  else
    let n := (p.length + 7) / 8
    let s := wrapBlocks cipher n (integrityValue p.length) (words n p)
    .ok (bytes (s.1 :: s.2))

def unwrapKWP (c : Bytes) : Except KwpError Bytes :=
  if c.length < 16 ∨ c.length % 8 ≠ 0 then .error .badLength
  else
    let n := c.length / 8 - 1
    let s := unwrapBlocks cipher n (word c) (words n (c.drop 8))
    let mli := s.1.toNat % 2 ^ 32
    if s.1.toNat / 2 ^ 32 ≠ 0xA65959A6 then .error .badIntegrityValue
    else if n * 8 < mli ∨ mli ≤ (n - 1) * 8 then .error .badLengthIndicator
    else if ((bytes s.2).drop mli).any (· ≠ 0) then .error .badPadding
    else .ok ((bytes s.2).take mli)

variable {cipher}

theorem wrapBlocks_of_ne {n : Nat} {a : UInt64} {rs : List UInt64} (h : rs.length ≠ 1) :
    wrapBlocks cipher n a rs = wrapRounds cipher n (a, rs) := by
  rw [wrapBlocks]
  rintro r rfl
  exact h rfl

theorem unwrapBlocks_of_ne {n : Nat} {a : UInt64} {rs : List UInt64} (h : rs.length ≠ 1) :
    unwrapBlocks cipher n a rs = unwrapRounds cipher n (a, rs) := by
  rw [unwrapBlocks]
  rintro r rfl
  exact h rfl

theorem length_wrapBlocks (n : Nat) (a : UInt64) (rs : List UInt64) :
    (wrapBlocks cipher n a rs).2.length = rs.length := by
  by_cases h : rs.length = 1
  · obtain ⟨r, rfl⟩ := List.length_eq_one_iff.mp h
    rfl
  · rw [wrapBlocks_of_ne h, length_wrapRounds]

theorem length_unwrapBlocks (n : Nat) (a : UInt64) (rs : List UInt64) :
    (unwrapBlocks cipher n a rs).2.length = rs.length := by
  by_cases h : rs.length = 1
  · obtain ⟨r, rfl⟩ := List.length_eq_one_iff.mp h
    rfl
  · rw [unwrapBlocks_of_ne h, length_unwrapRounds]

theorem unwrapBlocks_wrapBlocks (n : Nat) (a : UInt64) (rs : List UInt64) :
    unwrapBlocks cipher n (wrapBlocks cipher n a rs).1 (wrapBlocks cipher n a rs).2 = (a, rs) := by
  by_cases h : rs.length = 1
  · obtain ⟨r, rfl⟩ := List.length_eq_one_iff.mp h
    simp [wrapBlocks, unwrapBlocks]
  · have hlength : (wrapBlocks cipher n a rs).2.length ≠ 1 := by
      rwa [length_wrapBlocks]
    rw [unwrapBlocks_of_ne hlength, wrapBlocks_of_ne h, unwrapRounds_wrapRounds]

theorem wrapBlocks_unwrapBlocks (n : Nat) (a : UInt64) (rs : List UInt64) :
    wrapBlocks cipher n (unwrapBlocks cipher n a rs).1 (unwrapBlocks cipher n a rs).2 = (a, rs) := by
  by_cases h : rs.length = 1
  · obtain ⟨r, rfl⟩ := List.length_eq_one_iff.mp h
    simp [wrapBlocks, unwrapBlocks]
  · have hlength : (unwrapBlocks cipher n a rs).2.length ≠ 1 := by
      rwa [length_unwrapBlocks]
    rw [wrapBlocks_of_ne hlength, unwrapBlocks_of_ne h, wrapRounds_unwrapRounds]

theorem integrityValue_high (length : Nat) : (integrityValue length).toNat / 2 ^ 32 = 0xA65959A6 := by
  rw [integrityValue, UInt64.toNat_ofNat']
  omega

theorem integrityValue_low {length : Nat} (h : length ≤ 2 ^ 32 - 1) :
    (integrityValue length).toNat % 2 ^ 32 = length := by
  rw [integrityValue, UInt64.toNat_ofNat']
  omega

theorem eq_integrityValue {a : UInt64} (h : a.toNat / 2 ^ 32 = 0xA65959A6) :
    integrityValue (a.toNat % 2 ^ 32) = a := by
  have ha := a.toNat_lt
  rw [← UInt64.toNat_inj, integrityValue, UInt64.toNat_ofNat']
  omega

theorem unwrapKWP_wrapKWP {p : Bytes} (hne : p ≠ []) (hle : p.length ≤ 2 ^ 32 - 1) :
    ∃ c, wrapKWP cipher p = .ok c ∧ unwrapKWP cipher c = .ok p := by
  have hpos : 0 < p.length := List.length_pos_iff.mpr hne
  generalize hn : (p.length + 7) / 8 = n
  generalize hs : wrapBlocks cipher n (integrityValue p.length) (words n p) = s
  have hlength : s.2.length = n := by
    rw [← hs, length_wrapBlocks, length_words]
  refine ⟨bytes (s.1 :: s.2), ?_, ?_⟩
  · rw [wrapKWP, if_neg (by omega)]
    simp only [hn, hs]
  · have hbytes : (bytes (s.1 :: s.2)).length = 8 * (n + 1) := by
      rw [length_bytes, List.length_cons, hlength]
    have hregisters : (bytes (s.1 :: s.2)).length / 8 - 1 = n := by
      rw [hbytes]
      omega
    have hword : word (bytes (s.1 :: s.2)) = s.1 := word_bigEndian _ _
    have hwords : words n ((bytes (s.1 :: s.2)).drop 8) = s.2 := by
      rw [bytes, List.flatMap_cons, ← bytes, List.drop_left' (length_bigEndian s.1), ← hlength, words_bytes]
    have hopen : unwrapBlocks cipher n s.1 s.2 = (integrityValue p.length, words n p) := by
      rw [← hs, unwrapBlocks_wrapBlocks]
    have hpadded : bytes (words n p) = p ++ List.replicate (8 * n - p.length) 0 :=
      bytes_words (by omega)
    rw [unwrapKWP, if_neg (by omega)]
    simp only [hregisters, hword, hwords, hopen, integrityValue_high, integrityValue_low hle, hpadded, ne_eq, not_true_eq_false,
      if_false, List.drop_left, List.take_left]
    rw [if_neg (by omega), if_neg (by simp)]

theorem wrapKWP_unwrapKWP {c p : Bytes} (h : unwrapKWP cipher c = .ok p) : wrapKWP cipher p = .ok c := by
  rw [unwrapKWP] at h
  split_ifs at h with hlength
  simp only at h
  generalize hn : c.length / 8 - 1 = n at h
  generalize hs : unwrapBlocks cipher n (word c) (words n (c.drop 8)) = s at h
  split_ifs at h with hintegrity hindicator hpadding
  generalize hmli : s.1.toNat % 2 ^ 32 = mli at h hindicator hpadding
  cases h
  have hregisters : s.2.length = n := by
    rw [← hs, length_unwrapBlocks, length_words]
  have hbytes : (bytes s.2).length = 8 * n := by
    rw [length_bytes, hregisters]
  have hp : ((bytes s.2).take mli).length = mli := by
    rw [List.length_take]
    omega
  have hzeros : (bytes s.2).drop mli = List.replicate (8 * n - mli) 0 := by
    refine List.eq_replicate_iff.mpr ⟨?_, fun b hb => ?_⟩
    · rw [List.length_drop, hbytes]
    · by_contra hb'
      exact hpadding (List.any_eq_true.mpr ⟨b, hb, by simpa using hb'⟩)
  have hwords : words n ((bytes s.2).take mli) = s.2 := by
    rw [← words_zeros n (8 * n - mli), ← hzeros, List.take_append_drop, ← hregisters, words_bytes]
  have hsealed : wrapBlocks cipher n s.1 s.2 = (word c, words n (c.drop 8)) := by
    rw [← hs, wrapBlocks_unwrapBlocks]
  have hvalue : integrityValue mli = s.1 := by
    rw [← hmli]
    exact eq_integrityValue (not_not.mp hintegrity)
  have hcount : (mli + 7) / 8 = n := by omega
  rw [wrapKWP, hp, if_neg (by omega)]
  simp only [hcount, hwords, hvalue, hsealed]
  refine congrArg Except.ok ?_
  exact bytes_words_exact (n := n + 1) (s := c) (by omega)

theorem keyWrap_bijective (cipher : Cipher) : (∀ p : Bytes, p ≠ [] → p.length ≤ 2 ^ 32 - 1 →
      ∃ c, wrapKWP cipher p = .ok c ∧ unwrapKWP cipher c = .ok p) ∧
    (∀ c p : Bytes, unwrapKWP cipher c = .ok p → wrapKWP cipher p = .ok c) ∧
    (∀ c c' p : Bytes, unwrapKWP cipher c = .ok p → unwrapKWP cipher c' = .ok p → c = c') := by
  refine ⟨fun p => unwrapKWP_wrapKWP, fun c p => wrapKWP_unwrapKWP, fun c c' p hc hc' => ?_⟩
  have hsame := (wrapKWP_unwrapKWP hc).symm.trans (wrapKWP_unwrapKWP hc')
  exact Except.ok.inj hsame

theorem keyWrap_bijective_short : ∃ c, wrapKWP (Equiv.prodComm _ _) (ascii "a twenty-byte secret") = .ok c ∧
    unwrapKWP (Equiv.prodComm _ _) c = .ok (ascii "a twenty-byte secret") :=
  (keyWrap_bijective (Equiv.prodComm _ _)).1 (ascii "a twenty-byte secret") (by decide) (by decide)

theorem wrapKWP_long {p : Bytes} (h : 2 ^ 32 ≤ p.length) : wrapKWP cipher p = .error .keyLength := by
  rw [wrapKWP, if_pos (by omega)]

theorem keyWrap_too_long : ∃ p : Bytes, p.length = 2 ^ 32 ∧ wrapKWP (Equiv.refl _) p = .error .keyLength := by
  have hlength : (List.replicate (2 ^ 32) (0 : UInt8)).length = 2 ^ 32 := List.length_replicate
  exact ⟨_, hlength, wrapKWP_long hlength.ge⟩

end Wrapping

end CloudBurrow.Kms

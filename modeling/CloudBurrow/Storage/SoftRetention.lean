import CloudBurrow.Codec.JsonDoc
import CloudBurrow.Storage.Versions

namespace CloudBurrow.Storage.Fields

open Utf8 JsonText ParseInt JsonDoc

def numberString : Option Doc → Bytes
  | some (.str s) => s
  | some (.num x) => x.text
  | _ => []

def objectAt (f : Members) (k : String) : Option Members :=
  match f.get (ascii k) with
  | some (.obj p) => some p
  | _ => none

def fieldAt (f : Members) (k field : String) : Option Doc :=
  (objectAt f k).bind fun p => p.get (ascii field)

def seconds (n : Int) : Int := wrap (n * Storage.second)

def minSoftRetention : Int := 604800 * Storage.second

def maxSoftRetention : Int := 7776000 * Storage.second

def softRetention (f : Members) : Time :=
  seconds (parseInt64 (numberString (fieldAt f "softDeletePolicy" "retentionDurationSeconds"))).1

def softRetentionError (s : Bytes) : HttpError :=
  badRequest (ascii "Invalid argument: softDeletePolicy.retentionDurationSeconds " ++ quote s ++
    ascii " must be 0, or between 604800 (7 days) and 7776000 (90 days)")

def checkSoftDeletePolicy (f : Members) : Except HttpError Members :=
  match objectAt f "softDeletePolicy" with
  | none => .ok f
  | some p =>
    match p.get (ascii "retentionDurationSeconds") with
    | none => .ok f
    | some .null => .ok f
    | some v =>
      let s := numberString (some v)
      let (n, err) := parseInt64 s
      let d := seconds n
      if err.isSome ∨ n ≠ 0 ∧ (d < minSoftRetention ∨ maxSoftRetention < d) then
        .error (softRetentionError s)
      else
        .ok (f.set (ascii "softDeletePolicy")
          (.obj (p.set (ascii "retentionDurationSeconds") (.str (integer n)))))

section Denotation

def Denotes : Doc → Int → Prop
  | .str s, n => signedText s = some n
  | .num x, n => x.value = n
  | _, _ => False

def Admissible (n : Int) : Prop := n = 0 ∨ 604800 ≤ n ∧ n ≤ 7776000

def WrapsInto (n : Int) : Prop :=
  Fits n ∧ ∃ k : Int, k ≠ 0 ∧ minSoftRetention ≤ n * Storage.second + k * 2 ^ 64 ∧
    n * Storage.second + k * 2 ^ 64 ≤ maxSoftRetention

def Plain (x : Number) : Prop := x.fraction = [] ∧ x.exponent = none

def signedWhole (x : Number) : Int := if x.negative then -x.whole else x.whole

theorem value_of_plain {x : Number} (h : Plain x) : x.value = signedWhole x := by
  obtain ⟨hfraction, hexponent⟩ := h
  simp only [Number.value, hfraction, hexponent, signedWhole]
  split_ifs <;> simp [Nat.ofDigits]

theorem text_of_plain {x : Number} (h : Plain x) : signedText x.text = some (signedWhole x) := by
  obtain ⟨hfraction, hexponent⟩ := h
  have hunsigned : x.unsignedText = decimal x.whole := by
    simp [Number.unsignedText, hfraction, hexponent]
  cases hneg : x.negative with
  | false => simp [Number.text, hneg, hunsigned, signedText_decimal, signedWhole]
  | true => simp [Number.text, hneg, hunsigned, signedText, unsigned_decimal, signedWhole]

theorem isDigit_of_unsigned {text : Bytes} {n : Nat} (h : unsigned text = some n) :
    ∀ b ∈ text, isDigit b = true := by
  unfold unsigned at h
  split_ifs at h with htext
  exact List.all_eq_true.mp htext.2

theorem signedText_chars {text : Bytes} {n : Int} (h : signedText text = some n) :
    ∀ b ∈ text, isDigit b = true ∨ b = 43 ∨ b = 45 := by
  intro b hb
  unfold signedText at h
  split at h
  · obtain ⟨m, hm, -⟩ := Option.map_eq_some_iff.mp h
    rcases List.mem_cons.mp hb with rfl | hb
    · exact Or.inr (Or.inl rfl)
    · exact Or.inl (isDigit_of_unsigned hm b hb)
  · obtain ⟨m, hm, -⟩ := Option.map_eq_some_iff.mp h
    rcases List.mem_cons.mp hb with rfl | hb
    · exact Or.inr (Or.inr rfl)
    · exact Or.inl (isDigit_of_unsigned hm b hb)
  · obtain ⟨m, hm, -⟩ := Option.map_eq_some_iff.mp h
    exact Or.inl (isDigit_of_unsigned hm b hb)

theorem text_of_not_plain {x : Number} (h : ¬ Plain x) : signedText x.text = none := by
  have hmark : ∃ b ∈ x.text, b = 46 ∨ b = 69 ∨ b = 101 := by
    have hsub : ∀ b ∈ x.unsignedText, b ∈ x.text := by
      intro b hb
      unfold Number.text
      split_ifs
      · exact List.mem_cons_of_mem _ hb
      · exact hb
    by_cases hfraction : x.fraction = []
    · cases hexponent : x.exponent with
      | none => exact absurd ⟨hfraction, hexponent⟩ h
      | some e =>
        refine ⟨if e.upper then 69 else 101, hsub _ ?_, ?_⟩
        · simp [Number.unsignedText, hfraction, hexponent, Exponent.text]
        · split_ifs <;> simp
    · exact ⟨46, hsub _ (by simp [Number.unsignedText, hfraction]), Or.inl rfl⟩
  obtain ⟨b, hb, hcases⟩ := hmark
  cases htext : signedText x.text with
  | none => rfl
  | some n =>
    have hchar := signedText_chars htext b hb
    rcases hcases with rfl | rfl | rfl
    all_goals exact absurd hchar (by decide)

theorem denotes_of_text {v : Doc} {n : Int} (h : signedText (numberString (some v)) = some n) :
    Denotes v n := by
  cases v with
  | str s => exact h
  | num x =>
    by_cases hplain : Plain x
    · obtain rfl : signedWhole x = n := Option.some.inj ((text_of_plain hplain).symm.trans h)
      exact value_of_plain hplain
    · exact absurd ((text_of_not_plain hplain).symm.trans h) (by simp)
  | null | bool b | arr items | obj m => exact absurd h (by simp [numberString, signedText, unsigned])

theorem text_of_denotes {v : Doc} {n : Int} (hplain : ∀ x, v = .num x → Plain x)
    (h : Denotes v n) : signedText (numberString (some v)) = some n := by
  cases v with
  | str s => exact h
  | num x =>
    have hx := hplain x rfl
    have hvalue : x.value = n := h
    rw [value_of_plain hx] at hvalue
    obtain rfl : signedWhole x = n := by exact_mod_cast hvalue
    exact text_of_plain hx
  | null | bool b | arr items | obj m => exact h.elim

theorem denotes_inj {v : Doc} {n m : Int} (hn : Denotes v n) (hm : Denotes v m) : n = m := by
  cases v with
  | str s => exact Option.some.inj (Eq.trans (Eq.symm hn) hm)
  | num x =>
    have hvalue : (n : ℚ) = m := Eq.trans (Eq.symm hn) hm
    exact_mod_cast hvalue
  | null | bool b | arr items | obj p => exact hn.elim

end Denotation

section Wrapping
variable {n : Int}

theorem second_eq : Storage.second = (1000000000 : Int) := rfl

theorem fits_of_admissible (h : Admissible n) : Fits n := by
  unfold Admissible at h
  unfold Fits
  omega

theorem not_wrapsInto_of_admissible (h : Admissible n) : ¬ WrapsInto n := by
  rintro ⟨-, k, hk, hlow, hhigh⟩
  simp only [Admissible, minSoftRetention, maxSoftRetention, second_eq] at h hlow hhigh
  omega

theorem seconds_of_admissible (h : Admissible n) : seconds n = n * Storage.second := by
  unfold Admissible at h
  refine wrap_eq ⟨?_, ?_⟩
  all_goals
    simp only [second_eq]
    omega

theorem seconds_between_iff (hfits : Fits n) :
    (n = 0 ∨ minSoftRetention ≤ seconds n ∧ seconds n ≤ maxSoftRetention) ↔ Admissible n ∨ WrapsInto n := by
  constructor
  · rintro (rfl | ⟨hlow, hhigh⟩)
    · exact Or.inl (Or.inl rfl)
    · have hsplit : seconds n = n * Storage.second + -((n * Storage.second).bdiv (2 ^ 64)) * 2 ^ 64 := by
        have hdiv := Int.bmod_add_bdiv (n * Storage.second) (2 ^ 64)
        have hcast : ((2 ^ 64 : Nat) : Int) = 2 ^ 64 := by norm_num
        rw [hcast] at hdiv
        rw [seconds, wrap]
        linarith
      rw [hsplit] at hlow hhigh
      by_cases hzero : -((n * Storage.second).bdiv (2 ^ 64)) = 0
      · refine Or.inl (Or.inr ?_)
        rw [hzero] at hlow hhigh
        simp only [minSoftRetention, maxSoftRetention, second_eq] at hlow hhigh
        omega
      · exact Or.inr ⟨hfits, _, hzero, hlow, hhigh⟩
  · rintro (hadm | ⟨-, k, -, hlow, hhigh⟩)
    · rw [seconds_of_admissible hadm]
      rcases hadm with hzero | hbounds
      · exact Or.inl hzero
      · right
        simp only [minSoftRetention, maxSoftRetention, second_eq]
        omega
    · have hwrap : seconds n = n * Storage.second + k * 2 ^ 64 := by
        have hcancel : seconds n = wrap (n * Storage.second + k * 2 ^ 64) := by
          have hcast : (2 ^ 64 : Int) = ((2 ^ 64 : Nat) : Int) := by norm_num
          rw [seconds, wrap, wrap, hcast, Int.add_mul_bmod_self_right]
        rw [hcancel]
        refine wrap_eq ⟨?_, ?_⟩
        · simp only [minSoftRetention, second_eq] at hlow ⊢
          omega
        · simp only [maxSoftRetention, second_eq] at hhigh ⊢
          omega
      rw [hwrap]
      exact Or.inr ⟨hlow, hhigh⟩

end Wrapping

section Matching

def Accepts (f : Members) : Prop := ∃ f', checkSoftDeletePolicy f = .ok f'

def Sets (f : Members) (v : Doc) : Prop :=
  fieldAt f "softDeletePolicy" "retentionDurationSeconds" = some v

structure RetentionMatches (v : Doc) : Prop where
  accepted : ∀ f, Sets f v → (Accepts f ↔ ∃ n, Denotes v n ∧ Admissible n)
  kept : ∀ f f', Sets f v → checkSoftDeletePolicy f = .ok f' → ∀ n, Denotes v n →
    ∀ (b : BucketRecord) (o : ObjectRecord) (t : Time), b.softRetention = softRetention f' →
      discard b o t =
        if n = 0 then pure ()
        else appendVersion .softdeleted b.name o.name
          { o with
            softDeleted := t, hardDelete := t + n * Storage.second,
            bucketGeneration := b.generation }

structure Exact (v : Doc) : Prop where
  notNull : v ≠ .null
  notWrapped : ∀ n, signedText (numberString (some v)) = some n → ¬ WrapsInto n
  plain : ∀ x, v = .num x → ¬ Plain x → ∀ n : Int, x.value = n → ¬ Admissible n

variable {f f' : Members} {v : Doc} {n : Int}

theorem exists_of_sets (h : Sets f v) : ∃ p, objectAt f "softDeletePolicy" = some p ∧
    p.get (ascii "retentionDurationSeconds") = some v :=
  Option.bind_eq_some_iff.mp h

theorem checkSoftDeletePolicy_eq (h : Sets f v) (hnull : v ≠ .null) : ∃ p : Members, checkSoftDeletePolicy f =
      if (parseInt64 (numberString (some v))).2.isSome ∨
          (parseInt64 (numberString (some v))).1 ≠ 0 ∧
            (seconds (parseInt64 (numberString (some v))).1 < minSoftRetention ∨
              maxSoftRetention < seconds (parseInt64 (numberString (some v))).1) then
        .error (softRetentionError (numberString (some v)))
      else
        .ok (f.set (ascii "softDeletePolicy") (.obj (p.set (ascii "retentionDurationSeconds")
          (.str (integer (parseInt64 (numberString (some v))).1))))) := by
  obtain ⟨p, hp, hv⟩ := exists_of_sets h
  exact ⟨p, by simp only [checkSoftDeletePolicy, hp, hv]⟩

theorem checkSoftDeletePolicy_ok (h : Sets f v) (hnull : v ≠ .null) (hok : checkSoftDeletePolicy f = .ok f') :
    ∃ n, parseInt (numberString (some v)) = some n ∧
      (n = 0 ∨ minSoftRetention ≤ seconds n ∧ seconds n ≤ maxSoftRetention) ∧
        fieldAt f' "softDeletePolicy" "retentionDurationSeconds" = some (.str (integer n)) := by
  obtain ⟨p, heq⟩ := checkSoftDeletePolicy_eq h hnull
  obtain ⟨n, hn⟩ : ∃ n, (parseInt64 (numberString (some v))).1 = n := ⟨_, rfl⟩
  rw [heq, hn] at hok
  split_ifs at hok with hbad
  push Not at hbad
  obtain ⟨herr, hrange⟩ := hbad
  have hparse : parseInt64 (numberString (some v)) = (n, none) :=
    Prod.ext hn (by simpa using herr)
  refine ⟨n, parseInt64_ok_iff.mp hparse, ?_, ?_⟩
  · by_cases hzero : n = 0
    · exact Or.inl hzero
    · exact Or.inr (hrange hzero)
  · obtain rfl := Except.ok.inj hok
    simp [fieldAt, objectAt, Members.get_set]

theorem accepts_null (h : Sets f .null) : Accepts f := by
  obtain ⟨p, hp, hv⟩ := exists_of_sets h
  exact ⟨f, by simp only [checkSoftDeletePolicy, hp, hv]⟩

theorem accepts_of_parseInt (h : Sets f v) (hn : parseInt (numberString (some v)) = some n)
    (hrange : n = 0 ∨ minSoftRetention ≤ seconds n ∧ seconds n ≤ maxSoftRetention) :
    Accepts f := by
  have hnull : v ≠ .null := by
    rintro rfl
    exact absurd hn (by simp [numberString, parseInt_nil])
  obtain ⟨p, heq⟩ := checkSoftDeletePolicy_eq h hnull
  rw [parseInt64_ok_iff.mpr hn, if_neg] at heq
  · exact ⟨_, heq⟩
  · simp only [Option.isSome_none, Bool.false_eq_true, false_or, not_and, not_or, not_lt]
    exact fun hzero => hrange.resolve_left hzero

theorem parseInt_of_text (htext : signedText (numberString (some v)) = some n) (hfits : Fits n) :
    parseInt (numberString (some v)) = some n := by
  simp [parseInt, htext, hfits]

theorem parseInt_integer (hn : Admissible n) : parseInt (integer n) = some n := by
  unfold Admissible at hn
  obtain ⟨m, rfl⟩ := Int.eq_ofNat_of_zero_le (show 0 ≤ n by omega)
  have hsmall : m < 2 ^ 63 := by omega
  simpa [integer, show ¬ (m : Int) < 0 by omega] using parseInt_decimal hsmall

theorem softRetention_of_integer (hn : Admissible n)
    (h : fieldAt f' "softDeletePolicy" "retentionDurationSeconds" = some (.str (integer n))) :
    softRetention f' = n * Storage.second := by
  rw [softRetention, h, numberString, parseInt64_of_parseInt (parseInt_integer hn), seconds_of_admissible hn]

theorem accepts_iff (hexact : Exact v) (h : Sets f v) : Accepts f ↔ ∃ n, Denotes v n ∧ Admissible n := by
  constructor
  · rintro ⟨f', hok⟩
    obtain ⟨n, hn, hrange, -⟩ := checkSoftDeletePolicy_ok h hexact.notNull hok
    have htext := signedText_of_parseInt hn
    refine ⟨n, denotes_of_text htext, ?_⟩
    exact ((seconds_between_iff (fits_of_parseInt hn)).mp hrange).resolve_right (hexact.notWrapped n htext)
  · rintro ⟨n, hn, hadm⟩
    have hplain : ∀ x, v = .num x → Plain x := by
      rintro x rfl
      by_contra hplain
      exact hexact.plain x rfl hplain n hn hadm
    have hparse := parseInt_of_text (text_of_denotes hplain hn) (fits_of_admissible hadm)
    exact accepts_of_parseInt h hparse ((seconds_between_iff (fits_of_admissible hadm)).mpr (Or.inl hadm))

theorem discard_kept (hexact : Exact v) (h : Sets f v) (hok : checkSoftDeletePolicy f = .ok f')
    (hn : Denotes v n) (b : BucketRecord) (o : ObjectRecord) (t : Time)
    (hb : b.softRetention = softRetention f') :
    discard b o t =
      if n = 0 then pure ()
      else appendVersion .softdeleted b.name o.name
        { o with
          softDeleted := t, hardDelete := t + n * Storage.second,
          bucketGeneration := b.generation } := by
  obtain ⟨m, hm, hrange, hfield⟩ := checkSoftDeletePolicy_ok h hexact.notNull hok
  have htext := signedText_of_parseInt hm
  obtain rfl : m = n := denotes_inj (denotes_of_text htext) hn
  have hadm : Admissible m := ((seconds_between_iff (fits_of_parseInt hm)).mp hrange).resolve_right
    (hexact.notWrapped m htext)
  rw [softRetention_of_integer hadm hfield] at hb
  have hzero : m * Storage.second = 0 ↔ m = 0 := by
    simp [second_eq]
  simp only [discard, ObjectRecord.softened, hb, hzero]

theorem exact_of_retentionMatches (hmatch : RetentionMatches v) : Exact v := by
  let fields : Members :=
    [(ascii "softDeletePolicy", .obj [(ascii "retentionDurationSeconds", v)])]
  have hsets : Sets fields v := by
    simp [fields, Sets, fieldAt, objectAt, Members.get]
  have haccepted := hmatch.accepted fields hsets
  refine ⟨?_, ?_, ?_⟩
  · rintro rfl
    obtain ⟨n, hn, -⟩ := haccepted.mp (accepts_null hsets)
    exact hn
  · intro n htext hwraps
    have hparse := parseInt_of_text htext hwraps.1
    obtain ⟨m, hm, hadm⟩ := haccepted.mp (accepts_of_parseInt hsets hparse
      ((seconds_between_iff hwraps.1).mpr (Or.inr hwraps)))
    obtain rfl := denotes_inj (denotes_of_text htext) hm
    exact not_wrapsInto_of_admissible hadm hwraps
  · rintro x rfl hplain n hvalue hadm
    obtain ⟨f', hok⟩ := haccepted.mpr ⟨n, hvalue, hadm⟩
    obtain ⟨m, hm, -⟩ := checkSoftDeletePolicy_ok hsets (by simp) hok
    exact absurd ((text_of_not_plain hplain).symm.trans (signedText_of_parseInt hm)) (by simp)

theorem retentionMatches_iff (v : Doc) : RetentionMatches v ↔ Exact v := by
  constructor
  · exact exact_of_retentionMatches
  · intro hexact
    refine ⟨fun f h => accepts_iff hexact h, ?_⟩
    intro f f' h hok n hn b o t hb
    exact discard_kept hexact h hok hn b o t hb

theorem retention_wrapped :
    let v := Doc.str (ascii "36028797019568768")
    let fields := [(ascii "softDeletePolicy", Doc.obj [(ascii "retentionDurationSeconds", v)])]
    (checkSoftDeletePolicy fields).isOk = true ∧ Denotes v (604800 + 2 ^ 55) ∧
      seconds (604800 + 2 ^ 55) = 604800 * Storage.second ∧ ¬ RetentionMatches v := by
  have htext : signedText (ascii "36028797019568768") = some (604800 + 2 ^ 55) := by
    decide +kernel
  refine ⟨by decide +kernel, htext, by decide +kernel, ?_⟩
  intro hmatch
  have hexact := exact_of_retentionMatches hmatch
  exact hexact.notWrapped (604800 + 2 ^ 55) htext
    ⟨by decide, -1953125, by decide, by decide +kernel, by decide +kernel⟩

end Matching

end CloudBurrow.Storage.Fields

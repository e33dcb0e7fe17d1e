import CloudBurrow.Storage.Lifecycle

namespace CloudBurrow.Storage

def ageDue (n : Nat) (t : Time) : Time := if n = 0 then day t + dayLength else t + n * dayLength

def maxDays : Nat := 106751

theorem days_eq {n : Nat} (h : n ≤ maxDays) : days n = n * dayLength := by
  have hsmall : (n : Int) ≤ 106751 := by exact_mod_cast h
  rw [days, Int.bmod_eq_of_le]
  all_goals
    simp only [dayLength, second]
    omega

theorem days_lt {n : Nat} (h : maxDays < n) : days n < n * dayLength := by
  have hlarge : (106752 : Int) ≤ n := by exact_mod_cast h
  have hfull : (9223372036854775808 : Int) < n * dayLength := by
    simp only [dayLength, second]
    omega
  calc days n < ((2 ^ 64 : Nat) + 1) / 2 := Int.bmod_lt (by norm_num)
    _ = 9223372036854775808 := by norm_num
    _ < n * dayLength := hfull

section Objects

variable {c : LifecycleCondition} {v : LifecycleVersion} {now : Time} {n : Nat}

theorem age_of_matches (h : c.matches v now = true) (hn : c.age = some n) :
    (if n = 0 then day v.o.created + dayLength else v.o.created + days n) ≤ now := by
  simp only [LifecycleCondition.matches, LifecycleCondition.agePasses, Bool.and_eq_true, hn, Option.all_some,
    before, Bool.not_eq_true', decide_eq_false_iff_not, not_lt] at h
  exact h.1.1.1.1.1.1.1.1.1.1.1.1

theorem customTime_of_matches (h : c.matches v now = true) (hn : c.daysSinceCustomTime = some n) :
    v.o.customTime + days n ≤ now := by
  simp only [LifecycleCondition.matches, Bool.and_eq_true, hn, Option.all_some, before, Bool.not_eq_true',
    decide_eq_false_iff_not, not_lt] at h
  exact h.1.1.1.1.1.1.1.1.1.2.2

theorem noncurrentTime_of_matches (h : c.matches v now = true) (hn : c.daysSinceNoncurrentTime = some n) :
    v.o.deleted + days n ≤ now := by
  simp only [LifecycleCondition.matches, Bool.and_eq_true, hn, Option.all_some, before, Bool.not_eq_true',
    decide_eq_false_iff_not, not_lt] at h
  exact h.1.1.1.1.1.1.1.1.2.2

theorem matches_of_age (hn : n ≠ 0) (o : ObjectRecord) :
    LifecycleCondition.matches { age := some n } ⟨o, true, 0⟩ (o.created + days n) = true := by
  simp only [LifecycleCondition.matches, LifecycleCondition.agePasses, Option.all_some, hn, if_false]
  generalize days n = d
  simp [before, hasAffix]

end Objects

section Uploads

variable {c : LifecycleCondition} {u : MultipartUpload} {now : Time} {n : Nat}

theorem age_of_incompleteDue (h : incompleteDue c now u = true) (hn : c.age = some n) :
    u.initiated + days n ≤ now := by
  simp only [incompleteDue, Bool.and_eq_true, hn, Option.all_some, before, Bool.not_eq_true',
    decide_eq_false_iff_not, not_lt] at h
  exact h.1.1

theorem incompleteDue_of_age (u : MultipartUpload) (n : Nat) :
    incompleteDue { age := some n } (u.initiated + days n) u = true := by
  simp only [incompleteDue, Option.all_some]
  generalize days n = d
  simp [before, hasAffix]

end Uploads

def ObjectsWait (n : Nat) : Prop :=
  ∀ (c : LifecycleCondition) (v : LifecycleVersion) (now : Time), c.matches v now = true →
    (c.age = some n → ageDue n v.o.created ≤ now) ∧
    (c.daysSinceCustomTime = some n → v.o.customTime + n * dayLength ≤ now) ∧
    (c.daysSinceNoncurrentTime = some n → v.o.deleted + n * dayLength ≤ now)

def UploadsWait (n : Nat) : Prop :=
  ∀ (c : LifecycleCondition) (u : MultipartUpload) (now : Time), incompleteDue c now u = true →
    c.age = some n → ageDue n u.initiated ≤ now

theorem objectsWait {n : Nat} (hn : n ≤ maxDays) : ObjectsWait n := by
  intro c v now h
  refine ⟨fun hage => ?_, fun hcustom => ?_, fun hnoncurrent => ?_⟩
  · have hdue := age_of_matches h hage
    rw [days_eq hn] at hdue
    exact hdue
  · rw [← days_eq hn]
    exact customTime_of_matches h hcustom
  · rw [← days_eq hn]
    exact noncurrentTime_of_matches h hnoncurrent

theorem uploadsWait {n : Nat} (hpos : 1 ≤ n) (hn : n ≤ maxDays) : UploadsWait n := by
  intro c u now h hage
  rw [ageDue, if_neg (by omega), ← days_eq hn]
  exact age_of_incompleteDue h hage

def startedUpload : MultipartUpload := ⟨[49], [98], { name := [97] }, dayLength, []⟩

theorem not_uploadsWait_zero : ¬ UploadsWait 0 := by
  intro h
  have hdue := h { age := some 0 } startedUpload dayLength (by decide) rfl
  revert hdue
  decide

theorem rule_waits_iff (n : Nat) : (ObjectsWait n ↔ n ≤ maxDays) ∧ (UploadsWait n ↔ 1 ≤ n ∧ n ≤ maxDays) := by
  refine ⟨⟨fun h => ?_, objectsWait⟩, fun h => ⟨?_, ?_⟩, fun h => uploadsWait h.1 h.2⟩
  · by_contra hlarge
    have hcut := days_lt (Nat.lt_of_not_le hlarge)
    have hpos : n ≠ 0 := by
      rintro rfl
      exact hlarge (Nat.zero_le _)
    have hdue := (h { age := some n } ⟨{}, true, 0⟩ _ (matches_of_age hpos {})).1 rfl
    rw [ageDue, if_neg hpos] at hdue
    exact absurd (Int.le_of_add_le_add_left hdue) (Int.not_le.mpr hcut)
  · by_contra hzero
    obtain rfl : n = 0 := by omega
    exact not_uploadsWait_zero h
  · by_contra hlarge
    have hcut := days_lt (Nat.lt_of_not_le hlarge)
    have hpos : n ≠ 0 := by
      rintro rfl
      exact hlarge (Nat.zero_le _)
    have hdue := h { age := some n } startedUpload _ (incompleteDue_of_age startedUpload n) rfl
    rw [ageDue, if_neg hpos] at hdue
    exact absurd (Int.le_of_add_le_add_left hdue) (Int.not_le.mpr hcut)

theorem rule_acts_at_once :
    LifecycleCondition.matches { age := some 200000 } ⟨{ created := dayLength }, true, 0⟩ dayLength = true ∧
      incompleteDue { age := some 200000 } dayLength startedUpload = true ∧
      incompleteDue { age := some 0 } dayLength startedUpload = true := by
  decide +kernel

end CloudBurrow.Storage

import Mathlib

namespace CloudBurrow.CellRate

structure Rate where
  interval : Nat
  burst : Nat
  tolerance : Nat
  interval_pos : 0 < interval
  burst_pos : 0 < burst

namespace Rate
variable (r : Rate)

def take (next now : Nat) : Option Nat :=
  if now + r.tolerance < next then none else some (max next now + r.interval)

structure Log where
  next : Nat
  grants : List Nat

def call (l : Log) (now : Nat) : Log :=
  match r.take l.next now with
  | none => l
  | some next => ⟨next, l.grants ++ [now]⟩

def after (ts : List Nat) : Log := ts.foldl r.call ⟨0, []⟩

def since (s : Nat) (grants : List Nat) : Nat := grants.countP (s ≤ ·)

def within (s t : Nat) (grants : List Nat) : Nat := grants.countP fun g => s ≤ g ∧ g ≤ t

def bound (s t : Nat) : Nat := r.burst + (t - s) / r.interval

structure IsBucket : Prop where
  window : ∀ ts : List Nat, ts.Pairwise (· ≤ ·) → ∀ s t, s ≤ t →
    within s t (r.after ts).grants ≤ r.bound s t
  refusal : ∀ (ts : List Nat) (now : Nat), (ts ++ [now]).Pairwise (· ≤ ·) →
    r.take (r.after ts).next now = none →
    ∃ s ≤ now, r.bound s now < within s now (r.after ts).grants + 1
  idle : ∀ (ts : List Nat) (now : Nat), (ts ++ [now]).Pairwise (· ≤ ·) → (r.after ts).next ≤ now →
    (r.after (ts ++ List.replicate r.burst now)).grants =
      (r.after ts).grants ++ List.replicate r.burst now

section Calls
variable {r} {l : Log} {now next : Nat}

theorem take_eq_none : r.take next now = none ↔ now + r.tolerance < next := by
  rw [take]
  split_ifs with h
  · simp [h]
  · simp [h]

theorem call_refused (h : now + r.tolerance < l.next) : r.call l now = l := by
  rw [call, take_eq_none.mpr h]

theorem call_granted (h : l.next ≤ now + r.tolerance) :
    r.call l now = ⟨max l.next now + r.interval, l.grants ++ [now]⟩ := by
  rw [call, take, if_neg (not_lt.mpr h)]

theorem after_append (ts us : List Nat) : r.after (ts ++ us) = us.foldl r.call (r.after ts) :=
  List.foldl_append

theorem after_snoc (ts : List Nat) (now : Nat) : r.after (ts ++ [now]) = r.call (r.after ts) now :=
  after_append ts [now]

end Calls

structure Accounts (last : Nat) (l : Log) : Prop where
  past : ∀ g ∈ l.grants, g ≤ last
  enough : ∀ s, 0 < since s l.grants → s + since s l.grants * r.interval ≤ l.next
  tight : ∃ s ≤ last, l.next = s + since s l.grants * r.interval

section Counting
variable {s t now last : Nat} {grants : List Nat}

theorem since_snoc (s : Nat) (grants : List Nat) (now : Nat) :
    since s (grants ++ [now]) = since s grants + if s ≤ now then 1 else 0 := by
  rw [since, List.countP_append, List.countP_singleton, ← since]
  simp

theorem within_snoc (s t : Nat) (grants : List Nat) (now : Nat) :
    within s t (grants ++ [now]) = within s t grants + if s ≤ now ∧ now ≤ t then 1 else 0 := by
  rw [within, List.countP_append, List.countP_singleton, ← within]
  simp

theorem within_eq_since (h : ∀ g ∈ grants, g ≤ t) (s : Nat) : within s t grants = since s grants := by
  refine List.countP_congr fun g hg => ?_
  simp [h g hg]

theorem since_eq_zero (h : ∀ g ∈ grants, g < s) : since s grants = 0 := by
  refine List.countP_eq_zero.mpr fun g hg => ?_
  simpa using h g hg

end Counting

section Accounting
variable {r} {l : Log} {now last : Nat}

theorem Accounts.later (h : r.Accounts last l) (hle : last ≤ now) : r.Accounts now l := by
  obtain ⟨s, hs, htight⟩ := h.tight
  exact ⟨fun g hg => le_trans (h.past g hg) hle, h.enough, s, le_trans hs hle, htight⟩

theorem Accounts.granted (h : r.Accounts now l) :
    r.Accounts now ⟨max l.next now + r.interval, l.grants ++ [now]⟩ := by
  refine ⟨fun g hg => ?_, fun s hs => ?_, ?_⟩
  · rcases List.mem_append.mp hg with hg | hg
    · exact h.past g hg
    · exact le_of_eq (List.mem_singleton.mp hg)
  · rw [since_snoc] at hs ⊢
    by_cases hle : s ≤ now
    · rw [if_pos hle, Nat.add_mul, Nat.one_mul, ← Nat.add_assoc]
      refine Nat.add_le_add_right ?_ _
      by_cases hnone : since s l.grants = 0
      · rw [hnone, Nat.zero_mul, Nat.add_zero]
        exact le_trans hle (le_max_right _ _)
      · exact le_trans (h.enough s (Nat.pos_of_ne_zero hnone)) (le_max_left _ _)
    · have hnone : since s l.grants = 0 :=
        since_eq_zero fun g hg => lt_of_le_of_lt (h.past g hg) (not_le.mp hle)
      rw [hnone, if_neg hle] at hs
      exact absurd hs (lt_irrefl 0)
  · by_cases hidle : now ≤ l.next
    · -- still busy since the same cell
      obtain ⟨s, hs, htight⟩ := h.tight
      refine ⟨s, hs, ?_⟩
      rw [since_snoc, if_pos hs, max_eq_left hidle, Nat.add_mul, Nat.one_mul, ← Nat.add_assoc, ← htight]
    · have hnone : since now l.grants = 0 := by
        by_contra hsome
        have henough := h.enough now (Nat.pos_of_ne_zero hsome)
        exact hidle (le_trans (Nat.le_add_right _ _) henough)
      refine ⟨now, le_refl now, ?_⟩
      rw [since_snoc, hnone, if_pos (le_refl now), max_eq_right (not_le.mp hidle).le,
        Nat.zero_add, Nat.one_mul]

theorem Accounts.call (h : r.Accounts last l) (hle : last ≤ now) : r.Accounts now (r.call l now) := by
  by_cases hrefused : now + r.tolerance < l.next
  · rw [call_refused hrefused]
    exact h.later hle
  · rw [call_granted (not_lt.mp hrefused)]
    exact (h.later hle).granted

theorem accounts_after {ts : List Nat} (hts : (ts ++ [now]).Pairwise (· ≤ ·)) :
    r.Accounts now (r.after ts) := by
  induction ts using List.reverseRecOn generalizing now with
  | nil => exact ⟨by simp [after], by simp [after, since], 0, Nat.zero_le now, by simp [after, since]⟩
  | append_singleton ts t ih =>
    obtain ⟨hts, -, hnow⟩ := List.pairwise_append.mp hts
    rw [after_snoc]
    refine (ih hts).call ?_ |>.later ?_
    · exact le_refl t
    · exact hnow t (by simp) now (by simp)

end Accounting

section Exact
variable {r}

theorem window_of_le (hle : r.tolerance ≤ (r.burst - 1) * r.interval) {ts : List Nat}
    (hts : ts.Pairwise (· ≤ ·)) (s t : Nat) : within s t (r.after ts).grants ≤ r.bound s t := by
  induction ts using List.reverseRecOn with
  | nil => exact Nat.zero_le _
  | append_singleton ts now ih =>
    have hbefore := ih (List.pairwise_append.mp hts).1
    have haccounts : r.Accounts now (r.after ts) := accounts_after hts
    rw [after_snoc]
    by_cases hrefused : now + r.tolerance < (r.after ts).next
    · rwa [call_refused hrefused]
    · rw [call_granted (not_lt.mp hrefused)]
      simp only [within_snoc]
      split_ifs with hin
      · have hsince : within s t (r.after ts).grants = since s (r.after ts).grants :=
          within_eq_since (fun g hg => le_trans (haccounts.past g hg) hin.2) s
        rw [hsince, bound]
        have hburst := r.burst_pos
        generalize hq : (t - s) / r.interval = q
        generalize hc : since s (r.after ts).grants = c
        rcases Nat.eq_zero_or_pos c with rfl | hpos
        · omega
        · have henough := haccounts.enough s (by omega)
          rw [hc] at henough
          have hcells : (c - (r.burst - 1)) * r.interval ≤ t - s := by
            rw [Nat.sub_mul]
            omega
          have hquotient := (Nat.le_div_iff_mul_le r.interval_pos).mpr hcells
          rw [hq] at hquotient
          omega
      · exact hbefore

theorem refusal_of_ge (hge : (r.burst - 1) * r.interval ≤ r.tolerance) {ts : List Nat} {now : Nat}
    (hts : (ts ++ [now]).Pairwise (· ≤ ·)) (h : r.take (r.after ts).next now = none) :
    ∃ s ≤ now, r.bound s now < within s now (r.after ts).grants + 1 := by
  have haccounts : r.Accounts now (r.after ts) := accounts_after hts
  obtain ⟨s, hs, htight⟩ := haccounts.tight
  have hrefused := take_eq_none.mp h
  refine ⟨s, hs, ?_⟩
  rw [within_eq_since haccounts.past, bound]
  generalize since s (r.after ts).grants = c at htight
  have hcells : now - s < (c - (r.burst - 1)) * r.interval := by
    rw [Nat.sub_mul]
    omega
  have hquotient := (Nat.div_lt_iff_lt_mul r.interval_pos).mpr hcells
  have hburst := r.burst_pos
  generalize (now - s) / r.interval = q at hquotient ⊢
  omega

theorem idle_of_ge (hge : (r.burst - 1) * r.interval ≤ r.tolerance) {l : Log} {now : Nat}
    (h : l.next ≤ now) {n : Nat} (hn : n ≤ r.burst) :
    ((List.replicate n now).foldl r.call l).grants = l.grants ++ List.replicate n now ∧
      ((List.replicate n now).foldl r.call l).next ≤ now + n * r.interval := by
  induction n with
  | zero => exact ⟨by simp, by simpa using h⟩
  | succ n ih =>
    obtain ⟨hgrants, hnext⟩ := ih (Nat.le_of_succ_le hn)
    have hroom : n * r.interval ≤ r.tolerance :=
      le_trans (Nat.mul_le_mul_right _ (by omega)) hge
    rw [List.replicate_succ', List.foldl_append, List.foldl_cons, List.foldl_nil,
      call_granted (by omega), hgrants, List.append_assoc]
    refine ⟨rfl, ?_⟩
    rw [Nat.add_mul, Nat.one_mul, ← Nat.add_assoc]
    exact Nat.add_le_add_right (max_le hnext (Nat.le_add_right _ _)) _

theorem after_zeros (r : Rate) (n : Nat) :
    (r.after (List.replicate n 0)).next = (r.after (List.replicate n 0)).grants.length * r.interval ∧
      ((r.after (List.replicate n 0)).grants.length - 1) * r.interval ≤ r.tolerance := by
  induction n with
  | zero => simp [after]
  | succ n ih =>
    rw [List.replicate_succ', after_snoc]
    by_cases hrefused : 0 + r.tolerance < (r.after (List.replicate n 0)).next
    · rwa [call_refused hrefused]
    · rw [call_granted (not_lt.mp hrefused)]
      simp only [List.length_append, List.length_singleton, Nat.add_sub_cancel, Nat.max_zero,
        Nat.add_mul, Nat.one_mul]
      omega

theorem IsBucket.le_tolerance (h : r.IsBucket) : (r.burst - 1) * r.interval ≤ r.tolerance := by
  have hidle := h.idle [] 0 (by simp) (Nat.zero_le _)
  have hlength := congrArg List.length hidle
  have hzeros := (after_zeros r r.burst).2
  simp only [List.nil_append, List.length_append, List.length_replicate] at hlength
  rwa [hlength, show (r.after []).grants.length = 0 from rfl, Nat.zero_add] at hzeros

theorem IsBucket.tolerance_le (h : r.IsBucket) : r.tolerance ≤ (r.burst - 1) * r.interval := by
  by_contra hover
  have hge : (r.burst - 1) * r.interval ≤ r.tolerance := (not_le.mp hover).le
  -- a full burst at once, then a cell before the next is due
  have hgrants : (r.after (List.replicate r.burst 0)).grants = List.replicate r.burst 0 := by
    simpa [after] using (idle_of_ge hge (l := ⟨0, []⟩) le_rfl le_rfl).1
  have hnext := (after_zeros r r.burst).1
  rw [hgrants, List.length_replicate] at hnext
  have hburst := r.burst_pos
  have hsplit : r.burst * r.interval = (r.burst - 1) * r.interval + r.interval := by
    rw [← Nat.succ_mul]
    congr 1
    omega
  have hinterval := r.interval_pos
  generalize ht : r.burst * r.interval - r.tolerance = t
  have hearly : t < r.interval := by omega
  have hsorted : (List.replicate r.burst 0 ++ [t]).Pairwise (· ≤ ·) := by
    refine List.pairwise_append.mpr ⟨?_, List.pairwise_singleton _ _, ?_⟩
    · exact List.pairwise_replicate.mpr (Or.inr le_rfl)
    · intro x hx y _
      rw [List.eq_of_mem_replicate hx]
      exact Nat.zero_le y
  have hwindow := h.window _ hsorted 0 t (Nat.zero_le t)
  have hall : within 0 t (List.replicate r.burst 0) = r.burst := by
    rw [within, List.countP_replicate, if_pos (by simp)]
  rw [after_snoc, call_granted (by omega), hgrants, bound, Nat.sub_zero, Nat.div_eq_of_lt hearly] at hwindow
  simp only [within_snoc, hall, if_pos (And.intro (Nat.zero_le t) (le_refl t))] at hwindow
  omega

theorem isBucket_iff (r : Rate) : r.IsBucket ↔ r.tolerance = (r.burst - 1) * r.interval := by
  constructor
  · intro h
    exact le_antisymm h.tolerance_le h.le_tolerance
  · intro h
    refine ⟨fun ts hts s t _ => window_of_le h.le hts s t,
      fun ts now hts => refusal_of_ge h.ge hts, fun ts now _ hidle => ?_⟩
    rw [after_append]
    exact (idle_of_ge h.ge hidle le_rfl).1

end Exact

end Rate

end CloudBurrow.CellRate

import Mathlib

namespace CloudBurrow.Paging.Positions

variable {α : Type} {before : α → α → Prop}

structure StrictWeak (before : α → α → Prop) : Prop where
  asymm : ∀ a b, before a b → ¬ before b a
  negTrans : ∀ a b c, ¬ before b a → ¬ before c b → ¬ before c a

theorem StrictWeak.of_key {K : Type} [LinearOrder K] (key : α → K) : StrictWeak fun a b => key a < key b :=
  ⟨fun _ _ h => not_lt.mpr h.le, fun _ _ _ h h' => not_lt.mpr ((not_lt.mp h).trans (not_lt.mp h'))⟩

theorem StrictWeak.of_text (key : α → List UInt8) : StrictWeak fun a b => key a < key b :=
  ⟨fun _ _ h => List.le_of_lt h, fun _ _ _ h h' => List.le_trans h h'⟩

theorem StrictWeak.lex {r s : α → α → Prop} (hr : StrictWeak r) (hs : StrictWeak s) :
    StrictWeak fun a b => r a b ∨ ¬ r b a ∧ s a b := by
  constructor
  · rintro a b (h | ⟨h, hsame⟩) (h' | ⟨h', hsame'⟩)
    · exact hr.asymm a b h h'
    · exact h' h
    · exact h h'
    · exact hs.asymm a b hsame hsame'
  · intro a b c hab hbc hca
    push Not at hab hbc
    rcases hca with hca | ⟨hac, hsame⟩
    · exact hr.negTrans a b c hab.1 hbc.1 hca
    · have hab' : ¬ s b a := hab.2 (hr.negTrans b c a hbc.1 hac)
      have hbc' : ¬ s c b := hbc.2 (hr.negTrans c a b hac hab.1)
      exact hs.negTrans a b c hab' hbc' hsame

theorem StrictWeak.flip (h : StrictWeak before) : StrictWeak fun a b => before b a :=
  ⟨fun a b => h.asymm b a, fun a b c hab hbc => h.negTrans c b a hbc hab⟩

theorem StrictWeak.trans (h : StrictWeak before) {a b c : α} (hab : before a b) (hbc : before b c) :
    before a c := by
  by_contra hac
  exact h.negTrans b c a (h.asymm b c hbc) hac hab

def Ranked (before : α → α → Prop) (l : List α) : Prop :=
  ∀ a ∈ l, ∀ b ∈ l, a ≠ b → before a b ∨ before b a

def Past (before : α → α → Prop) (shown : List α) (n : α) : Prop :=
  ∀ c ∈ shown.getLast?, before c n

theorem before_of_past (h : StrictWeak before) {shown : List α} {n : α}
    (hshown : shown.Pairwise before) (hpast : Past before shown n) : ∀ a ∈ shown, before a n := by
  intro a ha
  obtain ⟨c, hc⟩ := List.getLast?_isSome.mpr (List.ne_nil_of_mem ha) |> Option.isSome_iff_exists.mp
  obtain ⟨front, rfl⟩ := List.getLast?_eq_some_iff.mp hc
  have hcn := hpast c hc
  rcases List.mem_append.mp ha with hfront | hlast
  · exact h.trans ((List.pairwise_append.mp hshown).2.2 a hfront c (by simp)) hcn
  · rwa [List.mem_singleton.mp hlast]

section Sorting
variable [DecidableRel before] {l m : List α}

variable (before) in
def sorted (l : List α) : List α := l.insertionSort fun a b => ¬ before b a

theorem perm_sorted : (sorted before l).Perm l := List.perm_insertionSort _ l

theorem mem_sorted {a : α} : a ∈ sorted before l ↔ a ∈ l := perm_sorted.mem_iff

theorem sorted_pairwise (h : StrictWeak before) (l : List α) :
    (sorted before l).Pairwise fun a b => ¬ before b a := by
  have : Std.Total fun a b => ¬ before b a := by
    refine ⟨fun a b => ?_⟩
    by_cases hba : before b a
    · exact Or.inr (h.asymm b a hba)
    · exact Or.inl hba
  have : IsTrans α fun a b => ¬ before b a := ⟨fun a b c hab hbc => h.negTrans a b c hab hbc⟩
  exact List.pairwise_insertionSort _ l

theorem pairwise_sorted (h : StrictWeak before) (hnodup : l.Nodup) (hranked : Ranked before l) :
    (sorted before l).Pairwise before := by
  have hdistinct : (sorted before l).Nodup := perm_sorted.nodup_iff.mpr hnodup
  refine ((sorted_pairwise h l).and hdistinct).imp_of_mem fun ha hb hab => ?_
  exact (hranked _ (mem_sorted.mp ha) _ (mem_sorted.mp hb) hab.2).resolve_right hab.1

variable (before) in
def Uncut (l : List α) (size : Nat) : Prop :=
  ∀ k ∈ l, size ≤ l.countP (fun a => decide (before a k)) ∨ l.countP (fun a => decide (¬ before k a)) ≤ size

instance (size : Nat) : Decidable (Uncut before l size) := inferInstanceAs (Decidable (∀ k ∈ l, _ ∨ _))

theorem Uncut.of_perm {size : Nat} (h : Uncut before m size) (hperm : l.Perm m) : Uncut before l size := by
  intro k hk
  rw [hperm.countP_eq, hperm.countP_eq]
  exact h k (hperm.mem_iff.mp hk)

theorem before_of_uncut (h : StrictWeak before) {front tail : List α} {last : α}
    (hsorted : (front ++ last :: tail).Pairwise fun a b => ¬ before b a)
    (huncut : Uncut before (front ++ last :: tail) (front.length + 1)) : ∀ a ∈ tail, before last a := by
  obtain ⟨-, hback, hcross⟩ := List.pairwise_append.mp hsorted
  obtain ⟨htail, -⟩ := List.pairwise_cons.mp hback
  have hlast : ¬ before last last := fun hself => h.asymm last last hself hself
  intro a ha
  by_contra htied
  rcases huncut last (by simp) with hmany | hfew
  · have hfront : front.countP (fun a => decide (before a last)) ≤ front.length := List.countP_le_length
    have hnone : tail.countP (fun a => decide (before a last)) = 0 :=
      List.countP_eq_zero.mpr fun b hb => by simpa using htail b hb
    rw [List.countP_append, List.countP_cons_of_neg (by simpa using hlast), hnone] at hmany
    omega
  · have hfront : front.countP (fun a => decide (¬ before last a)) = front.length :=
      List.countP_eq_length.mpr fun b hb => by simpa using hcross b hb last (by simp)
    have htie : 0 < tail.countP (fun a => decide (¬ before last a)) :=
      List.countP_pos_iff.mpr ⟨a, ha, by simpa using htied⟩
    rw [List.countP_append, List.countP_cons_of_pos (by simpa using hlast), hfront] at hfew
    omega

theorem sorted_eq (h : StrictWeak before) (hm : m.Pairwise before) (hperm : m.Perm l) :
    sorted before l = m := by
  have hnodup : m.Nodup := by
    refine List.Pairwise.imp ?_ hm
    rintro a b hab rfl
    exact h.asymm a a hab hab
  have hranked : Ranked before l := by
    have : Std.Symm fun a b => before a b ∨ before b a := ⟨fun _ _ => Or.symm⟩
    intro a ha b hb hne
    exact (hm.imp fun {a b} hab => (Or.inl hab : before a b ∨ before b a)).forall
      (hperm.mem_iff.mpr ha) (hperm.mem_iff.mpr hb) hne
  have hsorted := pairwise_sorted h (hperm.nodup_iff.mp hnodup) hranked
  refine (perm_sorted.trans hperm.symm).eq_of_pairwise ?_ hsorted hm
  intro a b _ _ hab hba
  exact absurd hba (h.asymm a b hab)

end Sorting

section Shown
variable [DecidableRel before] {l shown : List α} {n : α}

theorem shown_create (h : StrictWeak before) (hnodup : (l ++ [n]).Nodup) (hranked : Ranked before (l ++ [n]))
    (hshown : shown <+: sorted before l) (hpast : Past before shown n) :
    shown <+: sorted before (l ++ [n]) := by
  obtain ⟨rest, hrest⟩ := hshown
  have hl : l.Nodup := (List.nodup_append.mp hnodup).1
  have hsorted := pairwise_sorted h hl fun a ha b hb => hranked a (by simp [ha]) b (by simp [hb])
  have hperm : (shown ++ rest).Perm l := hrest ▸ perm_sorted
  rw [← hrest] at hsorted
  obtain ⟨hfront, hback, hcross⟩ := List.pairwise_append.mp hsorted
  have hall : (shown ++ (rest ++ [n])).Perm (l ++ [n]) := by
    rw [← List.append_assoc]
    exact hperm.append_right [n]
  have hrestNodup : (rest ++ [n]).Nodup :=
    (List.nodup_append.mp (hall.nodup_iff.mpr hnodup)).2.1
  have hmem : ∀ a ∈ rest ++ [n], a ∈ l ++ [n] := fun a ha =>
    hall.mem_iff.mp (List.mem_append_right _ ha)
  refine ⟨sorted before (rest ++ [n]), (sorted_eq h ?_ ?_).symm⟩
  · refine List.pairwise_append.mpr ⟨hfront, pairwise_sorted h hrestNodup fun a ha b hb =>
      hranked a (hmem a ha) b (hmem b hb), fun a ha b hb => ?_⟩
    rcases List.mem_append.mp (mem_sorted.mp hb) with hb' | hb'
    · exact hcross a ha b hb'
    · rw [List.mem_singleton.mp hb']
      exact before_of_past h hfront hpast a ha
  · exact (perm_sorted.append_left shown).trans hall

theorem shown_delete [BEq α] [LawfulBEq α] (h : StrictWeak before) (hnodup : l.Nodup)
    (hranked : Ranked before l) (hshown : shown <+: sorted before l)
    (hpast : Past before shown n) : shown <+: sorted before (l.erase n) := by
  obtain ⟨rest, hrest⟩ := hshown
  have hsorted := pairwise_sorted h hnodup hranked
  have hperm : (shown ++ rest).Perm l := hrest ▸ perm_sorted
  rw [← hrest] at hsorted
  have hfront := (List.pairwise_append.mp hsorted).1
  have hnot : n ∉ shown := fun hmem =>
    h.asymm n n (before_of_past h hfront hpast n hmem) (before_of_past h hfront hpast n hmem)
  refine ⟨rest.erase n, (sorted_eq h ?_ ?_).symm⟩
  · exact hsorted.sublist ((List.erase_sublist).append_left shown)
  · rw [← List.erase_append_right _ hnot]
    exact hperm.erase n

end Shown

end CloudBurrow.Paging.Positions

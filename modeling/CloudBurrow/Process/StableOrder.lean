import Mathlib

namespace CloudBurrow.StableOrder

variable {A K : Type} [LinearOrder K] (key : A → K)

def sortBy (l : List A) : List A := l.insertionSort fun a b => key a ≤ key b

instance total_key : Std.Total fun a b => key a ≤ key b := ⟨fun a b => le_total (key a) (key b)⟩

instance isTrans_key : IsTrans A fun a b => key a ≤ key b := ⟨fun _ _ _ h h' => h.trans h'⟩

def SameBy (shown : A → Bool) (l l' : List A) : Prop :=
  ∀ k, l'.filter (fun a => shown a && decide (key a = k)) =
    l.filter fun a => shown a && decide (key a = k)

theorem filter_sortBy (l : List A) (k : K) :
    (sortBy key l).filter (fun a => decide (key a = k)) = l.filter fun a => decide (key a = k) := by
  have hsame : (l.filter fun a => decide (key a = k)).Pairwise fun a b => key a ≤ key b := by
    refine List.pairwise_iff_forall_sublist.mpr fun {a b} hab => ?_
    have ha : key a = k := by simpa using List.of_mem_filter (hab.subset (by simp : a ∈ [a, b]))
    have hb : key b = k := by simpa using List.of_mem_filter (hab.subset (by simp : b ∈ [a, b]))
    rw [ha, hb]
  have hsub := (List.sublist_insertionSort hsame List.filter_sublist).filter
    fun a => decide (key a = k)
  rw [List.filter_filter] at hsub
  simp only [Bool.and_self] at hsub
  refine (hsub.eq_of_length ?_).symm
  exact ((List.perm_insertionSort _ l).filter _).length_eq.symm

variable {key}

namespace SameBy

variable {shown : A → Bool} {l l' l'' : List A}

theorem refl (l : List A) : SameBy key shown l l := fun _ => rfl

theorem trans (h : SameBy key shown l l') (h' : SameBy key shown l' l'') :
    SameBy key shown l l'' := fun k => (h' k).trans (h k)

theorem symm (h : SameBy key shown l l') : SameBy key shown l' l := fun k => (h k).symm

theorem append (h : SameBy key shown l l') (more : List A) : SameBy key shown (l ++ more) (l' ++ more) := by
  intro k
  rw [List.filter_append, List.filter_append, h k]

theorem sort (l : List A) : SameBy key shown l (sortBy key l) := by
  intro k
  have hsort := congrArg (List.filter shown) (filter_sortBy key l k)
  simpa only [List.filter_filter] using hsort

theorem filter (h : SameBy key shown l l') (p : A → Bool) : SameBy key shown (l.filter p) (l'.filter p) := by
  intro k
  have hp := congrArg (List.filter p) (h k)
  simp only [List.filter_filter] at hp ⊢
  simpa only [Bool.and_comm] using hp

theorem keep (l : List A) : SameBy key shown l (l.filter shown) := by
  intro k
  rw [List.filter_filter]
  congr 1
  funext a
  cases shown a <;> simp

theorem map {f : A → A} (hf : ∀ a, key (f a) = key a ∧ shown (f a) = shown a)
    (h : SameBy key shown l l') : SameBy key shown (l.map f) (l'.map f) := by
  have hcomp : ∀ k, (fun a => shown a && decide (key a = k)) ∘ f =
      fun a => shown a && decide (key a = k) := by
    intro k
    funext a
    simp only [Function.comp_apply, (hf a).1, (hf a).2]
  intro k
  rw [List.filter_map, List.filter_map, hcomp, h k]

end SameBy

theorem eq_of_filter_key {l l' : List A} (hl : l.Pairwise fun a b => key a ≤ key b)
    (hl' : l'.Pairwise fun a b => key a ≤ key b)
    (h : ∀ k, l'.filter (fun a => decide (key a = k)) = l.filter fun a => decide (key a = k)) :
    l' = l := by
  induction l generalizing l' with
  | nil =>
    cases l' with
    | nil => rfl
    | cons b l' => simpa using h (key b)
  | cons a l ih =>
    cases l' with
    | nil => simpa using (h (key a)).symm
    | cons b l' =>
      -- Each head has the least key of its own list, and both lists hold both keys.
      have hab : key a = key b := by
        have ha : a ∈ (b :: l').filter fun x => decide (key x = key a) := by
          rw [h]
          simp
        have hb : b ∈ (a :: l).filter fun x => decide (key x = key b) := by
          rw [← h]
          simp
        refine le_antisymm ?_ ?_
        · rcases List.mem_cons.mp (List.mem_of_mem_filter hb) with rfl | hb
          · exact le_rfl
          · exact List.rel_of_pairwise_cons hl hb
        · rcases List.mem_cons.mp (List.mem_of_mem_filter ha) with rfl | ha
          · exact le_rfl
          · exact List.rel_of_pairwise_cons hl' ha
      have hhead := h (key a)
      simp only [List.filter_cons, hab, decide_true, if_true, List.cons.injEq] at hhead
      obtain ⟨rfl, -⟩ := hhead
      congr 1
      refine ih (List.Pairwise.of_cons hl) (List.Pairwise.of_cons hl') fun k => ?_
      have hk := h k
      rw [List.filter_cons, List.filter_cons] at hk
      split_ifs at hk
      · exact (List.cons.inj hk).2
      · exact hk

theorem SameBy.filter_sortBy {shown p : A → Bool} {l l' : List A} (h : SameBy key shown l l')
    (hp : ∀ a, p a = true → shown a = true) :
    (sortBy key l').filter p = (sortBy key l).filter p := by
  have hsorted : ∀ l : List A, ((sortBy key l).filter p).Pairwise fun a b => key a ≤ key b :=
    fun l => (List.pairwise_insertionSort _ l).filter p
  refine eq_of_filter_key (hsorted l) (hsorted l') fun k => ?_
  have hside : ∀ l : List A, ((sortBy key l).filter p).filter (fun a => decide (key a = k)) =
      (l.filter fun a => shown a && decide (key a = k)).filter p := by
    intro l
    rw [List.filter_comm, StableOrder.filter_sortBy, List.filter_filter, List.filter_filter]
    congr 1
    funext a
    cases hpa : p a
    · rfl
    · rw [hp a hpa]
      rfl
  rw [hside, hside, h k]

end CloudBurrow.StableOrder

import Mathlib

namespace CloudBurrow.BinarySearch

def searchFrom (p : Nat → Bool) : Nat → Nat → Nat → Nat
  | 0, i, _ => i
  | fuel + 1, i, j =>
    if i < j then
      let h := (i + j) / 2
      if p h then searchFrom p fuel i h else searchFrom p fuel (h + 1) j
    else i

def search (n : Nat) (p : Nat → Bool) : Nat := searchFrom p n 0 n

structure Boundary (n : Nat) (p : Nat → Bool) (r : Nat) : Prop where
  le : r ≤ n
  below : ∀ i < r, p i = false
  above : ∀ i, r ≤ i → i < n → p i = true

variable {n : Nat} {p : Nat → Bool}

theorem searchFrom_boundary (hp : ∀ i j, i ≤ j → j < n → p i = true → p j = true) (fuel i j : Nat)
    (hfuel : j - i ≤ fuel) (hij : i ≤ j) (hj : j ≤ n) (hbelow : ∀ k < i, p k = false)
    (habove : ∀ k, j ≤ k → k < n → p k = true) : Boundary n p (searchFrom p fuel i j) := by
  induction fuel generalizing i j with
  | zero =>
    have heq : i = j := by omega
    subst heq
    exact ⟨hj, hbelow, habove⟩
  | succ fuel ih =>
    unfold searchFrom
    dsimp only
    split_ifs with hlt hmid
    · refine ih i ((i + j) / 2) (by omega) (by omega) (by omega) hbelow fun k hk hkn => ?_
      exact hp _ k hk hkn hmid
    · refine ih ((i + j) / 2 + 1) j (by omega) (by omega) hj (fun k hk => ?_) habove
      by_contra hne
      exact hmid (hp k _ (by omega) (by omega) (Bool.eq_true_of_not_eq_false hne))
    · have heq : i = j := by omega
      subst heq
      exact ⟨hj, hbelow, habove⟩

theorem search_boundary (hp : ∀ i j, i ≤ j → j < n → p i = true → p j = true) : Boundary n p (search n p) :=
  searchFrom_boundary hp n 0 n (by omega) (Nat.zero_le n) (le_refl n)
    (fun k hk => absurd hk (Nat.not_lt_zero k)) fun k hk hkn => absurd hkn (by omega)

section Lists

variable {A : Type} {q : A → Bool} {l : List A}

theorem drop_search (hl : l.Pairwise fun a b => q a = true → q b = true) :
    l.drop (search l.length fun i => (l[i]?.map q).getD true) = l.filter q := by
  have hmono : ∀ i j, i ≤ j → j < l.length → (l[i]?.map q).getD true = true →
      (l[j]?.map q).getD true = true := by
    intro i j hij hj hi
    rw [List.getElem?_eq_getElem (by omega)] at hi
    rw [List.getElem?_eq_getElem hj]
    rcases Nat.lt_or_eq_of_le hij with hlt | rfl
    · exact List.pairwise_iff_getElem.mp hl i j (by omega) hj hlt hi
    · exact hi
  have hb := search_boundary hmono
  generalize search l.length (fun i => (l[i]?.map q).getD true) = r at hb
  have hdrop : ∀ a ∈ l.drop r, q a = true := by
    intro a ha
    obtain ⟨i, hi, rfl⟩ := List.mem_iff_getElem.mp ha
    rw [List.length_drop] at hi
    have hq := hb.above (r + i) (by omega) (by omega)
    rw [List.getElem?_eq_getElem (by omega)] at hq
    rw [List.getElem_drop]
    exact hq
  have htake : ∀ a ∈ l.take r, ¬ q a = true := by
    intro a ha
    obtain ⟨i, hi, rfl⟩ := List.mem_iff_getElem.mp ha
    rw [List.length_take] at hi
    have hq := hb.below i (by omega)
    rw [List.getElem?_eq_getElem (by omega)] at hq
    rw [List.getElem_take]
    exact fun htrue => Bool.noConfusion (hq.symm.trans htrue)
  calc l.drop r = (l.take r).filter q ++ (l.drop r).filter q := by
        rw [List.filter_eq_nil_iff.mpr htake, List.filter_eq_self.mpr hdrop, List.nil_append]
    _ = l.filter q := by rw [← List.filter_append, List.take_append_drop]

end Lists

end CloudBurrow.BinarySearch

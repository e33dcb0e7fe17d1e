import Mathlib

namespace CloudBurrow.OrderedMap

open Std

variable {α β : Type} {cmp : α → α → Ordering} [TransCmp cmp] [LawfulEqCmp cmp]

section Lists

variable {xs ys : List α}

omit [LawfulEqCmp cmp] in
theorem nodup_of_ordered (h : xs.Pairwise fun a b => cmp a b = .lt) : xs.Nodup := by
  refine List.Pairwise.imp (fun {a b} (hlt : cmp a b = .lt) heq => ?_) h
  have hself : cmp a b = .eq := by
    rw [heq]
    exact ReflCmp.compare_self
  rw [hself] at hlt
  cases hlt

omit [LawfulEqCmp cmp] in
theorem eq_of_mem_iff (hx : xs.Pairwise fun a b => cmp a b = .lt) (hy : ys.Pairwise fun a b => cmp a b = .lt)
    (h : ∀ a, a ∈ xs ↔ a ∈ ys) : xs = ys := by
  have hperm : xs.Perm ys :=
    (List.perm_ext_iff_of_nodup (nodup_of_ordered hx) (nodup_of_ordered hy)).mpr h
  have hanti : ∀ a b, a ∈ xs → b ∈ ys → cmp a b = .lt → cmp b a = .lt → a = b :=
    fun a b _ _ hab hba => absurd hba (OrientedCmp.not_lt_of_lt hab)
  exact hperm.eq_of_pairwise hanti hx hy

omit [LawfulEqCmp cmp] [TransCmp cmp] in
theorem mergeSort_of_ordered (h : xs.Pairwise fun a b => cmp a b = .lt) :
    xs.mergeSort (fun a b => (cmp a b).isLE) = xs :=
  List.mergeSort_of_pairwise (h.imp fun hlt => by rw [hlt]; rfl)

end Lists

section Totals

variable (weight : α × β → Int) {m : ExtTreeMap α β cmp} {k : α} {v : β}

def total (m : ExtTreeMap α β cmp) : Int := (m.toList.map weight).sum

omit [LawfulEqCmp cmp] in
theorem nodup_toList (m : ExtTreeMap α β cmp) : m.toList.Nodup :=
  ExtTreeMap.distinct_keys_toList.imp fun hne heq => hne (by rw [heq]; exact ReflCmp.compare_self)

theorem toList_perm (h : m[k]? = some v) : m.toList.Perm ((k, v) :: (m.erase k).toList) := by
  have hnot : (k, v) ∉ (m.erase k).toList := by
    rw [ExtTreeMap.mem_toList_iff_getElem?_eq_some]
    simp
  refine (List.perm_ext_iff_of_nodup (nodup_toList m) (List.nodup_cons.mpr ⟨hnot, nodup_toList _⟩)).mpr ?_
  rintro ⟨k', v'⟩
  rw [List.mem_cons, ExtTreeMap.mem_toList_iff_getElem?_eq_some, ExtTreeMap.mem_toList_iff_getElem?_eq_some,
    ExtTreeMap.getElem?_erase]
  by_cases hk : cmp k k' = .eq
  · obtain rfl := LawfulEqCmp.eq_of_compare hk
    simp [h, eq_comm]
  · have hne : k' ≠ k := fun heq => hk (by rw [heq]; exact ReflCmp.compare_self)
    simp [hk, hne]

theorem erase_absent (h : m[k]? = none) : m.erase k = m := by
  refine ExtTreeMap.ext_getElem? fun k' => ?_
  rw [ExtTreeMap.getElem?_erase]
  split_ifs with hk
  · rw [← LawfulEqCmp.eq_of_compare hk, h]
  · rfl

theorem erase_insert (m : ExtTreeMap α β cmp) (k : α) (v : β) : (m.insert k v).erase k = m.erase k := by
  refine ExtTreeMap.ext_getElem? fun k' => ?_
  rw [ExtTreeMap.getElem?_erase, ExtTreeMap.getElem?_erase, ExtTreeMap.getElem?_insert]
  split_ifs <;> rfl

theorem total_present (h : m[k]? = some v) : total weight m = weight (k, v) + total weight (m.erase k) := by
  simp only [total, ((toList_perm h).map weight).sum_eq, List.map_cons, List.sum_cons]

theorem total_insert (m : ExtTreeMap α β cmp) (k : α) (v : β) :
    total weight (m.insert k v) = weight (k, v) + total weight (m.erase k) := by
  rw [total_present weight (m := m.insert k v) ExtTreeMap.getElem?_insert_self, erase_insert]

end Totals

end CloudBurrow.OrderedMap

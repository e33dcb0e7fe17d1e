import CloudBurrow.Codec.Utf8

namespace CloudBurrow.Utf8

theorem compare_lt_iff (a b : Bytes) : compare a b = .lt ↔ a < b := by
  induction a generalizing b with
  | nil => cases b <;> simp
  | cons x a ih =>
    cases b with
    | nil => simp
    | cons y b =>
      rw [List.compare_eq_compareLex, List.compareLex_cons_cons, ← List.compare_eq_compareLex,
        List.cons_lt_cons_iff, Ordering.then_eq_lt, ih, Std.compare_eq_lt,
        Std.LawfulEqCmp.compare_eq_iff_eq]

theorem lt_append_left (p : Bytes) {a b : Bytes} : p ++ a < p ++ b ↔ a < b := by
  induction p with
  | nil => rfl
  | cons x p ih => simp [ih]

theorem not_lt_of_isPrefix {p a : Bytes} (h : p <+: a) : ¬ a < p := by
  obtain ⟨t, rfl⟩ := h
  intro hlt
  have hnil : p ++ t < p ++ [] := by simpa using hlt
  exact List.not_lt_nil t ((lt_append_left p).mp hnil)

theorem isPrefix_between {p a b c : Bytes} (ha : p <+: a) (hc : p <+: c) (hab : a < b)
    (hbc : b < c) : p <+: b := by
  induction p generalizing a b c with
  | nil => exact List.nil_prefix
  | cons x p ih =>
    obtain ⟨s, rfl⟩ := ha
    obtain ⟨t, rfl⟩ := hc
    cases b with
    | nil => exact absurd hab (List.not_lt_nil _)
    | cons y b =>
      simp only [List.cons_append, List.cons_lt_cons_iff] at hab hbc
      have hxy : x = y := by
        rcases hab with hlt | ⟨heq, -⟩
        · rcases hbc with hlt' | ⟨heq', -⟩
          · exact absurd (UInt8.lt_trans hlt hlt') (UInt8.lt_irrefl x)
          · exact heq'.symm
        · exact heq
      subst hxy
      have hlt : ¬ x < x := UInt8.lt_irrefl x
      have hab' : p ++ s < b := by simpa [hlt] using hab
      have hbc' : b < p ++ t := by simpa [hlt] using hbc
      obtain ⟨u, rfl⟩ := ih (List.prefix_append p s) (List.prefix_append p t) hab' hbc'
      exact List.prefix_append (x :: p) u

theorem nodup_of_ascending {l : List Bytes} (hl : l.Pairwise (· < ·)) : l.Nodup := by
  refine List.Pairwise.imp ?_ hl
  intro a b hab heq
  exact List.lt_irrefl a (heq ▸ hab)

theorem eq_of_ascending {l l' : List Bytes} (hl : l.Pairwise (· < ·)) (hl' : l'.Pairwise (· < ·))
    (h : ∀ x, x ∈ l ↔ x ∈ l') : l = l' := by
  have hperm := (List.perm_ext_iff_of_nodup (nodup_of_ascending hl) (nodup_of_ascending hl')).mpr h
  exact hperm.eq_of_pairwise (fun a b _ _ hab hba => absurd (List.lt_trans hab hba) (List.lt_irrefl a)) hl hl'

end CloudBurrow.Utf8

import Mathlib

namespace CloudBurrow.Inventory

variable {P A G : Type} [DecidableEq P] [DecidableEq A]

def take (stock : P → Multiset A) (p : P) (a : A) : P → Multiset A :=
  Function.update stock p ((stock p).erase a)

def give (stock : P → Multiset A) (p : P) (a : A) : P → Multiset A :=
  Function.update stock p (a ::ₘ stock p)

variable {stock : P → Multiset A} {p q : P} {a b : A}

theorem mem_of_mem_take (h : b ∈ take stock p a q) : b ∈ stock q := by
  by_cases hq : q = p
  · subst hq
    rw [take, Function.update_self] at h
    exact Multiset.mem_of_mem_erase h
  · rwa [take, Function.update_of_ne hq] at h

theorem mem_take_of_ne (h : b ∈ stock q) (hne : q ≠ p ∨ b ≠ a) : b ∈ take stock p a q := by
  by_cases hq : q = p
  · subst hq
    rw [take, Function.update_self]
    exact (Multiset.mem_erase_of_ne (hne.resolve_left (by simp))).mpr h
  · rwa [take, Function.update_of_ne hq]

theorem take_comm (hne : p ≠ q) : take (take stock p a) q b = take (take stock q b) p a := by
  rw [take, take, take, take, Function.update_of_ne hne.symm, Function.update_of_ne hne,
    Function.update_comm hne]

omit [DecidableEq A] in
theorem mem_give : b ∈ give stock p a q ↔ (q = p ∧ b = a) ∨ b ∈ stock q := by
  by_cases hq : q = p
  · subst hq
    rw [give, Function.update_self, Multiset.mem_cons]
    simp
  · rw [give, Function.update_of_ne hq]
    simp [hq]

variable (ident : A → G)

structure Unique (stock : P → Multiset A) : Prop where
  once : ∀ p, ((stock p).map ident).Nodup
  apart : ∀ p q a b, p ≠ q → a ∈ stock p → b ∈ stock q → ident a ≠ ident b

def Unused (stock : P → Multiset A) (g : G) : Prop := ∀ p, ∀ a ∈ stock p, ident a ≠ g

variable {ident}

omit [DecidableEq P] [DecidableEq A] in
theorem Unique.same (h : Unique ident stock) (ha : a ∈ stock p) (hb : b ∈ stock q)
    (hid : ident a = ident b) : p = q ∧ a = b := by
  have hpq : p = q := by
    by_contra hne
    exact h.apart p q a b hne ha hb hid
  subst hpq
  exact ⟨rfl, Multiset.inj_on_of_nodup_map (h.once p) a ha b hb hid⟩

theorem Unique.take (h : Unique ident stock) (p : P) (a : A) : Unique ident (take stock p a) := by
  refine ⟨fun q => ?_, fun q r b c hne hb hc => ?_⟩
  · by_cases hq : q = p
    · subst hq
      rw [Inventory.take, Function.update_self]
      exact Multiset.nodup_of_le (Multiset.map_le_map (Multiset.erase_le a _)) (h.once q)
    · rw [Inventory.take, Function.update_of_ne hq]
      exact h.once q
  · exact h.apart q r b c hne (mem_of_mem_take hb) (mem_of_mem_take hc)

theorem Unique.unused_take (h : Unique ident stock) (ha : a ∈ stock p) :
    Unused ident (Inventory.take stock p a) (ident a) := by
  intro q b hb hid
  obtain ⟨rfl, rfl⟩ := h.same (mem_of_mem_take hb) ha hid
  rw [Inventory.take, Function.update_self] at hb
  have hnodup : (stock q).Nodup := Multiset.Nodup.of_map ident (h.once q)
  exact ((hnodup.mem_erase_iff).mp hb).1 rfl

omit [DecidableEq A] in
theorem Unique.give (h : Unique ident stock) (hu : Unused ident stock (ident a)) (p : P) :
    Unique ident (give stock p a) := by
  refine ⟨fun q => ?_, fun q r b c hne hb hc => ?_⟩
  · by_cases hq : q = p
    · subst hq
      rw [Inventory.give, Function.update_self, Multiset.map_cons, Multiset.nodup_cons]
      refine ⟨fun hm => ?_, h.once q⟩
      obtain ⟨b, hb, hid⟩ := Multiset.mem_map.mp hm
      exact hu q b hb hid
    · rw [Inventory.give, Function.update_of_ne hq]
      exact h.once q
  · rcases mem_give.mp hb with ⟨rfl, rfl⟩ | hb'
    · rcases mem_give.mp hc with ⟨rfl, -⟩ | hc'
      · exact absurd rfl hne
      · exact (hu r c hc').symm
    · rcases mem_give.mp hc with ⟨rfl, rfl⟩ | hc'
      · exact hu q b hb'
      · exact h.apart q r b c hne hb' hc'

theorem Unique.exchange (h : Unique ident stock) (ha : a ∈ stock p) (hid : ident b = ident a)
    (q : P) : Unique ident (Inventory.give (Inventory.take stock p a) q b) :=
  (h.take p a).give (hid ▸ h.unused_take ha) q

theorem Unused.take {g : G} (h : Unused ident stock g) (p : P) (a : A) :
    Unused ident (Inventory.take stock p a) g :=
  fun q b hb => h q b (mem_of_mem_take hb)

omit [DecidableEq A] in
theorem Unused.give {g : G} (h : Unused ident stock g) (hne : ident a ≠ g) (p : P) :
    Unused ident (Inventory.give stock p a) g := by
  intro q b hb
  rcases mem_give.mp hb with ⟨-, rfl⟩ | hb'
  · exact hne
  · exact h q b hb'

theorem Unused.exchange {g : G} (h : Unused ident stock g) (ha : a ∈ stock p)
    (hid : ident b = ident a) (q : P) :
    Unused ident (Inventory.give (Inventory.take stock p a) q b) g :=
  (h.take p a).give (hid ▸ h p a ha) q

end CloudBurrow.Inventory

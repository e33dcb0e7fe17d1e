import CloudBurrow.Storage.Catalogue

namespace CloudBurrow.Storage

open Utf8 Inventory Transaction

def Shelf.slot : Shelf → Slot
  | .noncurrent => .kept
  | .softdeleted => .soft

def Store.stock (s : Store) : Place → Multiset ObjectRecord
  | ⟨.live, key⟩ => ((s.get .object key).toList : List ObjectRecord)
  | ⟨.kept, key⟩ => (Shelf.noncurrent.read s key : List ObjectRecord)
  | ⟨.soft, key⟩ => (Shelf.softdeleted.read s key : List ObjectRecord)

namespace Store

variable {s : Store} {key : Bytes} {o o' : ObjectRecord}

theorem mem_stock_live : o ∈ s.stock ⟨.live, key⟩ ↔ s.get .object key = some o := by
  simp [stock, eq_comm]

theorem stock_shelf (s : Store) (sh : Shelf) (key : Bytes) :
    s.stock ⟨sh.slot, key⟩ = (sh.read s key : List ObjectRecord) := by
  cases sh <;> rfl

theorem mem_stock_shelf (sh : Shelf) : o ∈ s.stock ⟨sh.slot, key⟩ ↔ o ∈ sh.read s key := by
  rw [stock_shelf, Multiset.mem_coe]

theorem stock_congr {t : Store} (ho : t .object = s .object) (hn : t .noncurrent = s .noncurrent)
    (hs : t .softdeleted = s .softdeleted) : t.stock = s.stock := by
  funext ⟨slot, key⟩
  cases slot with
  | live => simp only [stock, get, ho]
  | kept => simp only [stock, Shelf.read_congr s .noncurrent hn]
  | soft => simp only [stock, Shelf.read_congr s .softdeleted hs]

theorem stock_put_object (s : Store) (key : Bytes) (o : ObjectRecord) :
    (s.put .object key o).stock = Function.update s.stock ⟨.live, key⟩ {o} := by
  funext ⟨slot, key'⟩
  cases slot with
  | live =>
    by_cases hk : key = key'
    · subst hk
      rw [Function.update_self]
      simp [stock]
    · rw [Function.update_of_ne (by simpa [eq_comm] using hk)]
      simp [stock, get_put_key s hk]
  | kept | soft =>
    rw [Function.update_of_ne (by simp)]
    simp only [stock, Shelf.read_put_object]

theorem stock_delete_object (s : Store) (key : Bytes) :
    (s.delete .object key).stock = Function.update s.stock ⟨.live, key⟩ 0 := by
  funext ⟨slot, key'⟩
  cases slot with
  | live =>
    by_cases hk : key = key'
    · subst hk
      rw [Function.update_self]
      simp [stock]
    · rw [Function.update_of_ne (by simpa [eq_comm] using hk)]
      simp [stock, get_delete_key s hk]
  | kept | soft =>
    rw [Function.update_of_ne (by simp)]
    simp only [stock, Shelf.read_delete_object]

theorem stock_write (s : Store) (sh : Shelf) (key : Bytes) (vs : List ObjectRecord) :
    (sh.write s key vs).stock = Function.update s.stock ⟨sh.slot, key⟩ (vs : Multiset _) := by
  funext ⟨slot, key'⟩
  by_cases hp : (⟨slot, key'⟩ : Place) = ⟨sh.slot, key⟩
  · rw [hp, Function.update_self, stock_shelf, Shelf.read_write_self]
  · rw [Function.update_of_ne hp]
    cases slot with
    | live => simp only [stock, Shelf.get_object_write]
    | kept =>
      cases sh with
      | noncurrent =>
        have hk : key ≠ key' := fun heq => hp (by rw [heq]; rfl)
        simp only [stock, Shelf.read_write_key s .noncurrent vs hk]
      | softdeleted =>
        have hne : Shelf.noncurrent ≠ .softdeleted := by simp
        simp only [stock, Shelf.read_write_shelf s .softdeleted vs hne]
    | soft =>
      cases sh with
      | noncurrent =>
        have hne : Shelf.softdeleted ≠ .noncurrent := by simp
        simp only [stock, Shelf.read_write_shelf s .noncurrent vs hne]
      | softdeleted =>
        have hk : key ≠ key' := fun heq => hp (by rw [heq]; rfl)
        simp only [stock, Shelf.read_write_key s .softdeleted vs hk]

theorem stock_delete_live (h : s.get .object key = some o) :
    (s.delete .object key).stock = take s.stock ⟨.live, key⟩ o := by
  rw [stock_delete_object, take]
  congr 1
  simp [stock, h]

theorem stock_put_new (h : s.get .object key = none) :
    (s.put .object key o).stock = give s.stock ⟨.live, key⟩ o := by
  rw [stock_put_object, give]
  congr 1
  simp [stock, h]

theorem stock_put_over (h : s.get .object key = some o) : (s.put .object key o').stock =
      give (take s.stock ⟨.live, key⟩ o) ⟨.live, key⟩ o' := by
  rw [stock_put_object, give, take, Function.update_idem, Function.update_self]
  congr 1
  simp [stock, h]

theorem stock_append (s : Store) (sh : Shelf) (key : Bytes) (o : ObjectRecord) :
    (sh.write s key (sh.read s key ++ [o])).stock = give s.stock ⟨sh.slot, key⟩ o := by
  rw [stock_write, give]
  congr 1
  rw [stock_shelf, Multiset.cons_coe, Multiset.coe_eq_coe]
  exact List.perm_append_singleton o _

theorem stock_write_take (sh : Shelf) {vs : List ObjectRecord} (h : vs.Perm ((sh.read s key).erase o)) :
    (sh.write s key vs).stock = take s.stock ⟨sh.slot, key⟩ o := by
  rw [stock_write, take]
  congr 1
  rw [stock_shelf, Multiset.coe_erase, Multiset.coe_eq_coe]
  exact h

theorem stock_write_revise (sh : Shelf) {vs : List ObjectRecord}
    (h : vs.Perm (o' :: (sh.read s key).erase o)) :
    (sh.write s key vs).stock = give (take s.stock ⟨sh.slot, key⟩ o) ⟨sh.slot, key⟩ o' := by
  rw [stock_write, give, take, Function.update_idem, Function.update_self]
  congr 1
  rw [stock_shelf, Multiset.coe_erase, Multiset.cons_coe, Multiset.coe_eq_coe]
  exact h

end Store

def Tx.catalogue (tx : Tx) : Catalogue :=
  { bucket := tx.store.get .bucket, stock := tx.store.stock, lastGen := tx.lastGen }

theorem Beside.catalogue {ks : List Kind} {tx tx' : Tx} (h : Beside ks tx tx')
    (hk : ∀ k ∈ [Kind.bucket, .object, .noncurrent, .softdeleted], k ∉ ks) :
    tx'.catalogue = tx.catalogue := by
  have hb := h.store .bucket (hk _ (by simp))
  have hs := Store.stock_congr (h.store .object (hk _ (by simp)))
    (h.store .noncurrent (hk _ (by simp))) (h.store .softdeleted (hk _ (by simp)))
  simp only [Tx.catalogue, h.lastGen, hs, Catalogue.mk.injEq, and_true]
  funext name
  simp only [Store.get, hb]

def Under (J : Catalogue → Prop) (now : Time) (gs : Grant) (tx tx' : Tx) : Prop :=
  J tx.catalogue → J tx'.catalogue ∧ Edits now gs tx.catalogue tx'.catalogue

namespace Under

variable {J : Catalogue → Prop} {now : Time} {gs : Grant}

instance : Std.Refl (Under J now gs) := ⟨fun _ h => ⟨h, .refl⟩⟩

instance : IsTrans Tx (Under J now gs) where
  trans _ _ _ h h' hJ := by
    obtain ⟨hJ', he⟩ := h hJ
    obtain ⟨hJ'', he'⟩ := h' hJ'
    exact ⟨hJ'', he.trans he'⟩

theorem of_same {tx tx' : Tx} (h : tx'.catalogue = tx.catalogue) : Under J now gs tx tx' :=
  fun hJ => by rw [h]; exact ⟨hJ, .refl⟩

end Under

end CloudBurrow.Storage

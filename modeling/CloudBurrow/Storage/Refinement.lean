import CloudBurrow.Storage.Effects
import CloudBurrow.Storage.Server

namespace CloudBurrow.Storage

open Utf8 Inventory Transaction

def Stable (now : Time) (gs : Grant) (J : Catalogue → Prop) : Prop :=
  ∀ c c', Edit now gs c c' → J c → J c'

variable {now : Time}

theorem stable_sound (gs : Grant) : Stable now gs Catalogue.Sound :=
  fun _ _ h hc => h.sound hc

structure Ready (b : BucketRecord) (c : Catalogue) : Prop where
  sound : c.Sound
  bucket : c.bucket b.name = some b

theorem stable_ready (b : BucketRecord) (gs : Grant) : Stable now gs (Ready b) := fun _ _ h hc =>
  ⟨h.sound hc.sound, by rw [h.bucket]; exact hc.bucket⟩

section Under

variable {J : Catalogue → Prop} {now : Time} {gs : Grant} {tx tx' : Tx} {A : Type}
variable {c : Catalogue}

theorem Edits.stable (hst : Stable now gs J) {c' : Catalogue} (h : Edits now gs c c') (hJ : J c) : J c' := by
  induction h with
  | refl => exact hJ
  | tail _ hs ih => exact hst _ _ hs ih

theorem Under.intro (hst : Stable now gs J)
    (h : J tx.catalogue → Edits now gs tx.catalogue tx'.catalogue) : Under J now gs tx tx' :=
  fun hJ => ⟨(h hJ).stable hst hJ, h hJ⟩

variable {m : Action A}

theorem moves_beside {ks : List Kind} (h : Moves (Beside ks) m)
    (hk : ∀ k ∈ [Kind.bucket, .object, .noncurrent, .softdeleted], k ∉ ks) :
    Moves (Under J now gs) m :=
  fun s => .of_same ((h s).catalogue hk)

theorem Edits.beside {ks : List Kind} (h : Edits now gs c tx.catalogue) (hb : Beside ks tx tx')
    (hk : ∀ k ∈ [Kind.bucket, .object, .noncurrent, .softdeleted], k ∉ ks) :
    Edits now gs c tx'.catalogue := by
  rw [hb.catalogue hk]
  exact h

theorem edits_still {B : Type} {f : A → Action B} (hm : Still m) (h₀ : Edits now gs c tx.catalogue)
    (hf : ∀ a, m tx = (.ok a, tx) → Edits now gs c (f a tx).2.catalogue) :
    Edits now gs c ((m >>= f) tx).2.catalogue :=
  after_still (Q := fun t : Tx => Edits now gs c t.catalogue) hm h₀ hf

theorem edits_bind {B : Type} {f : A → Action B} (h₀ : Edits now gs c (m tx).2.catalogue)
    (hf : ∀ a t, m tx = (.ok a, t) → Edits now gs c t.catalogue → Edits now gs c (f a t).2.catalogue) :
    Edits now gs c ((m >>= f) tx).2.catalogue :=
  after_bind (Q := fun t : Tx => Edits now gs c t.catalogue) h₀ hf

end Under

theorem Tx.catalogue_with (tx : Tx) {s : Store} {st : Place → Multiset ObjectRecord}
    (hb : s .bucket = tx.store .bucket) (hst : s.stock = st) :
    ({ tx with store := s } : Tx).catalogue = { tx.catalogue with stock := st } := by
  simp only [Tx.catalogue, hst, Catalogue.mk.injEq, and_true]
  funext name
  simp only [Store.get, hb]

variable {name : Bytes} {o : ObjectRecord}

theorem Proper.names {key bucket : Bytes} (h : Proper key o)
    (hkey : key = objectKey bucket name) (hb : slash ∉ bucket) :
    o.bucket = bucket ∧ o.name = name :=
  objectKey_inj h.bucket hb (h.key.trans hkey)

namespace Ready

variable {b : BucketRecord} {c : Catalogue}

theorem guarded (h : Ready b c) {o : ObjectRecord} (hb : o.bucket = b.name) (now : Time) :
    c.Guarded now o ↔ Protected b o now := by
  rw [Catalogue.Guarded, hb, h.bucket, Option.getD_some]

end Ready

def Lets (gs : Grant) (b : BucketRecord) (o : ObjectRecord) : Prop :=
  gs.touch o.generation ∧
    (b.versioningEnabled = true ∨ b.softRetention ≠ 0 ∨ gs.drop o.generation)

variable {gs : Grant}

theorem Grant.Free.lets (h : gs.Free) (b : BucketRecord) (o : ObjectRecord) :
    Lets gs b o := ⟨h.touch _, .inr (.inr (h.drop _))⟩

theorem discarded_bucket (b : BucketRecord) (o : ObjectRecord) (now : Time) (s : Store) :
    discarded b o now s .bucket = s .bucket := by
  unfold discarded
  split_ifs
  · rfl
  · exact Shelf.write_other _ _ _ (by simp [Shelf.kind])

variable {b : BucketRecord} {tx : Tx}

theorem discarded_edits {p : Place} {s : Store} (hr : Ready b tx.catalogue)
    (ho : o ∈ tx.store.stock p) (hp : p.slot ≠ .soft) (hkey : p.key = objectKey b.name name)
    (ht : gs.touch o.generation) (hg : ¬ Protected b o now)
    (hd : b.softRetention ≠ 0 ∨ gs.drop o.generation) (hs : s.stock = take tx.store.stock p o)
    (hb : s .bucket = tx.store .bucket) :
    Edits now gs tx.catalogue ({ tx with store := discarded b o now s } : Tx).catalogue := by
  have hproper := hr.sound.proper p o ho
  obtain ⟨hbucket, hname⟩ := hproper.names hkey b.named.1
  have hguard : ¬ tx.catalogue.Guarded now o := fun h => hg ((hr.guarded hbucket now).mp h)
  have hbd := (discarded_bucket b o now s).trans hb
  by_cases hsoft : b.softRetention = 0
  · have hst : (discarded b o now s).stock = take tx.store.stock p o := by
      rw [discarded, if_pos hsoft, hs]
    rw [tx.catalogue_with hbd hst]
    exact .single (.drop ho ht (.inr hguard) (hd.resolve_left (by simpa using hsoft)))
  · have hplace : p.key = objectKey b.name o.name := by rw [hkey, hname]
    have hst : (discarded b o now s).stock =
        give (take tx.store.stock p o) ⟨.soft, p.key⟩ (o.softened b now) := by
      rw [discarded, if_neg hsoft, Store.stock_append, hs, hproper.softened.recode, hplace]
      rfl
    rw [tx.catalogue_with hbd hst]
    exact .single (.discard ho ht hp hguard ⟨rfl, rfl, rfl, rfl⟩)

theorem retired_edits {cur : ObjectRecord} (hr : Ready b tx.catalogue)
    (h : tx.store.get .object (objectKey b.name name) = some cur)
    (hp : protect b cur now b.versioningEnabled = none) (hd : Lets gs b cur) :
    Edits now gs tx.catalogue ({ tx with store := retired b name now cur tx.store } : Tx).catalogue := by
  have ho := Store.mem_stock_live.mpr h
  have hproper := hr.sound.proper ⟨.live, objectKey b.name name⟩ cur ho
  obtain ⟨hbucket, -⟩ := hproper.names rfl b.named.1
  have hdel : tx.store.delete .object (objectKey b.name name) .bucket = tx.store .bucket :=
    Store.delete_other _ (by simp) _
  obtain ⟨hheld, hret⟩ := protect_eq_none.mp hp
  unfold retired
  cases hv : b.versioningEnabled with
  | false =>
    rw [hv] at hret
    simp only [Bool.false_eq_true, if_false]
    refine discarded_edits hr ho (by simp) rfl hd.1 ?_ (hd.2.resolve_left (by simp [hv])) (Store.stock_delete_live h) hdel
    rintro (hh | hh)
    · exact hheld hh
    · exact hret.elim (by simp) fun hn => hn hh
  | true =>
    simp only [if_true]
    have hst := Store.stock_append (tx.store.delete .object (objectKey b.name name)) .noncurrent
      (objectKey b.name name) (cur.archived now).recode
    rw [Store.stock_delete_live h, hproper.archived.recode] at hst
    rw [hproper.archived.recode,
      tx.catalogue_with ((Shelf.write_other _ _ _ (by simp [Shelf.kind])).trans hdel) hst]
    exact .single (.archive ho hd.1 (hbucket ▸ hr.bucket) hv hheld)

theorem notify_apart : ∀ k ∈ [Kind.bucket, .object, .noncurrent, .softdeleted], k ∉ notifyKinds := by
  decide

theorem quiet_apart : ∀ k ∈ [Kind.bucket, .object, .noncurrent, .softdeleted], k ∉ quietKinds := by
  decide

theorem retireLive_edits {g : Int} (hr : Ready b tx.catalogue)
    (hd : ∀ cur ∈ tx.catalogue.stock ⟨.live, objectKey b.name name⟩, Lets gs b cur) :
    Edits now gs tx.catalogue (retireLive b name now g tx).2.catalogue := by
  rcases retireLive_cases b name now g tx with ⟨-, hrun⟩ | ⟨e, hrun⟩ | ⟨cur, h, hp, tx', hrun, hb⟩ <;> rw [hrun]
  have hlets := hd cur (Store.mem_stock_live.mpr h)
  exact (retired_edits hr h hp hlets).beside hb notify_apart

def Yields (gs : Grant) (b : BucketRecord) (names : List Bytes) (c : Catalogue) : Prop :=
  ∀ name ∈ names, ∀ cur ∈ c.stock ⟨.live, objectKey b.name name⟩, Lets gs b cur

theorem Edit.live_of_quiet {c c' : Catalogue} {key : Bytes} (h : Edit now gs.quiet c c') (ho : o ∈ c'.stock ⟨.live, key⟩) :
    ∃ x ∈ c.stock ⟨.live, key⟩, x.generation = o.generation := by
  have hback : ∀ p q x y, o ∈ give (take c.stock p x) q y ⟨.live, key⟩ → q.slot ≠ .live →
      ∃ x ∈ c.stock ⟨.live, key⟩, x.generation = o.generation := by
    intro p q x y hmem hq
    rcases mem_give.mp hmem with ⟨rfl, -⟩ | hmem
    · exact absurd rfl hq
    · exact ⟨o, mem_of_mem_take hmem, rfl⟩
  cases h <;> dsimp only at ho
  case drop => exact ⟨o, mem_of_mem_take ho, rfl⟩
  case archive => exact hback _ _ _ _ ho (by simp)
  case discard => exact hback _ _ _ _ ho (by simp)
  case rename hr => exact hr.elim
  case revise hx _ hs hn =>
      rcases mem_give.mp ho with ⟨rfl, rfl⟩ | ho
      · exact ⟨_, hx, hs.generation.symm⟩
      · exact ⟨o, mem_of_mem_take ho, rfl⟩
  case add ha _ _ => exact ha.elim
  case advance => exact ⟨o, ho, rfl⟩

theorem stable_yields (gs : Grant) (b : BucketRecord) (names : List Bytes) :
    Stable now gs.quiet (Yields gs b names) := by
  intro c c' h hy name hname cur hcur
  obtain ⟨x, hx, hgen⟩ := h.live_of_quiet hcur
  have hlets := hy name hname x hx
  rwa [Lets, hgen] at hlets

theorem sameVersion_withStorageClass (b : BucketRecord) (o : ObjectRecord) :
    SameVersion o (withStorageClass b o) := by
  unfold withStorageClass
  split_ifs <;> exact ⟨rfl, rfl, rfl, rfl⟩

variable {o' : ObjectRecord}

theorem sameVersion_checkNewObject (h : checkNewObject b o = .ok o') : SameVersion o o' := by
  unfold checkNewObject at h
  dsimp only at h
  split_ifs at h <;> cases h <;> exact ⟨rfl, rfl, rfl, rfl⟩

theorem sameVersion_openAppendable {handle : Bytes} (h : openAppendable b handle o = .ok o') : SameVersion o o' := by
  unfold openAppendable at h
  split_ifs at h
  cases h
  exact ⟨rfl, rfl, rfl, rfl⟩

theorem sameVersion_applyCustomTime {f : Field TimeText} (h : applyCustomTime o f = .ok o') : SameVersion o o' := by
  unfold applyCustomTime at h
  split at h
  · cases h
    exact .refl o
  · split_ifs at h
    cases h
    exact .refl o
  · cases h
  · split_ifs at h
    cases h
    exact ⟨rfl, rfl, rfl, rfl⟩

end CloudBurrow.Storage

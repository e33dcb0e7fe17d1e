import CloudBurrow.Process.Agreement
import CloudBurrow.Process.StableOrder
import CloudBurrow.Storage.Listing
import CloudBurrow.Storage.Recoded

namespace CloudBurrow.Storage

open Utf8 Transaction Interleaving StableOrder

section Effect

def lasting (t : Time) (v : ObjectRecord) : Bool := before t v.hardDelete

def sweptShelf (t : Time) (vs : Option (List ObjectRecord)) : Option (List ObjectRecord) :=
  vs.bind fun vs =>
    let kept := vs.filter (lasting t)
    if kept.length = vs.length then some vs
    else if kept = [] then none
    else some ((byGeneration kept).map ObjectRecord.recode)

def sweptBucket (t : Time) (b : Option BucketRecord) : Option BucketRecord :=
  b.filter fun b => before t b.hardDelete

theorem sweptBucket_some (t : Time) (b : BucketRecord) :
    sweptBucket t (some b) = if before t b.hardDelete then some b else none := by
  cases h : before t b.hardDelete <;> simp [sweptBucket, Option.filter, h]

structure Works (k : Kind) (f : Option (Val k) → Option (Val k)) (step : Bytes → Action Unit) : Prop where
  one : ∀ key tx, ∃ s, step key tx = (.ok (), { tx with store := s }) ∧
    (∀ k' ≠ k, s k' = tx.store k') ∧
    ∀ key', s.get k key' = if key' = key then f (tx.store.get k key) else tx.store.get k key'

theorem Works.forEach {k : Kind} {f : Option (Val k) → Option (Val k)} {step : Bytes → Action Unit}
    (h : Works k f step) {keys : List Bytes} (hkeys : keys.Nodup) (tx : Tx) :
    ∃ s, Txn.forEach keys step tx = (.ok (), { tx with store := s }) ∧
      (∀ k' ≠ k, s k' = tx.store k') ∧
      ∀ key, s.get k key = if key ∈ keys then f (tx.store.get k key) else tx.store.get k key := by
  induction keys generalizing tx with
  | nil => exact ⟨tx.store, rfl, fun _ _ => rfl, fun _ => rfl⟩
  | cons key keys ih =>
    obtain ⟨hfresh, hkeys⟩ := List.nodup_cons.mp hkeys
    obtain ⟨s₁, hrun₁, hother₁, hget₁⟩ := h.one key tx
    obtain ⟨s₂, hrun₂, hother₂, hget₂⟩ := ih hkeys { tx with store := s₁ }
    refine ⟨s₂, ?_, fun k' hk' => (hother₂ k' hk').trans (hother₁ k' hk'), fun key' => ?_⟩
    · exact (Txn.bind_ok hrun₁).trans hrun₂
    · rw [hget₂, hget₁]
      by_cases hhead : key' = key
      · subst hhead
        simp [hfresh]
      · simp [hhead]

theorem works_sweepShelf (t : Time) : Works .softdeleted (sweptShelf t) (sweepShelf t) := by
  refine ⟨fun key tx => ?_⟩
  unfold sweepShelf
  dsimp only
  have hread : Shelf.softdeleted.read tx.store key = (tx.store.get .softdeleted key).getD [] := rfl
  split_ifs with hsame
  · refine ⟨tx.store, rfl, fun _ _ => rfl, fun key' => ?_⟩
    split_ifs with hkey
    · subst hkey
      cases hget : tx.store.get .softdeleted key' with
      | none => rfl
      | some vs =>
        rw [hread, hget] at hsame
        exact (if_pos hsame).symm
    · rfl
  · refine ⟨_, rfl, fun k' hk' => Shelf.write_other _ _ _ hk', fun key' => ?_⟩
    have hsort : ∀ vs : List ObjectRecord, (byGeneration vs).map ObjectRecord.recode = [] ↔ vs = [] := by
      intro vs
      rw [List.map_eq_nil_iff, ← List.length_eq_zero_iff, (perm_byGeneration vs).length_eq,
        List.length_eq_zero_iff]
    obtain ⟨vs, hget⟩ : ∃ vs, tx.store.get .softdeleted key = some vs := by
      cases hget : tx.store.get .softdeleted key with
      | none =>
        rw [hread, hget] at hsame
        exact absurd rfl hsame
      | some vs => exact ⟨vs, rfl⟩
    have hkept : Shelf.softdeleted.read tx.store key = vs := by rw [hread, hget, Option.getD_some]
    rw [hkept] at hsame ⊢
    have hswept : sweptShelf t (some vs) =
        if vs.filter (lasting t) = [] then none
        else some ((byGeneration (vs.filter (lasting t))).map ObjectRecord.recode) := if_neg hsame
    have hlasting : (fun v : ObjectRecord => before t v.hardDelete) = lasting t := rfl
    rw [hget, hswept, hlasting]
    simp only [Shelf.write, hsort]
    by_cases hkey : key' = key
    · subst hkey
      rw [if_pos rfl]
      split_ifs
      · exact Store.get_delete_self _
      · exact Store.get_put_self _ _
    · rw [if_neg hkey]
      split_ifs
      · exact Store.get_delete_key _ (Ne.symm hkey)
      · exact Store.get_put_key _ (Ne.symm hkey) _

theorem works_sweepBucket (t : Time) : Works .softbucket (sweptBucket t) (sweepBucket t) := by
  refine ⟨fun key tx => ?_⟩
  have hrun : sweepBucket t key tx =
      if (tx.store.get .softbucket key).any fun b => before t b.hardDelete then (.ok (), tx)
      else (.ok (), { tx with store := tx.store.delete .softbucket key }) := by
    unfold sweepBucket
    rw [Tx.get, Txn.read_bind]
    split_ifs <;> rfl
  rw [hrun]
  split_ifs with hlasts
  · refine ⟨tx.store, rfl, fun _ _ => rfl, fun key' => ?_⟩
    split_ifs with hkey
    · subst hkey
      cases hget : tx.store.get .softbucket key' with
      | none => rfl
      | some b =>
        rw [hget, Option.any_some] at hlasts
        exact ((sweptBucket_some t b).trans (if_pos hlasts)).symm
    · rfl
  · refine ⟨_, rfl, fun k' hk' => Store.delete_other _ hk' _, fun key' => ?_⟩
    rw [Store.get_delete]
    by_cases hkey : key' = key
    · subst hkey
      rw [if_pos rfl, if_pos rfl]
      cases hget : tx.store.get .softbucket key' with
      | none => rfl
      | some b =>
        rw [hget, Option.any_some] at hlasts
        exact ((sweptBucket_some t b).trans (if_neg hlasts)).symm
    · rw [if_neg (Ne.symm hkey), if_neg hkey]

theorem sweep_run (t : Time) (tx : Tx) : ∃ s, sweep t tx = (.ok (), { tx with store := s }) ∧
      (∀ k ≠ Kind.softdeleted, k ≠ .softbucket → s k = tx.store k) ∧
      (∀ key, s.get .softdeleted key = sweptShelf t (tx.store.get .softdeleted key)) ∧
      ∀ key, s.get .softbucket key = sweptBucket t (tx.store.get .softbucket key) := by
  have hall : ∀ (s : Store) (k : Kind) (key : Bytes), key ∉ s.list k [] → s.get k key = none := by
    intro s k key hkey
    by_contra hne
    obtain ⟨v, hv⟩ := Option.ne_none_iff_exists'.mp hne
    exact hkey ((s.mem_list).mpr ⟨List.nil_prefix, v, hv⟩)
  obtain ⟨s₁, hrun₁, hother₁, hget₁⟩ :=
    (works_sweepShelf t).forEach (Store.nodup_list tx.store (k := .softdeleted) []) tx
  obtain ⟨s₂, hrun₂, hother₂, hget₂⟩ :=
    (works_sweepBucket t).forEach (Store.nodup_list s₁ (k := .softbucket) []) { tx with store := s₁ }
  refine ⟨s₂, ?_, fun k hs hb => (hother₂ k hb).trans (hother₁ k hs), fun key => ?_, fun key => ?_⟩
  · have hrest : (Tx.list .softbucket [] >>= fun buckets => Txn.forEach buckets (sweepBucket t))
        { tx with store := s₁ } = (.ok (), { tx with store := s₂ }) := hrun₂
    have hfirst : (Txn.forEach (tx.store.list .softdeleted []) (sweepShelf t) >>= fun _ =>
        Tx.list .softbucket [] >>= fun buckets => Txn.forEach buckets (sweepBucket t)) tx =
        (.ok (), { tx with store := s₂ }) := (Txn.bind_ok hrun₁).trans hrest
    exact hfirst
  · have hkind : s₂.get .softdeleted key = s₁.get .softdeleted key := by
      simp only [Store.get, hother₂ .softdeleted (by simp)]
    rw [hkind, hget₁]
    split_ifs with hmem
    · rfl
    · rw [hall _ _ _ hmem]
      rfl
  · have hkind : s₁.get .softbucket key = tx.store.get .softbucket key := by
      simp only [Store.get, hother₁ .softbucket (by simp)]
    rw [hget₂, ← hkind]
    split_ifs with hmem
    · rfl
    · rw [hall _ _ _ hmem]
      rfl

end Effect

structure Faded (t : Time) (tx tx' : Tx) : Prop where
  others : ∀ k, k ≠ .softdeleted → k ≠ .softbucket → tx'.store k = tx.store k
  soft : ∀ key, SameBy ObjectRecord.generation (lasting t) (Shelf.softdeleted.read tx.store key)
    (Shelf.softdeleted.read tx'.store key)
  bucket : ∀ key, sweptBucket t (tx'.store.get .softbucket key) =
    sweptBucket t (tx.store.get .softbucket key)
  lastGen : tx'.lastGen = tx.lastGen
  outboxSeq : tx'.outboxSeq = tx.outboxSeq
  clock : tx'.clock = tx.clock
  random : tx'.random = tx.random

theorem sameBy_sweptShelf {t : Time} {vs : Option (List ObjectRecord)} (h : ∀ o ∈ vs.getD [], o.recode = o) :
    SameBy ObjectRecord.generation (lasting t) (vs.getD []) ((sweptShelf t vs).getD []) := by
  cases vs with
  | none => exact .refl []
  | some vs =>
    have hkept : SameBy ObjectRecord.generation (lasting t) vs (byGeneration (vs.filter (lasting t))) :=
      SameBy.trans (.keep vs) (.sort _)
    have hswept : (sweptShelf t (some vs)).getD [] = vs ∨
        (sweptShelf t (some vs)).getD [] = byGeneration (vs.filter (lasting t)) := by
      simp only [sweptShelf, Option.bind_some]
      split_ifs with hlen hnone
      · exact .inl rfl
      · rw [hnone]
        exact .inr rfl
      · refine .inr (map_recode_eq fun v hv => h v ?_)
        exact List.mem_of_mem_filter (mem_byGeneration.mp hv)
    rcases hswept with hswept | hswept
    · rw [hswept]
      exact .refl vs
    · rw [hswept]
      exact hkept

theorem sweptBucket_sweptBucket (t : Time) (b : Option BucketRecord) :
    sweptBucket t (sweptBucket t b) = sweptBucket t b := by
  simp [sweptBucket, Option.filter_filter]

structure Sweeps (t : Time) (tx tx' : Tx) : Prop where
  others : ∀ k, k ≠ .softdeleted → k ≠ .softbucket → tx'.store k = tx.store k
  soft : ∀ key, tx'.store.get .softdeleted key = sweptShelf t (tx.store.get .softdeleted key)
  bucket : ∀ key, tx'.store.get .softbucket key = sweptBucket t (tx.store.get .softbucket key)
  lastGen : tx'.lastGen = tx.lastGen
  outboxSeq : tx'.outboxSeq = tx.outboxSeq
  clock : tx'.clock = tx.clock
  random : tx'.random = tx.random

theorem sweeps_update (s : Server) (e₀ e : Env) :
    Sweeps e₀.now (s.tx e) ((s.update e₀ (sweep e₀.now)).2.tx e) := by
  obtain ⟨s', hrun, hother, hsoft, hbucket⟩ := sweep_run e₀.now (s.tx e₀)
  rw [Server.update, hrun]
  exact ⟨hother, hsoft, hbucket, rfl, rfl, rfl, rfl⟩

theorem Sweeps.faded {t : Time} {tx tx' : Tx} (h : Sweeps t tx tx') (hr : Recoded tx.store) :
    Faded t tx tx' := by
  refine ⟨h.others, fun key => ?_, fun key => ?_, h.lastGen, h.outboxSeq, h.clock, h.random⟩
  · have hswept := sameBy_sweptShelf (t := t) fun o ho => (hr.soft key o ho).1.recode
    rw [← h.soft] at hswept
    exact hswept
  · rw [h.bucket, sweptBucket_sweptBucket]

theorem Shelf.write_congr (s : Store) {s' : Store} (sh : Shelf) {key : Bytes}
    (vs : List ObjectRecord) (h : s' sh.kind = s sh.kind) :
    sh.write s' key vs sh.kind = sh.write s key vs sh.kind := by
  cases sh <;> simp only [write, kind] at h ⊢ <;> split_ifs <;>
    simp only [Store.delete_self, Store.put_self, h]

namespace Faded

variable {t now : Time} {tx tx' : Tx}

theorem get (h : Faded t tx tx') {k : Kind} (hs : k ≠ .softdeleted) (hb : k ≠ .softbucket)
    (key : Bytes) : tx'.store.get k key = tx.store.get k key := by
  simp only [Store.get, h.others k hs hb]

theorem onKind (h : Faded t tx tx') {k : Kind} (hs : k ≠ .softdeleted) (hb : k ≠ .softbucket)
    {f : Store → Store} (hf : ∀ s, ∀ k' ≠ k, f s k' = s k')
    (hk : ∀ s s' : Store, s' k = s k → f s' k = f s k) :
    Faded t { tx with store := f tx.store } { tx' with store := f tx'.store } := by
  refine ⟨fun k' hs' hb' => ?_, fun key => ?_, fun key => ?_, h.lastGen, h.outboxSeq, h.clock, h.random⟩
  · by_cases hkk : k' = k
    · subst hkk
      exact hk _ _ (h.others _ hs' hb')
    · exact ((hf _ _ hkk).trans (h.others k' hs' hb')).trans (hf _ _ hkk).symm
  · have hread : ∀ s, Shelf.softdeleted.read (f s) key = Shelf.softdeleted.read s key :=
      fun s => Shelf.read_congr s .softdeleted (hf s _ hs.symm)
    rw [hread, hread]
    exact h.soft key
  · have hget : ∀ s, (f s).get .softbucket key = s.get .softbucket key := fun s => by
      simp only [Store.get, hf s _ hb.symm]
    rw [hget, hget]
    exact h.bucket key

theorem onShelf (h : Faded t tx tx') (key : Bytes) {f : List ObjectRecord → List ObjectRecord}
    (hf : ∀ l l', SameBy ObjectRecord.generation (lasting t) l l' →
      SameBy ObjectRecord.generation (lasting t) (f l) (f l')) :
    Faded t
      { tx with store := Shelf.softdeleted.write tx.store key (f (Shelf.softdeleted.read tx.store key)) }
      { tx' with store :=
          Shelf.softdeleted.write tx'.store key (f (Shelf.softdeleted.read tx'.store key)) } := by
  refine ⟨fun k hs hb => ?_, fun key' => ?_, fun key' => ?_, h.lastGen, h.outboxSeq, h.clock, h.random⟩
  · have hkept : ∀ s vs, Shelf.softdeleted.write s key vs k = s k :=
      fun s vs => Shelf.write_other s .softdeleted vs hs
    exact ((hkept _ _).trans (h.others k hs hb)).trans (hkept _ _).symm
  · by_cases hkey : key = key'
    · subst hkey
      rw [Shelf.read_write_self, Shelf.read_write_self]
      exact hf _ _ (h.soft key)
    · rw [Shelf.read_write_key _ _ _ hkey, Shelf.read_write_key _ _ _ hkey]
      exact h.soft key'
  · rw [Shelf.get_write_other _ _ _ (by simp [Shelf.kind]),
      Shelf.get_write_other _ _ _ (by simp [Shelf.kind])]
    exact h.bucket key'

end Faded

section Agreement

variable {t now : Time}
variable {k : Kind}

theorem agrees_get (hs : k ≠ .softdeleted) (hb : k ≠ .softbucket) (key : Bytes) : Agrees (Faded t) (Tx.get k key) :=
  agrees_read fun _ _ h => h.get hs hb key

theorem agrees_list (hs : k ≠ .softdeleted) (hb : k ≠ .softbucket) (start : Bytes) :
    Agrees (Faded t) (Tx.list k start) :=
  agrees_read fun _ _ h => by simp only [Store.list, h.others k hs hb]

theorem agrees_values (hs : k ≠ .softdeleted) (hb : k ≠ .softbucket) (start : Bytes) :
    Agrees (Faded t) (Tx.values k start) :=
  agrees_read fun _ _ h => by
    simp only [Store.values, Store.list, Store.get, h.others k hs hb]

theorem agrees_put (hs : k ≠ .softdeleted) (hb : k ≠ .softbucket) (key : Bytes)
    (v : Val k) : Agrees (Faded t) (Tx.put k key v) := by
  refine agrees_write fun _ _ h => h.onKind (k := k) hs hb (fun s k' hk' => Store.put_other s hk' _ _)
    fun s s' heq => ?_
  rw [Store.put_self, Store.put_self, heq]

theorem agrees_delete (hs : k ≠ .softdeleted) (hb : k ≠ .softbucket) (key : Bytes) :
    Agrees (Faded t) (Tx.delete k key) := by
  refine agrees_write fun _ _ h => h.onKind (k := k) hs hb (fun s k' hk' => Store.delete_other s hk' _)
    fun s s' heq => ?_
  rw [Store.delete_self, Store.delete_self, heq]

theorem agrees_draw : Agrees (Faded t) nextGeneration := by
  intro tx tx' h
  unfold nextGeneration
  dsimp only
  rw [h.lastGen, h.clock]
  exact ⟨rfl, h.others, h.soft, h.bucket, rfl, h.outboxSeq, rfl, h.random⟩

theorem agrees_outboxKey (at' : Time) : Agrees (Faded t) (outboxKey at') := by
  intro tx tx' h
  unfold outboxKey
  dsimp only
  rw [h.outboxSeq, h.random]
  exact ⟨rfl, h.others, h.soft, h.bucket, h.lastGen, rfl, h.clock, rfl⟩

theorem agrees_archive (bucket name : Bytes) (o : ObjectRecord) :
    Agrees (Faded t) (appendVersion .noncurrent bucket name o) := by
  refine agrees_write fun _ _ h => h.onKind (k := .noncurrent) (by simp) (by simp)
    (f := fun s => Shelf.noncurrent.write s (objectKey bucket name)
      (Shelf.noncurrent.read s (objectKey bucket name) ++ [o.recode]))
    (fun s k' hk' => Shelf.write_other s .noncurrent _ hk') fun s s' heq => ?_
  rw [Shelf.read_congr s .noncurrent heq]
  exact Shelf.write_congr s .noncurrent _ heq

theorem agrees_discard (b : BucketRecord) (o : ObjectRecord) (now : Time) :
    Agrees (Faded t) (discard b o now) := by
  unfold discard
  split_ifs
  · exact agrees_pure ()
  · exact agrees_write fun _ _ h => h.onShelf _ fun _ _ hsame => hsame.append _

theorem agrees_channelsOf (bucket : Bytes) : Agrees (Faded t) (channelsOf bucket) :=
  agrees_bind (agrees_values (by simp) (by simp) _) fun _ => agrees_pure _

theorem agrees_removeChannel (c : ChannelRecord) : Agrees (Faded t) (removeChannel c) := by
  refine agrees_bind (agrees_delete (by simp) (by simp) _) fun _ => ?_
  refine agrees_bind (agrees_list (by simp) (by simp) _) fun out => agrees_forEach out fun k _ => ?_
  refine agrees_bind (agrees_get (by simp) (by simp) _) fun m => ?_
  split_ifs
  · exact agrees_delete (by simp) (by simp) _
  · exact agrees_pure ()

theorem agrees_emit (ev : ObjectEvent) : Agrees (Faded t) (emit ev) := by
  refine agrees_bind (agrees_bind (agrees_channelsOf _) fun channels => ?_) fun _ => ?_
  · refine agrees_forEach channels fun c _ => ?_
    split_ifs
    · exact agrees_removeChannel c
    · refine agrees_bind (agrees_outboxKey _) fun key => ?_
      refine agrees_bind (agrees_put (by simp) (by simp) _ _) fun _ => ?_
      exact agrees_put (by simp) (by simp) _ _
    · exact agrees_pure ()
  · refine agrees_bind (agrees_bind (agrees_values (by simp) (by simp) _) fun _ => agrees_pure _)
      fun configs => agrees_forEach configs fun c _ => ?_
    split_ifs
    · exact agrees_bind (agrees_outboxKey _) fun key => agrees_put (by simp) (by simp) _ _
    · exact agrees_pure ()

theorem agrees_getFolder (bucket name : Bytes) : Agrees (Faded t) (getFolder bucket name) :=
  agrees_bind (agrees_get (by simp) (by simp) _) fun _ => agrees_pure _

theorem agrees_ensureFolders (n : Nat) (bucket dir : Bytes) (now : Time) :
    Agrees (Faded t) (ensureFolders n bucket dir now) := by
  induction n generalizing dir with
  | zero => exact agrees_pure ()
  | succ n ih =>
    unfold ensureFolders
    split_ifs
    · exact agrees_pure ()
    · refine agrees_bind (agrees_getFolder _ _) fun f => ?_
      cases f with
      | some _ => exact agrees_pure ()
      | none => exact agrees_bind (ih _) fun _ => agrees_put (by simp) (by simp) _ _

theorem agrees_finalized (o : ObjectRecord) (cur : Option ObjectRecord) (now : Time) :
    Agrees (Faded t) (finalized o cur now) := by
  refine agrees_bind (agrees_bind (agrees_get (by simp) (by simp) _) fun b => ?_) fun _ =>
    agrees_bind (agrees_put (by simp) (by simp) _ _) fun _ => agrees_emit _
  cases b with
  | none => exact agrees_pure ()
  | some b =>
    dsimp only
    split_ifs
    · exact agrees_pure ()
    · exact agrees_ensureFolders _ _ _ _

theorem agrees_retireLive (b : BucketRecord) (name : Bytes) (now : Time) (g : Int) :
    Agrees (Faded t) (retireLive b name now g) := by
  refine agrees_bind (agrees_get (by simp) (by simp) _) fun cur => ?_
  cases cur with
  | none => exact agrees_pure ()
  | some cur =>
    refine agrees_bind (agrees_check _) fun _ => ?_
    refine agrees_bind (agrees_delete (by simp) (by simp) _) fun _ => ?_
    split_ifs
    · exact agrees_bind (agrees_discard _ _ _) fun _ => agrees_emit _
    · exact agrees_bind (agrees_archive _ _ _) fun _ => agrees_emit _

theorem agrees_existingBucket (name : Bytes) : Agrees (Faded t) (existingBucket name) := by
  refine agrees_bind (agrees_get (by simp) (by simp) _) fun b => ?_
  cases b with
  | none => exact agrees_refuse _
  | some b => exact agrees_pure b

theorem before_of_le {deadline : Time} (hle : t ≤ now) (h : before now deadline = true) :
    before t deadline = true := by
  simp only [before, decide_eq_true_eq] at h ⊢
  exact lt_of_le_of_lt hle h

theorem lasting_of_restorable {b : BucketRecord} {v : ObjectRecord} (hle : t ≤ now)
    (h : restorable b now v = true) : lasting t v = true := by
  rw [restorable, Bool.and_eq_true] at h
  exact before_of_le hle h.2

variable {tx tx' : Tx}

theorem Faded.restorable (h : Faded t tx tx') (hle : t ≤ now) (b : BucketRecord) (key : Bytes) :
    (byGeneration (Shelf.softdeleted.read tx'.store key)).filter (Storage.restorable b now) =
      (byGeneration (Shelf.softdeleted.read tx.store key)).filter (Storage.restorable b now) :=
  (h.soft key).filter_sortBy fun _ hv => lasting_of_restorable hle hv

theorem agrees_softVersions (hle : t ≤ now) (b : BucketRecord) (name : Bytes) :
    Agrees (Faded t) (softVersions b name now) := by
  have hrun : softVersions b name now = .read fun tx =>
      (byGeneration (Shelf.softdeleted.read tx.store (objectKey b.name name))).filter
        (restorable b now) := rfl
  rw [hrun]
  exact agrees_read fun _ _ h => h.restorable hle b _

theorem agrees_findSoftDeleted (hle : t ≤ now) (b : BucketRecord) (name : Bytes)
    (generation : GenParam) : Agrees (Faded t) (findSoftDeleted b name generation now) :=
  agrees_bind (agrees_softVersions hle b name) fun _ => agrees_pure _

theorem unsoften_run (bucket name : Bytes) (keep : ObjectRecord → Bool) : (do
      let vs ← getSoftDeleted bucket name
      putSoftDeleted bucket name (vs.filter keep)) = (.write fun tx => { tx with
        store := Shelf.softdeleted.write tx.store (objectKey bucket name)
          ((byGeneration ((byGeneration (Shelf.softdeleted.read tx.store
            (objectKey bucket name))).filter keep)).map ObjectRecord.recode) } : Action Unit) := rfl

theorem agrees_unsoften (bucket name : Bytes) (keep : ObjectRecord → Bool) : Agrees (Faded t) (do
      let vs ← getSoftDeleted bucket name
      putSoftDeleted bucket name (vs.filter keep)) := by
  rw [unsoften_run]
  refine agrees_write fun _ _ h => h.onShelf _
    (f := fun vs => (byGeneration ((byGeneration vs).filter keep)).map ObjectRecord.recode)
    fun l l' hsame => ?_
  have hsorted : SameBy ObjectRecord.generation (lasting t) (byGeneration l) (byGeneration l') :=
    (SameBy.sort l).symm.trans (hsame.trans (.sort l'))
  have hkept := hsorted.filter keep
  exact ((SameBy.sort _).symm.trans (hkept.trans (.sort _))).map fun _ => ⟨rfl, rfl⟩

theorem agrees_restoreSoft (b : BucketRecord) (soft : ObjectRecord) (cur : Option ObjectRecord)
    (now : Time) : Agrees (Faded t) (restoreSoft b soft cur now) := by
  refine agrees_bind (agrees_ofExcept _) fun o => ?_
  refine agrees_assoc (agrees_unsoften _ _ _) fun _ => agrees_bind agrees_draw fun g => ?_
  refine agrees_bind (agrees_retireLive _ _ _ _) fun _ => ?_
  exact agrees_bind (agrees_finalized _ _ _) fun _ => agrees_pure _

theorem agrees_findVersion (bucket name : Bytes) (generation : GenParam) :
    Agrees (Faded t) (findVersion bucket name generation) := by
  intro tx tx' h
  rw [findVersion_run, findVersion_run]
  refine ⟨congrArg Except.ok ?_, h⟩
  have hread : Shelf.noncurrent.read tx'.store (objectKey bucket name) =
      Shelf.noncurrent.read tx.store (objectKey bucket name) :=
    Shelf.read_congr tx.store .noncurrent (h.others .noncurrent (by simp) (by simp))
  simp only [found, h.get (k := .object) (by simp) (by simp), hread]

theorem agrees_objectsRestore (hle : t ≤ now) (r : RestoreCall) :
    Agrees (Faded t) (objectsRestore r now) := by
  refine agrees_bind (agrees_existingBucket _) fun b => ?_
  refine agrees_bind (agrees_findSoftDeleted hle b _ _) fun soft => ?_
  cases soft with
  | none =>
    dsimp only
    split_ifs
    · exact agrees_refuse _
    · refine agrees_bind (agrees_findVersion _ _ _) fun v => ?_
      cases v <;> exact agrees_refuse _
  | some soft =>
    refine agrees_bind (agrees_get (by simp) (by simp) _) fun cur => ?_
    exact agrees_bind (agrees_check _) fun _ => agrees_restoreSoft _ _ _ _

theorem agrees_restoreObject (hle : t ≤ now) (r : RestoreCall) : Agrees (Faded t) (restoreObject r now) :=
  agrees_bind (agrees_check _) fun _ => agrees_objectsRestore hle r

theorem agrees_bulkRestoreName (hle : t ≤ now) (b : BucketRecord) (name : Bytes)
    (f : BulkRestoreFilter) (n : BulkRestoreCounts) :
    Agrees (Faded t) (bulkRestoreName b name f n now) := by
  refine agrees_bind (agrees_softVersions hle b name) fun vs => ?_
  cases f.pick vs with
  | none => exact agrees_pure _
  | some soft =>
    refine agrees_bind (agrees_get (by simp) (by simp) _) fun cur => ?_
    dsimp only
    split_ifs
    · exact agrees_pure _
    · refine agrees_bind (agrees_attempt (agrees_restoreSoft _ _ _ _)) fun r => ?_
      cases r <;> exact agrees_pure _

theorem agrees_bulkRestoreNames (hle : t ≤ now) (b : BucketRecord) (f : BulkRestoreFilter)
    (names : List Bytes) (n : BulkRestoreCounts) :
    Agrees (Faded t) (bulkRestoreNames b f now names n) := by
  induction names generalizing n with
  | nil => exact agrees_pure n
  | cons name names ih => exact agrees_bind (agrees_bulkRestoreName hle b name f n) ih

theorem agrees_getSoftDeletedObject (hle : t ≤ now) (r : SoftGetCall) :
    Agrees (Faded t) (getSoftDeletedObject r now) := by
  refine agrees_bind (agrees_check _) fun _ => agrees_bind (agrees_check _) fun _ => ?_
  refine agrees_bind (agrees_existingBucket _) fun b => ?_
  refine agrees_bind (agrees_findSoftDeleted hle b _ _) fun soft => ?_
  cases soft with
  | none => exact agrees_refuse _
  | some o => exact agrees_pure o

theorem sweptBucket_later (hle : t ≤ now) (b : Option BucketRecord) :
    sweptBucket now (sweptBucket t b) = sweptBucket now b := by
  cases b with
  | none => rfl
  | some b =>
    rw [sweptBucket_some]
    split_ifs with h
    · rfl
    · rw [sweptBucket_some, if_neg]
      · rfl
      · exact fun hlater => h (before_of_le hle hlater)

theorem Faded.lastingBucket (h : Faded t tx tx') (hle : t ≤ now) (key : Bytes) :
    sweptBucket now (tx'.store.get .softbucket key) = sweptBucket now (tx.store.get .softbucket key) := by
  rw [← sweptBucket_later hle, h.bucket key, sweptBucket_later hle]

theorem agrees_getSoftBucket (hle : t ≤ now) (name : Bytes) (generation : GenParam) :
    Agrees (Faded t) (getSoftBucket name generation now) := by
  cases generation with
  | live | malformed => exact agrees_pure none
  | exactly g => exact agrees_read fun _ _ h => h.lastingBucket hle _

theorem agrees_bucketsGetSoftDeleted (hle : t ≤ now) (name : Bytes) (generation : GenParam) :
    Agrees (Faded t) (bucketsGetSoftDeleted name generation now) := by
  refine agrees_bind (agrees_check _) fun _ => ?_
  refine agrees_bind (agrees_getSoftBucket hle name generation) fun b => ?_
  cases b with
  | none => exact agrees_refuse _
  | some b => exact agrees_pure b

theorem agrees_deleteSoftBucket (key : Bytes) : Agrees (Faded t) (Tx.delete .softbucket key) := by
  refine agrees_write fun tx tx' h => ⟨fun k hs hb => ?_, fun key' => ?_, fun key' => ?_, h.lastGen,
    h.outboxSeq, h.clock, h.random⟩
  · have hkept : ∀ s : Store, s.delete .softbucket key k = s k := fun s => Store.delete_other s hb key
    exact ((hkept _).trans (h.others k hs hb)).trans (hkept _).symm
  · have hread : ∀ s : Store, Shelf.softdeleted.read (s.delete .softbucket key) key' =
        Shelf.softdeleted.read s key' :=
      fun s => Shelf.read_congr s .softdeleted (Store.delete_other s (by simp [Shelf.kind]) key)
    rw [hread, hread]
    exact h.soft key'
  · rw [Store.get_delete, Store.get_delete]
    split_ifs
    · rfl
    · exact h.bucket key'

theorem agrees_getSoft {A : Type} (hle : t ≤ now) (key : Bytes) {f : Option BucketRecord → Action A}
    (hgone : ∀ b, before now b.hardDelete = false → f (some b) = f none) (hf : ∀ b, Agrees (Faded t) (f b)) :
    Agrees (Faded t) (Tx.get .softbucket key >>= f) := by
  have hswept : ∀ b, f b = f (sweptBucket now b) := by
    intro b
    cases b with
    | none => rfl
    | some b =>
      rw [sweptBucket_some]
      cases hb : before now b.hardDelete with
      | true => rfl
      | false => exact hgone b hb
  have heq : (Tx.get .softbucket key >>= f) =
      (Txn.read (fun tx : Tx => sweptBucket now (tx.store.get .softbucket key)) >>= f) :=
    funext fun tx => congrFun (hswept _) tx
  rw [heq]
  exact agrees_bind (agrees_read fun _ _ h => h.lastingBucket hle _) hf

theorem agrees_restoreBucket (hle : t ≤ now) (name : Bytes) (generation : GenParam) :
    Agrees (Faded t) (restoreBucket name generation now) := by
  refine agrees_bind (agrees_check _) fun _ => ?_
  cases generation with
  | live | malformed => exact agrees_refuse _
  | exactly g =>
    refine agrees_getSoft hle _ (fun b hb => by simp [hb]) fun b => ?_
    cases b with
    | none => exact agrees_refuse _
    | some b =>
      dsimp only
      split_ifs
      · exact agrees_refuse _
      refine agrees_bind (agrees_get (by simp) (by simp) _) fun old => ?_
      cases old with
      | some _ => exact agrees_refuse _
      | none =>
        refine agrees_bind (agrees_deleteSoftBucket _) fun _ => ?_
        exact agrees_bind (agrees_put (by simp) (by simp) _ _) fun _ => agrees_pure _

theorem Faded.softValues (h : Faded t tx tx') {p : BucketRecord → Bool}
    (hp : ∀ b, p b = true → before t b.hardDelete = true) (start : Bytes) :
    List.filter p (tx'.store.values .softbucket start) =
      List.filter p (tx.store.values .softbucket start) := by
  let shown (s : Store) (key : Bytes) : Option BucketRecord :=
    Option.filter p (s.get .softbucket key)
  have hshown : ∀ key, shown tx'.store key = shown tx.store key := by
    intro key
    have hswept : ∀ b : Option BucketRecord, (sweptBucket t b).filter p = b.filter p := by
      intro b
      cases b with
      | none => rfl
      | some b =>
        rw [sweptBucket_some]
        cases hpb : p b with
        | false => split_ifs <;> simp [Option.filter, hpb]
        | true => rw [if_pos (hp b hpb)]
    have hkey := congrArg (Option.filter p) (h.bucket key)
    rw [hswept, hswept] at hkey
    exact hkey
  have hvalues : ∀ s : Store, List.filter p (s.values .softbucket start) =
      ((s.list .softbucket start).filter fun key => (shown s key).isSome).filterMap (shown s) := by
    intro s
    have hfilter : List.filter p (s.values .softbucket start) =
        (s.list .softbucket start).filterMap (shown s) := List.filter_filterMap
    rw [hfilter, List.filterMap_filter]
    congr 1
    funext key
    cases shown s key <;> rfl
  have hkeys : ((tx'.store.list .softbucket start).filter fun key => (shown tx'.store key).isSome) =
      (tx.store.list .softbucket start).filter fun key => (shown tx.store key).isSome := by
    refine eq_of_ascending ((ascending_list _ _ _).filter _) ((ascending_list _ _ _).filter _) ?_
    have hstored : ∀ (s : Store) (key : Bytes), (shown s key).isSome = true →
        ∃ b, s.get .softbucket key = some b := by
      intro s key hsome
      obtain ⟨b, hb⟩ := Option.isSome_iff_exists.mp hsome
      exact ⟨b, (Option.filter_eq_some_iff.mp hb).1⟩
    intro key
    simp only [List.mem_filter, Store.mem_list, hshown]
    constructor
    · rintro ⟨⟨hstart, -⟩, hsome⟩
      exact ⟨⟨hstart, hstored _ _ hsome⟩, hsome⟩
    · rintro ⟨⟨hstart, -⟩, hsome⟩
      exact ⟨⟨hstart, hstored _ _ (by rw [hshown]; exact hsome)⟩, hsome⟩
  rw [hvalues, hvalues, hkeys, funext hshown]

theorem agrees_listSoftBuckets (hle : t ≤ now) (r : SoftBucketsCall) :
    Agrees (Faded t) (listSoftBuckets r now) := by
  refine agrees_bind (agrees_check _) fun _ => agrees_bind ?_ fun _ => agrees_pure _
  refine agrees_read fun tx tx' h => ?_
  rw [h.softValues]
  intro b hb
  rw [Bool.and_eq_true] at hb
  exact before_of_le hle hb.2

end Agreement

end CloudBurrow.Storage

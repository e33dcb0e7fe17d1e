import CloudBurrow.Storage.Refinement

namespace CloudBurrow.Storage

open Utf8 Inventory Transaction

theorem still_existingBucket (name : Bytes) : Still (existingBucket name) := by
  refine still_bind (still_read _) fun b => ?_
  cases b with
  | none => exact still_refuse _
  | some b => exact still_pure b

variable {name : Bytes} {b : BucketRecord} {tx tx' : Tx}

theorem existingBucket_ok (h : existingBucket name tx = (.ok b, tx')) : tx.store.get .bucket name = some b := by
  obtain ⟨r, s, hr, hb⟩ := Txn.bind_ok_inv h
  cases r with
  | none => exact absurd hb (by simp)
  | some b' =>
    have hget : tx.store.get .bucket name = some b' :=
      Except.ok.inj (congrArg Prod.fst hr)
    rw [hget]
    exact congrArg some (Except.ok.inj (congrArg Prod.fst hb))

variable {A : Type}

theorem ofExcept_ok {r : Except HttpError A} {a : A} (h : Txn.ofExcept r tx = (.ok a, tx')) : r = .ok a := by
  cases r with
  | error e => exact absurd h (by simp)
  | ok a' => exact congrArg Except.ok (Except.ok.inj (congrArg Prod.fst h))

theorem check_ok {o : Option HttpError} (h : Txn.check o tx = (.ok (), tx')) : o = none := by
  cases o with
  | none => rfl
  | some e => exact absurd h (by simp)

theorem Catalogue.Sound.ready (h : tx.catalogue.Sound) (hb : tx.store.get .bucket name = some b) :
    Ready b tx.catalogue ∧ b.name = name := by
  have hname := h.bucket name b hb
  exact ⟨⟨h, by rw [hname]; exact hb⟩, hname⟩

structure Entering (c : Catalogue) (o : ObjectRecord) : Prop where
  valid : Valid o.name
  fresh : FreshIn c.stock o.generation
  bound : o.generation ≤ c.lastGen

variable {o : ObjectRecord}

theorem Entering.same {c : Catalogue} {o' : ObjectRecord} (h : Entering c o)
    (hs : SameVersion o o') : Entering c o' := by
  refine ⟨?_, ?_, ?_⟩
  · rw [hs.name]
    exact h.valid
  · rw [hs.generation]
    exact h.fresh
  · rw [hs.generation]
    exact h.bound

variable {now : Time}

theorem stable_entering (gs : Grant) (o : ObjectRecord) :
    Stable now gs.quiet (fun c => Entering c o) := fun _ _ h he =>
  ⟨he.valid, h.fresh (fun _ hadd => hadd.elim) he.fresh, he.bound.trans h.lastGen⟩

theorem proper_of_bucket (hb : o.bucket = b.name) (hn : Valid o.name) : Proper (objectKey o.bucket o.name) o := by
  refine ⟨rfl, ?_, ?_⟩
  · rw [hb]
    exact b.named.1
  · have hbucket : toValid o.bucket = o.bucket := by
      rw [hb]
      exact toValid_of_valid _ b.named.2
    simp only [ObjectRecord.recode, hbucket, toValid_of_valid _ hn]

variable {gs : Grant}

theorem stored_edits (hnone : tx.store.get .object (objectKey o.bucket o.name) = none)
    (hproper : Proper (objectKey o.bucket o.name) o) (he : Entering tx.catalogue o)
    (hgs : gs.add (objectKey o.bucket o.name) o.generation) :
    Edits now gs tx.catalogue ({ tx with store := stored tx.store o } : Tx).catalogue := by
  have hst : (stored tx.store o).stock = give tx.store.stock ⟨.live, objectKey o.bucket o.name⟩ o := by
    rw [stored, hproper.recode]
    exact Store.stock_put_new hnone
  have hb : stored tx.store o .bucket = tx.store .bucket :=
    Store.put_other _ (by simp) _ _
  have hlast : max tx.catalogue.lastGen o.generation = tx.catalogue.lastGen := max_eq_left he.bound
  have hadd : Edit now gs tx.catalogue _ := .add hgs he.fresh hproper
  rw [hlast] at hadd
  rw [tx.catalogue_with hb hst]
  exact .single hadd

theorem discarded_object (b : BucketRecord) (o : ObjectRecord) (now : Time) (s : Store)
    (key : Bytes) : (discarded b o now s).get .object key = s.get .object key := by
  unfold discarded
  split_ifs
  · rfl
  · exact Shelf.get_object_write _ _ _

theorem retired_object (b : BucketRecord) (name : Bytes) (now : Time) (cur : ObjectRecord)
    (s : Store) (key : Bytes) :
    (retired b name now cur s).get .object key =
      (s.delete .object (objectKey b.name name)).get .object key := by
  unfold retired
  dsimp only
  split_ifs
  · exact Shelf.get_object_write _ _ _
  · exact discarded_object b cur now _ key

theorem retired_bucket (b : BucketRecord) (name : Bytes) (now : Time) (cur : ObjectRecord)
    (s : Store) (n : Bytes) : (retired b name now cur s).get .bucket n = s.get .bucket n := by
  unfold retired discarded
  dsimp only
  split_ifs
  · rw [Shelf.get_write_other _ _ _ (by decide), Store.get_delete_kind _ (by decide)]
  · rw [Store.get_delete_kind _ (by decide)]
  · rw [Shelf.get_write_other _ _ _ (by decide), Store.get_delete_kind _ (by decide)]

theorem retireLive_object {g : Int} (h : retireLive b name now g tx = (.ok (), tx')) (key : Bytes) :
    tx'.store.get .object key = (if objectKey b.name name = key then none else tx.store.get .object key) ∧
      tx'.store.get .bucket key = tx.store.get .bucket key ∧ tx'.lastGen = tx.lastGen := by
  rcases retireLive_cases b name now g tx with ⟨hget, hrun⟩ | ⟨e, hrun⟩ | ⟨cur, -, -, tx₁, hrun, hb⟩ <;>
    rw [hrun] at h <;> cases h
  · refine ⟨?_, rfl, rfl⟩
    split_ifs with hk
    · rw [← hk, hget]
    · rfl
  · refine ⟨?_, ?_, hb.lastGen⟩
    · rw [hb.get (by decide), retired_object, Store.get_delete]
    · rw [hb.get (by decide)]
      exact retired_bucket b name now cur tx.store key

def Files {A : Type} (o : ObjectRecord) (m : Action A) : Prop :=
  ∀ tx, ∃ a tx', m tx = (.ok a, tx') ∧
    Beside quietKinds { tx with store := stored tx.store o } tx'

theorem files_finalized (o : ObjectRecord) (cur : Option ObjectRecord) (now : Time) :
    Files o (finalized o cur now) := fun tx => ⟨(), finalized_run o cur now tx⟩

theorem files_place (o : ObjectRecord) (cur : Option ObjectRecord) (now : Time) :
    Files o (Upload.place o cur now) := by
  intro tx
  unfold Upload.place
  split_ifs
  · obtain ⟨tx', h, hb⟩ := filed_run o now tx
    exact ⟨(), tx', h, hb.mono (by decide)⟩
  · exact files_finalized o cur now tx

theorem Files.returning {B : Type} {m : Action A} (h : Files o m) (b : B) : Files o (m >>= fun _ => pure b) := by
  intro tx
  obtain ⟨a, tx', hm, hb⟩ := h tx
  exact ⟨b, tx', by rw [Txn.bind_ok hm, Txn.run_pure], hb⟩

theorem replace_edits {g : Int} {fin : Action A} (hfin : Files o fin) (hr : Ready b tx.catalogue)
    (he : Entering tx.catalogue o) (hb : o.bucket = b.name)
    (hd : ∀ cur ∈ tx.catalogue.stock ⟨.live, objectKey b.name o.name⟩, Lets gs b cur)
    (hgs : gs.add (objectKey o.bucket o.name) o.generation) :
    Edits now gs tx.catalogue ((retireLive b o.name now g >>= fun _ => fin) tx).2.catalogue := by
  have hquiet : Edits now gs.quiet tx.catalogue (retireLive b o.name now g tx).2.catalogue :=
    retireLive_edits hr hd
  refine edits_bind (hquiet.mono gs.quiet_within) fun _ tx' hrun hedits => ?_
  rw [hrun] at hquiet
  have hnone := (retireLive_object hrun (objectKey b.name o.name)).1
  rw [if_pos rfl, ← hb] at hnone
  have hentering := hquiet.stable (stable_entering gs o) he
  obtain ⟨_, tx'', hfrun, hbeside⟩ := hfin tx'
  rw [hfrun]
  exact Edits.beside (hedits.trans
    (stored_edits hnone (proper_of_bucket hb he.valid) hentering hgs)) hbeside quiet_apart

theorem Upload.opened_same {u : Upload} {o' : ObjectRecord} (h : u.opened b o = .ok o') : SameVersion o o' := by
  unfold Upload.opened at h
  split_ifs at h
  · exact sameVersion_openAppendable h
  · cases h
    exact .refl o

theorem Upload.commit_edits {u : Upload}
    (hs : tx.catalogue.Sound) (he : Entering tx.catalogue o) (hb : o.bucket = u.bucket)
    (hn : o.name = u.upload.name) (hfree : gs.Free)
    (hgs : gs.add (objectKey o.bucket o.name) o.generation) :
    Edits now gs tx.catalogue (u.commit o now tx).2.catalogue := by
  unfold Upload.commit
  refine edits_still (still_existingBucket _) .refl fun b hbucket => ?_
  obtain ⟨hr, hname⟩ := hs.ready (existingBucket_ok hbucket)
  refine edits_still (still_ofExcept _) .refl fun o₁ ho₁ => ?_
  have h₁ := (sameVersion_withStorageClass b o).trans (sameVersion_checkNewObject (ofExcept_ok ho₁))
  refine edits_still (still_check _) .refl fun _ _ => ?_
  refine edits_still (still_ofExcept _) .refl fun o₂ ho₂ => ?_
  have h₂ := h₁.trans (Upload.opened_same (ofExcept_ok ho₂))
  refine edits_still (still_read _) .refl fun cur _ => ?_
  refine edits_still (still_check _) .refl fun _ _ => ?_
  rw [← hn, ← h₂.name]
  refine replace_edits ((files_place o₂ cur now).returning o₂) hr (he.same h₂)
    (by rw [h₂.bucket, hb, hname]) (fun cur _ => hfree.lets b cur) ?_
  rw [h₂.bucket, h₂.name, h₂.generation]
  exact hgs

theorem commitNew_edits {pre : ObjectPreconditions} {also : BucketRecord → Action Unit}
    (hs : tx.catalogue.Sound) (he : Entering tx.catalogue o)
    (halso : ∀ b, Ready b tx.catalogue → b.name = o.bucket →
      Edits now gs.quiet tx.catalogue (also b tx).2.catalogue)
    (hd : ∀ b, Ready b tx.catalogue → b.name = o.bucket → Yields gs b [o.name] tx.catalogue)
    (hgs : gs.add (objectKey o.bucket o.name) o.generation) :
    Edits now gs tx.catalogue (commitNew o pre also now tx).2.catalogue := by
  unfold commitNew
  refine edits_still (still_existingBucket _) .refl fun b hbucket => ?_
  obtain ⟨hr, hname⟩ := hs.ready (existingBucket_ok hbucket)
  refine edits_still (still_ofExcept _) .refl fun o₁ ho₁ => ?_
  have h₁ := (sameVersion_withStorageClass b o).trans (sameVersion_checkNewObject (ofExcept_ok ho₁))
  refine edits_still (still_read _) .refl fun cur _ => ?_
  refine edits_still (still_check _) .refl fun _ _ => ?_
  have hdone := halso b hr hname
  refine edits_bind (hdone.mono gs.quiet_within) fun _ t halsorun hedits => ?_
  rw [halsorun] at hdone
  have hyields := hdone.stable (stable_yields gs b [o.name]) (hd b hr hname)
  refine hedits.trans (replace_edits ((files_finalized o₁ cur now).returning o₁)
    (hdone.stable (stable_ready b _) hr) ((hdone.stable (stable_entering gs o) he).same h₁)
    (by rw [h₁.bucket, hname]) ?_ ?_)
  · rw [h₁.name]
    exact hyields o.name (by simp)
  · rw [h₁.bucket, h₁.name, h₁.generation]
    exact hgs

theorem dropSources_edits (sources : List ObjectRecord) (hr : Ready b tx.catalogue)
    (hd : Yields gs b (sources.map ObjectRecord.name) tx.catalogue) :
    Edits now gs.quiet tx.catalogue (dropSources name now b sources tx).2.catalogue := by
  induction sources generalizing tx with
  | nil => exact .refl
  | cons src rest ih =>
    have hone : Edits now gs.quiet tx.catalogue
        ((if src.name ≠ name then retireLive b src.name now 0 else pure () : Action Unit)
          tx).2.catalogue := by
      split_ifs
      · exact retireLive_edits hr (hd src.name (by simp))
      · exact .refl
    refine edits_bind hone fun _ t hrun hedits => ?_
    have hyields := hedits.stable (stable_yields gs b _) hd
    exact hedits.trans (ih (hedits.stable (stable_ready b _) hr)
      fun n hn => hyields n (by simp only [List.map_cons, List.mem_cons]; exact .inr hn))

section Lists

variable {l : List ObjectRecord} {o o' : ObjectRecord}

theorem perm_byGeneration (l : List ObjectRecord) : (byGeneration l).Perm l :=
  List.perm_insertionSort _ l

theorem map_recode_eq (h : ∀ v ∈ l, v.recode = v) : l.map ObjectRecord.recode = l := by
  conv_rhs => rw [← List.map_id l]
  exact List.map_congr_left h

theorem perm_without {q : ObjectRecord → Bool} (hnodup : l.Nodup) (hrec : ∀ v ∈ l, v.recode = v)
    (hq : ∀ v ∈ l, q v = true ↔ v ≠ o) :
    ((byGeneration ((byGeneration l).filter q)).map ObjectRecord.recode).Perm (l.erase o) := by
  have hfilter : l.filter q = l.erase o := by
    rw [hnodup.erase_eq_filter]
    refine List.filter_congr fun v hv => ?_
    have hiff := hq v hv
    cases hqv : q v <;> simp_all
  have hperm : (byGeneration ((byGeneration l).filter q)).Perm (l.erase o) :=
    (perm_byGeneration _).trans (hfilter ▸ (perm_byGeneration l).filter q)
  rw [map_recode_eq fun v hv => hrec v (List.mem_of_mem_erase (hperm.mem_iff.mp hv))]
  exact hperm

theorem perm_revised (hgen : (l.map ObjectRecord.generation).Nodup)
    (hrec : ∀ v ∈ l, v.recode = v) (ho : o ∈ l) (hid : o'.generation = o.generation)
    (hrec' : o'.recode = o') :
    ((byGeneration ((byGeneration l).map fun v =>
      if v.generation = o'.generation then o' else v)).map ObjectRecord.recode).Perm
        (o' :: l.erase o) := by
  have hsplit := List.perm_cons_erase ho
  have hrest : ∀ v ∈ l.erase o, v.generation ≠ o'.generation := by
    intro v hv heq
    have hnodup := (hsplit.map ObjectRecord.generation).nodup_iff.mp hgen
    rw [List.map_cons, List.nodup_cons] at hnodup
    exact hnodup.1 (List.mem_map.mpr ⟨v, hv, heq.trans hid⟩)
  have hmap : (o :: l.erase o).map (fun v => if v.generation = o'.generation then o' else v) =
      o' :: l.erase o := by
    rw [List.map_cons, if_pos hid.symm]
    congr 1
    conv_rhs => rw [← List.map_id (l.erase o)]
    exact List.map_congr_left fun v hv => if_neg (hrest v hv)
  have hperm : (byGeneration ((byGeneration l).map fun v =>
      if v.generation = o'.generation then o' else v)).Perm (o' :: l.erase o) := by
    rw [← hmap]
    exact (perm_byGeneration _).trans (((perm_byGeneration l).trans hsplit).map _)
  rw [map_recode_eq fun v hv => ?_]
  · exact hperm
  · rcases List.mem_cons.mp (hperm.mem_iff.mp hv) with rfl | hmem
    · exact hrec'
    · exact hrec v (List.mem_of_mem_erase hmem)

end Lists

theorem Catalogue.Sound.shelf (h : tx.catalogue.Sound) (sh : Shelf) (key : Bytes) :
    ((sh.read tx.store key).map ObjectRecord.generation).Nodup ∧
      ∀ v ∈ sh.read tx.store key, Proper key v := by
  have hstock : tx.catalogue.stock ⟨sh.slot, key⟩ = (sh.read tx.store key : List ObjectRecord) :=
    tx.store.stock_shelf sh key
  have hnodup := h.unique.once ⟨sh.slot, key⟩
  have hproper := h.proper ⟨sh.slot, key⟩
  rw [hstock] at hnodup hproper
  rw [Multiset.map_coe, Multiset.coe_nodup] at hnodup
  exact ⟨hnodup, fun v hv => hproper v (Multiset.mem_coe.mpr hv)⟩

def keptWithout (o : ObjectRecord) (s : Store) : Store :=
  let key := objectKey o.bucket o.name
  Shelf.noncurrent.write s key ((byGeneration ((byGeneration (Shelf.noncurrent.read s key)).filter
    fun v => v.generation ≠ o.generation)).map ObjectRecord.recode)

theorem deleteVersion_run (o : ObjectRecord) (tx : Tx) :
    deleteVersion o tx = (.ok (), { tx with store := keptWithout o tx.store }) := rfl

theorem keptWithout_stock {key : Bytes} (hs : tx.catalogue.Sound) (ho : o ∈ Shelf.noncurrent.read tx.store key) :
    (keptWithout o tx.store).stock = take tx.store.stock ⟨.kept, key⟩ o := by
  obtain ⟨hnodup, hproper⟩ := hs.shelf .noncurrent key
  unfold keptWithout
  dsimp only
  rw [(hproper o ho).key]
  refine Store.stock_write_take .noncurrent (perm_without (List.Nodup.of_map _ hnodup)
    (fun v hv => (hproper v hv).recode) fun v hv => ?_)
  have hinj := List.inj_on_of_nodup_map hnodup hv ho
  simp only [ne_eq, decide_not, Bool.not_eq_eq_eq_not, Bool.not_true, decide_eq_false_iff_not]
  exact not_congr ⟨fun heq => hinj heq, fun heq => heq ▸ rfl⟩

theorem keptWithout_bucket (o : ObjectRecord) (s : Store) : keptWithout o s .bucket = s .bucket := by
  unfold keptWithout
  exact Shelf.write_other _ _ _ (by simp [Shelf.kind])

end CloudBurrow.Storage

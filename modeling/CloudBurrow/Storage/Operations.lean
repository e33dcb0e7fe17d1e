import CloudBurrow.Storage.Commits

namespace CloudBurrow.Storage

open Utf8 Inventory Transaction

def versionSlot (live : Bool) : Slot := if live then .live else .kept

theorem versionSlot_ne_soft (live : Bool) : versionSlot live ≠ .soft := by
  cases live <;> simp [versionSlot]

variable {bucket name : Bytes} {o : ObjectRecord} {live : Bool}

theorem found_place {s : Store} {generation : GenParam} (h : found s bucket name generation = some (o, live)) :
    o ∈ s.stock ⟨versionSlot live, objectKey bucket name⟩ := by
  cases live with
  | true => exact Store.mem_stock_live.mpr (found_live h)
  | false => exact (Store.mem_stock_shelf .noncurrent).mpr (found_kept h)

theorem still_findVersion (bucket name : Bytes) (generation : GenParam) :
    Still (findVersion bucket name generation) := by
  intro tx
  rw [findVersion_run]

variable {tx : Tx}

theorem findVersion_ok {generation : GenParam} {tx' : Tx}
    {r : Option (ObjectRecord × Bool)} (h : findVersion bucket name generation tx = (.ok r, tx')) :
    found tx.store bucket name generation = r := by
  rw [findVersion_run] at h
  exact Except.ok.inj (congrArg Prod.fst h)

theorem dropVersion_run (hs : tx.catalogue.Sound)
    (ho : o ∈ tx.store.stock ⟨versionSlot live, objectKey bucket name⟩) :
    ∃ s, dropVersion bucket name o live tx = (.ok (), { tx with store := s }) ∧
      s.stock = take tx.store.stock ⟨versionSlot live, objectKey bucket name⟩ o ∧
      s .bucket = tx.store .bucket := by
  cases live with
  | true =>
    refine ⟨tx.store.delete .object (objectKey bucket name), rfl, ?_, ?_⟩
    · exact Store.stock_delete_live (Store.mem_stock_live.mp ho)
    · exact Store.delete_other _ (by simp) _
  | false =>
    have hkept := (Store.mem_stock_shelf .noncurrent).mp ho
    exact ⟨keptWithout o tx.store, deleteVersion_run o tx, keptWithout_stock hs hkept,
      keptWithout_bucket o tx.store⟩

variable {b : BucketRecord} {now : Time} {gs : Grant}

theorem expelled_edits {g : Int} (hr : Ready b tx.catalogue)
    (ho : o ∈ tx.store.stock ⟨versionSlot live, objectKey b.name name⟩)
    (hp : protect b o now false = none) (ht : gs.touch o.generation)
    (hd : gs.drop o.generation) :
    Edits now gs tx.catalogue
      ((dropVersion b.name name o live >>= fun _ => removed b o now g) tx).2.catalogue := by
  obtain ⟨s, hrun, hstock, hbucket⟩ := dropVersion_run hr.sound ho
  obtain ⟨tx', hremoved, hb⟩ := removed_run b o now g { tx with store := s }
  rw [Txn.bind_ok hrun, hremoved]
  exact Edits.beside (discarded_edits hr ho (versionSlot_ne_soft live) rfl ht
    (protect_false_eq_none.mp hp) (.inr hd) hstock hbucket) hb notify_apart

theorem objectsDelete_edits {r : DeleteCall} (hs : tx.catalogue.Sound) (hfree : gs.Free) :
    Edits now gs tx.catalogue (objectsDelete r now tx).2.catalogue := by
  refine edits_still (still_existingBucket _) .refl fun b hbucket => ?_
  obtain ⟨hr, hname⟩ := hs.ready (existingBucket_ok hbucket)
  refine edits_still (still_findVersion _ _ _) .refl fun v hfind => ?_
  have hfound := findVersion_ok hfind
  rcases v with _ | ⟨o, live⟩
  · exact .refl
  · refine edits_still (still_check _) .refl fun _ _ => ?_
    refine edits_still (still_check _) .refl fun _ _ => ?_
    split_ifs
    · exact retireLive_edits hr fun cur _ => hfree.lets b cur
    · refine edits_still (still_check _) .refl fun _ hp => ?_
      rw [← hname]
      exact expelled_edits hr (hname ▸ found_place hfound) (check_ok hp) (hfree.touch _) (hfree.drop _)

def AsRead (s : Store) (r : MoveCall) (moved : ObjectRecord) (live : Bool) : Prop :=
  moved ∈ s.stock ⟨versionSlot live, objectKey r.source.bucket r.source.name⟩

theorem MoveCall.remove_edits {r : MoveCall} {moved : ObjectRecord} (hr : Ready b tx.catalogue)
    (hb : b.name = moved.bucket) (hread : AsRead tx.store r moved live)
    (ht : gs.touch moved.generation) (hd : gs.drop moved.generation) :
    Edits now gs tx.catalogue (r.remove moved live now b tx).2.catalogue := by
  refine edits_still (still_check _) .refl fun _ hp => ?_
  obtain ⟨s, hrun, hstock, hbucket⟩ := dropVersion_run hr.sound hread
  obtain ⟨tx', hemit, hbeside⟩ := emit_run { type := .delete, object := moved, time := now }
    { tx with store := s }
  rw [Txn.bind_ok hrun, hemit]
  have hguard : ¬ tx.catalogue.Guarded now moved := fun h =>
    protect_false_eq_none.mp (check_ok hp) ((hr.guarded hb.symm now).mp h)
  refine Edits.beside ?_ hbeside notify_apart
  rw [tx.catalogue_with hbucket hstock]
  exact .single (.drop hread ht (.inr hguard) hd)

theorem putVersion_run {o' : ObjectRecord} {key : Bytes}
    (hs : tx.catalogue.Sound) (ho : o ∈ tx.store.stock ⟨versionSlot live, key⟩)
    (hv : SameVersion o o') :
    ∃ s, putVersion o' live tx = (.ok (), { tx with store := s }) ∧
      s.stock = give (take tx.store.stock ⟨versionSlot live, key⟩ o) ⟨versionSlot live, key⟩ o' ∧
      s .bucket = tx.store .bucket := by
  have hproper := hv.proper (hs.proper _ o ho)
  have hkey : objectKey o'.bucket o'.name = key := hproper.key
  cases live with
  | true =>
    refine ⟨stored tx.store o', rfl, ?_, Store.put_other _ (by simp) _ _⟩
    rw [stored, hkey, hproper.recode]
    exact Store.stock_put_over (Store.mem_stock_live.mp ho)
  | false =>
    obtain ⟨hnodup, hall⟩ := hs.shelf .noncurrent key
    have hkept := (Store.mem_stock_shelf .noncurrent).mp ho
    refine ⟨_, rfl, ?_, Shelf.write_other _ _ _ (by simp [Shelf.kind])⟩
    rw [hkey]
    exact Store.stock_write_revise .noncurrent (perm_revised hnodup
      (fun v hv => (hall v hv).recode) hkept hv.generation hproper.recode)

theorem sameVersion_applyProtection {o' old : ObjectRecord} {body : ProtectionBody} {replace override : Bool}
    (h : applyProtection o old body replace override now = .ok o') : SameVersion o o' := by
  obtain ⟨temporaryHold, -, h⟩ := Txn.except_bind_ok h
  obtain ⟨eventBasedHold, -, h⟩ := Txn.except_bind_ok h
  obtain ⟨retention, -, h⟩ := Txn.except_bind_ok h
  split_ifs at h <;> cases h <;> exact ⟨rfl, rfl, rfl, rfl⟩

def Patched (c c' : Catalogue) : Prop :=
  ∃ p o o', o ∈ c.stock p ∧ SameVersion o o' ∧
    c' = { c with stock := give (take c.stock p o) p o' }

theorem objectsModify_patched {replace : Bool} {r : ModifyCall} (hs : tx.catalogue.Sound) :
    (objectsModify replace r now tx).2.catalogue = tx.catalogue ∨
      Patched tx.catalogue (objectsModify replace r now tx).2.catalogue := by
  let Q : Tx → Prop := fun t => t.catalogue = tx.catalogue ∨ Patched tx.catalogue t.catalogue
  have hQ : Q tx := .inl rfl
  refine after_still (Q := Q) (still_existingBucket _) hQ fun b _ => ?_
  refine after_still (Q := Q) (still_findVersion _ _ _) hQ fun v hfind => ?_
  have hfound := findVersion_ok hfind
  rcases v with _ | ⟨old, live⟩
  · exact hQ
  refine after_still (Q := Q) (still_check _) hQ fun _ _ => ?_
  refine after_still (Q := Q) (still_check _) hQ fun _ _ => ?_
  refine after_still (Q := Q) (still_ofExcept _) hQ fun o₁ ho₁ => ?_
  refine after_still (Q := Q) (still_check _) hQ fun _ _ => ?_
  refine after_still (Q := Q) (still_ofExcept _) hQ fun o₂ ho₂ => ?_
  dsimp only
  split_ifs
  · exact hQ
  have hsame : SameVersion old
      { o₂ with metageneration := o₂.metageneration + 1, updated := now } := by
    have h₁ := sameVersion_applyCustomTime (ofExcept_ok ho₁)
    have h₂ := h₁.trans (sameVersion_applyProtection (ofExcept_ok ho₂))
    exact ⟨h₂.bucket, h₂.name, h₂.generation, h₂.blob⟩
  obtain ⟨s, hrun, hstock, hbucket⟩ := putVersion_run hs (found_place hfound) hsame
  obtain ⟨tx', hemit, hbeside⟩ := emit_run
    { type := .metadataUpdate,
      object := { o₂ with metageneration := o₂.metageneration + 1, updated := now }, time := now }
    { tx with store := s }
  rw [Txn.bind_ok hrun, Txn.bind_ok hemit]
  refine .inr ⟨_, old, _, found_place hfound, hsame, ?_⟩
  rw [Txn.run_pure, hbeside.catalogue notify_apart, tx.catalogue_with hbucket hstock]
  rfl

def softWithout (b : BucketRecord) (soft : ObjectRecord) (s : Store) : Store :=
  let key := objectKey b.name soft.name
  Shelf.softdeleted.write s key ((byGeneration ((byGeneration (Shelf.softdeleted.read s key)).filter
    fun v => v.generation ≠ soft.generation || v.bucketGeneration ≠ soft.bucketGeneration)).map
      ObjectRecord.recode)

variable {soft : ObjectRecord}

theorem softWithout_stock (hs : tx.catalogue.Sound)
    (hsoft : soft ∈ Shelf.softdeleted.read tx.store (objectKey b.name soft.name)) :
    (softWithout b soft tx.store).stock = take tx.store.stock ⟨.soft, objectKey b.name soft.name⟩ soft := by
  obtain ⟨hnodup, hproper⟩ := hs.shelf .softdeleted (objectKey b.name soft.name)
  refine Store.stock_write_take .softdeleted (perm_without (List.Nodup.of_map _ hnodup)
    (fun v hv => (hproper v hv).recode) fun v hv => ?_)
  have hinj := List.inj_on_of_nodup_map hnodup hv hsoft
  simp only [ne_eq, decide_not, Bool.or_eq_true, Bool.not_eq_eq_eq_not, Bool.not_true,
    decide_eq_false_iff_not]
  constructor
  · rintro h rfl
    simp at h
  · exact fun hne => .inl fun heq => hne (hinj heq)

theorem softWithout_bucket (b : BucketRecord) (soft : ObjectRecord) (s : Store) :
    softWithout b soft s .bucket = s .bucket := by
  unfold softWithout
  exact Shelf.write_other _ _ _ (by simp [Shelf.kind])

theorem Proper.valid {key : Bytes} (h : Proper key o) : Valid o.name :=
  toValid_eq_self.mp (congrArg ObjectRecord.name h.recode)

structure Renewing (gs : Grant) (c : Catalogue) : Prop where
  add : ∀ key g, c.lastGen < g → gs.add key g
  free : gs.Free

theorem Renewing.edits {c c' : Catalogue} (h : Renewing gs c) (he : Edits now gs c c') : Renewing gs c' :=
  ⟨fun key g hg => h.add key g (he.lastGen.trans_lt hg), h.free⟩

theorem restoreSoft_edits {cur : Option ObjectRecord} (hr : Ready b tx.catalogue)
    (hsoft : soft ∈ Shelf.softdeleted.read tx.store (objectKey b.name soft.name))
    (hgs : Renewing gs tx.catalogue) :
    Edits now gs tx.catalogue (restoreSoft b soft cur now tx).2.catalogue := by
  have hplace : soft ∈ tx.catalogue.stock ⟨.soft, objectKey b.name soft.name⟩ :=
    (Store.mem_stock_shelf .softdeleted).mpr hsoft
  have hproper := hr.sound.proper _ soft hplace
  obtain ⟨hbucket, -⟩ := hproper.names rfl b.named.1
  refine edits_still (still_ofExcept _) .refl fun o ho => ?_
  have hsame := sameVersion_checkNewObject (ofExcept_ok ho)
  let g := generationAfter tx.lastGen (tx.clock.headD 0)
  have hlt : tx.lastGen < g := lt_generationAfter _ _
  let drawn : Tx := { tx with
    store := softWithout b soft tx.store, lastGen := g, clock := tx.clock.tail }
  have hdrawn : drawn.catalogue = { tx.catalogue with
      stock := take tx.catalogue.stock ⟨.soft, objectKey b.name soft.name⟩ soft, lastGen := g } := by
    have h := tx.catalogue_with (softWithout_bucket b soft tx.store) (softWithout_stock hr.sound hsoft)
    exact congrArg (fun c : Catalogue => { c with lastGen := g }) h
  have hedits : Edits now gs tx.catalogue drawn.catalogue := by
    rw [hdrawn]
    exact .tail (.single (.drop hplace (hgs.free.touch _) (.inl rfl) (hgs.free.drop _))) (.advance hlt.le)
  have hbucket' : (restoredRecord o g now).bucket = b.name := hsame.bucket.trans hbucket
  have hname : (restoredRecord o g now).name = soft.name := hsame.name
  have hentering : Entering drawn.catalogue (restoredRecord o g now) := by
    refine ⟨hname ▸ hproper.valid, ?_, le_rfl⟩
    rw [hdrawn]
    exact (hr.sound.fresh hlt).take _ _
  have hfiles := (files_finalized (restoredRecord o g now) cur now).returning (restoredRecord o g now)
  have hreplace : Edits now gs drawn.catalogue
      ((retireLive b (restoredRecord o g now).name now g >>= fun _ => _) drawn).2.catalogue :=
    replace_edits hfiles (hedits.stable (stable_ready b gs) hr) hentering hbucket'
      (fun x _ => hgs.free.lets b x) (hgs.add _ g hlt)
  rw [hname] at hreplace
  exact hedits.trans hreplace

theorem softVersions_run (b : BucketRecord) (name : Bytes) (now : Time) (tx : Tx) :
    softVersions b name now tx = (.ok ((byGeneration (Shelf.softdeleted.read tx.store
      (objectKey b.name name))).filter (restorable b now)), tx) := rfl

theorem soft_of_softVersions (hs : tx.catalogue.Sound)
    (h : soft ∈ (byGeneration (Shelf.softdeleted.read tx.store (objectKey b.name name))).filter
      (restorable b now)) :
    soft ∈ Shelf.softdeleted.read tx.store (objectKey b.name soft.name) ∧ soft.name = name := by
  have hmem := mem_byGeneration.mp (List.mem_of_mem_filter h)
  have hproper := (hs.shelf .softdeleted _).2 soft hmem
  have hname := (hproper.names rfl b.named.1).2
  exact ⟨hname.symm ▸ hmem, hname⟩

theorem objectsRestore_edits {r : RestoreCall} (hs : tx.catalogue.Sound) (hgs : Renewing gs tx.catalogue) :
    Edits now gs tx.catalogue (objectsRestore r now tx).2.catalogue := by
  refine edits_still (still_existingBucket _) .refl fun b hbucket => ?_
  obtain ⟨hr, -⟩ := hs.ready (existingBucket_ok hbucket)
  refine edits_still (still_bind (fun _ => rfl) fun _ => still_pure _) .refl fun v hfind => ?_
  cases v with
  | none =>
    dsimp only
    split_ifs
    · exact .refl
    · refine edits_still (still_findVersion _ _ _) .refl fun v _ => ?_
      cases v <;> exact .refl
  | some soft =>
    refine edits_still (still_read _) .refl fun cur _ => ?_
    refine edits_still (still_check _) .refl fun _ _ => ?_
    have hpick : ((byGeneration (Shelf.softdeleted.read tx.store (objectKey b.name r.name))).filter
        (restorable b now)).find? r.generation.names = some soft :=
      Except.ok.inj (congrArg Prod.fst hfind)
    exact restoreSoft_edits hr (soft_of_softVersions hs (List.mem_of_find?_eq_some hpick)).1 hgs

theorem foldl_newest_mem (vs : List ObjectRecord) (best : Option ObjectRecord) (soft : ObjectRecord)
    (h : vs.foldl newest best = some soft) : soft ∈ vs ∨ best = some soft := by
  induction vs generalizing best with
  | nil => exact .inr h
  | cons v rest ih =>
    rcases ih (newest best v) h with hmem | hbest
    · exact .inl (List.mem_cons_of_mem v hmem)
    · cases best with
      | none =>
        cases hbest
        exact .inl List.mem_cons_self
      | some p =>
        simp only [newest] at hbest
        split_ifs at hbest <;> cases hbest
        · exact .inl List.mem_cons_self
        · exact .inr rfl

variable {f : BulkRestoreFilter}

theorem BulkRestoreFilter.pick_mem {vs : List ObjectRecord} (h : f.pick vs = some soft) : soft ∈ vs := by
  rcases foldl_newest_mem _ none soft h with hmem | hnone
  · exact List.mem_of_mem_filter hmem
  · cases hnone

theorem bulkRestoreName_edits {n : BulkRestoreCounts} (hr : Ready b tx.catalogue) (hgs : Renewing gs tx.catalogue) :
    Edits now gs tx.catalogue (bulkRestoreName b name f n now tx).2.catalogue := by
  refine edits_still (fun _ => rfl) .refl fun vs hvs => ?_
  rw [softVersions_run] at hvs
  have hlist := Except.ok.inj (congrArg Prod.fst hvs)
  cases hpick : f.pick vs with
  | none => exact .refl
  | some soft =>
    have hmem := BulkRestoreFilter.pick_mem hpick
    rw [← hlist] at hmem
    refine edits_still (still_read _) .refl fun cur _ => ?_
    dsimp only
    split_ifs
    · exact .refl
    · have hrestore : Edits now gs tx.catalogue (Txn.attempt (restoreSoft b soft cur now) tx).2.catalogue :=
        restoreSoft_edits hr (soft_of_softVersions hr.sound hmem).1 hgs
      refine edits_bind hrestore fun r t _ hedits => ?_
      cases r <;> exact hedits

theorem bulkRestoreNames_edits (names : List Bytes) {n : BulkRestoreCounts} (hr : Ready b tx.catalogue)
    (hgs : Renewing gs tx.catalogue) :
    Edits now gs tx.catalogue (bulkRestoreNames b f now names n tx).2.catalogue := by
  induction names generalizing n tx with
  | nil => exact .refl
  | cons name names ih =>
    refine edits_bind (bulkRestoreName_edits hr hgs) fun n' t _ hedits => ?_
    exact hedits.trans (ih (hedits.stable (stable_ready b gs) hr) (hgs.edits hedits))

theorem objectsBulkRestore_edits {r : BulkRestoreCall} (hs : tx.catalogue.Sound) (hgs : Renewing gs tx.catalogue) :
    Edits now gs tx.catalogue (objectsBulkRestore r now tx).2.catalogue := by
  refine edits_still (still_existingBucket _) .refl fun b hbucket => ?_
  obtain ⟨hr, -⟩ := hs.ready (existingBucket_ok hbucket)
  refine edits_still (fun _ => rfl) .refl fun names _ => ?_
  refine edits_bind (bulkRestoreNames_edits names hr hgs) fun n t _ hedits => ?_
  exact Edits.beside hedits (Beside.put (List.mem_singleton_self .operation) _ _ t) (by decide)

end CloudBurrow.Storage

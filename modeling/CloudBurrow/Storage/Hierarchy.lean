import CloudBurrow.Storage.Passes

namespace CloudBurrow.Storage

open Utf8 Inventory Transaction

variable {bucket name : Bytes}

theorem mem_namesIn {s : Store} {k : Kind} {start : Bytes}
    (h : name ∈ (s.list k (objectKey bucket start)).map fun key =>
      key.drop (objectKey bucket []).length) :
    start <+: name ∧ ∃ v, s.get k (objectKey bucket name) = some v := by
  obtain ⟨key, hkey, rfl⟩ := List.mem_map.mp h
  obtain ⟨⟨rest, rfl⟩, hv⟩ := (s.mem_list).mp hkey
  have hdrop : (objectKey bucket start ++ rest).drop (objectKey bucket []).length = start ++ rest := by
    have hsplit : objectKey bucket start ++ rest = objectKey bucket [] ++ (start ++ rest) := by
      simp [objectKey]
    rw [hsplit, List.drop_left]
  rw [hdrop]
  have hjoin : objectKey bucket (start ++ rest) = objectKey bucket start ++ rest := by
    simp [objectKey]
  exact ⟨List.prefix_append _ _, hjoin ▸ hv⟩

theorem still_hnsBucket (bucket : Bytes) : Still (hnsBucket bucket) := by
  refine still_bind (still_existingBucket bucket) fun b => ?_
  split_ifs
  · exact still_refuse _
  · exact still_pure b

theorem still_getFolder (bucket name : Bytes) : Still (getFolder bucket name) :=
  still_bind (still_read _) fun _ => still_pure _

theorem still_existingFolder (bucket name : Bytes) (pre : Preconditions) (reads : Bool) :
    Still (existingFolder bucket name pre reads) := by
  refine still_bind (still_hnsBucket bucket) fun _ => ?_
  refine still_bind (still_getFolder _ _) fun f => ?_
  cases f with
  | none => exact still_refuse _
  | some f => exact still_bind (still_check _) fun _ => still_pure f

theorem moves_createFolder (r : CreateFolderCall) (now : Time) :
    Moves (Beside [.folder]) (createFolder r now) := by
  refine moves_ofExcept_bind fun name => ?_
  refine moves_bind (still_hnsBucket r.bucket).moves fun _ => ?_
  refine (still_getFolder _ _).then fun f => ?_
  cases f with
  | some f => exact (still_refuse _).moves
  | none =>
    dsimp only
    split_ifs
    · exact moves_bind (runs_put (by simp) _ _).moves fun _ => moves_pure _
    · refine (still_getFolder _ _).then fun p => ?_
      split_ifs
      · exact moves_bind (moves_refuse _) fun _ => moves_pure _
      · refine moves_bind (runs_ensureFolders _ _ _ _).moves fun _ => ?_
        exact moves_bind (runs_put (by simp) _ _).moves fun _ => moves_pure _

theorem moves_deleteFolder (r : FolderCall) : Moves (Beside [.folder]) (deleteFolder r) := by
  refine (still_existingFolder _ _ _ _).then fun f => ?_
  refine moves_read_bind fun inside => ?_
  refine moves_read_bind fun objects => ?_
  split_ifs
  · exact moves_refuse _
  · exact (runs_delete (by simp) _).moves

variable {b : BucketRecord} {tx : Tx}

theorem hnsBucket_ok {tx' : Tx} (h : hnsBucket bucket tx = (.ok b, tx')) : tx.store.get .bucket bucket = some b := by
  obtain ⟨b', t, hb, h⟩ := Txn.bind_ok_inv h
  split_ifs at h
  · cases h
  · cases h
    exact existingBucket_ok hb

theorem existingFolder_ok {pre : Preconditions} {reads : Bool} {f : FolderRecord} {tx' : Tx}
    (h : existingFolder bucket name pre reads tx = (.ok f, tx')) :
    (∃ b, tx.store.get .bucket bucket = some b) ∧
      ∃ e, tx.store.get .folder (objectKey bucket (withSlash name)) = some e ∧ e.val = f := by
  obtain ⟨b, t, hb, hrest⟩ := Txn.bind_ok_inv h
  rw [still_ok (still_hnsBucket bucket) hb] at hrest
  refine ⟨⟨b, hnsBucket_ok hb⟩, ?_⟩
  obtain ⟨found, t', hget, hrest⟩ := Txn.bind_ok_inv hrest
  have hfound : (tx.store.get .folder (objectKey bucket (withSlash name))).map (·.val) = found :=
    Except.ok.inj (congrArg Prod.fst hget)
  cases found with
  | none => cases hrest
  | some f' =>
    obtain ⟨e, he, hval⟩ := Option.map_eq_some_iff.mp hfound
    obtain ⟨_, t'', -, hrest⟩ := Txn.bind_ok_inv hrest
    cases hrest
    exact ⟨e, he, hval⟩

variable {now : Time} {gs : Grant}

theorem moves_deleteInside (hfree : gs.Free)
    (name : Bytes) : Moves (Under (Ready b) now gs) (deleteInside b b.name now name) := by
  intro tx
  refine .intro (stable_ready b gs) fun hr => ?_
  refine edits_still (still_read _) .refl fun o hget => ?_
  cases o with
  | none => exact .refl
  | some o =>
    refine edits_still (still_check _) .refl fun _ hp => ?_
    have hlive : tx.store.get .object (objectKey b.name name) = some o :=
      Except.ok.inj (congrArg Prod.fst hget)
    have ho : o ∈ tx.store.stock ⟨versionSlot true, objectKey b.name name⟩ :=
      Store.mem_stock_live.mpr hlive
    exact expelled_edits hr ho (check_ok hp) (hfree.touch _) (hfree.drop _)

theorem deleteFolderRecursive_edits {r : FolderCall} (hfree : gs.Free) (hs : tx.catalogue.Sound) :
    Edits now gs tx.catalogue (deleteFolderRecursive r now tx).2.catalogue := by
  refine edits_still (still_hnsBucket _) .refl fun b hbucket => ?_
  obtain ⟨hr, hname⟩ := hs.ready (hnsBucket_ok hbucket)
  refine edits_still (still_existingFolder _ _ _ _) .refl fun f _ => ?_
  refine edits_still (still_namesIn _ _ _) .refl fun names _ => ?_
  rw [← hname]
  have hloop : Moves (Under (Ready b) now gs) (Txn.forEach names (deleteInside b b.name now)) :=
    moves_forEach names fun name _ => moves_deleteInside hfree name
  refine edits_bind (hloop tx hr).2 fun _ t _ hedits => ?_
  refine edits_still (still_read _) hedits fun folders _ => ?_
  refine Edits.beside hedits ?_ (by decide : ∀ k ∈ _, k ∉ [Kind.folder, .operation])
  refine (moves_bind (moves_forEach folders fun key _ => ?_) fun _ => ?_) t
  · exact (runs_delete (by simp) key).moves
  · exact moves_bind (runs_put (by simp) _ _).moves fun _ => moves_pure _

variable {src dst : Bytes}

theorem valid_renamed (hsrc : Valid src) (hdst : Valid dst) (hname : Valid name) : Valid (renamed src dst name) := by
  unfold renamed
  rw [valid_append _ hdst]
  split_ifs with hp
  · obtain ⟨rest, rfl⟩ := hp
    rw [List.drop_left]
    exact (valid_append rest hsrc).mp hname
  · exact hname

structure Renaming (gs : Grant) : Prop where
  free : gs.Free
  rename : ∀ key, gs.rename key

def shifted (s : Store) (key key' : Bytes) (o : ObjectRecord) : Store :=
  (s.delete .object key).put .object key' o

theorem shifted_bucket (s : Store) (key key' : Bytes) (o : ObjectRecord) :
    shifted s key key' o .bucket = s .bucket :=
  (Store.put_other _ (by simp) _ _).trans (Store.delete_other _ (by simp) _)

theorem shifted_edits {key key' : Bytes} {o o' : ObjectRecord}
    (hren : Renaming gs) (ho : tx.store.get .object key = some o) (hs : SameGuard o o')
    (hproper : Proper key' o')
    (hclear : ∀ k ∈ [key, key'], ∀ x ∈ tx.catalogue.stock ⟨.live, k⟩, ¬ tx.catalogue.Guarded now x) :
    Edits now gs tx.catalogue ({ tx with store := shifted tx.store key key' o' } : Tx).catalogue := by
  have hmem : o ∈ tx.catalogue.stock ⟨.live, key⟩ := Store.mem_stock_live.mpr ho
  have hguard := hclear key (by simp) o hmem
  have hdel : (tx.store.delete .object key).stock = take tx.store.stock ⟨.live, key⟩ o :=
    Store.stock_delete_live ho
  cases hx : (tx.store.delete .object key).get .object key' with
  | none =>
    have hstock : (shifted tx.store key key' o').stock = _ := Store.stock_put_new hx
    rw [hdel] at hstock
    rw [tx.catalogue_with (shifted_bucket _ _ _ _) hstock]
    exact .single (.rename hmem (hren.free.touch _) hguard hs hproper (hren.rename _))
  | some x =>
    have hstock : (shifted tx.store key key' o').stock = _ := Store.stock_put_over hx
    have hkey : key ≠ key' := by
      rintro rfl
      rw [Store.get_delete_self] at hx
      cases hx
    have hplace : (⟨.live, key⟩ : Place) ≠ ⟨.live, key'⟩ := by simpa using hkey
    rw [Store.get_delete_key _ hkey] at hx
    have hxmem : x ∈ tx.catalogue.stock ⟨.live, key'⟩ := Store.mem_stock_live.mpr hx
    rw [hdel, take_comm hplace] at hstock
    rw [tx.catalogue_with (shifted_bucket _ _ _ _) hstock]
    -- What lies at the new name is overwritten without being retired.
    refine .head (.drop hxmem (hren.free.touch _) (.inr (hclear key' (by simp) x hxmem))
      (hren.free.drop _)) (.single (.rename ?_ (hren.free.touch _) hguard hs hproper (hren.rename _)))
    exact mem_take_of_ne hmem (.inl hplace)

theorem renameObject_edits (hren : Renaming gs) (hr : Ready b tx.catalogue) (hsrc : Valid src) (hdst : Valid dst)
    (hclear : ∀ key ∈ [objectKey b.name name, objectKey b.name (renamed src dst name)],
      ∀ o ∈ tx.catalogue.stock ⟨.live, key⟩, ¬ tx.catalogue.Guarded now o) :
    Edits now gs tx.catalogue (renameObject b.name src dst now name tx).2.catalogue := by
  refine edits_still (still_read _) .refl fun o hget => ?_
  cases o with
  | none => exact .refl
  | some o =>
    have hlive : tx.store.get .object (objectKey b.name name) = some o :=
      Except.ok.inj (congrArg Prod.fst hget)
    have hproper := hr.sound.proper ⟨.live, objectKey b.name name⟩ o (Store.mem_stock_live.mpr hlive)
    obtain ⟨hbucket, hname⟩ := hproper.names rfl b.named.1
    let o' : ObjectRecord := { o with name := renamed src dst o.name, updated := now }
    have hkey : objectKey o'.bucket o'.name = objectKey b.name (renamed src dst name) := by
      rw [← hbucket, ← hname]
    have hproper' : Proper (objectKey o'.bucket o'.name) o' :=
      proper_of_bucket hbucket (valid_renamed hsrc hdst hproper.valid)
    change Edits now gs tx.catalogue ({ tx with
      store := shifted tx.store (objectKey b.name name) (objectKey o'.bucket o'.name) o'.recode }
        : Tx).catalogue
    rw [hproper'.recode]
    exact shifted_edits hren hlive ⟨rfl, rfl, rfl, rfl, rfl, rfl, rfl⟩ hproper' (hkey ▸ hclear)

def Clear (now : Time) (keys : List Bytes) (c : Catalogue) : Prop :=
  ∀ key ∈ keys, ∀ o ∈ c.stock ⟨.live, key⟩, ¬ c.Guarded now o

theorem Edit.clear {keys : List Bytes} {c c' : Catalogue}
    (h : Edit now gs c c') (hadd : ∀ key g, ¬ gs.add key g) (hc : Clear now keys c) :
    Clear now keys c' := by
  intro key hkey o ho
  have hguard : c'.Guarded now o ↔ c.Guarded now o := by
    rw [Catalogue.Guarded, Catalogue.Guarded, h.bucket]
  rw [hguard]
  have hback : ∀ p q x y, o ∈ give (take c.stock p x) q y ⟨.live, key⟩ → q.slot ≠ .live →
      ¬ c.Guarded now o := by
    intro p q x y hmem hq
    rcases mem_give.mp hmem with ⟨rfl, -⟩ | hmem
    · exact absurd rfl hq
    · exact hc key hkey o (mem_of_mem_take hmem)
  cases h <;> dsimp only at ho
  case drop => exact hc key hkey o (mem_of_mem_take ho)
  case archive => exact hback _ _ _ _ ho (by simp)
  case discard => exact hback _ _ _ _ ho (by simp)
  case rename _ _ hg hs _ _ =>
      rcases mem_give.mp ho with ⟨-, rfl⟩ | ho
      · exact fun h => hg ((hs.guarded c now).mp h)
      · exact hc key hkey o (mem_of_mem_take ho)
  case revise hx _ hs hn =>
      rcases mem_give.mp ho with ⟨rfl, rfl⟩ | ho
      · exact fun h => hc key hkey _ hx ((hs.guarded c now).mp h)
      · exact hc key hkey o (mem_of_mem_take ho)
  case add ha _ _ => exact (hadd _ _ ha).elim
  case advance => exact hc key hkey o ho

def shiftKeys (bucket src dst : Bytes) (names : List Bytes) : List Bytes :=
  names.flatMap fun name => [objectKey bucket name, objectKey bucket (renamed src dst name)]

theorem renameObjects_edits
    (hren : Renaming gs) (hadd : ∀ key g, ¬ gs.add key g) (hsrc : Valid src) (hdst : Valid dst)
    (names : List Bytes) (hr : Ready b tx.catalogue)
    (hclear : Clear now (shiftKeys b.name src dst names) tx.catalogue) :
    Edits now gs tx.catalogue (Txn.forEach names (renameObject b.name src dst now) tx).2.catalogue := by
  induction names generalizing tx with
  | nil => exact .refl
  | cons name names ih =>
    have hhead : Edits now gs tx.catalogue (renameObject b.name src dst now name tx).2.catalogue := by
      refine renameObject_edits hren hr hsrc hdst fun key hkey => hclear key ?_
      exact List.mem_flatMap.mpr ⟨name, List.mem_cons_self, hkey⟩
    refine edits_bind hhead fun _ t _ hedits => ?_
    have hstable : Stable now gs (Clear now (shiftKeys b.name src dst (name :: names))) :=
      fun _ _ he hc => he.clear hadd hc
    refine hedits.trans (ih (hedits.stable (stable_ready b gs) hr) fun key hkey => ?_)
    refine hedits.stable hstable hclear key ?_
    obtain ⟨n, hn, hmem⟩ := List.mem_flatMap.mp hkey
    exact List.mem_flatMap.mpr ⟨n, List.mem_cons_of_mem name hn, hmem⟩

theorem valid_managedFolderName (h : managedFolderName name = .ok dst) : Valid dst := by
  unfold managedFolderName at h
  dsimp only at h
  split_ifs at h with h₁ h₂ hv
  split at h
  · cases h
  · cases h
    simpa using hv

theorem moves_renameInside (bucket src dst : Bytes) (now : Time) (name : Bytes) :
    Moves (Beside [.folder, .operation]) (renameInside bucket src dst now name) := by
  refine (still_getFolder _ _).then fun f => ?_
  cases f with
  | none => exact (still_pure ()).moves
  | some f =>
    exact moves_bind (runs_delete (by simp) _).moves fun _ => (runs_put (by simp) _ _).moves

def RenameCall.Unprotected (r : RenameCall) (now : Time) (s : Store) : Prop :=
  ∀ b f dst, s.get .bucket r.bucket = some b →
    s.get .folder (objectKey r.bucket (withSlash r.source)) = some f →
    managedFolderName r.dest = .ok dst →
    ∀ name, f.val.name <+: name → (s.get .object (objectKey r.bucket name)).isSome →
      ∀ name' ∈ [name, renamed f.val.name dst name], ∀ o,
        s.get .object (objectKey r.bucket name') = some o → ¬ Protected b o now

theorem RenameCall.Unprotected.clear {r : RenameCall}
    {f : Encoded FolderRecord.recode} (h : r.Unprotected now tx.store)
    (hr : Ready b tx.catalogue) (hb : b.name = r.bucket)
    (hf : tx.store.get .folder (objectKey r.bucket (withSlash r.source)) = some f)
    (hdst : managedFolderName r.dest = .ok dst) :
    Clear now (shiftKeys b.name f.val.name dst ((tx.store.list .object
      (objectKey b.name f.val.name)).map fun key => key.drop (objectKey b.name []).length))
      tx.catalogue := by
  intro key hkey o ho hguard
  obtain ⟨name, hname, hmem⟩ := List.mem_flatMap.mp hkey
  obtain ⟨hunder, v, hv⟩ := mem_namesIn hname
  have hshape : ∃ name' ∈ [name, renamed f.val.name dst name], key = objectKey b.name name' := by
    simp only [List.mem_cons, List.not_mem_nil, or_false] at hmem
    rcases hmem with rfl | rfl
    · exact ⟨name, by simp, rfl⟩
    · exact ⟨renamed f.val.name dst name, by simp, rfl⟩
  obtain ⟨name', hname', rfl⟩ := hshape
  have hproper := hr.sound.proper _ o ho
  obtain ⟨hbucket, -⟩ := hproper.names rfl b.named.1
  have hget := Store.mem_stock_live.mp ho
  have hbucket' := hr.bucket
  rw [hb] at hv hget hbucket'
  exact h b f dst hbucket' hf hdst name hunder (by rw [hv]; rfl) name' hname' o hget
    ((hr.guarded hbucket now).mp hguard)

theorem renameFolder_edits {r : RenameCall} (hren : Renaming gs)
    (hadd : ∀ key g, ¬ gs.add key g) (hs : tx.catalogue.Sound)
    (hclear : r.Unprotected now tx.store) :
    Edits now gs tx.catalogue (renameFolder r now tx).2.catalogue := by
  refine edits_still (still_ofExcept _) .refl fun dst hdst => ?_
  have hdst' := ofExcept_ok hdst
  refine edits_still (still_existingFolder _ _ _ _) .refl fun f hf => ?_
  obtain ⟨⟨b, hb⟩, e, he, rfl⟩ := existingFolder_ok hf
  obtain ⟨hr, hname⟩ := hs.ready hb
  have hsrc : Valid e.val.name := toValid_eq_self.mp (congrArg FolderRecord.name e.stable)
  split_ifs
  · exact .refl
  refine edits_still (still_getFolder _ _) .refl fun at' _ => ?_
  cases at' with
  | some _ => exact .refl
  | none =>
    refine edits_still (still_getFolder _ _) .refl fun parent _ => ?_
    split_ifs
    · exact .refl
    refine edits_still (still_namesIn _ _ _) .refl fun names hnames => ?_
    have hlist := Except.ok.inj (congrArg Prod.fst hnames)
    rw [← hlist, ← hname]
    refine edits_bind (renameObjects_edits hren hadd hsrc (valid_managedFolderName hdst') _ hr
      (hclear.clear hr hname he hdst')) fun _ t _ hedits => ?_
    refine edits_still (still_namesIn _ _ _) hedits fun folders _ => ?_
    refine Edits.beside hedits ?_ (by decide : ∀ k ∈ _, k ∉ [Kind.folder, .operation])
    refine (moves_bind (moves_forEach folders fun name _ => moves_renameInside _ _ _ _ name)
      fun _ => ?_) t
    refine (still_getFolder _ _).then fun folder => ?_
    exact moves_bind (runs_put (by simp) _ _).moves fun _ => moves_pure _

end CloudBurrow.Storage

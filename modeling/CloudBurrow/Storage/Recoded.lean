import CloudBurrow.Storage.Orderly

namespace CloudBurrow.Storage

open Utf8 Transaction Interleaving

variable {A : Type}

theorem moves_assoc {B C : Type} {R : Tx → Tx → Prop} [IsTrans Tx R] {m : Action A}
    {f : A → Action B} {g : B → Action C} (h : Moves R (m >>= f)) (hg : ∀ b, Moves R (g b)) :
    Moves R (m >>= fun a => f a >>= g) := by
  have hassoc : (m >>= fun a => f a >>= g) = (m >>= f) >>= g := by
    funext tx
    simp only [Txn.run_bind]
    rcases m tx with ⟨r, t⟩
    cases r <;> rfl
  rw [hassoc]
  exact moves_bind h hg

def BucketName (name : Bytes) : Prop := slash ∉ name ∧ Valid name

theorem opened_bucket {u : Upload} {b : BucketRecord} {o o' : ObjectRecord}
    (h : u.opened b o = .ok o') : o'.bucket = o.bucket := by
  unfold Upload.opened at h
  split_ifs at h
  · exact (sameVersion_openAppendable h).bucket
  · cases h
    rfl

def Keeping (J : Tx → Prop) (tx tx' : Tx) : Prop := J tx → J tx'

namespace Keeping

variable {J : Tx → Prop}

instance : Std.Refl (Keeping J) := ⟨fun _ h => h⟩

instance : IsTrans Tx (Keeping J) := ⟨fun _ _ _ h h' hj => h' (h hj)⟩

theorem bind {B : Type} {m : Action A} {f : A → Action B} {P : A → Prop}
    (hm : Moves (Keeping J) m) (hP : ∀ tx a tx', J tx → m tx = (.ok a, tx') → P a)
    (hf : ∀ a, P a → Moves (Keeping J) (f a)) : Moves (Keeping J) (m >>= f) := by
  intro tx hj
  refine after_bind (Q := J) (hm tx hj) fun a t hrun ht => ?_
  exact hf a (hP tx a t hj hrun) t ht

end Keeping

structure Filed (o : ObjectRecord) : Prop where
  recode : o.recode = o
  bucket : BucketName o.bucket

theorem Filed.same {o o' : ObjectRecord} (h : Filed o) (hb : o'.bucket = o.bucket)
    (hn : o'.name = o.name) : Filed o' := by
  have hbucket := congrArg ObjectRecord.bucket h.recode
  have hname := congrArg ObjectRecord.name h.recode
  simp only [ObjectRecord.recode] at hbucket hname
  refine ⟨?_, hb ▸ h.bucket⟩
  simp only [ObjectRecord.recode, hb, hn, hbucket, hname]
  rw [← hb, ← hn]

theorem filed_recode {o : ObjectRecord} (h : BucketName o.bucket) : Filed o.recode := by
  refine ⟨o.recode_recode, ?_⟩
  have hbucket : o.recode.bucket = o.bucket := toValid_of_valid _ h.2
  rw [hbucket]
  exact h

structure Recoded (s : Store) : Prop where
  bucket : ∀ name b, s.get .bucket name = some b → b.name = name
  live : ∀ key o, s.get .object key = some o →
    Filed o ∧ ∃ name, key = objectKey o.bucket name ∧ o.name = toValid name
  kept : ∀ key, ∀ o ∈ Shelf.noncurrent.read s key, Filed o
  soft : ∀ key, ∀ o ∈ Shelf.softdeleted.read s key,
    Filed o ∧ ∃ b, slash ∉ b ∧ key = objectKey b o.name

def Housed (p : Place) (o : ObjectRecord) : Prop :=
  Filed o ∧ match p.slot with
    | .live => ∃ name, p.key = objectKey o.bucket name ∧ o.name = toValid name
    | .kept => True
    | .soft => ∃ b, slash ∉ b ∧ p.key = objectKey b o.name

theorem recoded_iff {s : Store} : Recoded s ↔
    (∀ name b, s.get .bucket name = some b → b.name = name) ∧ ∀ p, ∀ o ∈ s.stock p, Housed p o := by
  constructor
  · refine fun h => ⟨h.bucket, ?_⟩
    rintro ⟨slot, key⟩ o ho
    cases slot with
    | live => exact h.live key o (Store.mem_stock_live.mp ho)
    | kept => exact ⟨h.kept key o ho, trivial⟩
    | soft => exact h.soft key o ho
  · rintro ⟨hb, hs⟩
    exact ⟨hb, fun key o ho => hs ⟨.live, key⟩ o (Store.mem_stock_live.mpr ho),
      fun key o ho => (hs ⟨.kept, key⟩ o ho).1, fun key o ho => hs ⟨.soft, key⟩ o ho⟩

namespace Recoded

variable {s t : Store}

theorem empty : Recoded Store.empty := by
  refine ⟨fun name b h => ?_, fun key o h => ?_, fun key o h => ?_, fun key o h => ?_⟩
  · simp at h
  · simp at h
  all_goals simp [Shelf.read] at h

theorem rebucketed (h : Recoded s) (hb : ∀ name b, t.get .bucket name = some b → b.name = name)
    (hs : t.stock = s.stock) : Recoded t :=
  recoded_iff.mpr ⟨hb, hs ▸ (recoded_iff.mp h).2⟩

theorem update (h : Recoded s) {p : Place} {vs : Multiset ObjectRecord} (hb : t .bucket = s .bucket)
    (hs : t.stock = Function.update s.stock p vs) (hvs : ∀ o ∈ vs, Housed p o) : Recoded t := by
  obtain ⟨hbucket, hstock⟩ := recoded_iff.mp h
  refine recoded_iff.mpr ⟨?_, fun q o ho => ?_⟩
  · simp only [Store.get, hb]
    exact hbucket
  · rw [hs] at ho
    by_cases hq : q = p
    · subst hq
      rw [Function.update_self] at ho
      exact hvs o ho
    · rw [Function.update_of_ne hq] at ho
      exact hstock q o ho

theorem putObject (h : Recoded s) {o : ObjectRecord} (ho : BucketName o.bucket) : Recoded (stored s o) := by
  refine h.update (Store.put_other s (by simp) _ _) (Store.stock_put_object s _ _) fun x hx => ?_
  obtain rfl := Multiset.mem_singleton.mp hx
  have hbucket : o.recode.bucket = o.bucket := toValid_of_valid _ ho.2
  exact ⟨filed_recode ho, o.name, by rw [hbucket], rfl⟩

variable {key : Bytes} {vs : List ObjectRecord}

theorem housed (h : Recoded s) {sh : Shelf} : ∀ o ∈ sh.read s key, Housed ⟨sh.slot, key⟩ o :=
  fun o ho => (recoded_iff.mp h).2 _ o ((Store.mem_stock_shelf sh).mpr ho)

theorem write (h : Recoded s) (sh : Shelf) (hvs : ∀ o ∈ vs, Housed ⟨sh.slot, key⟩ o) :
    Recoded (sh.write s key (vs.map ObjectRecord.recode)) := by
  rw [map_recode_eq fun o ho => (hvs o ho).1.recode]
  exact h.update (sh.write_other s vs (by cases sh <;> simp [Shelf.kind])) (Store.stock_write s sh key vs) hvs

theorem append (h : Recoded s) (sh : Shelf) {o : ObjectRecord} (ho : Housed ⟨sh.slot, key⟩ o) :
    Recoded (sh.write s key (sh.read s key ++ [o.recode])) := by
  have hread : (sh.read s key).map ObjectRecord.recode = sh.read s key :=
    map_recode_eq fun v hv => (h.housed v hv).1.recode
  rw [← hread, ← List.map_singleton, ← List.map_append]
  exact h.write sh (List.forall_mem_append.mpr ⟨h.housed, List.forall_mem_singleton.mpr ho⟩)

end Recoded

abbrev Recodes (m : Action A) : Prop := Moves (Keeping fun tx => Recoded tx.store) m

theorem recodes_rebuckets {m : Action A} (h : Moves Rebuckets m) : Recodes m := by
  intro tx hr
  obtain ⟨hstock, -, hbucket⟩ := h tx hr.bucket
  exact hr.rebucketed hbucket hstock

theorem recodes_beside {ks : List Kind} {m : Action A} (h : Moves (Beside ks) m)
    (hk : ∀ k ∈ [Kind.bucket, .object, .noncurrent, .softdeleted], k ∉ ks) : Recodes m :=
  recodes_rebuckets (.of_beside h hk)

section Primitives

variable (k : Kind) (hk : ∀ k' ∈ [Kind.bucket, .object, .noncurrent, .softdeleted], k' ∉ [k]) (key : Bytes)
include hk

theorem recodes_put (v : Val k) : Recodes (Tx.put k key v) :=
  recodes_beside (runs_put (List.mem_singleton_self k) key v).moves hk

theorem recodes_delete : Recodes (Tx.delete k key) :=
  recodes_beside (runs_delete (List.mem_singleton_self k) key).moves hk

end Primitives

theorem recodes_deleteObject (key : Bytes) : Recodes (Tx.delete .object key) := by
  intro tx h
  have hbucket : tx.store.delete .object key .bucket = tx.store .bucket := Store.delete_other _ (by simp) key
  exact h.update hbucket (Store.stock_delete_object tx.store key) (by simp)

theorem recodes_emit (ev : ObjectEvent) : Recodes (emit ev) := recodes_beside (runs_emit ev).moves notify_apart

theorem recodes_draw : Recodes nextGeneration := fun _ h => h

theorem recodes_ignored {m : Action A} (h : Recodes m) : Recodes (ignored m) :=
  moves_bind h fun _ => moves_pure ()

theorem recodes_objectFolders (o : ObjectRecord) (now : Time) : Recodes (objectFolders o now) :=
  recodes_beside (runs_objectFolders o now).moves (by decide)

theorem recodes_deleteVersion (o : ObjectRecord) : Recodes (deleteVersion o) := by
  intro tx h
  refine h.write .noncurrent fun x hx => h.housed x ?_
  exact mem_byGeneration.mp (List.mem_of_mem_filter (mem_byGeneration.mp hx))

theorem recodes_unsoften (bucket name : Bytes) (keep : ObjectRecord → Bool) : Recodes (do
    let vs ← getSoftDeleted bucket name
    putSoftDeleted bucket name (vs.filter keep)) := by
  intro tx h
  refine h.write .softdeleted fun x hx => h.housed x ?_
  exact mem_byGeneration.mp (List.mem_of_mem_filter (mem_byGeneration.mp hx))

theorem recodes_sweepShelf (now : Time) (key : Bytes) : Recodes (sweepShelf now key) := by
  intro tx h
  unfold sweepShelf
  dsimp only
  split_ifs
  · exact h
  · exact h.write .softdeleted fun x hx => h.housed x (List.mem_of_mem_filter (mem_byGeneration.mp hx))

section Placing

variable {o : ObjectRecord}

theorem recodes_finalized (ho : BucketName o.bucket) (cur : Option ObjectRecord) (now : Time) :
    Recodes (finalized o cur now) :=
  moves_bind (recodes_objectFolders o now) fun _ =>
    moves_bind (fun _ h => h.putObject ho) fun _ => recodes_emit _

theorem recodes_place (ho : BucketName o.bucket) (cur : Option ObjectRecord) (now : Time) :
    Recodes (Upload.place o cur now) := by
  unfold Upload.place
  split_ifs
  · exact moves_bind (recodes_objectFolders o now) fun _ _ h => h.putObject ho
  · exact recodes_finalized ho cur now

theorem recodes_removed (b : BucketRecord) (ho : Filed o) (now : Time) (g : Int) :
    Recodes (removed b o now g) := by
  refine moves_bind (fun tx h => ?_) fun _ => recodes_emit _
  rw [discard_run]
  unfold discarded
  split_ifs
  · exact h
  · exact h.append .softdeleted ⟨ho.same rfl rfl, b.name, b.named.1, rfl⟩

variable {name : Bytes} {tx tx' : Tx}

theorem Recoded.getObject {bucket : Bytes} {cur : Option ObjectRecord} (h : Recoded tx.store)
    (hrun : Storage.getObject bucket name tx = (.ok cur, tx')) : ∀ o ∈ cur, Filed o := by
  cases hrun
  exact fun o ho => (h.live _ o ho).1

theorem Recoded.findVersion {bucket : Bytes} {generation : GenParam} {v : Option (ObjectRecord × Bool)}
    (h : Recoded tx.store) (hrun : Storage.findVersion bucket name generation tx = (.ok v, tx')) :
    ∀ p ∈ v, Filed p.1 := by
  rintro ⟨o, live⟩ ho
  have hfound := (findVersion_ok hrun).trans ho
  cases live with
  | true => exact (h.live _ o (found_live hfound)).1
  | false => exact h.kept _ o (found_kept hfound)

theorem Recoded.existingBucket {b : BucketRecord} (h : Recoded tx.store)
    (hrun : Storage.existingBucket name tx = (.ok b, tx')) : BucketName name :=
  h.bucket name b (existingBucket_ok hrun) ▸ b.named

theorem recodes_retireLive (b : BucketRecord) (name : Bytes) (now : Time) (g : Int) :
    Recodes (retireLive b name now g) := by
  refine Keeping.bind (moves_read _) (fun _ _ _ => Recoded.getObject) fun cur hcur => ?_
  cases cur with
  | none => exact moves_pure ()
  | some cur =>
    refine moves_check_bind <| moves_bind (recodes_deleteObject _) fun _ => ?_
    split_ifs
    · exact recodes_removed b (hcur cur rfl) now g
    · have hcur' : Filed (cur.archived now) := (hcur cur rfl).same rfl rfl
      exact moves_bind (fun _ h => h.append .noncurrent ⟨hcur', trivial⟩) fun _ => recodes_emit _

theorem recodes_dropVersion (bucket name : Bytes) (o : ObjectRecord) (live : Bool) :
    Recodes (dropVersion bucket name o live) := by
  unfold dropVersion
  split_ifs
  · exact recodes_deleteObject _
  · exact recodes_deleteVersion o

theorem recodes_putVersion (ho : Filed o) (live : Bool) : Recodes (putVersion o live) := by
  intro tx h
  cases live with
  | true => exact h.putObject ho.bucket
  | false =>
    refine h.write .noncurrent fun x hx => ?_
    obtain ⟨v, hv, rfl⟩ := List.mem_map.mp (mem_byGeneration.mp hx)
    split_ifs
    · exact ⟨ho, trivial⟩
    · exact h.housed v (mem_byGeneration.mp hv)

end Placing

section Objects

theorem recodes_upload {u : Upload} {o : ObjectRecord} (ho : o.bucket = u.bucket)
    (now : Time) : Recodes (u.commit o now) := by
  refine Keeping.bind (still_existingBucket _).moves (fun _ _ _ => Recoded.existingBucket) fun b hb => ?_
  refine Keeping.bind (moves_ofExcept _) (fun _ _ _ _ => ofExcept_ok) fun o₁ ho₁ => ?_
  refine moves_check_bind ?_
  refine Keeping.bind (moves_ofExcept _) (fun _ _ _ _ => ofExcept_ok) fun o₂ ho₂ => ?_
  have hbucket : BucketName o₂.bucket := by
    rw [opened_bucket ho₂, (sameVersion_checkNewObject ho₁).bucket,
      (sameVersion_withStorageClass b o).bucket, ho]
    exact hb
  refine moves_read_bind fun cur => moves_check_bind ?_
  refine moves_bind (recodes_retireLive _ _ _ _) fun _ => ?_
  exact moves_bind (recodes_place hbucket _ _) fun _ => moves_pure _

theorem recodes_commitNew (o : ObjectRecord) (pre : ObjectPreconditions)
    {also : BucketRecord → Action Unit} (halso : ∀ b, Recodes (also b)) (now : Time) :
    Recodes (commitNew o pre also now) := by
  refine Keeping.bind (still_existingBucket _).moves (fun _ _ _ => Recoded.existingBucket) fun b hb => ?_
  refine Keeping.bind (moves_ofExcept _) (fun _ _ _ _ => ofExcept_ok) fun o₁ ho₁ => ?_
  have hbucket : BucketName o₁.bucket := by
    rw [(sameVersion_checkNewObject ho₁).bucket, (sameVersion_withStorageClass b o).bucket]
    exact hb
  refine moves_read_bind fun cur => moves_check_bind ?_
  refine moves_bind (halso b) fun _ => moves_bind (recodes_retireLive _ _ _ _) fun _ => ?_
  exact moves_bind (recodes_finalized hbucket _ _) fun _ => moves_pure _

theorem recodes_dropSources (name : Bytes) (now : Time) (b : BucketRecord)
    (sources : List ObjectRecord) : Recodes (dropSources name now b sources) := by
  refine moves_forEach sources fun src _ => ?_
  split_ifs
  · exact recodes_retireLive _ _ _ _
  · exact moves_pure ()

theorem recodes_remove (r : MoveCall) (moved : ObjectRecord) (live : Bool) (now : Time)
    (b : BucketRecord) : Recodes (r.remove moved live now b) :=
  moves_check_bind <| moves_bind (recodes_dropVersion _ _ _ _) fun _ => recodes_emit _

theorem recodes_objectsDelete (r : DeleteCall) (now : Time) : Recodes (objectsDelete r now) := by
  refine (still_existingBucket _).then fun b => ?_
  refine Keeping.bind (still_findVersion _ _ _).moves (fun _ _ _ => Recoded.findVersion) fun v hv => ?_
  rcases v with _ | ⟨o, live⟩
  · exact moves_refuse _
  dsimp only
  refine moves_check_bind <| moves_check_bind ?_
  split_ifs
  · exact recodes_retireLive _ _ _ _
  · refine moves_check_bind <| moves_bind (recodes_dropVersion _ _ _ _) fun _ => ?_
    exact recodes_removed _ (hv _ rfl) _ _

theorem recodes_objectsModify (replace : Bool) (r : ModifyCall) (now : Time) :
    Recodes (objectsModify replace r now) := by
  refine (still_existingBucket _).then fun b => ?_
  refine Keeping.bind (still_findVersion _ _ _).moves (fun _ _ _ => Recoded.findVersion) fun v hv => ?_
  rcases v with _ | ⟨old, live⟩
  · exact moves_refuse _
  dsimp only
  refine moves_check_bind <| moves_check_bind ?_
  refine Keeping.bind (moves_ofExcept _) (fun _ _ _ _ => ofExcept_ok) fun o₁ ho₁ => ?_
  refine moves_check_bind ?_
  refine Keeping.bind (moves_ofExcept _) (fun _ _ _ _ => ofExcept_ok) fun o₂ ho₂ => ?_
  have hsame := (sameVersion_applyCustomTime ho₁).trans (sameVersion_applyProtection ho₂)
  have ho : Filed o₂ := (hv (old, live) rfl).same hsame.bucket hsame.name
  split_ifs
  · exact moves_refuse _
  · refine moves_bind (recodes_putVersion ?_ _) fun _ => moves_bind (recodes_emit _) fun _ => moves_pure _
    exact ho.same rfl rfl

theorem recodes_restoreSoft (b : BucketRecord) {soft : ObjectRecord} (hsoft : Filed soft)
    (cur : Option ObjectRecord) (now : Time) :
    Recodes (restoreSoft b soft cur now) := by
  refine Keeping.bind (moves_ofExcept _) (fun _ _ _ _ => ofExcept_ok) fun o ho => ?_
  have hbucket : BucketName o.bucket := by
    rw [(sameVersion_checkNewObject ho).bucket]
    exact hsoft.bucket
  refine moves_assoc (recodes_unsoften _ _ _) fun _ => moves_bind recodes_draw fun g => ?_
  refine moves_bind (recodes_retireLive _ _ _ _) fun _ => ?_
  have hrestored : BucketName (restoredRecord o g now).bucket := hbucket
  exact moves_bind (recodes_finalized hrestored _ _) fun _ => moves_pure _

theorem Recoded.softVersions {b : BucketRecord} {name : Bytes} {now : Time} {tx tx' : Tx}
    {vs : List ObjectRecord} (h : Recoded tx.store)
    (hrun : Storage.softVersions b name now tx = (.ok vs, tx')) : ∀ o ∈ vs, Filed o := by
  cases hrun
  exact fun o ho => (h.soft _ o (mem_byGeneration.mp (List.mem_of_mem_filter ho))).1

theorem Recoded.findSoftDeleted {b : BucketRecord} {name : Bytes} {generation : GenParam}
    {now : Time} {tx tx' : Tx} {soft : Option ObjectRecord} (h : Recoded tx.store)
    (hrun : Storage.findSoftDeleted b name generation now tx = (.ok soft, tx')) :
    ∀ o ∈ soft, Filed o := by
  obtain ⟨vs, t, hvs, hpure⟩ := Txn.bind_ok_inv hrun
  cases hpure
  exact fun o ho => h.softVersions hvs o (List.mem_of_find?_eq_some ho)

end Objects

section Passes

theorem recodes_objectsRestore (r : RestoreCall) (now : Time) : Recodes (objectsRestore r now) := by
  refine (still_existingBucket _).then fun b => ?_
  refine Keeping.bind (moves_bind (moves_read_bind fun _ => moves_pure _)
    fun _ => moves_pure _) (fun _ _ _ => Recoded.findSoftDeleted) fun soft hsoft => ?_
  cases soft with
  | none =>
    dsimp only
    split_ifs
    · exact moves_refuse _
    · refine (still_findVersion _ _ _).then fun v => ?_
      cases v <;> exact moves_refuse _
  | some soft =>
    refine moves_read_bind fun cur => moves_check_bind ?_
    exact recodes_restoreSoft _ (hsoft soft rfl) _ _

theorem recodes_bulkRestoreName (b : BucketRecord) (name : Bytes) (f : BulkRestoreFilter)
    (n : BulkRestoreCounts) (now : Time) : Recodes (bulkRestoreName b name f n now) := by
  refine Keeping.bind (moves_read_bind fun _ => moves_pure _)
    (fun _ _ _ => Recoded.softVersions) fun vs hvs => ?_
  cases hpick : f.pick vs with
  | none => exact moves_pure _
  | some soft =>
    refine moves_read_bind fun cur => ?_
    split_ifs
    · exact moves_pure _
    · have hattempt : Recodes (Txn.attempt (restoreSoft b soft cur now)) :=
        recodes_restoreSoft b (hvs soft (BulkRestoreFilter.pick_mem hpick)) cur now
      refine moves_bind hattempt fun r => ?_
      cases r <;> exact moves_pure _

theorem recodes_bulkRestoreNames (b : BucketRecord) (f : BulkRestoreFilter) (now : Time)
    (names : List Bytes) (n : BulkRestoreCounts) :
    Recodes (bulkRestoreNames b f now names n) := by
  induction names generalizing n with
  | nil => exact moves_pure n
  | cons name names ih => exact moves_bind (recodes_bulkRestoreName b name f n now) fun n => ih n

theorem recodes_objectsBulkRestore (r : BulkRestoreCall) (now : Time) :
    Recodes (objectsBulkRestore r now) := by
  refine (still_existingBucket _).then fun b => ?_
  refine (still_namesIn _ _ _).then fun names => ?_
  refine moves_bind (recodes_bulkRestoreNames _ _ _ _ _) fun n => ?_
  exact moves_bind (recodes_put _ (by decide) _ _) fun _ => moves_pure _

theorem recodes_applyStep (b : BucketRecord) (name : Bytes) (now : Time)
    (res : LifecycleResult) {st : LifecycleStep} (hst : Filed st.v.o) :
    Recodes (applyStep b name now res st) := by
  unfold applyStep
  dsimp only
  split_ifs with hdel hguarded
  · exact moves_pure _
  · refine moves_bind ?_ fun _ => moves_pure _
    unfold expire
    split_ifs
    · exact recodes_retireLive _ _ _ _
    · exact moves_bind (recodes_deleteVersion _) fun _ => recodes_removed _ hst _ _
  · refine moves_bind (recodes_putVersion ?_ _) fun _ => moves_pure _
    exact hst.same rfl rfl

theorem recodes_applySteps (b : BucketRecord) (name : Bytes) (now : Time)
    (steps : List LifecycleStep) (hsteps : ∀ st ∈ steps, Filed st.v.o) (res : LifecycleResult) :
    Recodes (applySteps b name now steps res) := by
  induction steps generalizing res with
  | nil => exact moves_pure res
  | cons st rest ih =>
    obtain ⟨hst, hrest⟩ := List.forall_mem_cons.mp hsteps
    exact moves_bind (recodes_applyStep b name now res hst) fun res => ih hrest res

theorem Recoded.listVersions {b : BucketRecord} {name : Bytes} {now : Time} {tx tx' : Tx}
    {vs : List ObjectRecord} (h : Recoded tx.store)
    (hrun : Storage.listVersions b name .allVersions now tx = (.ok vs, tx')) : ∀ o ∈ vs, Filed o := by
  cases hrun
  intro o ho
  rcases List.mem_append.mp ho with ho | ho
  · exact h.kept _ o (mem_byGeneration.mp ho)
  · exact (h.live _ o (Option.mem_toList.mp ho)).1

theorem recodes_applyToNames (b : BucketRecord) (rules : List LifecycleRule) (now : Time)
    (names : List Bytes) (res : LifecycleResult) :
    Recodes (applyToNames b rules now names res) := by
  induction names generalizing res with
  | nil => exact moves_pure res
  | cons name names ih =>
    refine moves_bind ?_ fun res => ih res
    refine Keeping.bind (moves_read_bind fun _ => moves_bind (moves_read _)
      fun _ => moves_pure _) (fun _ _ _ => Recoded.listVersions) fun vs hvs => ?_
    refine moves_read_bind fun live => recodes_applySteps _ _ _ _ (fun st hst => ?_) _
    exact hvs _ (mem_lifecycleSteps hst).1

theorem recodes_applyToBuckets (now : Time) (keys : List Bytes) (res : LifecycleResult) :
    Recodes (applyToBuckets now keys res) := by
  induction keys generalizing res with
  | nil => exact moves_pure res
  | cons key keys ih =>
    refine moves_read_bind fun b => ?_
    cases b with
    | none => exact ih res
    | some b =>
      refine moves_bind ?_ fun res => ih res
      unfold applyToBucket
      split_ifs
      · exact moves_pure res
      · refine moves_bind (recodes_beside (moves_abortIncompleteUploads _ _ _ _) (by decide)) fun res => ?_
        exact (still_listNames _ _ _).then fun names => recodes_applyToNames _ _ _ _ _

theorem recodes_applyLifecycle (now : Time) : Recodes (applyLifecycle now) :=
  moves_read_bind fun keys => recodes_applyToBuckets now keys _

theorem recodes_sweep (now : Time) : Recodes (sweep now) := by
  refine moves_read_bind fun objects => ?_
  refine moves_bind (moves_forEach objects fun key _ => recodes_sweepShelf now key) fun _ => ?_
  refine moves_read_bind fun buckets => ?_
  exact recodes_beside (moves_forEach buckets fun key _ => moves_sweepBucket now key) (by decide)

end Passes

section Folders

theorem recodes_deleteFolderRecursive (r : FolderCall) (now : Time) :
    Recodes (deleteFolderRecursive r now) := by
  refine (still_hnsBucket _).then fun b => ?_
  refine (still_existingFolder _ _ _ _).then fun f => ?_
  refine (still_namesIn _ _ _).then fun names => ?_
  refine moves_bind (moves_forEach names fun name _ => ?_) fun _ => ?_
  · refine Keeping.bind (moves_read _) (fun _ _ _ => Recoded.getObject) fun o ho => ?_
    cases o with
    | none => exact moves_pure ()
    | some o =>
      refine moves_check_bind ?_
      exact moves_bind (recodes_deleteObject _) fun _ => recodes_removed _ (ho o rfl) _ _
  · refine moves_read_bind fun folders => ?_
    refine moves_bind (moves_forEach folders fun key _ => recodes_delete _ (by decide) key)
      fun _ => ?_
    exact moves_bind (recodes_put _ (by decide) _ _) fun _ => moves_pure _

theorem recodes_renameObject (bucket src dst : Bytes) (now : Time) (name : Bytes) :
    Recodes (renameObject bucket src dst now name) := by
  refine Keeping.bind (moves_read _) (fun _ _ _ => Recoded.getObject) fun o ho => ?_
  cases o with
  | none => exact moves_pure ()
  | some o =>
    refine moves_bind (recodes_deleteObject _) fun _ => ?_
    exact fun _ h => h.putObject (ho o rfl).bucket

theorem recodes_renameFolder (r : RenameCall) (now : Time) : Recodes (renameFolder r now) := by
  refine moves_ofExcept_bind fun dst => ?_
  refine (still_existingFolder _ _ _ _).then fun f => ?_
  split_ifs
  · exact moves_refuse _
  refine (still_getFolder _ _).then fun taken => ?_
  cases taken with
  | some _ => exact moves_refuse _
  | none =>
    refine (still_getFolder _ _).then fun parent => ?_
    split_ifs
    · exact moves_refuse _
    refine (still_namesIn _ _ _).then fun names => ?_
    refine moves_bind (moves_forEach names fun name _ => recodes_renameObject _ _ _ _ name) fun _ => ?_
    refine (still_namesIn _ _ _).then fun folders => ?_
    refine moves_bind (recodes_beside (moves_forEach folders fun name _ =>
      moves_renameInside _ _ _ _ name) (by decide)) fun _ => ?_
    refine (still_getFolder _ _).then fun folder => ?_
    exact moves_bind (recodes_put _ (by decide) _ _) fun _ => moves_pure _

end Folders

section Steps

theorem recodes_call (now : Time) (c : Call) : Recodes (c.run now) := by
  cases c with
  | delete r => exact recodes_objectsDelete r now
  | modify replace r => exact recodes_ignored (recodes_objectsModify replace r now)
  | restore r => exact recodes_ignored (recodes_objectsRestore r now)
  | bulkRestore r => exact recodes_ignored (recodes_objectsBulkRestore r now)
  | lifecycle => exact recodes_ignored (recodes_applyLifecycle now)
  | sweep => exact recodes_sweep now
  | createFolder r => exact recodes_ignored (recodes_beside (moves_createFolder r now) (by decide))
  | deleteFolder r => exact recodes_beside (moves_deleteFolder r) (by decide)
  | deleteFolderRecursive r => exact recodes_ignored (recodes_deleteFolderRecursive r now)
  | renameFolder r => exact recodes_ignored (recodes_renameFolder r now)
  | insertBucket r => exact recodes_ignored (recodes_rebuckets (moves_bucketsInsert r now))
  | modifyBucket r => exact recodes_ignored (recodes_rebuckets (moves_bucketsModify r now))
  | lockRetention name want => exact recodes_ignored (recodes_rebuckets (moves_bucketsLock name want now))
  | deleteBucket name pre => exact recodes_rebuckets (moves_bucketsDelete name pre now)
  | restoreBucket name generation => exact recodes_ignored (recodes_rebuckets (moves_bucketsRestore name generation now))
  | startSession r => exact moves_check_bind <| recodes_put _ (by decide) _ _
  | initiate r => exact recodes_put _ (by decide) _ _
  | abort bucket name id => exact recodes_beside (moves_mpuAbort bucket name id) handle_apart

theorem recodes_draws {spec : ObjectRecord → Prop} {m : Action ObjectRecord} (h : Draws spec m) : Recodes m := by
  intro tx hr
  exact (h.moves tx).1.symm ▸ hr

theorem recodes_step (e : Env) {p : Pending} (hp : p.Formed) : Recodes (p.step e) := by
  cases p with
  | call c => exact moves_bind (recodes_call e.now c) fun _ => moves_pure _
  | upload u => exact moves_check_bind <| (still_existingBucket _).then fun _ => moves_pure _
  | uploadDraw f u => exact moves_bind (recodes_draws (draws_upload u e.now)) fun _ => moves_pure _
  | uploadCommit f u o now => exact moves_bind (recodes_upload hp.1 now) fun _ => moves_pure _
  | copy r => exact (still_sourceObject _).then fun _ => moves_pure _
  | copyDraw r src =>
    exact moves_bind (recodes_draws (draws_copy r src e.now e.wall)) fun _ => moves_pure _
  | copyCommit r o now | rewriteCommit r st o now =>
    exact moves_bind (recodes_commitNew o r.pre (fun _ => moves_pure ()) now) fun _ => moves_pure _
  | compose r => exact (still_readSources r).then fun _ => moves_pure _
  | composeDraw r sources =>
    exact moves_bind (recodes_draws (draws_compose r sources e.now e.wall)) fun _ => moves_pure _
  | composeCommit r sources o now =>
    refine moves_bind (recodes_commitNew o r.pre (fun b => ?_) now) fun _ => moves_pure _
    split_ifs
    · exact recodes_dropSources _ _ _ _
    · exact moves_pure ()
  | move r => exact (still_readMove r).then fun _ => moves_pure _
  | moveDraw r moved live => exact moves_bind (recodes_draws (draws_stamp _ e.now)) fun _ => moves_pure _
  | moveCommit r moved live o now =>
    exact moves_bind (recodes_commitNew o r.pre (recodes_remove r moved live now) now) fun _ => moves_pure _
  | rewrite r => exact (still_load r _).then fun _ => moves_pure _
  | rewriteSave st | rewriteMark st | chunkSave r u | sessionMark u o =>
    exact moves_bind (recodes_put _ (by decide) _ _) fun _ => moves_pure _
  | rewriteDraw r st =>
    exact moves_bind (recodes_draws (draws_rewrite st e.now e.wall)) fun _ => moves_pure _
  | chunk r => exact (still_resumableChunk r _).then fun _ => moves_ofExcept _
  | chunkForget id cancelled | completeForget r =>
    exact moves_bind (recodes_delete _ (by decide) _) fun _ => moves_pure _
  | part r => exact (still_loadPart r).then fun _ => moves_pure _
  | partSave r => exact moves_bind (recodes_beside (moves_savePart r) handle_apart) fun _ => moves_pure _
  | complete r => exact (still_loadComplete r).then fun _ => moves_pure _

end Steps

theorem recoded_of_reach {ok : Env → World → Pending → List Pending → Prop} {a : Sys World Pending}
    (h : Reach cloudBurrow ok {} a) : Recoded a.shared.server.store := by
  refine (Reach.each (G := fun w => Recoded w.server.store) (P := fun _ p => p.Formed) .empty ?_ ?_ h).shared
  · intro w p hp _
    cases p <;> trivial
  · intro w e p others _ hj hp hothers
    refine ⟨?_, fun q hq => ?_, hothers⟩
    · have hstep := recodes_step e hp (w.server.tx e) hj
      have hserver := World.advance_server e p w
      dsimp only [cloudBurrow]
      rw [hserver]
      unfold Server.update
      rcases hrun : p.step e (w.server.tx e) with ⟨r, tx⟩
      rw [hrun] at hstep
      cases r with
      | ok a => exact hstep
      | error err => exact hj
    · obtain ⟨events, tx, hrun, -⟩ := World.advance_next hq
      exact (Pending.step_launched hrun).formed

end CloudBurrow.Storage

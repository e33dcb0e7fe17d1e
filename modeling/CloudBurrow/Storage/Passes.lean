import CloudBurrow.Storage.Operations

namespace CloudBurrow.Storage

open Utf8 Inventory Transaction

variable {now : Time} {gs : Grant}

theorem shrink_edits (hfree : gs.Free) {p : Place} (hp : p.slot = .soft)
    {rest : Multiset ObjectRecord} {c : Catalogue} (h : rest ≤ c.stock p) :
    Edits now gs c { c with stock := Function.update c.stock p rest } := by
  obtain ⟨gone, hgone⟩ := Multiset.le_iff_exists_add.mp h
  clear h
  induction gone using Multiset.induction generalizing c with
  | empty =>
    rw [add_zero] at hgone
    rw [← hgone, Function.update_eq_self]
  | cons o gone ih =>
    have ho : o ∈ c.stock p := by
      rw [hgone]
      exact Multiset.mem_add.mpr (.inr (Multiset.mem_cons_self o gone))
    have hdrop : Edit now gs c { c with stock := take c.stock p o } :=
      .drop ho (hfree.touch _) (.inl hp) (hfree.drop _)
    have hleft : take c.stock p o p = rest + gone := by
      rw [take, Function.update_self, hgone, Multiset.add_cons, Multiset.erase_cons_head]
    have hrest := ih (c := { c with stock := take c.stock p o }) hleft
    simp only [take, Function.update_idem] at hrest
    exact .head hdrop hrest

theorem moves_sweepShelf (hfree : gs.Free) (key : Bytes) :
    Moves (Under Catalogue.Sound now gs) (sweepShelf now key) := by
  intro tx
  refine .intro (stable_sound gs) fun hs => ?_
  obtain ⟨-, hproper⟩ := hs.shelf .softdeleted key
  unfold sweepShelf
  dsimp only
  split_ifs
  · exact .refl
  · let kept := (Shelf.softdeleted.read tx.store key).filter fun v => before now v.hardDelete
    have hrecode : (byGeneration kept).map ObjectRecord.recode = byGeneration kept :=
      map_recode_eq fun v hv =>
        (hproper v (List.mem_of_mem_filter (mem_byGeneration.mp hv))).recode
    have hle : ((byGeneration kept : List ObjectRecord) : Multiset ObjectRecord) ≤
        tx.catalogue.stock ⟨.soft, key⟩ := by
      rw [Multiset.coe_eq_coe.mpr (perm_byGeneration kept)]
      exact Multiset.coe_le.mpr List.filter_sublist.subperm
    have hwrite := Store.stock_write tx.store .softdeleted key (byGeneration kept)
    rw [hrecode, tx.catalogue_with (Shelf.write_other _ _ _ (by simp [Shelf.kind])) hwrite]
    exact shrink_edits hfree rfl hle

theorem moves_sweepBucket (now : Time) (key : Bytes) :
    Moves (Beside [.softbucket]) (sweepBucket now key) := by
  refine moves_read_bind fun b => ?_
  split_ifs
  · exact moves_pure ()
  · exact (runs_delete (by simp) key).moves

theorem moves_sweep (hfree : gs.Free) : Moves (Under Catalogue.Sound now gs) (sweep now) := by
  refine moves_read_bind fun objects => ?_
  refine moves_bind (moves_forEach objects fun key _ => moves_sweepShelf hfree key) fun _ => ?_
  refine moves_read_bind fun buckets => ?_
  exact moves_beside (moves_forEach buckets fun key _ => moves_sweepBucket now key) (by decide)

def Grant.only (generation : Int) : Grant where
  add _ _ := False
  rename _ := False
  touch := (· = generation)
  drop := (· = generation)

theorem Grant.only_within (hfree : gs.Free) (generation : Int) : (only generation).Within gs :=
  ⟨fun _ _ h => h.elim, fun _ h => h.elim, fun _ _ => hfree.touch _, fun _ _ => hfree.drop _⟩

variable {b : BucketRecord} {name : Bytes} {tx : Tx}

theorem expire_edits {o : ObjectRecord} {live : Bool} (hr : Ready b tx.catalogue)
    (ho : o ∈ tx.store.stock ⟨versionSlot live, objectKey b.name name⟩)
    (hp : protect b o now (live && b.versioningEnabled) = none) :
    Edits now (.only o.generation) tx.catalogue (expire b name now o live tx).2.catalogue := by
  cases live with
  | true =>
    refine retireLive_edits hr fun cur hcur => ?_
    have hget := Store.mem_stock_live.mp ho
    rw [Store.mem_stock_live.mp hcur] at hget
    cases hget
    exact ⟨rfl, .inr (.inr rfl)⟩
  | false => exact expelled_edits hr ho hp rfl rfl

variable {res : LifecycleResult}

theorem applyStep_edits {st : LifecycleStep} (hr : Ready b tx.catalogue)
    (ho : st.v.o ∈ tx.store.stock ⟨versionSlot st.v.live, objectKey b.name name⟩) :
    Edits now (.only st.v.o.generation) tx.catalogue (applyStep b name now res st tx).2.catalogue := by
  unfold applyStep
  split_ifs with hdel hp
  · exact .refl
  · have hnone := Option.not_isSome_iff_eq_none.mp hp
    exact edits_bind (expire_edits hr ho hnone) fun _ t _ hedits => hedits
  · have hsame : SameVersion st.v.o
        { st.v.o with storageClass := st.decision.class?, classUpdated := now } :=
      ⟨rfl, rfl, rfl, rfl⟩
    obtain ⟨s, hrun, hstock, hbucket⟩ := putVersion_run hr.sound ho hsame
    rw [Txn.bind_ok hrun, Txn.run_pure, tx.catalogue_with hbucket hstock]
    exact .single (.revise ho rfl ⟨rfl, rfl, rfl, rfl, rfl, rfl, rfl⟩ rfl)

structure Placed (key : Bytes) (steps : List LifecycleStep) (c : Catalogue) : Prop where
  apart : (steps.map fun st => st.v.o.generation).Nodup
  place : ∀ st ∈ steps, st.v.o ∈ c.stock ⟨versionSlot st.v.live, key⟩

theorem applySteps_edits (hfree : gs.Free) (steps : List LifecycleStep)
    (hr : Ready b tx.catalogue) (hp : Placed (objectKey b.name name) steps tx.catalogue) :
    Edits now gs tx.catalogue (applySteps b name now steps res tx).2.catalogue := by
  induction steps generalizing res tx with
  | nil => exact .refl
  | cons st rest ih =>
    obtain ⟨hhead, htail⟩ := List.nodup_cons.mp hp.apart
    have hstep : Edits now (.only st.v.o.generation) tx.catalogue
        (applyStep b name now res st tx).2.catalogue :=
      applyStep_edits hr (hp.place st List.mem_cons_self)
    refine edits_bind (hstep.mono (Grant.only_within hfree _)) fun res' t hrun hedits => ?_
    rw [hrun] at hstep
    refine hedits.trans (ih (hedits.stable (stable_ready b gs) hr) ⟨htail, fun st' hst' => ?_⟩)
    refine hstep.untouched (hp.place st' (List.mem_cons_of_mem st hst')) fun heq => ?_
    exact hhead (List.mem_map.mpr ⟨st', hst', heq⟩)

theorem map_filterMap_sublist {A B C : Type} {f : A → Option B} {g : B → C} {h : A → C}
    (hf : ∀ a b, f a = some b → g b = h a) (l : List A) :
    ((l.filterMap f).map g).Sublist (l.map h) := by
  induction l with
  | nil => exact .slnil
  | cons a l ih =>
    cases ha : f a with
    | none =>
      rw [List.filterMap_cons_none ha]
      exact ih.cons _
    | some b =>
      rw [List.filterMap_cons_some ha, List.map_cons, List.map_cons, hf a b ha]
      exact ih.cons_cons _

variable {rules : List LifecycleRule}

theorem mem_lifecycleSteps {vs : List ObjectRecord} {live : Option ObjectRecord} {st : LifecycleStep}
    (h : st ∈ lifecycleSteps rules vs live now) :
    st.v.o ∈ vs ∧ st.v.live = live.any fun l => st.v.o.generation = l.generation := by
  obtain ⟨⟨o, i⟩, ho, hst⟩ := List.mem_filterMap.mp h
  dsimp only at hst
  split_ifs at hst
  cases hst
  exact ⟨List.fst_mem_of_mem_zipIdx ho, rfl⟩

theorem sublist_lifecycleSteps (rules : List LifecycleRule) (vs : List ObjectRecord)
    (live : Option ObjectRecord) (now : Time) :
    ((lifecycleSteps rules vs live now).map fun st => st.v.o.generation).Sublist
      (vs.map ObjectRecord.generation) := by
  have hfst : vs.zipIdx.map (fun p => p.1.generation) = vs.map ObjectRecord.generation := by
    conv_rhs => rw [← List.zipIdx_map_fst 0 vs]
    rw [List.map_map]
    rfl
  rw [← hfst]
  refine map_filterMap_sublist (fun p st hst => ?_) vs.zipIdx
  dsimp only at hst
  split_ifs at hst
  cases hst
  rfl

theorem placed_lifecycleSteps {key : Bytes} (hs : tx.catalogue.Sound) :
    Placed key (lifecycleSteps rules (byGeneration (Shelf.noncurrent.read tx.store key) ++
      (tx.store.get .object key).toList) (tx.store.get .object key) now) tx.catalogue := by
  obtain ⟨hnodup, -⟩ := hs.shelf .noncurrent key
  have hapart : ∀ v ∈ Shelf.noncurrent.read tx.store key, ∀ l ∈ tx.store.get .object key,
      v.generation ≠ l.generation := fun v hv l hl =>
    hs.unique.apart ⟨.kept, key⟩ ⟨.live, key⟩ v l (by simp)
      ((Store.mem_stock_shelf .noncurrent).mpr hv) (Store.mem_stock_live.mpr hl)
  refine ⟨(sublist_lifecycleSteps _ _ _ _).nodup ?_, fun st hst => ?_⟩
  · rw [List.map_append, List.nodup_append]
    refine ⟨((perm_byGeneration _).map _).nodup_iff.mpr hnodup, ?_, ?_⟩
    · cases tx.store.get .object key <;> simp
    · intro a ha b hb heq
      obtain ⟨v, hv, rfl⟩ := List.mem_map.mp ha
      obtain ⟨l, hl, rfl⟩ := List.mem_map.mp hb
      exact hapart v (mem_byGeneration.mp hv) l (Option.mem_toList.mp hl) heq
  · obtain ⟨hmem, hlive⟩ := mem_lifecycleSteps hst
    rw [hlive]
    rcases List.mem_append.mp hmem with hkept | hl
    · have hfalse : ((tx.store.get .object key).any fun l =>
          decide (st.v.o.generation = l.generation)) = false := by
        rw [Option.any_eq_false_iff_get]
        intro hsome
        simpa using hapart _ (mem_byGeneration.mp hkept) _ (Option.get_mem hsome)
      rw [hfalse]
      exact (Store.mem_stock_shelf .noncurrent).mpr (mem_byGeneration.mp hkept)
    · have hget : tx.store.get .object key = some st.v.o := Option.mem_toList.mp hl
      rw [hget]
      simp only [Option.any_some, decide_true]
      exact Store.mem_stock_live.mpr hget

theorem applyToObject_edits (hfree : gs.Free) (hr : Ready b tx.catalogue) :
    Edits now gs tx.catalogue (applyToObject b rules now name res tx).2.catalogue :=
  applySteps_edits hfree _ hr (placed_lifecycleSteps hr.sound)

theorem applyToNames_edits (hfree : gs.Free) (names : List Bytes) (hr : Ready b tx.catalogue) :
    Edits now gs tx.catalogue (applyToNames b rules now names res tx).2.catalogue := by
  induction names generalizing res tx with
  | nil => exact .refl
  | cons name names ih =>
    refine edits_bind (applyToObject_edits hfree hr) fun res' t _ hedits => ?_
    exact hedits.trans (ih (hedits.stable (stable_ready b gs) hr))

theorem moves_abortUploads (c : LifecycleCondition) (now : Time) (keys : List Bytes) (n : Nat) :
    Moves (Beside [.mpu]) (abortUploads c now keys n) := by
  induction keys generalizing n with
  | nil => exact moves_pure n
  | cons k keys ih =>
    refine moves_read_bind fun u => ?_
    split_ifs
    · exact moves_bind (runs_delete (by simp) k).moves fun _ => ih (n + 1)
    · exact ih n

theorem moves_abortIncompleteUploads (bucket : Bytes) (now : Time) (rules : List LifecycleRule)
    (res : LifecycleResult) :
    Moves (Beside [.mpu]) (abortIncompleteUploads bucket now rules res) := by
  induction rules generalizing res with
  | nil => exact moves_pure res
  | cons rule rules ih =>
    unfold abortIncompleteUploads
    split
    · refine moves_read_bind fun keys => ?_
      exact moves_bind (moves_abortUploads _ now keys _) fun n => ih _
    · exact ih res

theorem still_namesIn (k : Kind) (bucket start : Bytes) : Still (namesIn k bucket start) :=
  still_bind (still_read _) fun _ => still_pure _

theorem still_listNames (bucket start : Bytes) (mode : ListMode) : Still (listNames bucket start mode) := by
  cases mode with
  | live | softDeleted => exact still_namesIn _ _ _
  | allVersions =>
    exact still_bind (still_namesIn _ _ _) fun _ =>
      still_bind (still_namesIn _ _ _) fun _ => still_pure _

theorem applyToBucket_edits (hfree : gs.Free) (hr : Ready b tx.catalogue) :
    Edits now gs tx.catalogue (applyToBucket b now res tx).2.catalogue := by
  unfold applyToBucket
  split_ifs
  · exact .refl
  · have habort := moves_abortIncompleteUploads b.name now b.lifecycle res tx
    have hsame : Edits now gs tx.catalogue
        (abortIncompleteUploads b.name now b.lifecycle res tx).2.catalogue :=
      Edits.beside .refl habort (by decide)
    refine edits_bind hsame fun res' t _ hedits => ?_
    refine edits_still (still_listNames _ _ _) hedits fun names _ => ?_
    exact hedits.trans (applyToNames_edits hfree names (hedits.stable (stable_ready b gs) hr))

theorem applyToBuckets_edits (hfree : gs.Free) (keys : List Bytes) (hs : tx.catalogue.Sound) :
    Edits now gs tx.catalogue (applyToBuckets now keys res tx).2.catalogue := by
  induction keys generalizing res tx with
  | nil => exact .refl
  | cons key keys ih =>
    refine edits_still (still_read _) .refl fun b hget => ?_
    cases b with
    | none => exact ih hs
    | some b =>
      have hb : tx.store.get .bucket key = some b := Except.ok.inj (congrArg Prod.fst hget)
      refine edits_bind (applyToBucket_edits hfree (hs.ready hb).1) fun res' t _ hedits => ?_
      exact hedits.trans (ih (hedits.sound hs))

theorem applyLifecycle_edits (hfree : gs.Free) (hs : tx.catalogue.Sound) :
    Edits now gs tx.catalogue (applyLifecycle now tx).2.catalogue :=
  edits_still (still_read _) .refl fun keys _ => applyToBuckets_edits hfree keys hs

end CloudBurrow.Storage

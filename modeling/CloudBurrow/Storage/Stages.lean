import CloudBurrow.Storage.System

namespace CloudBurrow.Storage

open Utf8 Inventory Transaction Interleaving

namespace Pending

def time (e : Env) : Pending → Time
  | .uploadCommit _ _ _ now => now
  | .copyCommit _ _ now => now
  | .composeCommit _ _ _ now => now
  | .moveCommit _ _ _ _ now => now
  | .rewriteCommit _ _ _ now => now
  | _ => e.now

def drawn : Pending → Option ObjectRecord
  | .uploadCommit _ _ o _ => some o
  | .copyCommit _ o _ => some o
  | .composeCommit _ _ o _ => some o
  | .moveCommit _ _ _ o _ => some o
  | .rewriteCommit _ _ o _ => some o
  | _ => none

def Formed : Pending → Prop
  | .uploadCommit _ u o _ => o.bucket = u.bucket ∧ o.name = u.upload.name
  | .moveCommit _ moved _ o _ => o.bucket = moved.bucket
  | _ => True

def renames : Pending → Prop
  | .call (.renameFolder _) => True
  | _ => False

def grant (p : Pending) (c : Catalogue) : Grant where
  add key g := (∃ o ∈ p.drawn, key = objectKey o.bucket o.name ∧ g = o.generation) ∨ c.lastGen < g
  rename _ := p.renames
  touch _ := True
  drop _ := True

def Heeds (e : Env) (s : Store) : Pending → Prop
  | .uploadCommit _ _ o _ => Valid o.name
  | .copyCommit _ o _ => Valid o.name
  | .composeCommit _ _ o _ => Valid o.name
  | .moveCommit r moved live o _ => Valid o.name ∧ AsRead s r moved live
  | .rewriteCommit _ _ o _ => Valid o.name
  | .call (.renameFolder r) => r.Unprotected e.now s
  | _ => True

theorem grant_free (p : Pending) (c : Catalogue) : (p.grant c).Free :=
  ⟨fun _ => trivial, fun _ => trivial⟩

theorem grant_renewing (p : Pending) (c : Catalogue) : Renewing (p.grant c) c :=
  ⟨fun _ _ hg => .inr hg, p.grant_free c⟩

end Pending

variable {A : Type}

theorem ignored_after (m : Action A) (tx : Tx) : (ignored m tx).2 = (m tx).2 := by
  rw [ignored, Txn.run_bind]
  rcases m tx with ⟨r, t⟩
  cases r <;> rfl

variable {now : Time} {gs : Grant} {tx : Tx}

theorem change_beside {ks : List Kind} {m : Action A} (h : Moves (Beside ks) m)
    (hk : ∀ k ∈ [Kind.bucket, .object, .noncurrent, .softdeleted], k ∉ ks) :
    Change now gs tx.catalogue (m tx).2.catalogue := by
  rw [(h tx).catalogue hk]
  exact .refl now gs _

theorem change_still {m : Action A} (h : Still m) : Change now gs tx.catalogue (m tx).2.catalogue := by
  rw [h tx]
  exact .refl now gs _

theorem change_then {B : Type} {m : Action A} {f : A → Action B}
    (h : Change now gs tx.catalogue (m tx).2.catalogue) (hf : ∀ a, Still (f a)) :
    Change now gs tx.catalogue ((m >>= f) tx).2.catalogue := by
  rw [Txn.run_bind]
  rcases hm : m tx with ⟨r, t⟩
  rw [hm] at h
  cases r with
  | error e => exact h
  | ok a =>
    dsimp only
    rw [hf a t]
    exact h

variable {e : Env}

theorem Call.run_change {call : Call} (hs : tx.catalogue.Sound) (hok : (Pending.call call).Heeds e tx.store) :
    Change e.now ((Pending.call call).grant tx.catalogue) tx.catalogue (call.run e.now tx).2.catalogue := by
  have hfree := (Pending.call call).grant_free tx.catalogue
  have hrenew := (Pending.call call).grant_renewing tx.catalogue
  cases call with
  | delete r => exact .edits (objectsDelete_edits hs hfree)
  | modify replace r =>
    rw [Call.run, ignored_after]
    have hpatch : (objectsModify replace r e.now tx).2.catalogue = tx.catalogue ∨
        Patched tx.catalogue (objectsModify replace r e.now tx).2.catalogue :=
      objectsModify_patched hs
    rcases hpatch with h | h
    · rw [h]
      exact .refl _ _ _
    · exact .patched h
  | restore r =>
    rw [Call.run, ignored_after]
    exact .edits (objectsRestore_edits hs hrenew)
  | bulkRestore r =>
    rw [Call.run, ignored_after]
    exact .edits (objectsBulkRestore_edits hs hrenew)
  | lifecycle =>
    rw [Call.run, ignored_after]
    exact .edits (applyLifecycle_edits hfree hs)
  | sweep => exact .edits (moves_sweep hfree tx hs).2
  | createFolder r =>
    rw [Call.run, ignored_after]
    exact change_beside (moves_createFolder r e.now) (by decide)
  | deleteFolder r => exact change_beside (moves_deleteFolder r) (by decide)
  | deleteFolderRecursive r =>
    rw [Call.run, ignored_after]
    exact .edits (deleteFolderRecursive_edits hfree hs)
  | renameFolder r =>
    rw [Call.run, ignored_after]
    let quiet : Grant :=
      { add := fun _ _ => False, rename := fun _ => True, touch := fun _ => True,
        drop := fun _ => True }
    have hren : Renaming quiet := ⟨⟨fun _ => trivial, fun _ => trivial⟩, fun _ => trivial⟩
    have hwithin : quiet.Within ((Pending.call (.renameFolder r)).grant tx.catalogue) :=
      ⟨fun _ _ h => h.elim, fun _ _ => trivial, fun _ _ => trivial, fun _ _ => trivial⟩
    exact .edits ((renameFolder_edits hren (fun _ _ h => h) hs hok).mono hwithin)
  | insertBucket r =>
    rw [Call.run, ignored_after]
    exact .rebucketed (moves_bucketsInsert r e.now tx hs.bucket)
  | modifyBucket r =>
    rw [Call.run, ignored_after]
    exact .rebucketed (moves_bucketsModify r e.now tx hs.bucket)
  | lockRetention name want =>
    rw [Call.run, ignored_after]
    exact .rebucketed (moves_bucketsLock name want e.now tx hs.bucket)
  | deleteBucket name pre => exact .rebucketed (moves_bucketsDelete name pre e.now tx hs.bucket)
  | restoreBucket name generation =>
    rw [Call.run, ignored_after]
    exact .rebucketed (moves_bucketsRestore name generation e.now tx hs.bucket)
  | startSession r =>
    refine change_beside ?_ handle_apart
    exact moves_check_bind <| (runs_put (by simp [handleKinds]) _ _).moves
  | initiate r =>
    exact change_beside (runs_put (by simp [handleKinds]) _ _).moves handle_apart
  | abort bucket name id => exact change_beside (moves_mpuAbort bucket name id) handle_apart

structure Drew (spec : ObjectRecord → Prop) (tx tx' : Tx) (o : ObjectRecord) : Prop where
  spec : spec o
  store : tx'.store = tx.store
  later : tx.lastGen < o.generation
  last : tx'.lastGen = o.generation

structure Draws (spec : ObjectRecord → Prop) (m : Action ObjectRecord) : Prop where
  moves : ∀ tx, (m tx).2.store = tx.store ∧ tx.lastGen ≤ (m tx).2.lastGen
  drew : ∀ tx o tx', m tx = (.ok o, tx') → Drew spec tx tx' o

variable {spec : ObjectRecord → Prop}

theorem draws_bind {m : Action A} {f : A → Action ObjectRecord} (hm : Still m) (hf : ∀ a, Draws spec (f a)) :
    Draws spec (m >>= f) := by
  refine ⟨fun tx => ?_, fun tx o tx' hrun => ?_⟩
  · refine after_still (Q := fun t => t.store = tx.store ∧ tx.lastGen ≤ t.lastGen) hm
      ⟨rfl, le_rfl⟩ fun a _ => (hf a).moves tx
  · obtain ⟨a, t, hmt, hft⟩ := Txn.bind_ok_inv hrun
    rw [still_ok hm hmt] at hft
    exact (hf a).drew tx o tx' hft

theorem draws_next {k : Int → Action ObjectRecord}
    (hk : ∀ g, Still (k g)) (hspec : ∀ g, Returns (fun o => spec o ∧ o.generation = g) (k g)) :
    Draws spec (nextGeneration >>= k) := by
  have hlt (tx : Tx) := lt_generationAfter tx.lastGen (tx.clock.headD 0)
  have hafter (tx : Tx) : ((nextGeneration >>= k) tx).2 =
      { tx with lastGen := generationAfter tx.lastGen (tx.clock.headD 0), clock := tx.clock.tail } :=
    hk _ _
  refine ⟨fun tx => ?_, fun tx o tx' hrun => ?_⟩
  · rw [hafter]
    exact ⟨rfl, (hlt tx).le⟩
  · have htx' := hafter tx
    rw [hrun] at htx'
    dsimp only at htx'
    obtain ⟨hs, hg⟩ := hspec (generationAfter tx.lastGen (tx.clock.headD 0)) _ o tx' hrun
    subst htx'
    exact ⟨hs, rfl, hg ▸ hlt tx, hg.symm⟩

theorem draws_stamp (o : ObjectRecord) (now : Time) : Draws (fun x => x.bucket = o.bucket) (stamp o now) :=
  draws_next (fun _ => still_pure _) fun _ => returns_pure ⟨rfl, rfl⟩

variable {m : Action ObjectRecord}

theorem Draws.mono {spec' : ObjectRecord → Prop} (h : Draws spec m) (hspec : ∀ o, spec o → spec' o) : Draws spec' m :=
  ⟨h.moves, fun tx o tx' hrun =>
    let hdrew := h.drew tx o tx' hrun
    ⟨hspec o hdrew.spec, hdrew.store, hdrew.later, hdrew.last⟩⟩

theorem applyProtection_size {o o' old : ObjectRecord} {body : ProtectionBody} {replace override : Bool}
    (h : applyProtection o old body replace override now = .ok o') : o'.size = o.size := by
  obtain ⟨_, _, h⟩ := Txn.except_bind_ok h
  obtain ⟨_, _, h⟩ := Txn.except_bind_ok h
  obtain ⟨_, _, h⟩ := Txn.except_bind_ok h
  split at h
  · cases h
  · cases h
    rfl

theorem draws_upload (u : Upload) (now : Time) : Draws (fun o => (o.bucket = u.bucket ∧ o.name = u.upload.name) ∧
      o.blob = u.blob.id ∧ o.size = u.blob.size) (u.draw now) := by
  refine draws_bind (still_check _) fun _ => draws_bind (still_ofExcept _) fun storageClass => ?_
  refine draws_next (fun g => still_bind (still_ofExcept _) fun _ => still_ofExcept _) fun g => ?_
  refine returns_bind fun customTime => returns_ofExcept fun o ho => ?_
  have hsame := sameVersion_applyProtection ho
  exact ⟨⟨⟨hsame.bucket, hsame.name⟩, hsame.blob, applyProtection_size ho⟩, hsame.generation⟩

theorem draws_copy (r : CopyCall) (src : ObjectRecord) (now wall : Time) :
    Draws (fun _ => True) (r.draw src now wall) := by
  refine draws_bind (still_check _) fun _ => draws_bind (still_check _) fun _ => ?_
  refine draws_bind (still_ofExcept _) fun o => draws_bind (still_check _) fun _ => ?_
  exact (draws_stamp o now).mono fun _ _ => trivial

theorem draws_compose (r : ComposeCall) (sources : List ObjectRecord) (now wall : Time) :
    Draws (fun _ => True) (r.draw sources now wall) := by
  refine draws_bind (still_check _) fun _ => draws_bind (still_check _) fun _ => ?_
  exact draws_bind (still_ofExcept _) fun o => (draws_stamp o now).mono fun _ _ => trivial

theorem draws_rewrite (st : RewriteState) (now wall : Time) : Draws (fun _ => True) (st.draw now wall) :=
  draws_bind (still_ofExcept _) fun o => (draws_stamp o now).mono fun _ _ => trivial

theorem change_draws (h : Draws spec m) : Change now gs tx.catalogue (m tx).2.catalogue := by
  obtain ⟨hstore, hlast⟩ := h.moves tx
  have hadvance : Edit now gs tx.catalogue { tx.catalogue with lastGen := (m tx).2.lastGen } :=
    .advance hlast
  have hc : (m tx).2.catalogue = { tx.catalogue with lastGen := (m tx).2.lastGen } := by
    simp only [Tx.catalogue, hstore]
  rw [hc]
  exact .edits (.single hadvance)

structure Entitled (c : Catalogue) (p : Pending) : Prop where
  formed : p.Formed
  fresh : ∀ o ∈ p.drawn, FreshIn c.stock o.generation
  bound : ∀ o ∈ p.drawn, o.generation ≤ c.lastGen

variable {p : Pending}

theorem Entitled.entering {c : Catalogue} {o : ObjectRecord} (h : Entitled c p)
    (ho : o ∈ p.drawn) (hv : Valid o.name) : Entering c o :=
  ⟨hv, h.fresh o ho, h.bound o ho⟩

theorem commitNew_change {o : ObjectRecord} {pre : ObjectPreconditions}
    {also : BucketRecord → Action Unit} (hs : tx.catalogue.Sound)
    (hp : Entitled tx.catalogue p) (ho : o ∈ p.drawn) (hv : Valid o.name)
    (halso : ∀ b, Ready b tx.catalogue → b.name = o.bucket →
      Edits now (p.grant tx.catalogue).quiet tx.catalogue (also b tx).2.catalogue) :
    Change now (p.grant tx.catalogue) tx.catalogue (commitNew o pre also now tx).2.catalogue := by
  have hfree := p.grant_free tx.catalogue
  refine .edits (commitNew_edits hs (hp.entering ho hv) halso ?_ (.inl ⟨o, ho, rfl, rfl⟩))
  exact fun b _ _ name _ cur _ => hfree.lets b cur

theorem Pending.step_change (hs : tx.catalogue.Sound) (hp : Entitled tx.catalogue p) (hok : p.Heeds e tx.store) :
    Change (p.time e) (p.grant tx.catalogue) tx.catalogue (p.step e tx).2.catalogue := by
  cases p with
  | call c => exact change_then (Call.run_change hs hok) fun _ => still_pure _
  | upload u =>
    exact change_still (still_bind (still_check _) fun _ =>
      still_bind (still_existingBucket _) fun _ => still_pure _)
  | uploadDraw f u => exact change_then (change_draws (draws_upload u e.now)) fun _ => still_pure _
  | uploadCommit f u o now =>
    refine change_then (.edits (Upload.commit_edits hs (hp.entering rfl hok) hp.formed.1
      hp.formed.2 (grant_free _ _) (.inl ⟨o, rfl, rfl, rfl⟩))) fun _ => still_pure _
  | copy r => exact change_still (still_bind (still_sourceObject _) fun _ => still_pure _)
  | copyDraw r src =>
    exact change_then (change_draws (draws_copy r src e.now e.wall)) fun _ => still_pure _
  | copyCommit r o now | rewriteCommit r st o now =>
    exact change_then (commitNew_change hs hp rfl hok fun _ _ _ => .refl) fun _ => still_pure _
  | compose r => exact change_still (still_bind (still_readSources r) fun _ => still_pure _)
  | composeDraw r sources =>
    exact change_then (change_draws (draws_compose r sources e.now e.wall)) fun _ => still_pure _
  | composeCommit r sources o now =>
    refine change_then (commitNew_change hs hp rfl hok fun b hr _ => ?_) fun _ => still_pure _
    split_ifs
    · exact dropSources_edits sources hr fun _ _ cur _ => (grant_free _ _).lets b cur
    · exact .refl
  | move r => exact change_still (still_bind (still_readMove r) fun _ => still_pure _)
  | moveDraw r moved live =>
    exact change_then (change_draws (draws_stamp _ e.now)) fun _ => still_pure _
  | moveCommit r moved live o now =>
    refine change_then (commitNew_change hs hp rfl hok.1 fun b hr hb => ?_) fun _ => still_pure _
    exact MoveCall.remove_edits hr (hb.trans hp.formed) hok.2 trivial trivial
  | rewrite r => exact change_still (still_bind (still_load r _) fun _ => still_pure _)
  | rewriteSave st | rewriteMark st | chunkSave r u | sessionMark u o =>
    exact change_beside (moves_bind (runs_put (by simp [handleKinds]) _ _).moves
      fun _ => moves_pure _) handle_apart
  | rewriteDraw r st =>
    exact change_then (change_draws (draws_rewrite st e.now e.wall)) fun _ => still_pure _
  | chunk r => exact change_still (still_bind (still_resumableChunk r _) fun _ => still_ofExcept _)
  | chunkForget id cancelled | completeForget r =>
    exact change_beside (moves_bind (runs_delete (by simp [handleKinds]) _).moves
      fun _ => moves_pure _) handle_apart
  | part r => exact change_still (still_bind (still_loadPart r) fun _ => still_pure _)
  | partSave r =>
    exact change_beside (moves_bind (moves_savePart r) fun _ => moves_pure _) handle_apart
  | complete r => exact change_still (still_bind (still_loadComplete r) fun _ => still_pure _)

def Undrawn (out : Outcome) : Prop := ∀ p ∈ out.1, p.Formed ∧ p.drawn = none

theorem undrawn_sessionOutcome {r : ChunkCall} {n : SessionNext} {out : Outcome}
    (h : sessionOutcome r n = .ok out) : Undrawn out := by
  intro p hp
  cases n with
  | finish u =>
    obtain ⟨up, -, hout⟩ := Txn.except_bind_ok h
    cases hout
    cases hp
    exact ⟨trivial, rfl⟩
  | _ =>
    cases h
    cases hp
    try exact ⟨trivial, rfl⟩

theorem undrawn_answered (r : ChunkCall) (u : UploadSession) :
    Undrawn (answered (afterChunk r u >>= sessionOutcome r)) := by
  cases h : afterChunk r u >>= sessionOutcome r with
  | error e =>
    intro p hp
    cases hp
  | ok out =>
    obtain ⟨n, -, hn⟩ := Txn.except_bind_ok h
    exact undrawn_sessionOutcome hn

theorem undrawn_after (f : Follow) (o : ObjectRecord) (events : List Event) :
    Undrawn (f.after o, events) := by
  intro p hp
  cases f <;> cases hp <;> exact ⟨trivial, rfl⟩

theorem undrawn_finished : Undrawn finished := fun p hp => by cases hp

structure Launched (tx tx' : Tx) (p : Pending) : Prop where
  formed : p.Formed
  drew : ∀ o ∈ p.drawn, Drew (fun _ => True) tx tx' o

variable {tx' : Tx} {events : List Event}

theorem launched_of_undrawn {m : Action Outcome}
    (h : m tx = (.ok (some p, events), tx')) (hm : Returns Undrawn m) : Launched tx tx' p := by
  obtain ⟨hformed, hnone⟩ := hm tx _ tx' h p rfl
  refine ⟨hformed, fun o ho => ?_⟩
  rw [hnone] at ho
  cases ho

theorem launched_of_draws {f : ObjectRecord → Pending}
    (h : (m >>= fun o => pure (next (f o))) tx = (.ok (some p, events), tx')) (hm : Draws spec m)
    (hformed : ∀ o, spec o → (f o).Formed) (hdrawn : ∀ o, (f o).drawn = some o) :
    Launched tx tx' p := by
  obtain ⟨o, t, hrun, hpure⟩ := Txn.bind_ok_inv h
  cases hpure
  have hdrew := hm.drew tx o tx' hrun
  refine ⟨hformed o hdrew.spec, fun o' ho' => ?_⟩
  rw [hdrawn] at ho'
  cases ho'
  exact ⟨trivial, hdrew.store, hdrew.later, hdrew.last⟩

theorem Pending.step_launched {p' : Pending}
    (h : p.step e tx = (.ok (some p', events), tx')) : Launched tx tx' p' := by
  have hdone : ∀ p : Pending, p.drawn = none → p.Formed → Undrawn (next p) := by
    intro p hdrawn hformed q hq
    cases hq
    exact ⟨hformed, hdrawn⟩
  cases p with
  | uploadDraw f u => exact launched_of_draws h (draws_upload u e.now) (fun _ hs => hs.1) (fun _ => rfl)
  | copyDraw r src =>
    exact launched_of_draws h (draws_copy r src e.now e.wall) (fun _ _ => trivial) (fun _ => rfl)
  | composeDraw r sources =>
    exact launched_of_draws h (draws_compose r sources e.now e.wall) (fun _ _ => trivial) (fun _ => rfl)
  | moveDraw r moved live =>
    exact launched_of_draws h (draws_stamp _ e.now) (fun _ hs => hs) (fun _ => rfl)
  | rewriteDraw r st =>
    exact launched_of_draws h (draws_rewrite st e.now e.wall) (fun _ _ => trivial) (fun _ => rfl)
  | upload u =>
    exact launched_of_undrawn h (returns_bind fun _ => returns_bind fun _ =>
      returns_pure (hdone _ rfl trivial))
  | uploadCommit f u o now =>
    exact launched_of_undrawn h (returns_bind fun _ => returns_pure (undrawn_after f _ _))
  | rewrite r =>
    refine launched_of_undrawn h (returns_bind fun st => returns_pure ?_)
    split_ifs
    all_goals exact hdone _ rfl trivial
  | rewriteCommit r st o now | compose r | complete r | copy r | move r | part r =>
    exact launched_of_undrawn h (returns_bind fun _ => returns_pure (hdone _ rfl trivial))
  | chunk r =>
    exact launched_of_undrawn h (returns_bind fun n => returns_ofExcept fun out hout =>
      undrawn_sessionOutcome hout)
  | chunkSave r u =>
    exact launched_of_undrawn h (returns_bind fun _ => returns_pure (undrawn_answered r u))
  | chunkForget id cancelled | sessionMark u o =>
    refine launched_of_undrawn h (returns_bind fun _ => returns_pure ?_)
    intro q hq
    cases hq
  | _ => exact launched_of_undrawn h (returns_bind fun _ => returns_pure undrawn_finished)

end CloudBurrow.Storage

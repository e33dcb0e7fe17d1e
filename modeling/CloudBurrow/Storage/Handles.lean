import CloudBurrow.Storage.Hierarchy

namespace CloudBurrow.Storage

open Utf8 Transaction

def handleKinds : List Kind := [.session, .rewrite, .mpu]

theorem handle_apart : ∀ k ∈ [Kind.bucket, .object, .noncurrent, .softdeleted], k ∉ handleKinds := by
  decide

theorem still_getSession (id : Bytes) : Still (getSession id) :=
  still_bind (still_read _) fun _ => still_pure _

theorem still_resumableChunk (r : ChunkCall) (now : Time) : Still (resumableChunk r now) := by
  refine still_bind (still_getSession _) fun u => ?_
  cases u with
  | none => exact still_refuse _
  | some u =>
    dsimp only
    split_ifs
    · exact still_pure _
    · exact still_refuse _
    · exact still_pure _
    · refine still_bind (still_check _) fun _ => ?_
      cases u.done with
      | some o => exact still_pure _
      | none =>
        refine still_bind (still_check _) fun _ => ?_
        cases r.range with
        | some range | none => exact still_ofExcept _

theorem still_sourceObject (src : Source) : Still (sourceObject src) := by
  refine still_bind (still_existingBucket _) fun _ => ?_
  refine still_bind (still_findVersion _ _ _) fun v => ?_
  rcases v with _ | ⟨o, live⟩
  · exact still_refuse _
  · exact still_bind (still_check _) fun _ => still_pure _

theorem still_getRewrite (token : Bytes) : Still (getRewrite token) :=
  still_bind (still_read _) fun _ => still_pure _

theorem still_load (r : RewriteCall) (now : Time) : Still (r.load now) := by
  refine still_bind (still_check _) fun _ => ?_
  split_ifs
  · refine still_bind (still_getRewrite _) fun st => ?_
    cases st with
    | none => exact still_refuse _
    | some st =>
      dsimp only
      split_ifs
      · exact still_refuse _
      · exact still_refuse _
      · exact still_pure st
  · refine still_bind (still_sourceObject _) fun src => ?_
    refine still_bind (still_ofExcept _) fun storageClass => ?_
    refine still_bind (still_check _) fun _ => ?_
    exact still_bind (still_check _) fun _ => still_pure _

theorem still_getUpload (bucket id : Bytes) : Still (getUpload bucket id) :=
  still_bind (still_read _) fun _ => still_pure _

theorem still_uploadNamed (bucket name id : Bytes) : Still (uploadNamed bucket name id) := by
  refine still_bind (still_getUpload _ _) fun u => ?_
  cases u with
  | none => exact still_refuse _
  | some u =>
    dsimp only
    split_ifs
    · exact still_refuse _
    · exact still_pure u

theorem still_loadPart (r : PartCall) : Still r.load := by
  refine still_bind (still_check _) fun _ => ?_
  exact still_bind (still_uploadNamed _ _ _) fun _ => still_check _

theorem still_loadComplete (r : CompleteCall) : Still r.load := by
  refine still_bind (still_check _) fun _ => ?_
  refine still_bind (still_uploadNamed _ _ _) fun u => ?_
  refine still_bind (still_check _) fun _ => ?_
  exact still_bind (still_ofExcept _) fun parts => still_pure _

theorem moves_savePart (r : PartCall) : Moves (Beside handleKinds) r.save := by
  refine (still_getUpload _ _).then fun u => ?_
  cases u with
  | none => exact (still_refuse _).moves
  | some u => exact (runs_put (by simp [handleKinds]) _ _).moves

theorem moves_mpuAbort (bucket name id : Bytes) : Moves (Beside handleKinds) (mpuAbort bucket name id) :=
  (still_uploadNamed _ _ _).then fun _ => (runs_delete (by simp [handleKinds]) _).moves

theorem still_composeSources (r : ComposeCall) (sources : List ComposeSource)
    (found : List ObjectRecord) : Still (composeSources r sources found) := by
  induction sources generalizing found with
  | nil => exact still_pure found
  | cons so rest ih =>
    refine still_bind (still_findVersion _ _ _) fun v => ?_
    rcases v with _ | ⟨o, live⟩
    · exact still_refuse _
    dsimp only
    split_ifs
    · exact still_refuse _
    · exact still_bind (still_check _) fun _ => still_refuse _
    · exact still_bind (still_check _) fun _ => ih _

theorem still_readSources (r : ComposeCall) : Still r.read :=
  still_bind (still_check _) fun _ => still_bind (still_existingBucket _) fun _ =>
    still_composeSources r _ _

theorem still_readMove (r : MoveCall) : Still r.read :=
  still_bind (still_check _) fun _ => still_sourceObject _

end CloudBurrow.Storage

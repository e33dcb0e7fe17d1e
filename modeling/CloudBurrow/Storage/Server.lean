import CloudBurrow.Process.Interleaving
import CloudBurrow.Storage.Buckets
import CloudBurrow.Storage.Lifecycle
import CloudBurrow.Storage.Resumable

namespace CloudBurrow.Storage

open Utf8 Transaction Interleaving

structure Server where
  store : Store := Store.empty
  lastGen : Int := 0
  outboxSeq : Nat := 0

structure Env where
  now : Time
  wall : Time := now
  clock : List Int := []
  random : List Bytes := []

def Server.tx (s : Server) (e : Env) : Tx :=
  { store := s.store, lastGen := s.lastGen, outboxSeq := s.outboxSeq, clock := e.clock,
    random := e.random }

def Server.update {A : Type} (e : Env) (m : Action A) (s : Server) : Except HttpError A × Server :=
  match m (s.tx e) with
  | (.ok a, tx) =>
    (.ok a, { store := tx.store, lastGen := tx.lastGen, outboxSeq := tx.outboxSeq })
  | (.error err, tx) =>
    (.error err, { store := s.store, lastGen := tx.lastGen, outboxSeq := tx.outboxSeq })

inductive Call where
  | delete (r : DeleteCall)
  | modify (replace : Bool) (r : ModifyCall)
  | restore (r : RestoreCall)
  | bulkRestore (r : BulkRestoreCall)
  | lifecycle
  | sweep
  | createFolder (r : CreateFolderCall)
  | deleteFolder (r : FolderCall)
  | deleteFolderRecursive (r : FolderCall)
  | renameFolder (r : RenameCall)
  | insertBucket (r : InsertCall)
  | modifyBucket (r : BucketCall)
  | lockRetention (name : Bytes) (want : Int)
  | deleteBucket (name : Bytes) (pre : Preconditions)
  | restoreBucket (name : Bytes) (generation : Int)
  | startSession (r : StartCall)
  | initiate (r : InitiateCall)
  | abort (bucket name id : Bytes)

def ignored {A : Type} (m : Action A) : Action Unit := do
  let _ ← m
  pure ()

def Call.run (now : Time) : Call → Action Unit
  | .delete r => objectsDelete r now
  | .modify replace r => ignored (objectsModify replace r now)
  | .restore r => ignored (objectsRestore r now)
  | .bulkRestore r => ignored (objectsBulkRestore r now)
  | .lifecycle => ignored (applyLifecycle now)
  | .sweep => Storage.sweep now
  | .createFolder r => ignored (Storage.createFolder r now)
  | .deleteFolder r => Storage.deleteFolder r
  | .deleteFolderRecursive r => ignored (Storage.deleteFolderRecursive r now)
  | .renameFolder r => ignored (Storage.renameFolder r now)
  | .insertBucket r => ignored (bucketsInsert r now)
  | .modifyBucket r => ignored (bucketsModify r now)
  | .lockRetention name want => ignored (bucketsLockRetentionPolicy name want now)
  | .deleteBucket name pre => bucketsDelete name pre now
  | .restoreBucket name generation => ignored (bucketsRestore name generation now)
  | .startSession r => do
    Txn.check r.check
    resumableStart r now
  | .initiate r => mpuInitiate r now
  | .abort bucket name id => mpuAbort bucket name id

inductive Handle where
  | session (id : Bytes)
  | multipart (bucket id : Bytes)
  | rewrite (token : Bytes)
deriving DecidableEq

inductive Event where
  | committed (h : Handle) (generation : Int)
  | acknowledged (id : Bytes) (received : Nat)
  | completed (id : Bytes)
  | cancelled (id : Bytes)
deriving DecidableEq

inductive Follow where
  | nothing
  | session (r : ChunkCall) (u : UploadSession)
  | multipart (r : CompleteCall)

def Follow.committed (generation : Int) : Follow → List Event
  | .nothing => []
  | .session _ u => [.committed (.session u.id) generation]
  | .multipart r => [.committed (.multipart r.bucket r.id) generation]

inductive Pending where
  | call (c : Call)
  | upload (u : Upload)
  | uploadDraw (f : Follow) (u : Upload)
  | uploadCommit (f : Follow) (u : Upload) (o : ObjectRecord) (now : Time)
  | copy (r : CopyCall)
  | copyDraw (r : CopyCall) (src : ObjectRecord)
  | copyCommit (r : CopyCall) (o : ObjectRecord) (now : Time)
  | compose (r : ComposeCall)
  | composeDraw (r : ComposeCall) (sources : List ObjectRecord)
  | composeCommit (r : ComposeCall) (sources : List ObjectRecord) (o : ObjectRecord) (now : Time)
  | move (r : MoveCall)
  | moveDraw (r : MoveCall) (moved : ObjectRecord) (live : Bool)
  | moveCommit (r : MoveCall) (moved : ObjectRecord) (live : Bool) (o : ObjectRecord) (now : Time)
  | rewrite (r : RewriteCall)
  | rewriteSave (st : RewriteState)
  | rewriteDraw (r : RewriteCall) (st : RewriteState)
  | rewriteCommit (r : RewriteCall) (st : RewriteState) (o : ObjectRecord) (now : Time)
  | rewriteMark (st : RewriteState)
  | chunk (r : ChunkCall)
  | chunkForget (id : Bytes) (cancelled : Bool)
  | chunkSave (r : ChunkCall) (u : UploadSession)
  | sessionMark (u : UploadSession) (o : ObjectRecord)
  | part (r : PartCall)
  | partSave (r : PartCall)
  | complete (r : CompleteCall)
  | completeForget (r : CompleteCall)

abbrev Outcome : Type := Option Pending × List Event

def finished : Outcome := (none, [])

def next (p : Pending) : Outcome := (some p, [])

def sessionOutcome (r : ChunkCall) : SessionNext → Except HttpError Outcome
  | .forget cancelled => .ok (next (.chunkForget r.id cancelled))
  | .replay _ => .ok (none, [.completed r.id])
  | .save u => .ok (next (.chunkSave r u))
  | .incomplete received => .ok (none, [.acknowledged r.id received])
  | .finish u => do
    let up ← sessionUpload r u
    .ok (next (.uploadDraw (.session r u) up))

def answered : Except HttpError Outcome → Outcome
  | .ok out => out
  | .error _ => finished

def Follow.after (o : ObjectRecord) : Follow → Option Pending
  | .nothing => none
  | .session _ u => some (.sessionMark u o)
  | .multipart r => some (.completeForget r)

def Pending.step (e : Env) : Pending → Action Outcome
  | .call c => do
    c.run e.now
    pure finished
  | .upload u => do
    Txn.check (validObjectName u.upload.name)
    let _ ← existingBucket u.bucket
    pure (next (.uploadDraw .nothing u))
  | .uploadDraw f u => do
    let o ← u.draw e.now
    pure (next (.uploadCommit f u o e.now))
  | .uploadCommit f u o now => do
    let o ← u.commit o now
    pure (f.after o, f.committed o.generation)
  | .copy r => do
    let (src, _) ← sourceObject r.source
    pure (next (.copyDraw r src))
  | .copyDraw r src => do
    let o ← r.draw src e.now e.wall
    pure (next (.copyCommit r o e.now))
  | .copyCommit r o now => do
    let _ ← r.commit o now
    pure finished
  | .compose r => do
    let sources ← r.read
    pure (next (.composeDraw r sources))
  | .composeDraw r sources => do
    let o ← r.draw sources e.now e.wall
    pure (next (.composeCommit r sources o e.now))
  | .composeCommit r sources o now => do
    let _ ← r.commit sources o now
    pure finished
  | .move r => do
    let (moved, live) ← r.read
    pure (next (.moveDraw r moved live))
  | .moveDraw r moved live => do
    let o ← r.draw moved e.now
    pure (next (.moveCommit r moved live o e.now))
  | .moveCommit r moved live o now => do
    let _ ← r.commit moved live o now
    pure finished
  | .rewrite r => do
    let st ← r.load e.now
    let st := st.progress r.per
    pure (next (if st.done < st.source.size then .rewriteSave st else .rewriteDraw r st))
  | .rewriteSave st => do
    putRewrite st
    pure finished
  | .rewriteDraw r st => do
    let o ← st.draw e.now e.wall
    pure (next (.rewriteCommit r st o e.now))
  | .rewriteCommit r st o now => do
    let o ← r.commit o now
    pure (some (.rewriteMark st), [.committed (.rewrite st.token) o.generation])
  | .rewriteMark st => do
    putRewrite { st with used := true }
    pure finished
  | .chunk r => do
    let n ← resumableChunk r e.now
    Txn.ofExcept (sessionOutcome r n)
  | .chunkForget id cancelled => do
    forgetSession id
    pure (none, if cancelled then [.cancelled id] else [])
  | .chunkSave r u => do
    putSession u
    -- The session is saved in a transaction of its own: what the reply refuses is not undone.
    pure (answered (afterChunk r u >>= sessionOutcome r))
  | .sessionMark u o => do
    markSession u o
    pure (none, [.completed u.id])
  | .part r => do
    r.load
    pure (next (.partSave r))
  | .partSave r => do
    r.save
    pure finished
  | .complete r => do
    let up ← r.load
    pure (next (.uploadDraw (.multipart r) up))
  | .completeForget r => do
    r.forget
    pure finished

def Pending.arrives : Pending → Bool
  | .call _ => true
  | .upload _ => true
  | .copy _ => true
  | .compose _ => true
  | .move _ => true
  | .rewrite _ => true
  | .chunk _ => true
  | .part _ => true
  | .complete _ => true
  | _ => false

structure World where
  server : Server := {}
  log : List Event := []

def World.advance (e : Env) (p : Pending) (w : World) : Option Pending × World :=
  match w.server.update e (p.step e) with
  | (.ok (p', events), s) => (p', { server := s, log := w.log ++ events })
  | (.error _, s) => (none, { server := s, log := w.log })

def cloudBurrow : Machine World Pending Env where
  arrives p := p.arrives = true
  advance := World.advance

end CloudBurrow.Storage

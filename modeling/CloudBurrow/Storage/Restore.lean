import CloudBurrow.Storage.Objects

namespace CloudBurrow.Storage

open Utf8 Transaction

def restorable (b : BucketRecord) (now : Time) (v : ObjectRecord) : Bool :=
  decide (v.bucketGeneration = b.generation) && before now v.hardDelete

def softVersions (b : BucketRecord) (name : Bytes) (now : Time) : Action (List ObjectRecord) := do
  let vs ← getSoftDeleted b.name name
  pure (vs.filter (restorable b now))

def findSoftDeleted (b : BucketRecord) (name : Bytes) (generation : GenParam) (now : Time) :
    Action (Option ObjectRecord) := do
  let vs ← softVersions b name now
  pure (vs.find? generation.names)

def restoredRecord (soft : ObjectRecord) (generation : Int) (now : Time) : ObjectRecord :=
  { soft with
    generation, metageneration := 1, created := now, updated := now, deleted := 0,
    softDeleted := 0, hardDelete := 0, bucketGeneration := 0 }

def restoreSoft (b : BucketRecord) (soft : ObjectRecord) (cur : Option ObjectRecord)
    (now : Time) : Action ObjectRecord := do
  let o ← Txn.ofExcept (checkNewObject b (fresh soft))
  let vs ← getSoftDeleted b.name soft.name
  putSoftDeleted b.name soft.name (vs.filter fun v =>
    v.generation ≠ soft.generation || v.bucketGeneration ≠ soft.bucketGeneration)
  let generation ← nextGeneration
  let o := restoredRecord o generation now
  retireLive b soft.name now generation
  finalized o cur now
  pure o

structure RestoreCall where
  bucket : Bytes
  name : Bytes
  generation : GenParam
  pre : ObjectPreconditions := {}

def softDeletePolicyNotSet : HttpError :=
  errorf 412 "softDeletePolicyNotSet" (ascii "Bucket does not have a soft delete policy.")

def objectNotSoftDeleted : HttpError :=
  errorf 412 "objectNotSoftDeleted"
    (ascii "Object is not soft deleted and is either live or noncurrent.")

def objectsRestore (r : RestoreCall) (now : Time) : Action ObjectRecord := do
  let b ← existingBucket r.bucket
  match ← findSoftDeleted b r.name r.generation now with
  | none =>
    if b.softRetention = 0 then .refuse softDeletePolicyNotSet
    else do
      match ← findVersion r.bucket r.name r.generation with
      | some _ => .refuse objectNotSoftDeleted
      | none => .refuse (noObject r.bucket r.name)
  | some soft =>
    let cur ← getObject r.bucket r.name
    Txn.check (r.pre.check cur false)
    restoreSoft b soft cur now

structure BulkRestoreFilter where
  globs : List (Bytes → Bool) := []
  deletedAfter : Time := 0
  deletedBefore : Time := 0
  createdAfter : Time := 0
  createdBefore : Time := 0
  allowOverwrite : Bool := false

def within (t lower upper : Time) : Bool :=
  (decide (lower = 0) || before lower t) && (decide (upper = 0) || before t upper)

def BulkRestoreFilter.matches (f : BulkRestoreFilter) (o : ObjectRecord) : Bool :=
  (f.globs.isEmpty || f.globs.any fun re => re o.name) &&
    within o.softDeleted f.deletedAfter f.deletedBefore &&
    within o.created f.createdAfter f.createdBefore

def newest (best : Option ObjectRecord) (v : ObjectRecord) : Option ObjectRecord :=
  match best with
  | none => some v
  | some p => if p.generation < v.generation then some v else some p

def BulkRestoreFilter.pick (f : BulkRestoreFilter) (vs : List ObjectRecord) : Option ObjectRecord :=
  (vs.filter f.matches).foldl newest none

def bulkRestoreName (b : BucketRecord) (name : Bytes) (f : BulkRestoreFilter)
    (n : BulkRestoreCounts) (now : Time) : Action BulkRestoreCounts := do
  let vs ← softVersions b name now
  match f.pick vs with
  | none => pure { n with skipped := n.skipped + vs.length }
  | some soft =>
    let n := { n with skipped := n.skipped + (vs.length - 1) }
    let cur ← getObject b.name name
    if cur.isSome && !f.allowOverwrite then pure { n with skipped := n.skipped + 1 }
    else do
      match ← Txn.attempt (restoreSoft b soft cur now) with
      | .error _ => pure { n with failed := n.failed + 1 }
      | .ok _ => pure { n with restored := n.restored + 1 }

def bulkRestoreNames (b : BucketRecord) (f : BulkRestoreFilter) (now : Time) :
    List Bytes → BulkRestoreCounts → Action BulkRestoreCounts
  | [], n => pure n
  | name :: names, n => do
    let n ← bulkRestoreName b name f n now
    bulkRestoreNames b f now names n

def putOperation (op : OperationRecord) : Action Unit :=
  Tx.put .operation (objectKey op.bucket op.id) op

def namesIn (k : Kind) (bucket start : Bytes) : Action (List Bytes) := do
  let keys ← Tx.list k (objectKey bucket start)
  pure (keys.map fun key => key.drop (objectKey bucket []).length)

structure BulkRestoreCall where
  bucket : Bytes
  filter : BulkRestoreFilter := {}
  operation : Bytes

def objectsBulkRestore (r : BulkRestoreCall) (now : Time) : Action BulkRestoreCounts := do
  let b ← existingBucket r.bucket
  let names ← namesIn .softdeleted r.bucket []
  let n ← bulkRestoreNames b r.filter now names {}
  putOperation
    { bucket := r.bucket, id := r.operation, type := .bulkRestoreObjects, created := now,
      ended := now, restore := some n }
  pure n

end CloudBurrow.Storage

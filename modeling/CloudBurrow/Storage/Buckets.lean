import CloudBurrow.Storage.Folders

namespace CloudBurrow.Storage

open Utf8 JsonText Transaction

def bucketChar (b : UInt8) : Bool := inRange 97 122 b || inRange 48 57 b

def bucketMiddle (b : UInt8) : Bool := bucketChar b || b == 46 || b == 95 || b == 45

def bucketNameShape (name : Bytes) : Bool :=
  3 ≤ name.length && name.length ≤ 222 && name.all bucketMiddle &&
    name.head?.any bucketChar && name.getLast?.any bucketChar

def invalidBucketName (name : Bytes) (why : String) : HttpError :=
  badRequest (ascii "Invalid bucket name: " ++ JsonText.quote name ++ ascii why)

def ipAddress (name : Bytes) : Bool :=
  let parts := name.splitOn 46
  parts.length = 4 && parts.all fun p =>
    p ≠ [] && p.length ≤ 3 && p.all (inRange 48 57) && (p.length = 1 || p.head? ≠ some 48) &&
      p.foldl (fun n d => n * 10 + (d.toNat - 48)) 0 ≤ 255

def validBucketName (name : Bytes) : Option HttpError :=
  if !bucketNameShape name then
    some (invalidBucketName name ". Names are 3-63 characters (222 with dots), lowercase letters, digits, dashes, underscores and dots, starting and ending with a letter or digit.")
  else if ipAddress name then
    some (invalidBucketName name ". A bucket name cannot be an IP address.")
  else if (ascii "goog").isPrefixOf name || decide (ascii "google" <:+: name) then
    some (invalidBucketName name
      ". A bucket name cannot begin with \"goog\" or contain \"google\".")
  else if (name.splitOn 46).any fun part => 63 < part.length then
    some (invalidBucketName name ". Each dot-separated component is at most 63 characters.")
  else none

theorem valid_bucketMiddle {b : UInt8} (h : bucketMiddle b = true) : b < 0x80 ∧ b ≠ slash := by
  revert b
  decide +kernel

theorem named_of_validBucketName {name : Bytes} (h : validBucketName name = none) :
    slash ∉ name ∧ Valid name := by
  have hshape : bucketNameShape name = true := by
    unfold validBucketName at h
    split_ifs at h with hs
    simpa using hs
  simp only [bucketNameShape, Bool.and_eq_true, List.all_eq_true] at hshape
  obtain ⟨⟨⟨-, hall⟩, -⟩, -⟩ := hshape
  refine ⟨fun hmem => ?_, valid_ascii name fun b hb => (valid_bucketMiddle (hall b hb)).1⟩
  exact (valid_bucketMiddle (hall slash hmem)).2 rfl

structure BucketSettings where
  storageClass : Option StorageClass := none
  versioningEnabled : Option Bool := none
  softRetention : Option Time := none
  retentionPeriod : Field Time := .absent
  defaultEventBasedHold : Option Bool := none
  lifecycle : Option (List LifecycleRule) := none

structure InsertCall where
  name : Bytes
  project : Bytes
  settings : BucketSettings := {}
  objectRetention : Bool := false
  hierarchical : Bool := false
  zonal : Bool := false
  unsupported : Option HttpError := none

def defaultSoftRetention : Time := 7 * dayLength

def bucketTaken : HttpError :=
  conflict (ascii
    "Your previous request to create the named bucket succeeded and you already own it.")

def maxRetentionPeriod : Nat := 3155760000

def checkRetentionPolicy (old : BucketRecord) (next : Field Time) : Except HttpError Time :=
  match next with
  | .absent => .ok old.retentionPeriod
  | .null =>
    if old.retentionLocked then .error (errorf 400 "badRequestException"
      (ascii "The retention policy on a locked bucket cannot be removed."))
    else .ok 0
  | .value n =>
    if n ≤ 0 ∨ maxRetentionPeriod * second < n then
      .error (badRequest (ascii "Invalid argument: retentionPolicy.retentionPeriod " ++
        integer (n / second) ++ ascii " must be 1 to 3155760000 seconds"))
    else if old.retentionLocked ∧ n < old.retentionPeriod then
      .error (errorf 400 "badRequestException"
        (ascii "The retention period on a locked bucket cannot be reduced."))
    else .ok n

def versionedHierarchy : HttpError :=
  badRequest (ascii "Invalid argument: versioning cannot be enabled on a bucket with hierarchicalNamespace enabled.")

def applySettings (b : BucketRecord) (f : BucketSettings) : Except HttpError BucketRecord := do
  let retentionPeriod ← checkRetentionPolicy b f.retentionPeriod
  let b := { b with
    storageClass := f.storageClass.getD b.storageClass
    versioningEnabled := f.versioningEnabled.getD b.versioningEnabled
    softRetention := f.softRetention.getD b.softRetention
    retentionPeriod
    defaultEventBasedHold := f.defaultEventBasedHold.getD b.defaultEventBasedHold
    lifecycle := f.lifecycle.getD b.lifecycle }
  if b.hierarchical && b.versioningEnabled then .error versionedHierarchy else .ok b

def InsertCall.record (r : InsertCall) (now : Time) : Except HttpError BucketRecord :=
  match h : validBucketName r.name with
  | some e => .error e
  | none => .ok
    { name := r.name, named := named_of_validBucketName h, project := r.project, created := now,
      updated := now, metageneration := 1, generation := (now - unixEpoch) / 1000,
      softRetention := defaultSoftRetention, objectRetentionEnabled := r.objectRetention,
      hierarchical := r.hierarchical, zonal := r.zonal }

def bucketsInsert (r : InsertCall) (now : Time) : Action BucketRecord := do
  Txn.check (if r.project = [] then some (required "project") else none)
  Txn.check (if r.name = [] then some (required "name") else none)
  let b ← Txn.ofExcept (r.record now)
  Txn.check r.unsupported
  let b ← Txn.ofExcept (applySettings b r.settings)
  match ← getBucket r.name with
  | some _ => .refuse bucketTaken
  | none =>
    putBucket b
    pure b

structure BucketCall where
  name : Bytes
  pre : Preconditions := {}
  settings : BucketSettings := {}
  unsupported : BucketRecord → Option HttpError := fun _ => none

def bucketsModify (r : BucketCall) (now : Time) : Action BucketRecord := do
  let b ← existingBucket r.name
  Txn.check (r.pre.check b.metageneration false)
  Txn.check (r.unsupported b)
  let next ← Txn.ofExcept (applySettings b r.settings)
  let next := { next with metageneration := b.metageneration + 1, updated := now }
  putBucket next
  pure next

def noRetentionPolicy : HttpError :=
  errorf 400 "badRequest" (ascii "You cannot lock a retention policy if the requested bucket doesn't have a retention policy.")

def bucketsLockRetentionPolicy (name : Bytes) (want : Int) (now : Time) : Action BucketRecord := do
  let b ← existingBucket name
  if b.metageneration ≠ want then .refuse conditionNotMet
  else if b.retentionPeriod = 0 then .refuse noRetentionPolicy
  else if b.retentionLocked then
    .refuse (errorf 400 "badRequest" (ascii "The retention policy on bucket " ++ name ++
      ascii " is already locked."))
  else do
    let b := { b with
      retentionLocked := true, metageneration := b.metageneration + 1, updated := now }
    putBucket b
    pure b

def bucketNotEmpty (what : String) : HttpError :=
  conflict (ascii "The bucket you tried to delete is not empty" ++ ascii what)

def softBucketKey (name : Bytes) (generation : Int) : Bytes := objectKey name (integer generation)

def softDeleteBucket (b : BucketRecord) (now : Time) : Action Unit :=
  if b.softRetention = 0 then pure ()
  else Tx.put .softbucket (softBucketKey b.name b.generation)
    { b with softDeleted := now, hardDelete := now + b.softRetention }

def deleteNotifications (bucket : Bytes) : Action Unit := do
  let keys ← Tx.list .notification (objectKey bucket [])
  Txn.forEach keys (Tx.delete .notification)

def deleteChannels (bucket : Bytes) : Action Unit := do
  let channels ← channelsOf bucket
  Txn.forEach channels removeChannel

def bucketsDelete (name : Bytes) (pre : Preconditions) (now : Time) : Action Unit := do
  let b ← existingBucket name
  Txn.check (pre.check b.metageneration false)
  let objects ← Tx.list .object (objectKey name [])
  let older ← Tx.list .noncurrent (objectKey name [])
  let managed ← Tx.list .managedfolder (objectKey name [])
  let folders ← Tx.list .folder (objectKey name [])
  if objects ≠ [] ∨ older ≠ [] then .refuse (bucketNotEmpty ".")
  else if managed ≠ [] then .refuse (bucketNotEmpty ": it holds managed folders.")
  else if folders ≠ [] then .refuse (bucketNotEmpty ": it holds folders.")
  else do
    Tx.delete .bucket name
    deleteNotifications name
    deleteChannels name
    softDeleteBucket b now

def bucketsRestore (name : Bytes) (generation : Int) (now : Time) : Action BucketRecord := do
  match ← Tx.get .softbucket (softBucketKey name generation) with
  | none => .refuse noBucket
  | some (b : BucketRecord) =>
    if !before now b.hardDelete then .refuse noBucket
    else do
      match ← getBucket name with
      | some _ => .refuse (conflict (ascii "A bucket named " ++ name ++
          ascii " already exists; delete it before restoring this one."))
      | none =>
        Tx.delete .softbucket (softBucketKey name b.generation)
        let b := { b with softDeleted := 0, hardDelete := 0, updated := now }
        putBucket b
        pure b

def sweepShelf (now : Time) (key : Bytes) : Action Unit := fun tx =>
  let vs := Shelf.softdeleted.read tx.store key
  let kept := vs.filter fun v => before now v.hardDelete
  if kept.length = vs.length then (.ok (), tx)
  else (.ok (), { tx with
    store := Shelf.softdeleted.write tx.store key ((byGeneration kept).map ObjectRecord.recode) })

def sweepBucket (now : Time) (key : Bytes) : Action Unit := do
  let b : Option BucketRecord ← Tx.get .softbucket key
  if b.any fun b => before now b.hardDelete then pure () else Tx.delete .softbucket key

def sweep (now : Time) : Action Unit := do
  let objects ← Tx.list .softdeleted []
  Txn.forEach objects (sweepShelf now)
  let buckets ← Tx.list .softbucket []
  Txn.forEach buckets (sweepBucket now)

end CloudBurrow.Storage

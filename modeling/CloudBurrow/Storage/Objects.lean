import CloudBurrow.Storage.Versions

namespace CloudBurrow.Storage

open Utf8 Transaction

def conditionNotMet : HttpError :=
  preconditionFailed (ascii "At least one of the pre-conditions you specified did not hold.")

def notModified : HttpError := errorf 304 "notModified" (ascii "not modified")

def ObjectPreconditions.check (p : ObjectPreconditions) (o : Option ObjectRecord) (reads : Bool) :
    Option HttpError :=
  let gen := (o.map (·.generation)).getD 0
  let metagen := (o.map (·.metageneration)).getD 0
  if p.genMatch.any fun g => g ≠ gen then some conditionNotMet
  else if p.metaMatch.any fun m => o.isNone || m ≠ metagen then some conditionNotMet
  else if p.genNotMatch.any (fun g => g = gen) ||
      p.metaNotMatch.any (fun m => o.isSome && m = metagen) then
    if reads then some notModified else some conditionNotMet
  else none

def storageClassText : StorageClass → Bytes
  | .standard => ascii "STANDARD"
  | .nearline => ascii "NEARLINE"
  | .coldline => ascii "COLDLINE"
  | .archive => ascii "ARCHIVE"
  | .multiRegional => ascii "MULTI_REGIONAL"
  | .regional => ascii "REGIONAL"
  | .durableReducedAvailability => ascii "DURABLE_REDUCED_AVAILABILITY"
  | .rapid => ascii "RAPID"

def storageClasses : List StorageClass :=
  [.standard, .nearline, .coldline, .archive, .multiRegional, .regional,
    .durableReducedAvailability, .rapid]

def parseStorageClass (text : Bytes) : Except HttpError (Option StorageClass) :=
  if text = [] then .ok none
  else match storageClasses.find? fun c => storageClassText c = toUpper text with
    | some c => .ok (some c)
    | none => .error (badRequest (ascii "Invalid argument: storageClass " ++ text))

def notRfc3339 (text : Bytes) : HttpError :=
  badRequest (ascii "Invalid argument: customTime " ++ JsonText.quote text ++
    ascii " is not RFC 3339")

def parseCustomTime : Option TimeText → Except HttpError Time
  | none => .ok 0
  | some { time := some t, .. } => .ok t
  | some { text, time := none } => .error (notRfc3339 text)

structure Upload where
  bucket : Bytes
  upload : UploadMeta
  blob : Blob
  pre : ObjectPreconditions := {}
  checksums : Option HttpError := none
  acl : BucketRecord → Option HttpError := fun _ => none
  handle : Bytes := []

def Upload.draw (u : Upload) (now : Time) : Action ObjectRecord := do
  Txn.check u.checksums
  let storageClass ← Txn.ofExcept (parseStorageClass u.upload.storageClass)
  let generation ← nextGeneration
  let customTime ← Txn.ofExcept (parseCustomTime u.upload.customTime)
  Txn.ofExcept (applyProtection
    { bucket := u.bucket, name := u.upload.name, generation, metageneration := 1,
      blob := u.blob.id, size := u.blob.size, crc32c := u.blob.crc32c, storageClass, customTime,
      created := now, updated := now } {} u.upload.protection false false now)

def withStorageClass (b : BucketRecord) (o : ObjectRecord) : ObjectRecord :=
  if o.storageClass = none then { o with storageClass := some b.storageClass } else o

def openAppendable (b : BucketRecord) (handle : Bytes) (o : ObjectRecord) : Except HttpError ObjectRecord :=
  if !b.zonal then
    .error (errorf 412 "conditionNotMet" (ascii
      "Appendable objects can only be created in a Rapid storage (zonal) bucket; " ++ b.name ++
      ascii " is not one."))
  else .ok { o with unfinalized := true, appendHandle := handle }

def Upload.opened (u : Upload) (b : BucketRecord) (o : ObjectRecord) : Except HttpError ObjectRecord :=
  if u.upload.appendable then openAppendable b u.handle o else .ok o

def Upload.place (o : ObjectRecord) (cur : Option ObjectRecord) (now : Time) : Action Unit :=
  if o.unfinalized then do
    objectFolders o now
    putObject o
  else finalized o cur now

def Upload.commit (u : Upload) (o : ObjectRecord) (now : Time) : Action ObjectRecord := do
  let b ← existingBucket u.bucket
  let o ← Txn.ofExcept (checkNewObject b (withStorageClass b o))
  Txn.check (u.acl b)
  let o ← Txn.ofExcept (u.opened b o)
  let cur ← getObject u.bucket u.upload.name
  Txn.check (u.pre.check cur false)
  retireLive b u.upload.name now o.generation
  Upload.place o cur now
  pure o

def validObjectName (name : Bytes) : Option HttpError :=
  if name.length = 0 ∨ 1024 < name.length then
    some (badRequest (ascii "Invalid argument: an object name is 1-1024 bytes"))
  else if 13 ∈ name ∨ 10 ∈ name then
    some (badRequest (ascii
      "Invalid argument: an object name cannot contain a carriage return or line feed"))
  else if name = [46] ∨ name = [46, 46] then
    some (badRequest (ascii "Invalid argument: an object name cannot be " ++ JsonText.quote name))
  else if (ascii ".well-known/acme-challenge/").isPrefixOf name then
    some (badRequest (ascii
      "Invalid argument: object names beginning .well-known/acme-challenge/ are reserved"))
  else none

structure DeleteCall where
  bucket : Bytes
  name : Bytes
  generation : GenParam := .live
  pre : ObjectPreconditions := {}
  header : ObjectRecord → Option HttpError := fun _ => none

def dropVersion (bucket name : Bytes) (o : ObjectRecord) (live : Bool) : Action Unit :=
  if live then Tx.delete .object (objectKey bucket name) else deleteVersion o

def objectsDelete (r : DeleteCall) (now : Time) : Action Unit := do
  let b ← existingBucket r.bucket
  match ← findVersion r.bucket r.name r.generation with
  | none => .refuse (noObject r.bucket r.name)
  | some (o, live) =>
    Txn.check (r.pre.check (some o) false)
    Txn.check (r.header o)
    if r.generation = .live then retireLive b r.name now 0
    else do
      Txn.check (protect b o now false)
      dropVersion r.bucket r.name o live
      removed b o now 0

def applyCustomTime (o : ObjectRecord) : Field TimeText → Except HttpError ObjectRecord
  | .absent => .ok o
  | .null =>
    if o.customTime ≠ 0 then
      .error (badRequest (ascii "Invalid argument: customTime cannot be removed once set"))
    else .ok o
  | .value { text, time := none } => .error (notRfc3339 text)
  | .value { time := some t, .. } =>
    if o.customTime ≠ 0 ∧ t < o.customTime then
      .error (badRequest (ascii "Invalid argument: customTime cannot be set to an earlier time"))
    else .ok { o with customTime := t }

structure ModifyCall where
  bucket : Bytes
  name : Bytes
  generation : GenParam := .live
  pre : ObjectPreconditions := {}
  body : ObjectBody := {}
  restated : ObjectRecord → Option HttpError := fun _ => none
  acl : BucketRecord → Option HttpError := fun _ => none
  override : Bool := false

def objectsModify (replace : Bool) (r : ModifyCall) (now : Time) : Action ObjectRecord := do
  let b ← existingBucket r.bucket
  match ← findVersion r.bucket r.name r.generation with
  | none => .refuse (noObject r.bucket r.name)
  | some (old, live) =>
    Txn.check (r.pre.check (some old) false)
    Txn.check (r.restated old)
    let o ← Txn.ofExcept (applyCustomTime old r.body.customTime)
    Txn.check (r.acl b)
    let o ← Txn.ofExcept (applyProtection o old r.body.protection replace r.override now)
    if o.retention.isSome && old.retention.isNone && !b.objectRetentionEnabled then
      .refuse (noObjectRetention r.bucket)
    else do
      let o := { o with metageneration := o.metageneration + 1, updated := now }
      putVersion o live
      emit { type := .metadataUpdate, object := o, time := now }
      pure o

end CloudBurrow.Storage

import CloudBurrow.Storage.Restore

namespace CloudBurrow.Storage

open Utf8 Transaction

def applyDestination (o : ObjectRecord) (body : Option ObjectBody) (wall : Time) :
    Except HttpError ObjectRecord :=
  match body with
  | none => .ok o
  | some body => do
    let o ← applyCustomTime o body.customTime
    applyProtection o {} body.protection false false wall

def stamp (o : ObjectRecord) (now : Time) : Action ObjectRecord := do
  let generation ← nextGeneration
  pure { o with generation, metageneration := 1, created := now, updated := now, deleted := 0 }

def commitNew (o : ObjectRecord) (pre : ObjectPreconditions) (also : BucketRecord → Action Unit)
    (now : Time) : Action ObjectRecord := do
  let b ← existingBucket o.bucket
  let o ← Txn.ofExcept (checkNewObject b (withStorageClass b o))
  let cur ← getObject o.bucket o.name
  Txn.check (pre.check cur false)
  also b
  retireLive b o.name now o.generation
  finalized o cur now
  pure o

structure Source where
  bucket : Bytes
  name : Bytes
  generation : GenParam := .live
  pre : ObjectPreconditions := {}

def sourceObject (src : Source) : Action (ObjectRecord × Bool) := do
  let _ ← existingBucket src.bucket
  match ← findVersion src.bucket src.name src.generation with
  | none => .refuse (noObject src.bucket src.name)
  | some (o, live) =>
    Txn.check (src.pre.check (some o) false)
    pure (o, live)

structure CopyCall where
  source : Source
  bucket : Bytes
  name : Bytes
  pre : ObjectPreconditions := {}
  body : Option ObjectBody := none
  unsupported : Option HttpError := none
  keys : ObjectRecord → Option HttpError := fun _ => none

def copied (src : ObjectRecord) (bucket name : Bytes) (storageClass : Option StorageClass) : ObjectRecord :=
  { fresh src with bucket, name, storageClass }

def CopyCall.draw (r : CopyCall) (src : ObjectRecord) (now wall : Time) : Action ObjectRecord := do
  Txn.check (r.keys src)
  Txn.check r.unsupported
  let o ← Txn.ofExcept (applyDestination (copied src r.bucket r.name none) r.body wall)
  Txn.check (validObjectName r.name)
  stamp o now

def CopyCall.commit (r : CopyCall) (o : ObjectRecord) (now : Time) : Action ObjectRecord :=
  commitNew o r.pre (fun _ => pure ()) now

structure ComposeSource where
  name : Bytes
  generation : GenParam := .live
  ifGenerationMatch : Option GenParam := none

structure ComposeCall where
  bucket : Bytes
  name : Bytes
  sources : List ComposeSource
  deleteSourceObjects : Bool := false
  pre : ObjectPreconditions := {}
  destination : Option ObjectBody := none
  unsupported : Option HttpError := none
  keys : ObjectRecord → Option HttpError := fun _ => none
  joined : List ObjectRecord → Blob

def mixedClasses : HttpError :=
  badRequest (ascii "The source objects of a compose must share a storage class")

def composeSources (r : ComposeCall) : List ComposeSource → List ObjectRecord → Action (List ObjectRecord)
  | [], found => pure found
  | so :: rest, found => do
    match ← findVersion r.bucket so.name so.generation with
    | none => .refuse (noObject r.bucket so.name)
    | some (o, _) =>
      if so.ifGenerationMatch.any fun m => !m.names o then .refuse conditionNotMet
      else do
        Txn.check (r.keys o)
        if found.head?.any fun f => o.storageClass ≠ f.storageClass then .refuse mixedClasses
        else composeSources r rest (found ++ [o])

def maxComponents : Nat := 32

def sourceCount (n : Nat) : Option HttpError :=
  if n < 1 ∨ maxComponents < n then
    some (badRequest (ascii "A compose request takes 1 to 32 source objects, not " ++
      JsonText.decimal n))
  else none

def ComposeCall.read (r : ComposeCall) : Action (List ObjectRecord) := do
  Txn.check (sourceCount r.sources.length)
  let _ ← existingBucket r.bucket
  composeSources r r.sources []

def components (o : ObjectRecord) : Nat := if 0 < o.componentCount then o.componentCount else 1

def ComposeCall.draw (r : ComposeCall) (sources : List ObjectRecord) (now wall : Time) :
    Action ObjectRecord := do
  let blob := r.joined sources
  Txn.check (validObjectName r.name)
  Txn.check r.unsupported
  let o ← Txn.ofExcept (applyDestination
    { bucket := r.bucket, name := r.name, blob := blob.id, size := blob.size,
      crc32c := blob.crc32c, componentCount := (sources.map components).sum,
      storageClass := sources.head?.bind (·.storageClass) } r.destination wall)
  stamp o now

def dropSources (name : Bytes) (now : Time) (b : BucketRecord) (sources : List ObjectRecord) : Action Unit :=
  Txn.forEach sources fun src =>
    if src.name ≠ name then retireLive b src.name now 0 else pure ()

def ComposeCall.commit (r : ComposeCall) (sources : List ObjectRecord) (o : ObjectRecord)
    (now : Time) : Action ObjectRecord :=
  commitNew o r.pre
    (fun b => if r.deleteSourceObjects then dropSources r.name now b sources else pure ()) now

structure MoveCall where
  source : Source
  name : Bytes
  pre : ObjectPreconditions := {}

def MoveCall.read (r : MoveCall) : Action (ObjectRecord × Bool) := do
  Txn.check (validObjectName r.name)
  sourceObject r.source

def MoveCall.draw (r : MoveCall) (moved : ObjectRecord) (now : Time) : Action ObjectRecord :=
  stamp { moved with name := r.name } now

def MoveCall.remove (r : MoveCall) (moved : ObjectRecord) (live : Bool) (now : Time)
    (b : BucketRecord) : Action Unit := do
  Txn.check (protect b moved now false)
  dropVersion r.source.bucket r.source.name moved live
  emit { type := .delete, object := moved, time := now }

def MoveCall.commit (r : MoveCall) (moved : ObjectRecord) (live : Bool) (o : ObjectRecord)
    (now : Time) : Action ObjectRecord :=
  commitNew o r.pre (r.remove moved live now) now

end CloudBurrow.Storage

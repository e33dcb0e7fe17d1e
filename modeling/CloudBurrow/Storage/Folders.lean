import CloudBurrow.Storage.Copy

namespace CloudBurrow.Storage

open Utf8 Transaction

structure Preconditions where
  accepts : Option Int := none
  rejects : Option Int := none

def Preconditions.check (p : Preconditions) (current : Int) (reads : Bool) : Option HttpError :=
  if p.accepts.any fun n => n ≠ current then some conditionNotMet
  else if p.rejects.any fun n => n = current then
    if reads then some notModified else some conditionNotMet
  else none

def hnsBucket (bucket : Bytes) : Action BucketRecord := do
  let b ← existingBucket bucket
  if !b.hierarchical then
    .refuse (badRequest (ascii "The bucket " ++ bucket ++ ascii
      " does not have hierarchical namespace enabled; folders exist only in a bucket that does."))
  else pure b

def withSlash (name : Bytes) : Bytes :=
  if name = [] ∨ name.getLast? = some slash then name else name ++ [slash]

def folderMissing (bucket name : Bytes) : HttpError :=
  notFound (ascii "The folder " ++ name ++ ascii " does not exist in bucket " ++ bucket ++
    ascii ".")

def folderExists (bucket name : Bytes) : HttpError :=
  conflict (ascii "The folder " ++ name ++ ascii " already exists in bucket " ++ bucket ++
    ascii ".")

def existingFolder (bucket name : Bytes) (pre : Preconditions) (reads : Bool) : Action FolderRecord := do
  let _ ← hnsBucket bucket
  match ← getFolder bucket (withSlash name) with
  | none => .refuse (folderMissing bucket (withSlash name))
  | some f =>
    Txn.check (pre.check f.metageneration reads)
    pure f

def segments (name : Bytes) : List Bytes := name.splitOn slash

def acmeChallenge : Bytes := ascii ".well-known/acme-challenge/"

def managedFolderName (name : Bytes) : Except HttpError Bytes :=
  if name = [] then .error (required "name")
  else
    let name := withSlash name
    if 1024 < name.length then
      .error (badRequest (ascii "Invalid argument: a managed folder name is at most 1024 bytes"))
    else if ¬ Valid name then
      .error (badRequest (ascii "Invalid argument: a managed folder name must be valid UTF-8"))
    else if 13 ∈ name ∨ 10 ∈ name then
      .error (badRequest (ascii
        "Invalid argument: a managed folder name cannot contain a carriage return or a line feed"))
    else if name.head? = some slash ∨ [slash, slash] <:+: name then
      .error (badRequest (ascii "Invalid argument: managed folder name " ++ JsonText.quote name ++
        ascii " has an empty segment"))
    else if 15 < name.count slash then
      .error (badRequest (ascii "Invalid argument: managed folder name " ++ JsonText.quote name ++
        ascii " has " ++ JsonText.decimal (name.count slash) ++
        ascii " /s: at most 15, so managed folders nest up to 15 levels deep"))
    else if acmeChallenge <+: name then
      .error (badRequest (ascii
        "Invalid argument: managed folder names cannot start with .well-known/acme-challenge/"))
    else match (segments name).find? fun seg => seg = [46] ∨ seg = [46, 46] with
      | some seg => .error (badRequest (ascii "Invalid argument: managed folder name " ++
          JsonText.quote name ++ ascii " has a " ++ JsonText.quote seg ++ ascii " segment"))
      | none => .ok name

structure CreateFolderCall where
  bucket : Bytes
  name : Bytes
  recursive : Bool := false

def createFolder (r : CreateFolderCall) (now : Time) : Action FolderRecord := do
  let name ← Txn.ofExcept (managedFolderName r.name)
  let f : FolderRecord :=
    { bucket := r.bucket, name, created := now, updated := now, metageneration := 1 }
  let _ ← hnsBucket r.bucket
  match ← getFolder r.bucket name with
  | some _ => .refuse (folderExists r.bucket name)
  | none =>
    if parentFolder name = [] then putFolder f
    else do
      let p ← getFolder r.bucket (parentFolder name)
      if p.isNone && !r.recursive then
        .refuse (errorf 400 "failedPrecondition" (ascii "The parent folder " ++
          parentFolder name ++ ascii " does not exist; create it first, or set recursive."))
      else do
        ensureFolders (parentFolder name).length r.bucket (parentFolder name) now
        putFolder f
    pure f

structure FolderCall where
  bucket : Bytes
  name : Bytes
  pre : Preconditions := {}
  operation : Bytes := []

def deleteFolder (r : FolderCall) : Action Unit := do
  let f ← existingFolder r.bucket r.name r.pre false
  let inside ← Tx.list .folder (objectKey r.bucket f.name)
  let objects ← Tx.list .object (objectKey r.bucket f.name)
  if objects ≠ [] ∨ 1 < inside.length then
    .refuse (conflict (ascii "The folder " ++ f.name ++
      ascii " is not empty: objects or folders are in it."))
  else Tx.delete .folder (objectKey r.bucket f.name)

def deleteInside (b : BucketRecord) (bucket : Bytes) (now : Time) (name : Bytes) : Action Unit := do
  match ← getObject bucket name with
  | none => pure ()
  | some o =>
    Txn.check (protect b o now false)
    Tx.delete .object (objectKey bucket name)
    removed b o now 0

def deleteFolderRecursive (r : FolderCall) (now : Time) : Action OperationRecord := do
  let b ← hnsBucket r.bucket
  let f ← existingFolder r.bucket r.name r.pre false
  let names ← namesIn .object r.bucket f.name
  Txn.forEach names (deleteInside b r.bucket now)
  let folders ← Tx.list .folder (objectKey r.bucket f.name)
  Txn.forEach folders (Tx.delete .folder)
  let op : OperationRecord :=
    { bucket := r.bucket, id := r.operation, type := .deleteFolder, created := now, ended := now,
      source := f.name }
  putOperation op
  pure op

def renamed (src dst name : Bytes) : Bytes :=
  dst ++ if src <+: name then name.drop src.length else name

def renameObject (bucket src dst : Bytes) (now : Time) (name : Bytes) : Action Unit := do
  match ← getObject bucket name with
  | none => pure ()
  | some o =>
    Tx.delete .object (objectKey bucket name)
    putObject { o with name := renamed src dst o.name, updated := now }

def renameInside (bucket src dst : Bytes) (now : Time) (name : Bytes) : Action Unit := do
  match ← getFolder bucket name with
  | none => pure ()
  | some sub =>
    Tx.delete .folder (objectKey bucket name)
    putFolder { sub with
      name := renamed src dst sub.name, updated := now, metageneration := sub.metageneration + 1 }

structure RenameCall where
  bucket : Bytes
  source : Bytes
  dest : Bytes
  pre : Preconditions := {}
  operation : Bytes := []

def renameFolder (r : RenameCall) (now : Time) : Action OperationRecord := do
  let dst ← Txn.ofExcept (managedFolderName r.dest)
  let f ← existingFolder r.bucket r.source r.pre false
  if f.name <+: dst then
    .refuse (badRequest (ascii "Invalid argument: a folder cannot be renamed to " ++ dst ++
      ascii ", inside itself."))
  else do
    match ← getFolder r.bucket dst with
    | some _ => .refuse (folderExists r.bucket dst)
    | none =>
      let parent ← getFolder r.bucket (parentFolder dst)
      if parentFolder dst ≠ [] ∧ parent.isNone then
        .refuse (errorf 400 "failedPrecondition" (ascii "The destination's parent folder " ++
          parentFolder dst ++ ascii " does not exist."))
      else do
        let names ← namesIn .object r.bucket f.name
        Txn.forEach names (renameObject r.bucket f.name dst now)
        let folders ← namesIn .folder r.bucket f.name
        Txn.forEach folders (renameInside r.bucket f.name dst now)
        let folder ← getFolder r.bucket dst
        let op : OperationRecord :=
          { bucket := r.bucket, id := r.operation, type := .renameFolder, created := now,
            ended := now, source := f.name, dest := dst, folder }
        putOperation op
        pure op

end CloudBurrow.Storage

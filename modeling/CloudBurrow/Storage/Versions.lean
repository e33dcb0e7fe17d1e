import CloudBurrow.Storage.Notify
import CloudBurrow.Storage.Retention

namespace CloudBurrow.Storage

open Utf8 Transaction

inductive Shelf where
  | noncurrent | softdeleted
deriving DecidableEq

namespace Shelf

def kind : Shelf → Kind
  | .noncurrent => .noncurrent
  | .softdeleted => .softdeleted

def read (s : Store) : Shelf → Bytes → List ObjectRecord
  | .noncurrent, key => (s.get .noncurrent key).getD []
  | .softdeleted, key => (s.get .softdeleted key).getD []

def write (s : Store) : Shelf → Bytes → List ObjectRecord → Store
  | .noncurrent, key, vs =>
    if vs = [] then s.delete .noncurrent key else s.put .noncurrent key vs
  | .softdeleted, key, vs =>
    if vs = [] then s.delete .softdeleted key else s.put .softdeleted key vs

variable (s : Store) (sh : Shelf) {key key' : Bytes} (vs : List ObjectRecord)

theorem write_other {k : Kind} (h : k ≠ sh.kind) : sh.write s key vs k = s k := by
  cases sh <;> simp only [write] <;> split_ifs <;> simp_all [kind]

@[simp] theorem get_write_other {k : Kind} (h : k ≠ sh.kind) :
    (sh.write s key vs).get k key' = s.get k key' := by
  simp only [Store.get, write_other s sh vs h]

theorem read_congr {t : Store} (h : t sh.kind = s sh.kind) : sh.read t key = sh.read s key := by
  cases sh <;> simp only [read, Store.get] <;> simp only [kind] at h <;> rw [h]

@[simp] theorem read_write_self : sh.read (sh.write s key vs) key = vs := by
  cases sh <;> simp only [read, write] <;> split_ifs with h <;> simp [h]

theorem read_write_key (h : key ≠ key') : sh.read (sh.write s key vs) key' = sh.read s key' := by
  cases sh <;> simp only [read, write] <;> split_ifs <;> simp [Store.get_put_key, Store.get_delete_key, h]

theorem read_write_shelf {sh' : Shelf} (h : sh' ≠ sh) :
    sh'.read (sh.write s key vs) key' = sh'.read s key' := by
  have hk : sh'.kind ≠ sh.kind := by cases sh <;> cases sh' <;> simp_all [kind]
  exact read_congr s sh' (write_other s sh vs hk)

theorem kind_ne_object : sh.kind ≠ .object := by
  cases sh <;> simp [kind]

theorem read_put_object (o : ObjectRecord) : sh.read (s.put .object key o) key' = sh.read s key' :=
  read_congr s sh (Store.put_other s (kind_ne_object sh) key o)

theorem read_delete_object : sh.read (s.delete .object key) key' = sh.read s key' :=
  read_congr s sh (Store.delete_other s (kind_ne_object sh) key)

theorem get_object_write : (sh.write s key vs).get .object key' = s.get .object key' :=
  get_write_other s sh vs (kind_ne_object sh).symm

end Shelf

def byGeneration (vs : List ObjectRecord) : List ObjectRecord :=
  vs.insertionSort fun a b => a.generation ≤ b.generation

def getVersions (sh : Shelf) (bucket name : Bytes) : Action (List ObjectRecord) :=
  .read fun tx => byGeneration (sh.read tx.store (objectKey bucket name))

def putVersions (sh : Shelf) (bucket name : Bytes) (vs : List ObjectRecord) : Action Unit :=
  .write fun tx => { tx with
    store := sh.write tx.store (objectKey bucket name) ((byGeneration vs).map ObjectRecord.recode) }

def appendVersion (sh : Shelf) (bucket name : Bytes) (o : ObjectRecord) : Action Unit :=
  .write fun tx => { tx with
    store := sh.write tx.store (objectKey bucket name)
      (sh.read tx.store (objectKey bucket name) ++ [o.recode]) }

def getNoncurrent : Bytes → Bytes → Action (List ObjectRecord) := getVersions .noncurrent

def putNoncurrent : Bytes → Bytes → List ObjectRecord → Action Unit := putVersions .noncurrent

def getSoftDeleted : Bytes → Bytes → Action (List ObjectRecord) := getVersions .softdeleted

def putSoftDeleted : Bytes → Bytes → List ObjectRecord → Action Unit := putVersions .softdeleted

def ObjectRecord.softened (o : ObjectRecord) (b : BucketRecord) (now : Time) : ObjectRecord :=
  { o with
    softDeleted := now, hardDelete := now + b.softRetention, bucketGeneration := b.generation }

def discard (b : BucketRecord) (o : ObjectRecord) (now : Time) : Action Unit :=
  if b.softRetention = 0 then pure ()
  else appendVersion .softdeleted b.name o.name (o.softened b now)

def removed (b : BucketRecord) (o : ObjectRecord) (now : Time) (overwriter : Int) : Action Unit := do
  discard b o now
  emit { type := .delete, object := o, overwrittenBy := overwriter, time := now }

def ObjectRecord.archived (o : ObjectRecord) (now : Time) : ObjectRecord :=
  { o with deleted := now }

def retireLive (b : BucketRecord) (name : Bytes) (now : Time) (overwriter : Int) : Action Unit := do
  match ← getObject b.name name with
  | none => pure ()
  | some cur =>
    Txn.check (protect b cur now b.versioningEnabled)
    Tx.delete .object (objectKey b.name name)
    if !b.versioningEnabled then removed b cur now overwriter
    else do
      appendVersion .noncurrent b.name name (cur.archived now)
      emit { type := .archive, object := cur.archived now, overwrittenBy := overwriter, time := now }

def parentFolder (name : Bytes) : Bytes :=
  let trimmed := if name.getLast? = some slash then name.dropLast else name
  (trimmed.reverse.dropWhile fun b => b ≠ slash).reverse

def getFolder (bucket name : Bytes) : Action (Option FolderRecord) := do
  let f : Option (Encoded FolderRecord.recode) ← Tx.get .folder (objectKey bucket name)
  pure (f.map (·.val))

def putFolder (f : FolderRecord) : Action Unit :=
  Tx.put .folder (objectKey f.bucket f.name) f.encode

def ensureFolders : Nat → Bytes → Bytes → Time → Action Unit
  | 0, _, _, _ => pure ()
  | n + 1, bucket, dir, now =>
    if dir = [] then pure ()
    else do
      match ← getFolder bucket dir with
      | some _ => pure ()
      | none =>
        ensureFolders n bucket (parentFolder dir) now
        putFolder { bucket, name := dir, created := now, updated := now, metageneration := 1 }

def objectFolders (o : ObjectRecord) (now : Time) : Action Unit := do
  match ← getBucket o.bucket with
  | none => pure ()
  | some b =>
    if !b.hierarchical then pure ()
    else ensureFolders (parentFolder o.name).length o.bucket (parentFolder o.name) now

def finalized (o : ObjectRecord) (cur : Option ObjectRecord) (now : Time) : Action Unit := do
  objectFolders o now
  putObject o
  emit { type := .finalize, object := o, overwrote := (cur.map (·.generation)).getD 0, time := now }

inductive GenParam where
  | live
  | exactly (g : Int)
  | malformed
deriving DecidableEq

def GenParam.names (p : GenParam) (o : ObjectRecord) : Bool :=
  match p with
  | .live => false
  | .exactly g => decide (o.generation = g)
  | .malformed => false

def findVersion (bucket name : Bytes) (generation : GenParam) : Action (Option (ObjectRecord × Bool)) := do
  let o ← getObject bucket name
  if generation = .live then pure (o.map fun o => (o, true))
  else if o.any generation.names then pure (o.map fun o => (o, true))
  else do
    let vs ← getNoncurrent bucket name
    pure ((vs.find? generation.names).map fun v => (v, false))

def putVersion (o : ObjectRecord) (live : Bool) : Action Unit :=
  if live then putObject o
  else do
    let vs ← getNoncurrent o.bucket o.name
    putNoncurrent o.bucket o.name
      (vs.map fun v => if v.generation = o.generation then o else v)

def deleteVersion (o : ObjectRecord) : Action Unit := do
  let vs ← getNoncurrent o.bucket o.name
  putNoncurrent o.bucket o.name (vs.filter fun v => v.generation ≠ o.generation)

end CloudBurrow.Storage

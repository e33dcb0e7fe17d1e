import CloudBurrow.Codec.Utf8

namespace CloudBurrow.Storage

open Utf8

def slash : UInt8 := 47

abbrev Time := Int

def second : Time := 1000000000

def dayLength : Time := 86400 * second

def before (t u : Time) : Bool := decide (t < u)

inductive StorageClass where
  | standard | nearline | coldline | archive | multiRegional | regional
  | durableReducedAvailability | rapid
deriving DecidableEq

inductive RetentionMode where
  | unlocked | locked
deriving DecidableEq

structure ObjectRetention where
  mode : RetentionMode
  retainUntil : Time
deriving DecidableEq

structure ObjectRecord where
  bucket : Bytes := []
  name : Bytes := []
  generation : Int := 0
  metageneration : Int := 0
  blob : Bytes := []
  size : Nat := 0
  crc32c : UInt32 := 0
  storageClass : Option StorageClass := none
  customTime : Time := 0
  componentCount : Nat := 0
  created : Time := 0
  updated : Time := 0
  deleted : Time := 0
  softDeleted : Time := 0
  hardDelete : Time := 0
  bucketGeneration : Int := 0
  temporaryHold : Bool := false
  eventBasedHold : Bool := false
  retention : Option ObjectRetention := none
  retentionFrom : Time := 0
  classUpdated : Time := 0
  unfinalized : Bool := false
  appendHandle : Bytes := []
deriving DecidableEq

def ObjectRecord.recode (o : ObjectRecord) : ObjectRecord :=
  { o with bucket := toValid o.bucket, name := toValid o.name }

theorem ObjectRecord.recode_recode (o : ObjectRecord) : o.recode.recode = o.recode := by
  simp [recode]

structure Encoded {A : Type} (recode : A → A) where
  val : A
  stable : recode val = val

inductive LifecycleAction where
  | delete
  | setStorageClass (next : StorageClass)
  | abortIncompleteMultipartUpload
deriving DecidableEq

structure LifecycleCondition where
  age : Option Nat := none
  daysSinceCustomTime : Option Nat := none
  daysSinceNoncurrentTime : Option Nat := none
  numNewerVersions : Option Nat := none
  createdBefore : Option Time := none
  customTimeBefore : Option Time := none
  noncurrentTimeBefore : Option Time := none
  isLive : Option Bool := none
  prefixes : Option (List Bytes) := none
  suffixes : Option (List Bytes) := none
  classes : Option (List StorageClass) := none
  sizeAbove : Option Nat := none
  sizeBelow : Option Nat := none
deriving DecidableEq

structure LifecycleRule where
  action : LifecycleAction
  condition : LifecycleCondition
deriving DecidableEq

structure BucketRecord where
  name : Bytes := []
  named : slash ∉ name ∧ Valid name := by decide
  project : Bytes := []
  created : Time := 0
  updated : Time := 0
  metageneration : Int := 0
  generation : Int := 0
  softDeleted : Time := 0
  hardDelete : Time := 0
  storageClass : StorageClass := .standard
  versioningEnabled : Bool := false
  softRetention : Time := 0
  retentionPeriod : Time := 0
  retentionLocked : Bool := false
  objectRetentionEnabled : Bool := false
  defaultEventBasedHold : Bool := false
  hierarchical : Bool := false
  zonal : Bool := false
  lifecycle : List LifecycleRule := []
deriving DecidableEq

inductive EventType where
  | finalize | delete | archive | metadataUpdate
deriving DecidableEq

inductive PayloadFormat where
  | jsonApiV1 | none
deriving DecidableEq

structure NotificationConfig where
  id : Nat
  bucket : Bytes
  topic : Bytes
  eventTypes : List EventType
  namePrefix : Bytes
  attributes : List (Bytes × Bytes)
  format : PayloadFormat
deriving DecidableEq

inductive NotificationEntry where
  | config (c : NotificationConfig)
  | counter (last : Nat)
deriving DecidableEq

structure ObjectEvent where
  type : EventType
  object : ObjectRecord
  overwrote : Int := 0
  overwrittenBy : Int := 0
  time : Time
deriving DecidableEq

structure OutboxEntry where
  topic : Bytes
  attributes : List (Bytes × Bytes)
  object : Option ObjectRecord := none
  attempts : Nat := 0
deriving DecidableEq

structure NameSelector where
  namePrefix : Bytes := []
  delimiter : Bytes := []
  trailing : Bool := false
  start : Bytes := []
  stop : Bytes := []
  glob : Option (Bytes → Bool) := none

structure ChannelRecord where
  id : Bytes
  resourceId : Bytes
  bucket : Bytes
  expiration : Int := 0
  select : NameSelector := {}
  namePrefix : Bytes := []
  versions : Bool := false
  next : Nat := 0
  created : Time := 0

inductive ChannelState where
  | sync | exists | notExists
deriving DecidableEq

structure ChannelMessage where
  channel : Bytes
  number : Nat
  state : ChannelState
  object : Option ObjectRecord
  attempts : Nat := 0
deriving DecidableEq

structure FolderRecord where
  bucket : Bytes
  name : Bytes
  created : Time
  updated : Time
  metageneration : Int
deriving DecidableEq

def FolderRecord.recode (f : FolderRecord) : FolderRecord :=
  { f with bucket := toValid f.bucket, name := toValid f.name }

theorem FolderRecord.recode_recode (f : FolderRecord) : f.recode.recode = f.recode := by
  simp [recode]

def FolderRecord.encode (f : FolderRecord) : Encoded FolderRecord.recode :=
  ⟨f.recode, f.recode_recode⟩

inductive OperationType where
  | renameFolder | deleteFolder | bulkRestoreObjects | other
deriving DecidableEq

structure BulkRestoreCounts where
  restored : Nat := 0
  skipped : Nat := 0
  failed : Nat := 0
deriving DecidableEq

structure OperationRecord where
  bucket : Bytes
  id : Bytes
  type : OperationType
  created : Time
  ended : Time
  source : Bytes := []
  dest : Bytes := []
  folder : Option FolderRecord := none
  restore : Option BulkRestoreCounts := none
deriving DecidableEq

inductive Field (A : Type) where
  | absent
  | null
  | value (a : A)
deriving DecidableEq

inductive RetentionValue where
  | emptyObject
  | config (mode : Option RetentionMode) (text : Bytes) (retainUntil : Option Time)
  | notObject
deriving DecidableEq

structure ProtectionBody where
  temporaryHold : Field (Option Bool) := .absent
  eventBasedHold : Field (Option Bool) := .absent
  retention : Field RetentionValue := .absent
deriving DecidableEq

structure ObjectPreconditions where
  genMatch : Option Int := none
  genNotMatch : Option Int := none
  metaMatch : Option Int := none
  metaNotMatch : Option Int := none
deriving DecidableEq

structure TimeText where
  text : Bytes
  time : Option Time
deriving DecidableEq

structure UploadMeta where
  name : Bytes
  storageClass : Bytes := []
  customTime : Option TimeText := none
  protection : ProtectionBody := {}
  appendable : Bool := false
deriving DecidableEq

def UploadMeta.recode (m : UploadMeta) : UploadMeta :=
  { m with name := toValid m.name, protection := {}, appendable := false }

structure Blob where
  id : Bytes
  size : Nat
  crc32c : UInt32
deriving DecidableEq

structure SessionChunk where
  blob : Bytes
  size : Nat
deriving DecidableEq

structure UploadSession where
  id : Bytes
  bucket : Bytes
  upload : UploadMeta
  query : ObjectPreconditions := {}
  created : Time
  chunks : List SessionChunk := []
  received : Nat := 0
  done : Option ObjectRecord := none
deriving DecidableEq

def UploadSession.recode (u : UploadSession) : UploadSession :=
  { u with
    id := toValid u.id
    bucket := toValid u.bucket
    upload := u.upload.recode
    done := u.done.map ObjectRecord.recode }

theorem UploadSession.recode_recode (u : UploadSession) : u.recode.recode = u.recode := by
  simp only [recode, UploadMeta.recode, toValid_toValid, Option.map_map]
  congr 2
  funext o
  exact o.recode_recode

def UploadSession.encode (u : UploadSession) : Encoded UploadSession.recode :=
  ⟨u.recode, u.recode_recode⟩

structure ObjectBody where
  customTime : Field TimeText := .absent
  protection : ProtectionBody := {}
deriving DecidableEq

structure RewriteState where
  token : Bytes
  source : ObjectRecord
  dstBucket : Bytes
  dstName : Bytes
  body : Option ObjectBody := none
  storageClass : Option StorageClass := none
  done : Nat := 0
  created : Time
  used : Bool := false
deriving DecidableEq

def RewriteState.recode (st : RewriteState) : RewriteState :=
  { st with
    token := toValid st.token
    source := st.source.recode
    dstBucket := toValid st.dstBucket
    dstName := toValid st.dstName }

theorem RewriteState.recode_recode (st : RewriteState) : st.recode.recode = st.recode := by
  simp [recode, ObjectRecord.recode]

def RewriteState.encode (st : RewriteState) : Encoded RewriteState.recode :=
  ⟨st.recode, st.recode_recode⟩

structure MpuPart where
  blob : Bytes
  size : Nat
  md5 : Bytes
  modified : Time
deriving DecidableEq

structure MultipartUpload where
  id : Bytes
  bucket : Bytes
  upload : UploadMeta
  initiated : Time
  parts : List (Nat × MpuPart) := []
deriving DecidableEq

def MultipartUpload.recode (u : MultipartUpload) : MultipartUpload :=
  { u with id := toValid u.id, bucket := toValid u.bucket, upload := u.upload.recode }

theorem MultipartUpload.recode_recode (u : MultipartUpload) : u.recode.recode = u.recode := by
  simp [recode, UploadMeta.recode]

def MultipartUpload.encode (u : MultipartUpload) : Encoded MultipartUpload.recode :=
  ⟨u.recode, u.recode_recode⟩

structure HmacKey where
  accessId : Bytes
  project : Bytes
  secret : Bytes
deriving DecidableEq

structure ManagedFolderRecord where
  bucket : Bytes
  name : Bytes
deriving DecidableEq

structure CacheRecord where
  bucket : Bytes
  id : Bytes
deriving DecidableEq

end CloudBurrow.Storage

import CloudBurrow.Storage.Folders

namespace CloudBurrow.Storage

open Utf8 Transaction

inductive ListMode where
  | live | allVersions | softDeleted
deriving DecidableEq

def listNames (bucket start : Bytes) (mode : ListMode) : Action (List Bytes) :=
  match mode with
  | .softDeleted => namesIn .softdeleted bucket start
  | .live => namesIn .object bucket start
  | .allVersions => do
    let names ← namesIn .object bucket start
    let older ← namesIn .noncurrent bucket start
    pure ((names ++ older.filter fun n => n ∉ names).insertionSort (· ≤ ·))

def listVersions (b : BucketRecord) (name : Bytes) (mode : ListMode) (now : Time) :
    Action (List ObjectRecord) :=
  match mode with
  | .softDeleted => softVersions b name now
  | .live => do
    let o ← getObject b.name name
    pure o.toList
  | .allVersions => do
    let vs ← getNoncurrent b.name name
    let o ← getObject b.name name
    pure (vs ++ o.toList)

structure LifecycleVersion where
  o : ObjectRecord
  live : Bool
  newer : Nat

def day (t : Time) : Time := t / dayLength * dayLength

def days (n : Nat) : Time := Int.bmod (n * dayLength) (2 ^ 64)

def hasAffix (test : Bytes → Bytes → Bool) (name : Bytes) (affixes : Option (List Bytes)) : Bool :=
  affixes.all fun list => list.any fun a => test a name

namespace LifecycleCondition

def agePasses (c : LifecycleCondition) (o : ObjectRecord) (now : Time) : Bool :=
  c.age.all fun n =>
    let due := if n = 0 then day o.created + dayLength else o.created + days n
    !before now due

def «matches» (c : LifecycleCondition) (v : LifecycleVersion) (now : Time) : Bool :=
  c.agePasses v.o now &&
  (c.createdBefore.all fun t => before v.o.created t) &&
  (c.customTimeBefore.all fun t => v.o.customTime ≠ 0 && before (day v.o.customTime) t) &&
  (c.daysSinceCustomTime.all fun n =>
    v.o.customTime ≠ 0 && !before now (v.o.customTime + days n)) &&
  (c.daysSinceNoncurrentTime.all fun n => !v.live && !before now (v.o.deleted + days n)) &&
  (c.noncurrentTimeBefore.all fun t => !v.live && before (day v.o.deleted) t) &&
  (c.isLive.all fun live => live = v.live) &&
  (c.numNewerVersions.all fun n => n ≤ v.newer) &&
  hasAffix List.isPrefixOf v.o.name c.prefixes &&
  hasAffix List.isSuffixOf v.o.name c.suffixes &&
  (c.classes.all fun list => v.o.storageClass.any fun s => s ∈ list) &&
  (c.sizeAbove.all fun n => n < v.o.size) &&
  (c.sizeBelow.all fun n => v.o.size < n)

end LifecycleCondition

def classRank : StorageClass → Nat
  | .archive => 0
  | .coldline => 1
  | .nearline => 2
  | .durableReducedAvailability => 4
  | _ => 3

def optionRank (c : Option StorageClass) : Nat := (c.map classRank).getD 3

structure Decision where
  del : Bool := false
  class? : Option StorageClass := none

def Decision.add (v : LifecycleVersion) (now : Time) (d : Decision) (r : LifecycleRule) : Decision :=
  if !r.condition.matches v now then d
  else match r.action with
    | .delete => { d with del := true }
    | .setStorageClass next =>
      if classRank next < optionRank v.o.storageClass ∧
          d.class?.all fun c => classRank next < classRank c then
        { d with class? := some next }
      else d
    | .abortIncompleteMultipartUpload => d

def decideAction (rules : List LifecycleRule) (v : LifecycleVersion) (now : Time) : Decision :=
  rules.foldl (Decision.add v now) {}

structure LifecycleStep where
  v : LifecycleVersion
  decision : Decision

structure LifecycleResult where
  deleted : Nat := 0
  classChanged : Nat := 0
  guarded : Nat := 0
  aborted : Nat := 0

def lifecycleSteps (rules : List LifecycleRule) (vs : List ObjectRecord)
    (live : Option ObjectRecord) (now : Time) : List LifecycleStep :=
  vs.zipIdx.filterMap fun (o, i) =>
    let v : LifecycleVersion :=
      { o, live := live.any fun l => o.generation = l.generation, newer := vs.length - 1 - i }
    let decision := decideAction rules v now
    if decision.del || decision.class?.isSome then some { v, decision } else none

def expire (b : BucketRecord) (name : Bytes) (now : Time) (o : ObjectRecord) (live : Bool) : Action Unit :=
  if live then retireLive b name now 0
  else do
    deleteVersion o
    removed b o now 0

def applyStep (b : BucketRecord) (name : Bytes) (now : Time) (res : LifecycleResult)
    (st : LifecycleStep) : Action LifecycleResult := do
  let o := st.v.o
  if st.decision.del then
    if (protect b o now (st.v.live && b.versioningEnabled)).isSome then
      pure { res with guarded := res.guarded + 1 }
    else do
      expire b name now o st.v.live
      pure { res with deleted := res.deleted + 1 }
  else do
    putVersion { o with storageClass := st.decision.class?, classUpdated := now } st.v.live
    pure { res with classChanged := res.classChanged + 1 }

def applySteps (b : BucketRecord) (name : Bytes) (now : Time) :
    List LifecycleStep → LifecycleResult → Action LifecycleResult
  | [], res => pure res
  | st :: rest, res => do
    let res ← applyStep b name now res st
    applySteps b name now rest res

def applyToObject (b : BucketRecord) (rules : List LifecycleRule) (now : Time) (name : Bytes)
    (res : LifecycleResult) : Action LifecycleResult := do
  let vs ← listVersions b name .allVersions now
  let live ← getObject b.name name
  applySteps b name now (lifecycleSteps rules vs live now) res

def applyToNames (b : BucketRecord) (rules : List LifecycleRule) (now : Time) :
    List Bytes → LifecycleResult → Action LifecycleResult
  | [], res => pure res
  | name :: names, res => do
    let res ← applyToObject b rules now name res
    applyToNames b rules now names res

def incompleteDue (c : LifecycleCondition) (now : Time) (u : MultipartUpload) : Bool :=
  (c.age.all fun n => !before now (u.initiated + days n)) &&
  hasAffix List.isPrefixOf u.upload.name c.prefixes &&
  hasAffix List.isSuffixOf u.upload.name c.suffixes

def abortUploads (c : LifecycleCondition) (now : Time) : List Bytes → Nat → Action Nat
  | [], n => pure n
  | k :: keys, n => do
    let u : Option (Encoded MultipartUpload.recode) ← Tx.get .mpu k
    if u.any fun u => incompleteDue c now u.val then do
      Tx.delete .mpu k
      abortUploads c now keys (n + 1)
    else abortUploads c now keys n

def abortIncompleteUploads (bucket : Bytes) (now : Time) :
    List LifecycleRule → LifecycleResult → Action LifecycleResult
  | [], res => pure res
  | rule :: rules, res =>
    match rule.action with
    | .abortIncompleteMultipartUpload => do
      let keys ← Tx.list .mpu (objectKey bucket [])
      let n ← abortUploads rule.condition now keys res.aborted
      abortIncompleteUploads bucket now rules { res with aborted := n }
    | _ => abortIncompleteUploads bucket now rules res

def applyToBucket (b : BucketRecord) (now : Time) (res : LifecycleResult) : Action LifecycleResult :=
  if b.lifecycle = [] then pure res
  else do
    let res ← abortIncompleteUploads b.name now b.lifecycle res
    let names ← listNames b.name [] .allVersions
    applyToNames b b.lifecycle now names res

def applyToBuckets (now : Time) : List Bytes → LifecycleResult → Action LifecycleResult
  | [], res => pure res
  | key :: keys, res => do
    match ← getBucket key with
    | none => applyToBuckets now keys res
    | some b =>
      let res ← applyToBucket b now res
      applyToBuckets now keys res

def applyLifecycle (now : Time) : Action LifecycleResult := do
  let keys ← Tx.list .bucket []
  applyToBuckets now keys {}

end CloudBurrow.Storage

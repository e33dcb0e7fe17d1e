import CloudBurrow.Tasks.Queues

namespace CloudBurrow.Secrets

open Utf8
open Tasks (Time)

inductive VersionState where
  | enabled | disabled | destroyed
deriving DecidableEq

structure ReplicaStatus where
  location : Bytes
  kmsKey : Bytes
  keyVersion : Bytes
  wrappedKey : Bytes
deriving DecidableEq

structure Version where
  name : Bytes
  number : Int
  state : VersionState
  created : Time
  destroyed : Time
  scheduledDestroy : Time
  payload : Bytes
  payloadSize : Int
  etag : Time
  replicas : List ReplicaStatus
  clientChecksum : Bool
deriving DecidableEq

def Version.encrypted (v : Version) : Bool := v.replicas.any fun r => !r.kmsKey.isEmpty

inductive Replication where
  | automatic | userManaged
deriving DecidableEq

structure Secret where
  name : Bytes
  created : Time
  labels : List (Bytes × Bytes)
  annotations : List (Bytes × Bytes)
  replication : Replication
  replicaLocations : List Bytes
  kmsKeys : List Bytes
  nextVersion : Int
  etag : Time
  iamPolicy : Option Bytes
  expire : Time
  topics : List Bytes
  nextRotation : Time
  rotationPeriod : Time
  versionDestroyTTL : Time
  scheduledDestroys : Std.ExtTreeMap Int Time

def Secret.expired (s : Secret) (now : Time) : Bool := decide (s.expire ≠ 0 ∧ s.expire ≤ now)

inductive Event where
  | topicConfigured | secretCreate | secretUpdate | secretDelete | secretRotate
  | versionAdd | versionEnable | versionDisable | versionDestroy | versionDestroyScheduled
deriving DecidableEq

inductive DeleteType where
  | requested | expiration
deriving DecidableEq

structure Note where
  topic : Bytes
  event : Event
  secretId : Bytes
  versionId : Bytes
  timestamp : Time
  deleteType : Option DeleteType
deriving DecidableEq

inductive Refusal where
  | emptyProject
  | emptySecretID
  | longSecretID (length : Nat)
  | badSecretID (id : Bytes)
  | expireNotFuture (time : Time)
  | rotationTooSoon (time : Time)
  | rotationTooLate
  | badRotationPeriod (period : Time)
  | periodNeedsNext
  | rotationTopics
  | badDestroyTTL (ttl : Time)
  | locationsNotTaken
  | noReplica
  | emptyLocation
  | badReplication (text : Bytes)
  | keyCount (want given : Nat)
  | badKeyName (name : Bytes)
  | keyNotGlobal (name location : Bytes)
  | keyElsewhere (name location replica : Bytes)
  | noKMS
  | tooManyTopics (given : Nat)
  | badTopic (name : Bytes)
  | topicTwice (name : Bytes)
  | publishFailed (topic : Bytes)
  | alreadyExists (name : Bytes)
  | secretNotFound (name : Bytes)
  | badVersion (text : Bytes)
  | noVersions (name : Bytes)
  | versionNotFound (name : Bytes)
  | notAccessible (name : Bytes) (state : VersionState)
  | notMountable (name : Bytes) (state : VersionState)
  | payloadLost (name : Bytes)
  | alreadyDestroyed (name : Bytes)
  | alreadyScheduled (name : Bytes) (time : Time)
  | emptyPayload
  | longPayload (length : Nat)
  | keyFailed
  | mountNeedsCluster (name : Bytes)
  | negativeAdvance (step : Time)
  | internal
deriving DecidableEq

end CloudBurrow.Secrets

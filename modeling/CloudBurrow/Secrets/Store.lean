import CloudBurrow.Process.Progression
import CloudBurrow.Process.Transaction
import CloudBurrow.Secrets.KubeStore

namespace CloudBurrow.Secrets

open Utf8 Transaction
open Tasks (Time slash second hour)

abbrev SecretMap := Std.ExtTreeMap Bytes Secret

abbrev VersionMap := Std.ExtTreeMap Bytes (Std.ExtTreeMap Int Version)

structure World where
  secrets : SecretMap
  versions : VersionMap
  mounts : Std.ExtTreeMap Bytes (Std.ExtTreeMap Int (Option Bytes))
  time : Time
  published : List Note

namespace World

variable (w : World) (k : Bytes)

def version (n : Int) : Option Version := w.versions[k]?.bind (·[n]?)

def mount (n : Int) : Option (Option Bytes) := w.mounts[k]?.bind (·[n]?)

def putSecret (sec : Secret) : World := { w with secrets := w.secrets.insert k sec }

def putVersion (n : Int) (v : Version) : World :=
  { w with versions := w.versions.insert k ((w.versions[k]?.getD ∅).insert n v) }

def setMount (n : Int) (plaintext : Option Bytes) : World :=
  { w with mounts := w.mounts.insert k ((w.mounts[k]?.getD ∅).insert n plaintext) }

def dropVersion (n : Int) : World := { w with versions := w.versions.modify k (·.erase n) }

def dropSecret : World := { w with secrets := w.secrets.erase k }

def dropRecords : World := { w with secrets := w.secrets.erase k, versions := w.versions.erase k }

def dropMounts : World := { w with mounts := w.mounts.erase k }

end World

structure Session where
  world : World
  ticks : List Nat
  puts : List Bool
  deletes : List Bool
  sends : List Bool

abbrev Act := Txn Session Refusal

def now : Act Time := fun s =>
  let t := s.world.time + s.ticks.headD 0
  (.ok t, { s with world := { s.world with time := t }, ticks := s.ticks.tail })

def put (f : World → World) : Act Unit := fun s =>
  if s.puts.head? = some false then (.error .internal, { s with puts := s.puts.tail })
  else (.ok (), { s with world := f s.world, puts := s.puts.tail })

def delete (f : World → World) : Act Unit := fun s =>
  if s.deletes.head? = some false then (.error .internal, { s with deletes := s.deletes.tail })
  else (.ok (), { s with world := f s.world, deletes := s.deletes.tail })

def publish (notes : List Note) : Act Unit :=
  .write fun s => { s with world := { s.world with published := s.world.published ++ notes } }

def provided (c : Prop) [Decidable c] (m : Act Unit) : Act Unit := if c then m else pure ()

structure Host where
  kube : Bool
deriving DecidableEq

def notify (sec : Secret) (event : Event) (version : Bytes) (deleteType : Option DeleteType) : Act Unit :=
  if sec.topics = [] then pure ()
  else do
    let t ← now
    publish (sec.topics.map fun topic => ⟨topic, event, sec.name, version, t, deleteType⟩)

def deleteSecret (host : Host) (k : Bytes) : Act Unit :=
  if host.kube then do
    delete (·.dropRecords k)
    delete (·.dropMounts k)
  else do
    let versions ← Txn.read fun s => (s.world.versions[k]?.map (·.toList)).getD []
    Txn.forEach versions fun e => delete (·.dropVersion k e.1)
    delete (·.dropSecret k)

def dropMount (host : Host) (k : Bytes) (v : Version) : Act Unit :=
  if host.kube && v.encrypted then do
    match ← Txn.read fun s => s.world.mount k v.number with
    | some (some _) => put (·.setMount k v.number none)
    | _ => pure ()
  else pure ()

def Version.erased (v : Version) (destroyed etag : Time) : Version :=
  { v with
    state := .destroyed, scheduledDestroy := 0, destroyed, payload := [], payloadSize := 0, etag
    replicas := v.replicas.map fun r => { r with wrappedKey := [] } }

def destroyNowQuiet (host : Host) (k : Bytes) (v : Version) : Act Version := do
  let destroyed ← now
  let etag ← now
  let v := v.erased destroyed etag
  put (·.putVersion k v.number v)
  dropMount host k v
  pure v

def soonest (next t : Time) : Time := if t ≠ 0 ∧ (next = 0 ∨ t < next) then t else next

def Secret.rotated (sec : Secret) (t : Time) : Secret :=
  { sec with nextRotation :=
      if h : 0 < sec.rotationPeriod then Progression.stepPast sec.rotationPeriod t h sec.nextRotation
      else 0 }

def destroyDue (host : Host) (k : Bytes) (sec : Secret) (n : Int) : Act Unit := do
  match ← Txn.read fun s => s.world.version k n with
  | none => pure ()
  | some v =>
    if v.scheduledDestroy = 0 ∨ v.state = .destroyed then pure ()
    else do
      let v ← destroyNowQuiet host k v
      notify sec .versionDestroy v.name none

def Secret.scheduled (sec : Secret) : List (Int × Time) :=
  sec.scheduledDestroys.toList.insertionSort fun a b => ascii (toString a.1) ≤ ascii (toString b.1)

def due (host : Host) (k : Bytes) (sec : Secret) (t : Time) : Act Time := do
  let rotates := decide (sec.nextRotation ≠ 0 ∧ sec.nextRotation ≤ t)
  provided rotates (notify sec .secretRotate [] none)
  let sec := if rotates then sec.rotated t else sec
  Txn.forEach sec.scheduled fun e => if t < e.2 then pure () else destroyDue host k sec e.1
  let left := sec.scheduledDestroys.filter fun _ time => decide (t < time)
  provided (rotates || sec.scheduled.any fun e => decide (e.2 ≤ t))
    (put (·.putSecret k { sec with scheduledDestroys := left }))
  pure ((sec.scheduled.filter fun e => decide (t < e.2)).foldl (fun next e => soonest next e.2)
    (soonest 0 sec.nextRotation))

def sweepOver (host : Host) (t : Time) : List Bytes → Time → Act Time
  | [], next => pure next
  | k :: rest, next => do
    match ← Txn.read fun s => s.world.secrets[k]? with
    | none => sweepOver host t rest next
    | some sec =>
      if sec.expire = 0 ∧ sec.nextRotation = 0 ∧ sec.scheduledDestroys.isEmpty then
        sweepOver host t rest next
      else if sec.expired t then do
        deleteSecret host k
        notify sec .secretDelete [] (some .expiration)
        sweepOver host t rest next
      else do
        let later ← due host k sec t
        sweepOver host t rest (soonest (soonest next sec.expire) later)

def sweep (host : Host) : Act Time := do
  let names ← Txn.read fun s => s.world.secrets.keys
  let t ← now
  sweepOver host t names 0

end CloudBurrow.Secrets

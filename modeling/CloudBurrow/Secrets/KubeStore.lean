import CloudBurrow.Secrets.Records

namespace CloudBurrow.Secrets

open Utf8
open Tasks (slash digit)

structure Naming where
  name : Bytes → Bytes
  label : Bytes → Bytes

structure VersionSecret where
  owner : Bytes
  label : Option Bytes
  metadata : Option Version
  data : Option (Option Bytes)
deriving DecidableEq

structure Head where
  owner : Bytes
  label : Option Bytes
  metaJSON : Option Bytes
  data : Std.ExtTreeMap Int (Option Bytes)
  annotated : Std.ExtTreeMap Int (Option Version)

structure Objects where
  head : Option Head
  versions : Std.ExtTreeMap Int VersionSecret

def Objects.nothing : Objects := ⟨none, ∅⟩

def Objects.of (o : Objects) (k : Bytes) : Objects :=
  ⟨o.head.filter (·.owner = k), o.versions.filter fun _ s => s.owner = k⟩

def Objects.owners (o : Objects) : List Bytes := o.head.toList.map Head.owner ++ o.versions.toList.map (·.2.owner)

-- A secret's own Secret is stored under its name, and `name-vN` with it.
abbrev Cluster := Std.ExtTreeMap Bytes Objects

structure CachedSecret where
  metaJSON : Option Bytes
  head : Bool
  legacy : Std.ExtTreeMap Int (Option Bytes)
  versions : Std.ExtTreeMap Int Version

abbrev Cache := Std.ExtTreeMap Bytes CachedSecret

structure Kube where
  cluster : Cluster
  loaded : Bool
  secrets : Cache

def Kube.fresh (c : Cluster) : Kube := ⟨c, false, ∅⟩

def cacheKey (project id : Bytes) : Bytes := project ++ slash :: id

def skipped (k : Bytes) : Bool :=
  k.head? == some slash || k.getLast? == some slash || toValid k != k

def versionValue (metadata : Option Version) (encoded : Option (Option Bytes)) : Option Version :=
  match metadata, encoded with
  | none, _ => none
  | some v, none => some v
  | some _, some none => none
  | some v, some (some payload) => some (if payload = [] then v else { v with payload := payload })

def VersionSecret.value (s : VersionSecret) : Option Version := versionValue s.metadata s.data

def VersionSecret.of (N : Naming) (k : Bytes) (v : Version) : VersionSecret :=
  ⟨toValid k, some (N.label k), some { v with payload := [] }, if v.payload = [] then none else some (some v.payload)⟩

@[simp] theorem VersionSecret.value_of (N : Naming) (k : Bytes) (v : Version) :
    (VersionSecret.of N k v).value = some v := by
  by_cases h : v.payload = []
  · simp only [VersionSecret.value, VersionSecret.of, h, if_pos, versionValue]
    rw [← h]
  · simp [VersionSecret.value, VersionSecret.of, h, versionValue]

def Objects.own (o : Objects) : Std.ExtTreeMap Int Version := o.versions.filterMap fun _ s => s.value

def Head.old (h : Head) : Std.ExtTreeMap Int Version :=
  h.annotated.filterMap fun n metadata => versionValue metadata h.data[n]?

def Head.decodes (h : Head) : Bool :=
  h.annotated.toList.all fun e => (versionValue e.2 h.data[e.1]?).isSome

def Objects.cached (o : Objects) : Option CachedSecret :=
  match o.head with
  | some h => some ⟨h.metaJSON.map toValid, true, h.data, h.old ∪ o.own⟩
  | none => if o.own.isEmpty then none else some ⟨none, false, ∅, o.own⟩

namespace Cluster

variable (N : Naming) (cl : Cluster)

def held (k : Bytes) : Objects := (cl[N.name k]?.getD .nothing).of k

def view (k : Bytes) : Option CachedSecret := if skipped k then none else (cl.held N k).cached

def owners : List Bytes := cl.toList.flatMap fun e => e.2.owners.filter fun k => N.name k = e.1

end Cluster

def readSecrets (N : Naming) (cl : Cluster) : Option Cache :=
  if (cl.owners N).all fun k => skipped k || (cl.held N k).head.all Head.decodes then
    some ((cl.owners N).foldl (fun s k => s.alter k fun _ => cl.view N k) ∅)
  else none

inductive Apply where
  | head (k : Bytes) (metaJSON : Option Bytes) (legacy : Std.ExtTreeMap Int (Option Bytes))
  | version (k : Bytes) (n : Int) (v : Version)

def Apply.key : Apply → Bytes
  | .head k _ _ => k
  | .version k _ _ => k

def Apply.slot (N : Naming) (a : Apply) (o : Objects) : Objects :=
  match a with
  | .head k metaJSON legacy => { o with head := some ⟨toValid k, some (N.label k), metaJSON.map toValid, legacy, ∅⟩ }
  | .version k n v => { o with versions := o.versions.insert n (.of N k v) }

def migrations (k : Bytes) (o : Objects) : List Apply :=
  match o.head with
  | none => []
  | some h =>
    if skipped k || h.annotated.isEmpty then []
    else
      ((h.old.filter fun n _ => !o.own.contains n).toList.map fun e => .version k e.1 e.2) ++
        [.head k (h.metaJSON.map toValid) h.data]

def Objects.headless (o : Objects) : Objects := { o with head := none }

def Objects.less (n : Int) (o : Objects) : Objects := { o with versions := o.versions.erase n }

def Objects.unlabelled (label : Bytes) (o : Objects) : Objects :=
  ⟨o.head.filter (·.label ≠ some label), o.versions.filter fun _ s => s.label ≠ some label⟩

namespace Cluster

variable (N : Naming) (cl : Cluster)

def apply (a : Apply) : Cluster := cl.insert (N.name a.key) (a.slot N (cl[N.name a.key]?.getD .nothing))

def deleteHead (k : Bytes) : Cluster := cl.modify (N.name k) Objects.headless

def deleteVersion (k : Bytes) (n : Int) : Cluster := cl.modify (N.name k) (Objects.less n)

def deleteLabelled (k : Bytes) : Cluster := cl.map fun _ o => o.unlabelled (N.label k)

def listed (rank : Bytes → Nat) : List Bytes :=
  (cl.toList.insertionSort fun a b => rank a.1 ≤ rank b.1).flatMap fun e =>
    (e.2.head.toList.map Head.owner).filter fun k => N.name k = e.1

def migrations (rank : Bytes → Nat) : List Apply :=
  (cl.listed N rank).flatMap fun k => Secrets.migrations k (cl.held N k)

end Cluster

def applyAll (N : Naming) : List Apply → List Bool → Cluster → Bool × Cluster
  | [], _, c => (true, c)
  | a :: as, ok, c => if ok.head? = some false then (false, c) else applyAll N as ok.tail (c.apply N a)

structure Loading where
  ok : List Bool := []
  rank : Bytes → Nat := fun _ => 0

structure Faults where
  load : Loading := {}
  main : Bool := true
  head : Bool := true

namespace Kube

variable (N : Naming) (w : Kube)

def load (l : Loading) : Bool × Kube :=
  if w.loaded then (true, w)
  else if l.ok.head? = some false then (false, w)
  else
    match readSecrets N w.cluster with
    | none => (false, w)
    | some cache =>
      let migrated := applyAll N (w.cluster.migrations N l.rank) l.ok.tail w.cluster
      (migrated.1, ⟨migrated.2, migrated.1, cache⟩)

end Kube

inductive Key where
  | secret (k : Bytes)
  | version (k : Bytes) (n : Int)
deriving DecidableEq

def atoi (text : Bytes) : Option Int :=
  let digits := match text with
    | 43 :: rest => rest
    | 45 :: rest => rest
    | _ => text
  if digits.isEmpty || !digits.all digit then none
  else
    let magnitude : Int := digits.foldl (fun n b => n * 10 + (b.toNat - 48)) 0
    let n := if text.head? = some 45 then -magnitude else magnitude
    if -2 ^ 63 ≤ n ∧ n < 2 ^ 63 then some n else none

def parseKey (key : Bytes) : Option Key :=
  match key.splitOn slash with
  | [kind, project, id] =>
    if kind = ascii "secret" then some (.secret (cacheKey project id)) else none
  | [kind, project, id, number] =>
    if kind = ascii "version" then (atoi number).map (.version (cacheKey project id)) else none
  | _ => none

structure Written where
  raw : Bytes
  decoded : Option Version
deriving DecidableEq

namespace Kube

variable (N : Naming) (w : Kube)

def entry (k : Bytes) : CachedSecret := w.secrets[k]?.getD ⟨none, false, ∅, ∅⟩

def dropLegacy (ok : Bool) (k : Bytes) (c : CachedSecret) (n : Int) : Bool × Kube :=
  if c.legacy.contains n && c.head then
    let c' := { c with legacy := c.legacy.erase n }
    if ok then
      (true, { w with cluster := w.cluster.apply N (.head k c'.metaJSON c'.legacy), secrets := w.secrets.insert k c' })
    else (false, { w with secrets := w.secrets.insert k c' })
  else (true, w)

def putKey (f : Faults) (value : Written) : Key → Bool × Kube
  | .secret k =>
    let c := w.entry k
    let metaJSON := if value.raw = [] then none else some value.raw
    if f.main then
      (true, { w with
        cluster := w.cluster.apply N (.head k metaJSON c.legacy)
        secrets := w.secrets.insert k { c with metaJSON := metaJSON, head := true } })
    else (false, w)
  | .version k n =>
    match value.decoded with
    | none => (false, w)
    | some v =>
      if f.main then
        let c := { w.entry k with versions := (w.entry k).versions.insert n v }
        let w' := { w with
          cluster := w.cluster.apply N (.version k n v)
          secrets := w.secrets.insert k c }
        if v.payload = [] then w'.dropLegacy N f.head k c n else (true, w')
      else (false, w)

def removeVersion (k : Bytes) (c : CachedSecret) (n : Int) : Kube :=
  if c.versions.contains n then
    { w with
      cluster := w.cluster.deleteVersion N k n
      secrets := w.secrets.insert k { c with versions := c.versions.erase n } }
  else w

def deleteKey (f : Faults) : Key → Bool × Kube
  | .secret k =>
    match w.secrets[k]? with
    | none => (true, w)
    | some c =>
      if f.main then
        (true, { w with
          cluster := w.cluster.deleteHead N k
          secrets := if c.versions.isEmpty then w.secrets.erase k
            else w.secrets.insert k { c with metaJSON := none, head := false, legacy := ∅ } })
      else (false, w)
  | .version k n =>
    match w.secrets[k]? with
    | none => (true, w)
    | some c =>
      if c.versions.contains n && !f.main then (false, w)
      else
        let c' := { c with versions := c.versions.erase n }
        match (w.removeVersion N k c n).dropLegacy N f.head k c' n with
        | (false, w'') => (false, w'')
        | (true, w'') =>
          if !c'.head && c'.versions.isEmpty then (true, { w'' with secrets := w''.secrets.erase k })
          else (true, w'')

def deleteRecords (f : Faults) (k : Bytes) : Bool × Kube :=
  if f.main then
    let cluster := w.cluster.deleteLabelled N k
    if f.head then
      (true, { w with cluster := cluster.deleteHead N k, secrets := w.secrets.erase k })
    else (false, { w with cluster := cluster })
  else (false, w)

end Kube

inductive KubeCall where
  | put (key : Bytes) (value : Written)
  | delete (key : Bytes)
  | deleteSecretRecords (project id : Bytes)
deriving DecidableEq

def Kube.call (N : Naming) (f : Faults) (c : KubeCall) (w : Kube) : Bool × Kube :=
  match c with
  | .put key value =>
    match parseKey key with
    | none => (false, w)
    | some k =>
      match w.load N f.load with
      | (false, w) => (false, w)
      | (true, w) => w.putKey N f value k
  | .delete key =>
    match parseKey key with
    | none => (false, w)
    | some k =>
      match w.load N f.load with
      | (false, w) => (false, w)
      | (true, w) => w.deleteKey N f k
  | .deleteSecretRecords project id =>
    match w.load N f.load with
    | (false, w) => (false, w)
    | (true, w) => w.deleteRecords N f (cacheKey project id)

inductive Value where
  | secret (raw : Bytes)
  | version (v : Version)
deriving DecidableEq

def padded (n : Int) : Bytes :=
  let digits := ascii (toString n.natAbs)
  if n < 0 then 45 :: (List.replicate (9 - digits.length) 48 ++ digits)
  else List.replicate (10 - digits.length) 48 ++ digits

def secretKey (k : Bytes) : Bytes := ascii "secret/" ++ k

def versionKey (k : Bytes) (n : Int) : Bytes := ascii "version/" ++ k ++ slash :: padded n

def CachedSecret.visit (c : CachedSecret) (k part : Bytes) : List (Bytes × Value) :=
  ((c.metaJSON.toList.map fun raw => (secretKey k, Value.secret raw)) ++
    c.versions.toList.map fun e => (versionKey k e.1, Value.version e.2)).filter
      fun e => part.isPrefixOf e.1

def Cache.each (s : Cache) (part : Bytes) : List (Bytes × Value) :=
  match part.splitOn slash with
  | [kind, project, id, []] =>
    if kind = ascii "version" then
      (s[cacheKey project id]?).toList.flatMap (·.visit (cacheKey project id) part)
    else s.toList.flatMap fun e => e.2.visit e.1 part
  | _ => s.toList.flatMap fun e => e.2.visit e.1 part

namespace Kube

variable (N : Naming) (w : Kube)

def reads : Option Cache :=
  match w.load N {} with
  | (true, w) => some w.secrets
  | (false, _) => none

def get (key : Bytes) : Option (Option Value) :=
  match parseKey key with
  | none => none
  | some (.secret k) => (w.reads N).map fun s => s[k]?.bind fun c => c.metaJSON.map .secret
  | some (.version k n) => (w.reads N).map fun s => s[k]?.bind fun c => c.versions[n]?.map .version

def list (part : Bytes) : Option (List Bytes) :=
  (w.reads N).map fun s => ((s.each part).map Prod.fst).insertionSort (· ≤ ·)

def scan (part : Bytes) : Option (Std.ExtTreeMap Bytes Value) :=
  (w.reads N).map fun s => (s.each part).foldl (fun m e => m.insert e.1 e.2) ∅

end Kube

end CloudBurrow.Secrets
